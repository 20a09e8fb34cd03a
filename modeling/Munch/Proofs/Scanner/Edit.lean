-- SUMMARY: The operations of actions on scanners and on their tapes: same results, and both go on together.
import Munch.Proofs.Buffer.Cover
import Munch.Proofs.Scanner.Advance
import Munch.Proofs.Scanner.Script

/-! # Editing on tapes

An action sees a scanner at a match, with or without a terminator behind the text. Taking the
terminator away and putting it back does not change a byte of the input, so every operation that
leaves the source alone does to the scanner what `Tape.perform` does to its tape. -/

namespace Munch

namespace Tape

/-- Changes the start condition, if it enters at states. -/
def tryBegin (tape : Tape) (t : Tables) (sc : StartCondition) :
    Except ScanError (Option UInt8) × Tape :=
  match t.entryStates sc with
  | .ok _ => (.ok none, tape.begin sc)
  | .error fault => (.error (.malformed fault), tape)

/-- The result of an operation, and what it makes of the tape. -/
def perform (tape : Tape) (t : Tables) : (edit : Edit) → edit.KeepsSource →
    Except ScanError (Option UInt8) × Tape
  | .input, _ => (.ok tape.pending.head?, tape.input)
  | .unput byte, _ => (.ok none, tape.unput byte)
  | .unputAll bytes, _ => (.ok none, bytes.reverse.foldl unput tape)
  | .less n, _ =>
    if tape.textLength < n then (.error (.lessOutOfRange n tape.textLength), tape)
    else (.ok none, tape.less n)
  | .more, _ => (.ok none, tape.more)
  | .echo, _ => (.ok none, tape.write tape.text)
  | .begin sc, _ => tape.tryBegin t sc
  | .beginNamed name, _ =>
    match t.startCondition? name with
    | some sc => tape.tryBegin t sc
    | none => (.error (.unknownStartCondition name), tape)
  | .write bytes, _ => (.ok none, tape.write bytes)
  | .restart _, h => h.elim

end Tape

namespace Scanner

variable {t : Tables} {tape : Tape} {dropped : Nat} {s : Scanner}

/-! ## Scanners in an action -/

/-- The scanner stands on the tape in an action: at a match, if the terminator is taken away. A
terminator stands at the cursor only. -/
structure InAction (t : Tables) (tape : Tape) (dropped : Nat) (s : Scanner) : Prop where
  atMatch : s.unterminate.AtMatch t tape dropped
  covered : ∀ h ∈ s.covered, h.offset = s.buffer.cursor ∧ s.window.stop = s.buffer.cursor

theorem AtMatch.inAction (h : s.AtMatch t tape dropped) : s.InAction t tape dropped where
  atMatch := by
    rw [unterminate_of_none h.covered_eq]
    exact h
  covered h' hh' := by
    rw [h.covered_eq] at hh'
    cases hh'

/-- Only the bytes of a buffer matter, not the slots behind them. -/
theorem AtMatch.alike (h : s.AtMatch t tape dropped) {buffer : Buffer}
    (hb : s.buffer.Alike buffer) : AtMatch t tape dropped { s with buffer } := by
  refine ⟨⟨h.tables_eq, h.covered_eq, ⟨?_, ?_⟩, ?_, ?_, h.look, h.limit_eq, h.startCondition_eq,
    h.keepText_eq, h.line_eq, h.state_lt, h.bolState_lt⟩, h.unmatched_eq, h.output_eq, h.rule_eq,
    h.start_eq, h.length_eq, h.stop_le, h.fresh⟩
  · exact hb.source_eq ▸ h.steady.source
  · exact hb.settings_eq ▸ h.steady.block
  · show buffer.passed.toList = _
    rw [hb.passed_eq, h.passed_eq]
  · show buffer.pending = _
    rw [← h.pending_eq, Buffer.pending, Buffer.pending, hb.ahead_eq, hb.source_eq]

/-- Putting the terminator behind a text that ends at the cursor. -/
theorem AtMatch.terminate (h : s.AtMatch t tape dropped)
    (hstop : s.window.stop = s.buffer.cursor) : s.terminate.InAction t tape dropped := by
  obtain ⟨hpassed, hnone, hsome⟩ := s.buffer.cover_cursor
  have hterminate : s.terminate = { s with
      covered := (s.buffer.cover s.buffer.cursor).1
      buffer := (s.buffer.cover s.buffer.cursor).2 } := by
    unfold Scanner.terminate
    rw [hstop]
  rw [hterminate]
  cases hcover : (s.buffer.cover s.buffer.cursor).1 with
  | none =>
    have hat := h.alike (hnone hcover)
    rw [show s = { s with covered := none } by rw [← h.covered_eq]] at hat
    exact hat.inAction
  | some c =>
    obtain ⟨hoffset, halike⟩ := hsome c hcover
    constructor
    · have hat := h.alike halike
      rw [show s = { s with covered := none } by rw [← h.covered_eq]] at hat
      exact hat
    · intro c' hc'
      obtain rfl := Option.some.inj (Option.mem_def.1 hc')
      have hcursor : (s.buffer.cover s.buffer.cursor).2.cursor = s.buffer.cursor :=
        congrArg Array.size hpassed
      exact ⟨hoffset.trans hcursor.symm, hstop.trans hcursor.symm⟩

namespace InAction

theorem unterminate_passed (h : s.InAction t tape dropped) :
    s.unterminate.buffer.passed = s.buffer.passed := by
  unfold unterminate
  cases hc : s.covered with
  | none => rfl
  | some c =>
    obtain ⟨hoffset, -⟩ := h.covered c hc
    show (s.buffer.uncover c).passed = s.buffer.passed
    unfold Buffer.uncover
    split
    · rw [hoffset]
      exact (s.buffer.poke_cursor c.byte).1
    · rfl

theorem text_eq (h : s.InAction t tape dropped) : s.text = tape.text := by
  rw [← h.atMatch.text_eq]
  have hcursor : s.unterminate.buffer.cursor = s.buffer.cursor :=
    congrArg Array.size h.unterminate_passed
  have hle := h.atMatch.stop_le_cursor
  unfold Scanner.text
  rw [slice_of_le hle, h.unterminate_passed]
  rw [unterminate_window, hcursor] at *
  exact slice_of_le hle

/-- Changes of fields that have nothing to do with the terminator. -/
theorem map {f : Scanner → Scanner} {tape' : Tape} (h : s.InAction t tape dropped)
    (hf : ∀ s : Scanner, (f s).buffer = s.buffer ∧ (f s).window = s.window ∧
      (f s).covered = s.covered ∧ (f s).unterminate = f s.unterminate)
    (hat : (f s.unterminate).AtMatch t tape' dropped) : (f s).InAction t tape' dropped := by
  obtain ⟨hbuffer, hwindow, hcovered, hcomm⟩ := hf s
  constructor
  · rw [hcomm]
    exact hat
  · rw [hbuffer, hwindow, hcovered]
    exact h.covered

end InAction

/-! ## Input -/

namespace AtMatch

/-- Reading behind the text. -/
theorem reached (h : s.AtMatch t tape dropped) {n : Nat} {buffer : Buffer}
    (hbuffer : s.buffer.Reached (s.buffer.cursor + n) buffer) :
    AtMatch t { tape with
      behind := tape.behind ++ tape.pending.take n
      pending := tape.pending.drop n } dropped { s with buffer } := by
  refine ⟨h.toOnTape.reached hbuffer, h.unmatched_eq, h.output_eq, h.rule_eq, h.start_eq,
    h.length_eq, ?_, h.fresh⟩
  rw [List.length_append]
  exact Nat.le_trans h.stop_le (Nat.le_add_right _ _)

theorem setLine (h : s.AtMatch t tape dropped) (line : Nat) :
    AtMatch t { tape with line } dropped { s with line } :=
  ⟨⟨h.tables_eq, h.covered_eq, h.steady, h.passed_eq, h.pending_eq, h.look, h.limit_eq,
    h.startCondition_eq, h.keepText_eq, rfl, h.state_lt, h.bolState_lt⟩, h.unmatched_eq,
    h.output_eq, h.rule_eq, h.start_eq, h.length_eq, h.stop_le, h.fresh⟩

theorem wrote (h : s.AtMatch t tape dropped) (bytes : List UInt8) :
    (s.wrote bytes).AtMatch t (tape.write bytes) dropped :=
  ⟨⟨h.tables_eq, h.covered_eq, h.steady, h.passed_eq, h.pending_eq, h.look, h.limit_eq,
    h.startCondition_eq, h.keepText_eq, h.line_eq, h.state_lt, h.bolState_lt⟩, h.unmatched_eq,
    (toList_wrote s bytes).trans (congrArg (· ++ bytes) h.output_eq), h.rule_eq, h.start_eq,
    h.length_eq, h.stop_le, h.fresh⟩

theorem more (h : s.AtMatch t tape dropped) :
    AtMatch t tape.more dropped { s with keepText := true } :=
  ⟨⟨h.tables_eq, h.covered_eq, h.steady, h.passed_eq, h.pending_eq, h.look, h.limit_eq,
    h.startCondition_eq, rfl, h.line_eq, h.state_lt, h.bolState_lt⟩, h.unmatched_eq,
    h.output_eq, h.rule_eq, h.start_eq, h.length_eq, h.stop_le, h.fresh⟩

theorem begin (h : s.AtMatch t tape dropped) {sc : StartCondition}
    (hstate : sc.state.toNat < t.stateCount) (hbol : sc.bolState.toNat < t.stateCount) :
    AtMatch t (tape.begin sc) dropped { s with startCondition := sc } :=
  ⟨⟨h.tables_eq, h.covered_eq, h.steady, h.passed_eq, h.pending_eq, h.look, h.limit_eq,
    rfl, h.keepText_eq, h.line_eq, hstate, hbol⟩, h.unmatched_eq,
    h.output_eq, h.rule_eq, h.start_eq, h.length_eq, h.stop_le, h.fresh⟩

end AtMatch

theorem InAction.setLine (h : s.InAction t tape dropped) (line : Nat) :
    InAction t { tape with line } dropped { s with line } := by
  refine h.map (f := fun s => { s with line }) (fun s => ⟨rfl, rfl, rfl, ?_⟩)
    (h.atMatch.setLine line)
  cases hc : s.covered <;> simp only [unterminate, hc]

theorem input_wp (h : s.InAction t tape dropped) : wp input (fun byte s' =>
    byte = tape.pending.head? ∧ s'.InAction t tape.input dropped) s := by
  apply wp.bind
  apply wp.modify
  apply wp.bind
  apply wp.onBuffer
  apply (Buffer.readByte_wp h.atMatch.steady).mono
  intro byte buffer hread
  obtain ⟨hbyte, hreached⟩ := hread
  have hat := h.atMatch.reached hreached
  rw [h.atMatch.pending_eq] at hbyte
  cases hpending : tape.pending with
  | nil =>
    rw [hpending] at hbyte
    subst hbyte
    have htape : tape.input = tape := by
      unfold Tape.input
      rw [hpending]
    have hstay : ({ tape with
        behind := tape.behind ++ tape.pending.take 0
        pending := tape.pending.drop 0 } : Tape) = tape := by
      rw [List.take_zero, List.append_nil, List.drop_zero]
    rw [htape]
    refine .whenThen (.pure (.pure ⟨rfl, ?_⟩))
    exact (hstay ▸ hat : AtMatch t tape dropped _).inAction
  | cons first rest =>
    rw [hpending, List.head?_cons] at hbyte
    subst hbyte
    have htape : tape.input = { tape with
        behind := tape.behind ++ tape.pending.take 1
        pending := tape.pending.drop 1
        line := if first = 10 then tape.line + 1 else tape.line } := by
      unfold Tape.input
      rw [hpending]
      rfl
    have hline := h.atMatch.line_eq
    rw [htape]
    apply wp.whenThen
    by_cases hnewline : first = 10
    · rw [if_pos (congrArg some hnewline), if_pos hnewline]
      refine .modify (.pure ⟨rfl, ?_⟩)
      have hset := hat.setLine (tape.line + 1)
      rw [← hline] at hset ⊢
      exact hset.inAction
    · rw [if_neg (fun heq => hnewline (Option.some.inj heq)), if_neg hnewline]
      exact .pure (.pure ⟨rfl, hat.inAction⟩)

/-! ## Pushing back -/

theorem insert_wp {b : Buffer} (hb : b.Steady) (byte : UInt8) :
    wp (Buffer.insert byte) (fun _ b' => b'.passed = b.passed ∧
      b'.pending = byte :: b.pending ∧ b'.Steady) b := by
  apply wp.bind
  apply wp.get
  apply wp.bind
  apply Buffer.reserve_wp
  intro capacity _
  exact .modify ⟨rfl, rfl, hb.source, hb.block⟩

theorem AtMatch.insert (h : s.AtMatch t tape dropped) {byte : UInt8} {buffer : Buffer}
    (hpassed : buffer.passed = s.buffer.passed)
    (hpending : buffer.pending = byte :: s.buffer.pending)
    (hsteady : buffer.Steady) :
    AtMatch t { tape with pending := byte :: tape.pending } dropped { s with buffer } :=
  ⟨⟨h.tables_eq, h.covered_eq, hsteady, hpassed ▸ h.passed_eq, h.pending_eq ▸ hpending, h.look,
    h.limit_eq, h.startCondition_eq, h.keepText_eq, h.line_eq, h.state_lt, h.bolState_lt⟩,
    h.unmatched_eq, h.output_eq, h.rule_eq, h.start_eq, h.length_eq, h.stop_le, h.fresh⟩

/-- A terminator stands only behind a text that ends at the cursor. -/
theorem InAction.stop_eq (h : s.InAction t tape dropped) (hcovered : s.covered.isSome = true) :
    s.unterminate.window.stop = s.unterminate.buffer.cursor := by
  obtain ⟨c, hc⟩ := Option.isSome_iff_exists.1 hcovered
  have hcursor : s.unterminate.buffer.cursor = s.buffer.cursor :=
    congrArg Array.size h.unterminate_passed
  rw [unterminate_window, hcursor]
  exact (h.covered c hc).2

/-- Putting the terminator back, if it stood there before. -/
theorem AtMatch.reterminate_wp (h : s.AtMatch t tape dropped) {terminated : Bool}
    (hstop : terminated = true → s.window.stop = s.buffer.cursor) :
    wp (if terminated then modify Scanner.terminate else pure PUnit.unit : ScannerM PUnit)
      (fun _ s' => s'.InAction t tape dropped ∧ s'.line = s.line) s := by
  cases terminated with
  | false => exact .pure ⟨h.inAction, rfl⟩
  | true => exact .modify ⟨h.terminate (hstop rfl), rfl⟩

theorem unput_wp (h : s.InAction t tape dropped) (byte : UInt8) :
    wp (unput byte) (fun _ s' => s'.InAction t (tape.unput byte) dropped) s := by
  apply wp.bind
  apply wp.get
  apply wp.bind
  apply wp.modify
  apply wp.bind
  apply wp.onBuffer
  apply (insert_wp h.atMatch.steady byte).mono
  intro _ buffer hinsert
  obtain ⟨hpassed, hpending, hsteady⟩ := hinsert
  have hat := h.atMatch.insert hpassed hpending hsteady
  apply wp.whenThen
  apply (hat.reterminate_wp ?_).mono
  · intro _ s₁ hs₁
    obtain ⟨hin, hline⟩ := hs₁
    have hline' : s₁.line = tape.line := hline.trans h.atMatch.line_eq
    unfold Tape.unput
    split
    · refine .modify ?_
      rw [hline']
      exact hin.setLine _
    · exact .pure hin
  · intro hterminated
    have hcursor : buffer.cursor = s.unterminate.buffer.cursor := congrArg Array.size hpassed
    exact (h.stop_eq hterminated).trans hcursor.symm

theorem unputAll_wp (h : s.InAction t tape dropped) (bytes : List UInt8) :
    wp (unputAll bytes) (fun _ s' =>
      s'.InAction t (bytes.reverse.foldl Tape.unput tape) dropped) s := by
  unfold unputAll
  generalize bytes.reverse = bytes
  induction bytes generalizing tape s with
  | nil => exact .pure h
  | cons byte bytes ih =>
    show wp (unput byte >>= fun _ => bytes.forM unput) _ s
    apply wp.bind
    apply (unput_wp h byte).mono
    intro _ s' hs'
    exact ih hs'

/-! ## Cutting the text -/

/-- The scanner with its text cut to `n` bytes and the rest back ahead. -/
def cut (n : Nat) (s : Scanner) : Scanner :=
  { s with
    line := max (s.line - newlines (s.buffer.slice (s.window.start + n) s.buffer.cursor)) 1
    buffer := s.buffer.seek (s.window.start + n)
    window := s.window.shorten n }

theorem seek_back {b : Buffer} {offset : Nat} (h : offset ≤ b.cursor) :
    (b.seek offset).passed.toList = b.passed.toList.take offset ∧
      (b.seek offset).pending = b.passed.toList.drop offset ++ b.pending ∧
      (b.seek offset).source = b.source ∧ (b.seek offset).settings = b.settings := by
  unfold Buffer.seek
  rw [if_pos h]
  refine ⟨Array.toList_shrink, ?_, rfl, rfl⟩
  have hrest : (b.passed.extract offset b.cursor).toList = b.passed.toList.drop offset := by
    rw [Array.toList_extract, List.extract_eq_take_drop]
    apply List.take_of_length_le
    apply Nat.le_of_eq
    rw [List.length_drop, Array.length_toList]
    rfl
  simp only [Buffer.pending, hrest, List.append_assoc]

/-- A text without a kept prefix can be cut to nothing: the byte before it is at hand. -/
theorem AtMatch.cut (h : s.AtMatch t tape dropped) {n : Nat} (hn : n ≤ tape.textLength)
    (hzero : n = 0 → tape.prefixed = false) :
    (s.cut n).AtMatch t (tape.less n) dropped ∧ (s.cut n).window.stop = (s.cut n).buffer.cursor := by
  have hstart := h.start_eq
  have hstop := h.stop_le
  have hcursor := h.cursor_add
  have hle : s.window.start + n ≤ s.buffer.cursor := by omega
  obtain ⟨hpassed, hpending, hsource, hsettings⟩ := seek_back hle
  have htake : (tape.behind.take (tape.textStart + n)).length = tape.textStart + n := by
    rw [List.length_take]
    exact Nat.min_eq_left (Nat.le_trans (Nat.add_le_add_left hn _) hstop)
  have hshift : s.window.start + n + dropped = tape.textStart + n := by omega
  refine ⟨⟨⟨h.tables_eq, h.covered_eq, ⟨?_, ?_⟩, ?_, ?_, ?_, h.limit_eq, h.startCondition_eq,
    h.keepText_eq, ?_, h.state_lt, h.bolState_lt⟩, h.unmatched_eq, h.output_eq, h.rule_eq, hstart,
    ?_, ?_, h.fresh⟩, ?_⟩
  · exact hsource ▸ h.steady.source
  · exact hsettings ▸ h.steady.block
  · show (s.buffer.seek (s.window.start + n)).passed.toList = _
    rw [hpassed, h.passed_eq, List.take_drop, Nat.add_comm dropped, hshift]
    rfl
  · show (s.buffer.seek (s.window.start + n)).pending = _
    rw [hpending, h.passed_eq, h.pending_eq, List.drop_drop, Nat.add_comm dropped, hshift]
    rfl
  · show dropped = 0 ∨ dropped < (tape.behind.take (tape.textStart + n)).length
    rw [htake]
    rcases Nat.eq_zero_or_pos n with hnil | hpos
    · rw [hnil, Nat.add_zero]
      exact h.fresh (hzero hnil)
    · exact .inr (by omega)
  · show max (s.line - newlines (s.buffer.slice (s.window.start + n) s.buffer.cursor)) 1 =
      max (tape.line - newlines (tape.behind.drop (tape.textStart + n))) 1
    have hrest : (tape.behind.drop (tape.textStart + n)).length ≤
        s.buffer.cursor - (s.window.start + n) := by
      rw [List.length_drop]
      omega
    rw [h.slice_eq _ (Nat.le_refl _), hshift, List.take_of_length_le hrest, h.line_eq]
  · show min s.window.length n = min tape.textLength n
    rw [h.length_eq]
  · show tape.textStart + min tape.textLength n ≤ (tape.behind.take (tape.textStart + n)).length
    rw [htake]
    exact Nat.add_le_add_left (Nat.min_le_right _ _) _
  · show s.window.start + min s.window.length n = (s.buffer.seek (s.window.start + n)).cursor
    rw [h.length_eq, Nat.min_eq_right hn, Buffer.cursor_seek, Nat.min_eq_left]
    exact Nat.le_trans hle s.buffer.cursor_le_filled

/-- Taking the terminator away, cutting, and putting the terminator back if it stood there. -/
theorem less_eq {n : Nat} (hn : n ≤ s.window.length) : less n s =
    (if s.covered.isSome then modify terminate else pure ⟨⟩ : ScannerM PUnit)
      (s.unterminate.cut n) := by
  simp only [less, Bind.bind, EStateM.bind, get_apply, modify_apply, Nat.not_lt.2 hn, if_false]
  rfl

theorem less_eq_error {n : Nat} (hn : s.window.length < n) :
    less n s = .error (.lessOutOfRange n s.window.length) s := by
  simp only [less, Bind.bind, EStateM.bind, get_apply, hn, if_true, throw_apply]

theorem less_wp (h : s.InAction t tape dropped) {n : Nat} (hn : n ≤ tape.textLength)
    (hzero : n = 0 → tape.prefixed = false) :
    wp (less n) (fun _ s' => s'.InAction t (tape.less n) dropped) s := by
  obtain ⟨hat, hstop⟩ := h.atMatch.cut hn hzero
  have hlength : s.window.length = tape.textLength := by
    rw [← h.atMatch.length_eq, unterminate_window]
  unfold wp
  rw [less_eq (hlength ▸ hn)]
  exact (hat.reterminate_wp fun _ => hstop).mono fun _ s' hs' => hs'.1

/-! ## Text, output and modes -/

theorem InAction.wrote (h : s.InAction t tape dropped) (bytes : List UInt8) :
    (s.wrote bytes).InAction t (tape.write bytes) dropped := by
  refine h.map (f := fun s => s.wrote bytes) (fun s => ⟨rfl, rfl, rfl, ?_⟩) (h.atMatch.wrote bytes)
  cases hc : s.covered <;> simp only [unterminate, Scanner.wrote, hc]

theorem InAction.write_wp (h : s.InAction t tape dropped) (bytes : List UInt8) :
    wp (write bytes) (fun _ s' => s'.InAction t (tape.write bytes) dropped) s := by
  have hlimit : s.output.limit = none := unterminate_output s ▸ h.atMatch.limit_eq
  apply (Scanner.write_wp hlimit bytes).mono
  intro _ s' hs'
  exact hs' ▸ h.wrote bytes

theorem echo_wp (h : s.InAction t tape dropped) :
    wp echo (fun _ s' => s'.InAction t (tape.write tape.text) dropped) s := by
  apply wp.bind
  apply wp.get
  rw [h.text_eq]
  exact h.write_wp tape.text

theorem more_wp (h : s.InAction t tape dropped) :
    wp more (fun _ s' => s'.InAction t tape.more dropped) s := by
  apply wp.modify
  refine h.map (f := fun s => { s with keepText := true }) (fun s => ⟨rfl, rfl, rfl, ?_⟩)
    h.atMatch.more
  cases hc : s.covered <;> simp only [unterminate, hc]

theorem begin_wp (h : s.InAction t tape dropped) {sc : StartCondition} {entries : State × State}
    (hentries : t.entryStates sc = .ok entries) :
    wp (begin sc) (fun _ s' => s'.InAction t (tape.begin sc) dropped) s := by
  have htables : s.tables = t := unterminate_tables s ▸ h.atMatch.tables_eq
  have hstates := t.entryStates_lt hentries
  apply wp.bind
  apply wp.get
  apply wp.bind
  apply wp.liftFault (htables ▸ hentries)
  apply wp.modify
  refine h.map (f := fun s => { s with startCondition := sc }) (fun s => ⟨rfl, rfl, rfl, ?_⟩)
    (h.atMatch.begin hstates.1 hstates.2)
  cases hc : s.covered <;> simp only [unterminate, hc]

theorem begin_eq_error {sc : StartCondition} {fault : TableFault}
    (h : s.tables.entryStates sc = .error fault) : begin sc s = .error (.malformed fault) s := by
  simp only [begin, Bind.bind, EStateM.bind, get_apply, h]
  rfl

/-! ## Operations as data -/

/-- A computation ends as an operation on the tape does, unless memory runs out. -/
def Mirrors (t : Tables) (dropped : Nat) (outcome : Except ScanError (Option UInt8) × Tape) :
    EStateM.Result ScanError Scanner (Option UInt8) → Prop
  | .ok byte s => outcome.1 = .ok byte ∧ s.InAction t outcome.2 dropped
  | .error e s => (∃ n, e = .allocation n) ∨ outcome.1 = .error e ∧ s.InAction t outcome.2 dropped

namespace Mirrors

theorem silently {m : ScannerM Unit} {tape' : Tape}
    (h : wp m (fun _ s' => s'.InAction t tape' dropped) s) :
    Mirrors t dropped (.ok none, tape') (silently m s) := by
  unfold wp at h
  simp only [Munch.silently, Bind.bind, EStateM.bind]
  cases hm : m s with
  | ok u s' =>
    rw [hm] at h
    exact ⟨rfl, h⟩
  | error e s' =>
    rw [hm] at h
    exact .inl h

theorem silently_error {m : ScannerM Unit} {e : ScanError} (hm : m s = .error e s)
    (h : s.InAction t tape dropped) : Mirrors t dropped (.error e, tape) (Munch.silently m s) := by
  simp only [Munch.silently, Bind.bind, EStateM.bind, hm]
  exact .inr ⟨rfl, h⟩

theorem begin (h : s.InAction t tape dropped) (sc : StartCondition) :
    Mirrors t dropped (tape.tryBegin t sc) (Munch.silently (Scanner.begin sc) s) := by
  have htables : s.tables = t := unterminate_tables s ▸ h.atMatch.tables_eq
  unfold Tape.tryBegin
  cases hentries : t.entryStates sc with
  | ok entries => exact silently (begin_wp h hentries)
  | error fault => exact silently_error (begin_eq_error (htables ▸ hentries)) h

end Mirrors

/-- Every operation that goes on with the same source does to a scanner in an action what it does to
its tape. Only the text that follows a kept prefix must not be cut away with that prefix. -/
theorem perform_mirrors (h : s.InAction t tape dropped) (edit : Edit) (hkeeps : edit.KeepsSource)
    (hless : edit = .less 0 → tape.prefixed = false) :
    Mirrors t dropped (tape.perform t edit hkeeps) (edit.perform s) := by
  have htables : s.tables = t := unterminate_tables s ▸ h.atMatch.tables_eq
  cases edit with
  | input =>
    have hinput := input_wp h
    unfold wp at hinput
    show Mirrors t dropped _ (Scanner.input s)
    cases hm : Scanner.input s with
    | ok byte s' =>
      rw [hm] at hinput
      exact ⟨congrArg Except.ok hinput.1.symm, hinput.2⟩
    | error e s' =>
      rw [hm] at hinput
      exact .inl hinput
  | unput byte => exact .silently (unput_wp h byte)
  | unputAll bytes => exact .silently (unputAll_wp h bytes)
  | less n =>
    have hlength : s.window.length = tape.textLength := by
      rw [← h.atMatch.length_eq, unterminate_window]
    simp only [Tape.perform]
    split
    · rename_i hlt
      rw [← hlength] at hlt ⊢
      exact .silently_error (less_eq_error hlt) h
    · rename_i hle
      refine .silently (less_wp h (Nat.le_of_not_lt hle) fun hzero => hless ?_)
      rw [hzero]
  | more => exact .silently (more_wp h)
  | echo => exact .silently (echo_wp h)
  | begin sc => exact .begin h sc
  | beginNamed name =>
    simp only [Tape.perform]
    cases hname : t.startCondition? name with
    | some sc =>
      have hnamed : Scanner.beginNamed name s = Scanner.begin sc s := by
        simp only [Scanner.beginNamed, Bind.bind, EStateM.bind, get_apply, htables, hname]
      have hperform : (Edit.beginNamed name).perform s = silently (Scanner.begin sc) s := by
        simp only [Edit.perform, silently, Bind.bind, EStateM.bind, hnamed]
      rw [hperform]
      exact .begin h sc
    | none =>
      refine .silently_error ?_ h
      simp only [Scanner.beginNamed, Bind.bind, EStateM.bind, get_apply, htables, hname, throw_apply]
  | write bytes => exact .silently (h.write_wp bytes)
  | restart source => exact hkeeps.elim

end Scanner

end Munch
