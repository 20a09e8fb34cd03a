-- SUMMARY: In an action, operations are list operations on the text, the bytes read behind it and the pending input.
import Munch.Proofs.Scanner.Invariant

/-! # Pending input

An action sees the text of its match, has read some bytes behind it and has the rest of the input
before it. Each operation takes a terminator away and may put it back, and the buffer may grow or be
refilled; all this leaves the three lists alone, but for what the operation says. -/

namespace Munch

namespace Scanner

variable {t : Tables} {settings : BufferSettings} {s s' : Scanner}

/-! ## Terminators -/

/-- The same text and the same bytes behind it, before the same pending input. -/
structure SameInput (s s' : Scanner) : Prop where
  passed_eq : s'.buffer.passed = s.buffer.passed
  window_eq : s'.window = s.window
  pending_eq : s'.pending = s.pending

theorem pending_of_uncovered (h : s.covered = none) : s.pending = s.buffer.pending := by
  simp [pending, h]

theorem Coherent.sameInput_unterminate (h : s.Coherent t settings) :
    s.SameInput s.unterminate := by
  refine ⟨?_, unterminate_window s, ?_⟩
  · obtain ⟨ahead, stale, -, heq⟩ := h.unterminate_eq
    rw [heq]
  · rw [pending_of_uncovered (covered_unterminate s), pending_eq s]

theorem sameInput_terminate (hcovered : s.covered = none) (hstop : s.window.stop = s.buffer.cursor) :
    s.SameInput s.terminate := by
  obtain ⟨stale, heq⟩ := unterminate_terminate hcovered hstop
  have hpassed : s.terminate.buffer.passed = s.buffer.passed := by
    simp only [terminate, hstop]
    exact s.buffer.cover_cursor.1
  refine ⟨hpassed, rfl, ?_⟩
  rw [pending_eq s.terminate, heq, pending_of_uncovered hcovered]
  rfl

/-! ## Operations -/

/-- What a successful read adds to the passed bytes is gone from the pending ones. -/
theorem passed_of_read {b b' : Buffer} {byte : Option UInt8}
    (hread : Buffer.readByte b = .ok byte b')
    (hprobed : Buffer.Probed b b' ∧ b'.cursor = b.cursor + byte.toList.length) :
    b'.passed.toList = b.passed.toList ++ byte.toList ∧
      b'.pending = b.pending.drop byte.toList.length := by
  have hstream := hprobed.1.toExtends.stream_eq
  constructor
  · cases byte with
    | some x => rw [Buffer.passed_of_readByte hread, Array.toList_push]; rfl
    | none =>
      rw [Buffer.passed_eq_take b', hstream, hprobed.2, Buffer.passed_eq_take b]
      simp
  · rw [Buffer.pending_eq_drop b', hstream, hprobed.2, Buffer.pending_eq_drop b, List.drop_drop]

/-- Reading takes a byte from the front of the pending input, the next one if the source is steady. A
read that fails leaves the text and the bytes behind it. -/
theorem input_ends (h : s.Coherent t settings) :
    ends input
      (fun byte s' => s'.window = s.window ∧
        s'.buffer.passed.toList = s.buffer.passed.toList ++ byte.toList ∧
        s'.pending = s.pending.drop byte.toList.length ∧
        (s.buffer.source.steady = true → byte = s.pending.head?))
      (fun _ s' => s'.window = s.window ∧ s'.buffer.passed = s.buffer.passed) s := by
  have hbare := h.unterminate.coherent
  have hsame := h.sameInput_unterminate
  have hpending := s.pending_eq
  have hsource : s.unterminate.buffer.source = s.buffer.source := by
    obtain ⟨ahead, stale, -, heq⟩ := h.unterminate_eq
    rw [heq]
  refine .bind (.modify (.bind (.onBuffer (.of_result (fun byte buffer hread => ?_)
    fun e buffer hread => ?_))))
  · obtain ⟨hpassed, hrest⟩ :=
      passed_of_read hread ((Buffer.readByte_probed hbare.roomy).ok hread)
    have hnext : s.buffer.source.steady = true → byte = s.pending.head? := by
      intro hsteady
      have hwp := Buffer.readByte_wp (b := s.unterminate.buffer)
        ⟨hsource ▸ hsteady, hbare.roomy.block_pos⟩
      rw [wp, hread] at hwp
      exact hpending.symm ▸ hwp.1
    have hshown (line : Nat) : Scanner.pending { s.unterminate with buffer, line } =
        s.pending.drop byte.toList.length := by
      have hcovered : ({ s.unterminate with buffer, line } : Scanner).covered = none :=
        covered_unterminate s
      rw [pending_of_uncovered hcovered, hpending]
      exact hrest
    rw [hsame.passed_eq] at hpassed
    refine .whenThen ?_
    split
    · exact .modify (.pure ⟨hsame.window_eq, hpassed, hshown _, hnext⟩)
    · exact .pure (.pure ⟨hsame.window_eq, hpassed, hshown s.unterminate.line, hnext⟩)
  · have hfailed := (Buffer.readByte_ends hbare.roomy).error hread
    have hextends := final_of_error hread ▸ Buffer.readByte_extends s.unterminate.buffer
    refine ⟨hsame.window_eq, ?_⟩
    rw [← hsame.passed_eq, ← Array.toList_inj, Buffer.passed_eq_take buffer, hextends.stream_eq,
      hfailed.2.2, ← Buffer.passed_eq_take]

/-- Putting the terminator back, if it stood there before, changes nothing of the input. -/
theorem reterminate_sameInput {terminated : Bool} (hcovered : s.covered = none)
    (hstop : terminated = true → s.window.stop = s.buffer.cursor)
    {E : ScanError → Scanner → Prop} :
    ends (if terminated then modify terminate else pure ⟨⟩ : ScannerM PUnit)
      (fun _ s' => s.SameInput s') E s := by
  cases terminated with
  | false => exact .pure ⟨rfl, rfl, rfl⟩
  | true => exact .modify (sameInput_terminate hcovered (hstop rfl))

/-- Pushing a byte back puts it in front of the pending input, or changes nothing. -/
theorem unput_ends (h : s.Coherent t settings) (byte : UInt8) :
    ends (unput byte)
      (fun _ s' => s'.buffer.passed = s.buffer.passed ∧ s'.window = s.window ∧
        s'.pending = byte :: s.pending)
      (fun _ s' => s.SameInput s') s := by
  have hbare := h.unterminate.coherent
  have hsame := h.sameInput_unterminate
  have hnone := covered_unterminate s
  refine .bind (.get (.bind (.modify (.bind (.onBuffer ?_)))))
  refine (Buffer.insert_ends hbare.roomy byte).mono (fun _ buffer hinsert => ?_)
    fun e buffer hinsert => ?_
  · obtain ⟨-, -, capacity, stale, rfl⟩ := hinsert
    refine .whenThen (.mono (reterminate_sameInput ?_ ?_) (fun _ s₁ h₁ => ?_) fun _ _ => id)
    · exact hnone
    · exact fun hsome => (h.behindMatch hsome).1
    have hpending : s₁.pending = byte :: s.pending := by
      rw [h₁.pending_eq, s.pending_eq]
      exact pending_of_uncovered hnone
    have hpassed := h₁.passed_eq.trans hsame.passed_eq
    have hwindow := h₁.window_eq.trans hsame.window_eq
    split
    · exact .modify ⟨hpassed, hwindow, hpending⟩
    · exact .pure ⟨hpassed, hwindow, hpending⟩
  · rw [hinsert.2]
    exact hsame

/-- The newline of a byte that is pushed back is not counted any more. -/
theorem unput_line (hline : 1 ≤ s.line) (byte : UInt8) :
    ends (unput byte) (fun _ s' => s'.line = max (s.line - newlines [byte]) 1)
      (fun _ s' => s'.line = s.line) s := by
  refine .bind (.get (.bind (.modify (.bind (.onBuffer (.of_result (fun _ buffer _ => ?_)
    fun _ buffer _ => s.unterminate_line))))))
  have hreterminated : ends (if s.covered.isSome then modify terminate else pure ⟨⟩ : ScannerM PUnit)
      (fun _ s' => s'.line = s.line) (fun _ s' => s'.line = s.line)
      { s.unterminate with buffer } := by
    split
    · exact .modify s.unterminate_line
    · exact .pure s.unterminate_line
  refine .whenThen (hreterminated.mono (fun _ s₁ h₁ => ?_) fun _ s₁ h₁ => h₁)
  split
  · rename_i hnewline
    subst hnewline
    exact .modify (congrArg (fun line => max (line - 1) 1) h₁)
  · rename_i hother
    refine .pure (h₁.trans ?_)
    simp [newlines, hother, hline]

/-- Cutting the text gives the rest of it back, and what was read behind it. -/
theorem less_ends (h : s.Coherent t settings) {n : Nat} (hn : n ≤ s.window.length) :
    ends (less n)
      (fun _ s' => s'.buffer.passed.toList = s.buffer.passed.toList.take (s.window.start + n) ∧
        s'.window = ⟨s.window.start, n⟩ ∧
        s'.pending = s.buffer.passed.toList.drop (s.window.start + n) ++ s.pending)
      (fun _ _ => False) s := by
  have hbare := h.unterminate.coherent
  have hsame := h.sameInput_unterminate
  have hnone := covered_unterminate s
  have hn' : n ≤ s.unterminate.window.length := hsame.window_eq ▸ hn
  obtain ⟨hcut, hstop⟩ := hbare.cut hnone hn'
  have hback : s.unterminate.window.start + n ≤ s.unterminate.buffer.cursor := by
    have hle := hbare.stop_le
    simp only [Window.stop] at hle
    omega
  obtain ⟨hpassed, hpending, -, -⟩ := seek_back hback
  refine .congr (less_eq hn) ((reterminate_sameInput (hcut.covered hnone) fun _ => hstop).mono
    (fun _ s₁ h₁ => ?_) fun _ _ => id)
  refine ⟨?_, h₁.window_eq.trans ?_, h₁.pending_eq.trans ?_⟩
  · rw [h₁.passed_eq, ← hsame.passed_eq, ← hsame.window_eq]
    exact hpassed
  · rw [← hsame.window_eq]
    simp only [Scanner.cut, Window.shorten, Nat.min_eq_right hn']
  · rw [pending_of_uncovered (hcut.covered hnone), s.pending_eq, ← hsame.passed_eq,
      ← hsame.window_eq]
    exact hpending

/-- Some bytes were pushed back and their newlines are not counted any more. -/
structure PutBack (s s' : Scanner) : Prop where
  passed_eq : s'.buffer.passed = s.buffer.passed
  window_eq : s'.window = s.window
  given : ∃ given, s'.pending = given ++ s.pending ∧ s'.line = max (s.line - newlines given) 1

theorem PutBack.trans {s'' : Scanner} (h : s.PutBack s') (h' : s'.PutBack s'') : s.PutBack s'' := by
  obtain ⟨given, hpending, hline⟩ := h.given
  obtain ⟨more, hpending', hline'⟩ := h'.given
  refine ⟨h'.passed_eq.trans h.passed_eq, h'.window_eq.trans h.window_eq, more ++ given, ?_, ?_⟩
  · rw [hpending', hpending, List.append_assoc]
  · rw [hline', hline, newlines, newlines, newlines, List.count_append]
    omega

theorem SameInput.putBack (h : s.SameInput s') (hpos : 1 ≤ s.line) (hline : s'.line = s.line) :
    s.PutBack s' :=
  ⟨h.passed_eq, h.window_eq, [], h.pending_eq, hline.trans (Nat.max_eq_left hpos).symm⟩

/-- Pushing bytes back, all of them or those before a failure, leaves what was passed. -/
theorem forM_unput_ends (h : s.Coherent t settings) (bytes : List UInt8) :
    ends (bytes.forM unput) (fun _ s' => s.PutBack s') (fun _ s' => s.PutBack s') s := by
  induction bytes generalizing s with
  | nil => exact .pure (SameInput.putBack ⟨rfl, rfl, rfl⟩ h.line_pos rfl)
  | cons byte bytes ih =>
    show ends (unput byte >>= fun _ => bytes.forM unput) _ _ s
    refine .bind (((unput_upholds h byte).and ((unput_ends h byte).and
      (unput_line h.line_pos byte))).mono (fun _ s₁ h₁ => ?_)
        fun _ _ h₁ => h₁.2.1.putBack h.line_pos h₁.2.2)
    have hfirst : s.PutBack s₁ := ⟨h₁.2.1.1, h₁.2.1.2.1, [byte], h₁.2.1.2.2, h₁.2.2⟩
    exact (ih h₁.1.coherent).mono (fun _ _ => hfirst.trans) fun _ _ => hfirst.trans

theorem unputAll_ends (h : s.Coherent t settings) (bytes : List UInt8) :
    ends (unputAll bytes) (fun _ s' => s.PutBack s') (fun _ s' => s.PutBack s') s :=
  forM_unput_ends h bytes.reverse

end Scanner

/-- The operation concerns the output or the mode, not the input. -/
def Edit.KeepsInput : Edit → Prop
  | .more => True
  | .echo => True
  | .begin _ => True
  | .beginNamed _ => True
  | .write _ => True
  | _ => False

open Scanner

variable {t : Tables} {settings : BufferSettings} {s s' : Scanner}

theorem Edit.KeepsInput.keepsSource {edit : Edit} (h : edit.KeepsInput) : edit.KeepsSource := by
  cases edit <;> first | exact trivial | exact h

theorem silently_ends {m : ScannerM Unit} {Q : Scanner → Prop} {E : ScanError → Scanner → Prop}
    (h : ends m (fun _ => Q) E s) : ends (silently m) (fun _ => Q) E s :=
  .bind (h.mono (fun _ _ h => .pure h) fun _ _ => id)

/-- The operation asks the next match to keep the text. -/
def Edit.asks : Edit → Bool
  | .more => true
  | _ => false

/-- Only the output and the start condition are others, and the text may be asked to be kept. -/
def Scanner.Retouched (s : Scanner) (asks : Bool) (s' : Scanner) : Prop :=
  ∃ output startCondition, s' = { s with output, startCondition, keepText := s.keepText || asks }

theorem Scanner.retouched (s : Scanner) (output : Sink) (startCondition : StartCondition) :
    s.Retouched false { s with output, startCondition } :=
  ⟨output, startCondition, by rw [Bool.or_false]⟩

/-- An operation on the output or the mode changes nothing else. -/
theorem Edit.KeepsInput.perform_retouched {edit : Edit} (h : edit.KeepsInput) (s : Scanner) :
    ends edit.perform (fun _ => s.Retouched edit.asks) (fun _ => s.Retouched edit.asks) s := by
  have hwrite (bytes : List UInt8) :
      ends (Scanner.write bytes) (fun _ => s.Retouched false) (fun _ => s.Retouched false) s := by
    refine (write_ends bytes s).mono (fun _ s' hs' => ?_) fun _ s' hs' => ?_
    · obtain ⟨output, rfl⟩ := hs'
      exact s.retouched output s.startCondition
    · obtain ⟨⟨output, rfl⟩, -⟩ := hs'
      exact s.retouched output s.startCondition
  have hbegin (sc : StartCondition) :
      ends (Scanner.begin sc) (fun _ => s.Retouched false) (fun _ => s.Retouched false) s := by
    cases hentries : s.tables.entryStates sc with
    | error fault => exact .of_error (begin_eq_error hentries) (s.retouched s.output s.startCondition)
    | ok entries => exact .bind (.get (.bind (.liftFault hentries (.modify (s.retouched s.output sc)))))
  cases edit with
  | more => exact silently_ends (.modify ⟨s.output, s.startCondition, by rw [asks, Bool.or_true]⟩)
  | echo => exact silently_ends (.bind (.get (hwrite s.text)))
  | begin sc => exact silently_ends (hbegin sc)
  | beginNamed name =>
    refine silently_ends (.bind (.get ?_))
    split
    · exact hbegin _
    · exact .throw (s.retouched s.output s.startCondition)
  | write bytes => exact silently_ends (hwrite bytes)
  | input => exact h.elim
  | unput byte => exact h.elim
  | unputAll bytes => exact h.elim
  | less n => exact h.elim
  | restart source => exact h.elim

theorem Edit.KeepsInput.perform_ends {edit : Edit} (h : edit.KeepsInput) (s : Scanner) :
    ends edit.perform (fun _ => s.SameInput) (fun _ => s.SameInput) s :=
  (h.perform_retouched s).mono (fun _ _ ⟨_, _, heq⟩ => heq ▸ ⟨rfl, rfl, rfl⟩)
    fun _ _ ⟨_, _, heq⟩ => heq ▸ ⟨rfl, rfl, rfl⟩

/-! ## Edited scanners -/

/-- The bytes read behind the text and not given back, after an operation with a result. -/
def Edit.behind (result : Option UInt8) (behind : List UInt8) : Edit → List UInt8
  | .input => behind ++ result.toList
  | .less _ => []
  | _ => behind

theorem Edit.KeepsInput.behind_eq {edit : Edit} (h : edit.KeepsInput) (result : Option UInt8)
    (behind : List UInt8) : edit.behind result behind = behind := by
  cases edit <;> first | rfl | exact h.elim

/-- The scanner is reached from that at the beginning of an action by operations that go on with the
same source, successful or not. `behind` are the bytes that they have read behind the text and not
given back. -/
inductive Scanner.Edited (start : Scanner) : Scanner → List UInt8 → Prop where
  | enter : Edited start start []
  | done {s s' : Scanner} {behind : List UInt8} {edit : Edit} {result : Option UInt8} :
      Edited start s behind → edit.KeepsSource → edit.perform s = .ok result s' →
      Edited start s' (edit.behind result behind)
  | failed {s s' : Scanner} {behind : List UInt8} {edit : Edit} {e : ScanError} :
      Edited start s behind → edit.KeepsSource → edit.perform s = .error e s' →
      Edited start s' behind

/-- Some bytes lie between the end of the text and the cursor. -/
def Scanner.Behind (s : Scanner) (behind : List UInt8) : Prop :=
  s.buffer.passed.toList.drop s.window.stop = behind

theorem Scanner.Behind.congr {behind : List UInt8} (h : s.Behind behind)
    (hpassed : s'.buffer.passed = s.buffer.passed) (hwindow : s'.window = s.window) :
    s'.Behind behind := by
  rw [Behind, hpassed, hwindow]
  exact h

theorem Edit.KeepsInput.perform_behind {edit : Edit} (h : edit.KeepsInput)
    {behind : List UInt8} (hbehind : s.Behind behind) :
    ends edit.perform (fun _ s' => s'.Behind behind) (fun _ s' => s'.Behind behind) s :=
  (h.perform_ends s).mono (fun _ _ h' => hbehind.congr h'.passed_eq h'.window_eq)
    fun _ _ h' => hbehind.congr h'.passed_eq h'.window_eq

/-- Every operation on the same source changes the bytes behind the text as it should. -/
theorem Edit.perform_behind {edit : Edit} (hkeeps : edit.KeepsSource) (h : s.Coherent t settings)
    {behind : List UInt8} (hbehind : s.Behind behind) :
    ends edit.perform (fun result s' => s'.Behind (edit.behind result behind))
      (fun _ s' => s'.Behind behind) s := by
  have hstop := h.stop_le
  cases edit with
  | input =>
    refine (input_ends h).mono (fun byte s' h' => ?_) fun _ s' h' => hbehind.congr h'.2 h'.1
    have hle : s.window.stop ≤ s.buffer.passed.toList.length := hstop
    rw [Behind, h'.1, h'.2.1, List.drop_append_of_le_length hle, hbehind]
    rfl
  | unput byte =>
    exact silently_ends ((unput_ends h byte).mono (fun _ _ h' => hbehind.congr h'.1 h'.2.1)
      fun _ _ h' => hbehind.congr h'.passed_eq h'.window_eq)
  | unputAll bytes =>
    exact silently_ends ((unputAll_ends h bytes).mono
      (fun _ _ h' => hbehind.congr h'.passed_eq h'.window_eq)
      fun _ _ h' => hbehind.congr h'.passed_eq h'.window_eq)
  | less n =>
    show ends (silently (Scanner.less n)) (fun _ s' => s'.Behind []) (fun _ s' => s'.Behind behind) s
    by_cases hn : s.window.length < n
    · exact silently_ends (.of_error (less_eq_error hn) hbehind)
    · refine silently_ends ((less_ends h (Nat.le_of_not_lt hn)).mono (fun _ s' h' => ?_)
        fun _ _ => False.elim)
      rw [Behind, h'.1, h'.2.1]
      apply List.drop_eq_nil_of_le
      exact List.length_take_le _ _
  | more => exact KeepsInput.perform_behind (by trivial) hbehind
  | echo => exact KeepsInput.perform_behind (by trivial) hbehind
  | begin sc => exact KeepsInput.perform_behind (by trivial) hbehind
  | beginNamed name => exact KeepsInput.perform_behind (by trivial) hbehind
  | write bytes => exact KeepsInput.perform_behind (by trivial) hbehind
  | restart source => exact hkeeps.elim

namespace Scanner.Edited

variable {start : Scanner} {behind : List UInt8}

/-- From the beginning of an action on, the scanner stays coherent, and the bytes behind the text are
those that were read and not given back. -/
theorem behind_eq (h : start.Edited s behind) (hstart : start.Coherent t settings)
    (hstop : start.window.stop = start.buffer.cursor) :
    s.Coherent t settings ∧ s.Behind behind := by
  induction h with
  | enter =>
    refine ⟨hstart, ?_⟩
    rw [Behind, hstop]
    apply List.drop_eq_nil_of_le
    exact Nat.le_refl _
  | @done s s' behind edit result _ hkeeps hrun ih =>
    exact ⟨((edit.perform_upholds ih.1).ok hrun).coherent,
      (edit.perform_behind hkeeps ih.1 ih.2).ok hrun⟩
  | @failed s s' behind edit e _ hkeeps hrun ih =>
    exact ⟨((edit.perform_upholds ih.1).error hrun).coherent,
      (edit.perform_behind hkeeps ih.1 ih.2).error hrun⟩

end Scanner.Edited

theorem silently_of_ok {m : ScannerM Unit} (h : m s = .ok () s') :
    silently m s = .ok none s' := by
  simp only [silently, bind_of_ok h, pure_apply]

/-- Bytes that are passed behind the text do not change it. -/
theorem Scanner.Coherent.text_append (h : s.Coherent t settings) (h' : s'.Coherent t settings)
    (hwindow : s'.window = s.window) {more : List UInt8}
    (hpassed : s'.buffer.passed.toList = s.buffer.passed.toList ++ more) : s'.text = s.text := by
  have hstop : s.window.start + s.window.length ≤ s.buffer.passed.toList.length := h.stop_le
  have hstart : s.window.start ≤ s.buffer.passed.toList.length := by omega
  rw [h'.text_eq, h.text_eq, hwindow, hpassed, List.drop_append_of_le_length hstart,
    List.take_append_of_le_length]
  rw [List.length_drop]
  omega

/-- The text does not change when the terminator is taken away. -/
theorem Scanner.Coherent.text_unterminate (h : s.Coherent t settings) : s.unterminate.text = s.text := by
  have hsame := h.sameInput_unterminate
  have hpassed : s.unterminate.buffer.passed.toList = s.buffer.passed.toList ++ [] := by
    rw [hsame.passed_eq, List.append_nil]
  exact h.text_append h.unterminate.coherent hsame.window_eq hpassed

/-- Text and bytes behind it make up what was passed from the start of the text on. -/
theorem Scanner.Coherent.drop_text (h : s.Coherent t settings) {behind : List UInt8}
    (hbehind : s.Behind behind) {n : Nat} (hn : n ≤ s.text.length) :
    s.buffer.passed.toList.drop (s.window.start + n) = s.text.drop n ++ behind := by
  have hall : s.buffer.passed.toList.drop s.window.start = s.text ++ behind := by
    rw [h.text_eq, ← hbehind, Window.stop, ← List.drop_drop, List.take_append_drop]
  rw [← List.drop_drop, hall, List.drop_append_of_le_length hn]

/-- In an action, in every state that its operations on the same source have led to, and whatever the
session did before: with `s.text`, the bytes `behind` it and `s.pending` as three lists, each operation
that succeeds is one on these lists. What the source still delivers must come without failures and up
to an end for good; then `input` takes the first pending byte. -/
theorem Session.edits_refine {o : ScannerOptions} {source : Source} {output : Sink} {s₀ : Scanner}
    (hbuild : o.build t source output = .ok s₀) {σ α : Type} (session : Session σ α) (memory : σ)
    {note : Note} {rule : Rule} (hnote : note ∈ session.notes memory s₀)
    (hentered : note.event = .entered rule) {behind : List UInt8}
    (h : note.scanner.Edited s behind) (hsteady : s.buffer.source.steady = true) :
    (∀ byte rest, s.pending = byte :: rest → ∀ result s', input s = .ok result s' →
      result = some byte ∧ s'.text = s.text ∧ note.scanner.Edited s' (behind ++ [byte]) ∧
        s'.pending = rest) ∧
    (s.pending = [] → ∀ result s', input s = .ok result s' →
      result = none ∧ s'.text = s.text ∧ note.scanner.Edited s' behind ∧ s'.pending = []) ∧
    (∀ byte s', unput byte s = .ok () s' →
      s'.text = s.text ∧ note.scanner.Edited s' behind ∧ s'.pending = byte :: s.pending) ∧
    (∀ n ≤ s.text.length, ∃ s', less n s = .ok () s' ∧
      s'.text = s.text.take n ∧ note.scanner.Edited s' [] ∧
        s'.pending = s.text.drop n ++ behind ++ s.pending) ∧
    (∀ edit : Edit, edit.KeepsInput → ∀ result s', edit.perform s = .ok result s' →
      s'.text = s.text ∧ note.scanner.Edited s' behind ∧ s'.pending = s.pending) := by
  obtain ⟨later, earlier, hnotes⟩ := List.append_of_mem hnote
  have hproper := session.allProper hbuild memory note earlier ⟨later, hnotes.symm⟩
  obtain ⟨hs, hbehind⟩ := h.behind_eq hproper.coherent (hproper.entered rule hentered).1
  -- Operations that do not touch what was passed leave the text alone.
  have hstays {edit : Edit} {result : Option UInt8} {s' : Scanner} (hkeeps : edit.KeepsSource)
      (hrun : edit.perform s = .ok result s') (hpassed : s'.buffer.passed = s.buffer.passed)
      (hwindow : s'.window = s.window) : s'.text = s.text :=
    hs.text_append (((edit.perform_upholds hs).ok hrun).coherent) hwindow
      (by rw [hpassed, List.append_nil])
  have hinput {result : Option UInt8} {s' : Scanner} (hrun : input s = .ok result s') :
      result = s.pending.head? ∧ s'.text = s.text ∧
        note.scanner.Edited s' (behind ++ result.toList) ∧
        s'.pending = s.pending.drop result.toList.length := by
    obtain ⟨hwindow, hpassed, hpending, hnext⟩ := (input_ends hs).ok hrun
    have hperform : Edit.input.perform s = .ok result s' := hrun
    exact ⟨hnext hsteady, hs.text_append ((input_upholds hs).ok hrun).coherent hwindow hpassed,
      h.done (by trivial) hperform, hpending⟩
  refine ⟨fun byte rest hcons result s' hrun => ?_, fun hnil result s' hrun => ?_,
    fun byte s' hrun => ?_, fun n hn => ?_, fun edit hkeeps result s' hrun => ?_⟩
  · obtain ⟨hresult, htext, hedited, hpending⟩ := hinput hrun
    rw [hcons, List.head?_cons] at hresult
    subst hresult
    rw [hcons] at hpending
    exact ⟨rfl, htext, hedited, hpending⟩
  · obtain ⟨hresult, htext, hedited, hpending⟩ := hinput hrun
    rw [hnil, List.head?_nil] at hresult
    subst hresult
    rw [hnil] at hpending
    rw [Option.toList_none, List.append_nil] at hedited
    exact ⟨rfl, htext, hedited, hpending⟩
  · have hperform : (Edit.unput byte).perform s = .ok none s' := silently_of_ok hrun
    obtain ⟨hpassed, hwindow, hpending⟩ := (unput_ends hs byte).ok hrun
    exact ⟨hstays (by trivial) hperform hpassed hwindow, h.done (by trivial) hperform, hpending⟩
  · have hn' : n ≤ s.window.length := hs.length_text ▸ hn
    obtain ⟨⟨⟩, s', hrun, hpassed, hwindow, hpending⟩ := (less_ends hs hn').exists_ok
    have hperform : (Edit.less n).perform s = .ok none s' := silently_of_ok hrun
    refine ⟨s', hrun, ?_, h.done (by trivial) hperform, ?_⟩
    · rw [((less_upholds hs n).ok hrun).coherent.text_eq, hs.text_eq, hwindow, hpassed, List.drop_take,
        Nat.add_sub_cancel_left, List.take_take, List.take_take, Nat.min_self,
        Nat.min_eq_left hn']
    · rw [hpending, hs.drop_text hbehind hn]
  · obtain ⟨hpassed, hwindow, hpending⟩ := (hkeeps.perform_ends s).ok hrun
    have hdone := h.done hkeeps.keepsSource hrun
    rw [hkeeps.behind_eq] at hdone
    exact ⟨hstays hkeeps.keepsSource hrun hpassed hwindow, hdone, hpending⟩

/-- In the action of the first match of three bytes, all of them are pending again once the text is cut
to nothing, the one under the terminator too. -/
theorem Session.edits_refine_oneByte : ∃ s s' : Scanner, s.covered = some ⟨1, 98⟩ ∧
    s.text = [97] ∧ s.pending = [98, 99] ∧
    less 0 s = .ok () s' ∧ s'.text = [] ∧ s'.pending = [97, 98, 99] := by
  have hrun : (match ({} : ScannerOptions).build Tables.oneByte (.ofBytes [97, 98, 99]) {} with
      | .ok s₀ => decide (∃ note ∈ oneMatch.notes () s₀, note.event = .entered 1 ∧
        note.scanner.covered = some ⟨1, 98⟩ ∧ note.scanner.text = [97] ∧
        note.scanner.pending = [98, 99] ∧ note.scanner.buffer.source.steady = true)
      | .error _ => false) = true := by decide +kernel
  split at hrun
  · rename_i s₀ hbuild
    obtain ⟨note, hmem, hentered, hcovered, htext, hpending, hsteady⟩ := of_decide_eq_true hrun
    obtain ⟨-, -, -, hless, -⟩ := edits_refine hbuild oneMatch () hmem hentered .enter hsteady
    obtain ⟨s', hcut, htext', -, hpending'⟩ := hless 0 (Nat.zero_le _)
    rw [htext, hpending] at hpending'
    exact ⟨note.scanner, s', hcovered, htext, hpending, hcut, htext', hpending'⟩
  · exact Bool.noConfusion hrun

end Munch
