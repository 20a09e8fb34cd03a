-- SUMMARY: The representation invariant of a scanner: each step and each operation keeps it, also where it fails.
import Munch.Proofs.Match.Bounds
import Munch.Proofs.Scanner.Edit

/-! # Coherent scanners

The parts of a scanner name places in its buffer: the window the text of the last match, the
terminator the slot behind it, the unmatched run some held bytes. Dropping bytes, growing, reading and
cutting move these places. `Coherent` says which relations between them always hold, whatever the
source does and wherever an operation fails. -/

namespace Munch

namespace ends

variable {α : Type}

theorem onBuffer {m : BufferM α} {Q : α → Scanner → Prop} {E : ScanError → Scanner → Prop}
    {s : Scanner} (h : ends m (fun a buffer => Q a { s with buffer })
      (fun e buffer => E e { s with buffer }) s.buffer) : ends (Scanner.onBuffer m) Q E s := by
  unfold ends Scanner.onBuffer at *
  cases hm : m s.buffer <;> simpa [hm] using h

end ends

namespace Scanner

/-- The scanner stands behind its match, and all unmatched bytes before it are written. -/
def BehindMatch (s : Scanner) : Prop :=
  s.window.stop = s.buffer.cursor ∧ s.unmatched = none

/-- The representation invariant of a scanner over some tables, with some settings. -/
structure Coherent (t : Tables) (settings : BufferSettings) (s : Scanner) : Prop where
  tables_eq : s.tables = t
  settings_eq : s.buffer.settings = settings
  roomy : s.buffer.Roomy
  /-- The text of the match has been passed. -/
  stop_le : s.window.stop ≤ s.buffer.cursor
  /-- A terminator stands behind the text of the match, where the cursor is. -/
  covered : ∀ c ∈ s.covered, c.offset = s.window.stop ∧ s.BehindMatch ∧
    settings.terminator = some (s.buffer.slot c.offset)
  /-- An unmatched run holds at least one byte and at most a block. -/
  unmatched : ∀ run ∈ s.unmatched, 0 < run.length ∧ run.length ≤ settings.blockSize ∧
    run.stop ≤ s.buffer.filled
  line_pos : 1 ≤ s.line
  state_lt : s.startCondition.state.toNat < t.stateCount
  bolState_lt : s.startCondition.bolState.toNat < t.stateCount

/-- The later scanner is coherent, its capacity is no smaller, and it has a terminator only if the
earlier one has. -/
structure Leads (t : Tables) (settings : BufferSettings) (s s' : Scanner) : Prop where
  coherent : s'.Coherent t settings
  capacity_le : s.buffer.capacity ≤ s'.buffer.capacity
  covered : s.covered = none → s'.covered = none

variable {t : Tables} {settings : BufferSettings} {s s' s'' : Scanner}

theorem covered_unterminate (s : Scanner) : s.unterminate.covered = none := by
  rw [unterminate_eq]

/-- Without terminators to put there is nothing to do behind a match. -/
theorem terminate_of_none (hterminator : s.buffer.settings.terminator = none)
    (hcovered : s.covered = none) : s.terminate = s := by
  simp only [terminate, Buffer.cover, hterminator, ← hcovered]

/-- A terminator behind a text that ends at the cursor is put there and taken away again. -/
theorem unterminate_terminate (hcovered : s.covered = none)
    (hstop : s.window.stop = s.buffer.cursor) :
    ∃ stale, s.terminate.unterminate = { s with buffer := { s.buffer with stale } } := by
  obtain ⟨-, hnone, hsome⟩ := s.buffer.cover_cursor
  cases hcover : (s.buffer.cover s.buffer.cursor).1 with
  | none =>
    obtain ⟨stale, halike⟩ := hnone hcover
    refine ⟨stale, ?_⟩
    simp only [terminate, unterminate, hstop, hcover, halike, hcovered]
  | some c =>
    obtain ⟨stale, halike⟩ := (hsome c hcover).2
    refine ⟨stale, ?_⟩
    simp only [terminate, unterminate, hstop, hcover, halike, hcovered]

theorem Leads.trans (h : Leads t settings s s') (h' : Leads t settings s' s'') :
    Leads t settings s s'' :=
  ⟨h'.coherent, Nat.le_trans h.capacity_le h'.capacity_le, h'.covered ∘ h.covered⟩

namespace Coherent

theorem refl (h : s.Coherent t settings) : Leads t settings s s :=
  ⟨h, Nat.le_refl _, id⟩

/-- The text of the match consists of passed bytes. -/
theorem text_eq (h : s.Coherent t settings) :
    s.text = (s.buffer.passed.toList.drop s.window.start).take s.window.length := by
  rw [text, slice_of_le h.stop_le, Window.stop, Nat.add_sub_cancel_left]

/-- It is as long as its window. -/
theorem length_text (h : s.Coherent t settings) : s.text.length = s.window.length := by
  have hstop := h.stop_le
  rw [h.text_eq, List.length_take, List.length_drop, Array.length_toList]
  simp only [Window.stop, Buffer.cursor] at hstop
  omega

/-- What was written, and which bytes are still to be, does not matter. -/
theorem setOutput (h : s.Coherent t settings) (output : Sink) :
    Leads t settings s { s with output } :=
  ⟨{ h with }, Nat.le_refl _, id⟩

theorem flushed (h : s.Coherent t settings) (output : Sink) :
    Leads t settings s { s with output, unmatched := none } :=
  ⟨{ h with
    covered := fun c hc => ⟨(h.covered c hc).1, ⟨(h.covered c hc).2.1.1, rfl⟩,
      (h.covered c hc).2.2⟩
    unmatched := fun _ hrun => nomatch hrun }, Nat.le_refl _, id⟩

theorem setLine (h : s.Coherent t settings) {line : Nat} (hline : 1 ≤ line) :
    Leads t settings s { s with line } :=
  ⟨{ h with line_pos := hline }, Nat.le_refl _, id⟩

theorem setKeepText (h : s.Coherent t settings) (keepText : Bool) :
    Leads t settings s { s with keepText } :=
  ⟨{ h with }, Nat.le_refl _, id⟩

theorem setStartCondition (h : s.Coherent t settings) {sc : StartCondition}
    (hstate : sc.state.toNat < t.stateCount) (hbol : sc.bolState.toNat < t.stateCount) :
    Leads t settings s { s with startCondition := sc } :=
  ⟨{ h with state_lt := hstate, bolState_lt := hbol }, Nat.le_refl _, id⟩

/-- Without a terminator, any buffer will do that holds as much and whose cursor is not before. -/
theorem setBuffer (h : s.Coherent t settings) (hcovered : s.covered = none) {buffer : Buffer}
    (hroomy : buffer.Roomy) (hsettings : buffer.settings = s.buffer.settings)
    (hcapacity : s.buffer.capacity ≤ buffer.capacity) (hfilled : s.buffer.filled ≤ buffer.filled)
    (hstop : s.window.stop ≤ buffer.cursor) : Leads t settings s { s with buffer } := by
  refine ⟨{ h with
    settings_eq := hsettings.trans h.settings_eq
    roomy := hroomy
    stop_le := hstop
    covered := fun c hc => ?_
    unmatched := fun run hrun => ?_ }, hcapacity, id⟩
  · rw [hcovered] at hc
    cases hc
  · obtain ⟨hpos, hle, hheld⟩ := h.unmatched run hrun
    exact ⟨hpos, hle, Nat.le_trans hheld hfilled⟩

theorem probed (h : s.Coherent t settings) (hcovered : s.covered = none) {buffer : Buffer}
    (hb : Buffer.Probed s.buffer buffer) : Leads t settings s { s with buffer } :=
  h.setBuffer hcovered hb.roomy hb.toExtends.settings_eq hb.toExtends.capacity_le
    hb.toExtends.filled_le (Nat.le_trans h.stop_le hb.cursor_le)

/-! ## Terminators -/

/-- Taking the terminator away changes the byte at the cursor only. -/
theorem unterminate_eq (h : s.Coherent t settings) : ∃ ahead stale,
    ahead.length = s.buffer.ahead.length ∧
      s.unterminate = { s with covered := none, buffer := { s.buffer with ahead, stale } } := by
  cases hcovered : s.covered with
  | none =>
    refine ⟨s.buffer.ahead, s.buffer.stale, rfl, ?_⟩
    rw [unterminate_of_none hcovered, ← hcovered]
  | some c =>
    obtain ⟨hoffset, hmatch, -⟩ := h.covered c hcovered
    obtain ⟨stale, hpoke⟩ := s.buffer.poke_cursor_eq c.byte
    have hroom : s.buffer.cursor < s.buffer.capacity :=
      Nat.lt_of_le_of_lt s.buffer.cursor_le_filled h.roomy.filled_lt
    refine ⟨s.buffer.ahead.set 0 c.byte, stale, List.length_set, ?_⟩
    simp only [unterminate, hcovered, Buffer.uncover, hoffset.trans hmatch.1, hroom,
      if_true, hpoke]

theorem unterminate (h : s.Coherent t settings) : Leads t settings s s.unterminate := by
  obtain ⟨ahead, stale, hlength, heq⟩ := h.unterminate_eq
  have hnone : Leads t settings s { s with covered := none } :=
    ⟨{ h with covered := fun _ hc => nomatch hc }, Nat.le_refl _, fun _ => rfl⟩
  have hfilled : { s.buffer with ahead, stale }.filled = s.buffer.filled := by
    simp only [Buffer.filled, hlength]
  have hbuffer : Leads t settings { s with covered := none }
      { s with covered := none, buffer := { s.buffer with ahead, stale } } :=
    hnone.coherent.setBuffer rfl (h.roomy.congr rfl hfilled rfl) rfl (Nat.le_refl _)
      (Nat.le_of_eq hfilled.symm) h.stop_le
  exact heq ▸ hnone.trans hbuffer

/-- Putting the terminator behind a match. -/
theorem terminate (h : s.Coherent t settings) (hcovered : s.covered = none) (hmatch : s.BehindMatch) :
    s.terminate.Coherent t settings ∧ s.terminate.buffer.capacity = s.buffer.capacity ∧
      s.terminate.BehindMatch := by
  have hroom : s.buffer.cursor < s.buffer.capacity :=
    Nat.lt_of_le_of_lt s.buffer.cursor_le_filled h.roomy.filled_lt
  cases hterminator : settings.terminator with
  | none =>
    rw [terminate_of_none (h.settings_eq ▸ hterminator) hcovered]
    exact ⟨h, rfl, hmatch⟩
  | some terminator =>
    obtain ⟨stale, hpoke⟩ := s.buffer.poke_cursor_eq terminator
    have hslot := s.buffer.slot_poke_cursor terminator
    have heq : s.terminate = { s with
        covered := some ⟨s.buffer.cursor, s.buffer.slot s.buffer.cursor⟩
        buffer := { s.buffer with ahead := s.buffer.ahead.set 0 terminator, stale } } := by
      simp only [Scanner.terminate, Buffer.cover, h.settings_eq, hterminator, hmatch.1,
        hroom, if_true, hpoke]
    have hfilled : { s.buffer with ahead := s.buffer.ahead.set 0 terminator, stale }.filled =
        s.buffer.filled := by
      simp only [Buffer.filled, List.length_set]
    rw [hpoke] at hslot
    rw [heq]
    refine ⟨{ h with
      roomy := h.roomy.congr rfl hfilled rfl
      covered := fun c hc => ?_
      unmatched := fun run hrun => hfilled.symm ▸ h.unmatched run hrun }, rfl,
      hmatch.1, hmatch.2⟩
    obtain rfl := Option.some.inj (Option.mem_def.1 hc)
    exact ⟨hmatch.1.symm, ⟨hmatch.1, hmatch.2⟩,
      hterminator.trans (congrArg some hslot.symm)⟩

end Coherent

/-! ## Steps of an attempt -/

theorem write_ends (bytes : List UInt8) (s : Scanner) :
    ends (write bytes) (fun _ s' => ∃ output, s' = { s with output })
      (fun e s' => (∃ output, s' = { s with output }) ∧ ¬ e.IsFault) s := by
  unfold ends write
  cases hwrite : Sink.write bytes s.output with
  | ok u output => exact ⟨output, rfl⟩
  | error e output =>
    refine ⟨⟨output, rfl⟩, ?_⟩
    simp only [Sink.write] at hwrite
    split at hwrite
    · cases hwrite
    · obtain ⟨rfl, -⟩ := EStateM.Result.error.inj hwrite
      exact ScanError.not_isFault_io _

/-- Whether the write succeeds or not, the unmatched run is gone. -/
theorem flush_ends (s : Scanner) :
    ends flush (fun _ s' => ∃ output, s' = { s with output, unmatched := none })
      (fun e s' => (∃ output, s' = { s with output, unmatched := none }) ∧ ¬ e.IsFault) s := by
  cases hrun : s.unmatched with
  | none =>
    have hflush : flush s = .ok () s := by simp only [flush, hrun]
    exact .of_ok hflush ⟨s.output, by rw [← hrun]⟩
  | some run =>
    have hflush : flush s =
        write (s.buffer.slice run.start run.stop) { s with unmatched := none } := by
      simp only [flush, hrun]
    exact .congr hflush (write_ends _ { s with unmatched := none })

/-- Both windows move along with the bytes that are kept. -/
theorem Coherent.trim (h : s.Coherent t settings) (hcovered : s.covered = none) :
    Leads t settings s s.trim ∧
      ∀ run ∈ s.trim.unmatched, ∃ run' ∈ s.unmatched, run.length = run'.length := by
  obtain ⟨hle, hcursor⟩ := s.buffer.trim_le s.keepFrom
  obtain ⟨hline, -, hruns⟩ := s.keepFrom_le
  obtain ⟨hcursor', hfilled'⟩ := s.buffer.cursor_trim s.keepFrom
  obtain ⟨stale, htrim⟩ := s.buffer.trim_eq s.keepFrom
  have hroomy := Buffer.trim_roomy h.roomy s.keepFrom
  have hstop := h.stop_le
  have hshift (w : Window) (hw : (s.buffer.trim s.keepFrom).1 ≤ w.start) :
      (w.shift (s.buffer.trim s.keepFrom).1).length = w.length ∧
        (w.shift (s.buffer.trim s.keepFrom).1).stop = w.stop - (s.buffer.trim s.keepFrom).1 := by
    simp only [Window.shift, hw, if_true, Window.stop, true_and]
    omega
  have hmem {run : Window} (hrun : run ∈ s.trim.unmatched) :
      ∃ run' ∈ s.unmatched, run.length = run'.length ∧
        run.stop = run'.stop - (s.buffer.trim s.keepFrom).1 := by
    obtain ⟨run', hrun', rfl⟩ := Option.map_eq_some_iff.1 hrun
    exact ⟨run', hrun', hshift run' (Nat.le_trans hle (hruns run' hrun'))⟩
  refine ⟨⟨{ h with
    settings_eq := (congrArg Buffer.settings htrim).trans h.settings_eq
    roomy := hroomy
    stop_le := ?_
    covered := fun c hc => ?_
    unmatched := fun run hrun => ?_ }, ?_, fun _ => hcovered⟩, fun run hrun => ?_⟩
  · show (s.window.shift (s.buffer.trim s.keepFrom).1).stop ≤ (s.buffer.trim s.keepFrom).2.cursor
    by_cases hw : (s.buffer.trim s.keepFrom).1 ≤ s.window.start
    · rw [(hshift s.window hw).2]
      omega
    · simp [Window.shift, hw, Window.stop]
  · exact absurd hc (by simp [Scanner.trim, hcovered])
  · obtain ⟨run', hrun', hlength, hstop'⟩ := hmem hrun
    obtain ⟨hpos, hblock, hheld⟩ := h.unmatched run' hrun'
    refine ⟨hlength ▸ hpos, hlength ▸ hblock, ?_⟩
    show run.stop ≤ (s.buffer.trim s.keepFrom).2.filled
    omega
  · exact Nat.le_of_eq (congrArg Buffer.capacity htrim).symm
  · obtain ⟨run', hrun', hlength, -⟩ := hmem hrun
    exact ⟨run', hrun', hlength⟩

/-- What an attempt starts from: there is room for one more byte in the unmatched run. -/
def Prepared (t : Tables) (settings : BufferSettings) (s : Scanner) : Prop :=
  s.Coherent t settings ∧ s.covered = none ∧ ∀ run ∈ s.unmatched, run.length < settings.blockSize

theorem prepare_ends (h : s.Coherent t settings) (hcovered : s.covered = none) :
    ends prepare (fun _ s' => Leads t settings s s' ∧ s'.Prepared t settings)
      (fun e s' => Leads t settings s s' ∧ ¬ e.IsFault) s := by
  have htrim {s₁ : Scanner} (h₁ : Leads t settings s s₁)
      (hruns : ∀ run ∈ s₁.unmatched, run.length < settings.blockSize) :
      Leads t settings s s₁.trim ∧ s₁.trim.Prepared t settings := by
    obtain ⟨hleads, hlength⟩ := h₁.coherent.trim (h₁.covered hcovered)
    refine ⟨h₁.trans hleads, hleads.coherent, (h₁.trans hleads).covered hcovered, fun run hrun => ?_⟩
    obtain ⟨run', hrun', heq⟩ := hlength run hrun
    exact heq ▸ hruns run' hrun'
  refine .bind (.get (.whenThen ?_))
  split
  · refine (flush_ends s).mono (fun _ s₁ hs₁ => ?_) fun e s₁ hs₁ => ?_
    · obtain ⟨output, rfl⟩ := hs₁
      exact .modify (htrim (h.flushed output) fun _ hrun => nomatch hrun)
    · obtain ⟨⟨output, rfl⟩, he⟩ := hs₁
      exact ⟨h.flushed output, he⟩
  · rename_i hshort
    refine .pure (.modify (htrim h.refl fun run hrun => ?_))
    rw [h.settings_eq] at hshort
    simpa [Option.mem_def.1 hrun] using hshort

/-- A run that ends elsewhere is written first, and a new one begins. -/
theorem openRun_ends (offset : Nat) (s : Scanner) :
    ends (openRun offset)
      (fun _ s' => ∃ output run, run.stop = offset ∧ (run ∈ s.unmatched ∨ run.length = 0) ∧
        s' = { s with output, unmatched := some run })
      (fun e s' => (∃ output, s' = { s with output, unmatched := none }) ∧ ¬ e.IsFault) s := by
  refine .bind (.get ?_)
  split
  · rename_i hends
    obtain ⟨run, hrun, hstop⟩ := (Option.any_eq_true _ _).1 hends
    exact .pure ⟨s.output, run, by simpa using hstop, .inl hrun, by rw [← hrun]⟩
  · refine .bind ((flush_ends s).mono (fun _ s₁ hs₁ => ?_) fun _ _ => id)
    obtain ⟨output, rfl⟩ := hs₁
    exact .modify ⟨output, ⟨offset, 0⟩, rfl, .inr rfl, rfl⟩

/-- A byte just read, with the offset it came from, becomes the last one of the unmatched run. -/
theorem addUnmatched_ends (h : s.Prepared t settings) {offset : Nat}
    (hoffset : offset + 1 ≤ s.buffer.filled) (byte : UInt8) :
    ends (addUnmatched offset byte) (fun _ s' => Leads t settings s s')
      (fun e s' => Leads t settings s s' ∧ ¬ e.IsFault) s := by
  obtain ⟨h, hcovered, hroom⟩ := h
  refine .bind ((openRun_ends offset s).mono (fun _ s₁ hs₁ => .modify ?_) fun e s₁ hs₁ => ?_)
  · obtain ⟨output, run, hstop, hrun, rfl⟩ := hs₁
    have hlength : run.length < settings.blockSize := by
      rcases hrun with hmem | hnew
      · exact hroom run hmem
      · exact hnew ▸ h.settings_eq ▸ h.roomy.block_pos
    refine ⟨{ h with
      covered := fun c hc => ?_
      unmatched := fun run' hrun' => ?_
      line_pos := ?_ }, Nat.le_refl _, id⟩
    · exact absurd hc (by simp [lengthenRun, hcovered])
    · obtain rfl := Option.some.inj (Option.mem_def.1 hrun')
      refine ⟨Nat.succ_pos _, hlength, ?_⟩
      simp only [Window.stop, Window.lengthen, lengthenRun] at hstop ⊢
      omega
    · have hline := h.line_pos
      simp only [lengthenRun]
      split <;> omega
  · obtain ⟨⟨output, rfl⟩, he⟩ := hs₁
    exact ⟨h.flushed output, he⟩

theorem skipByte_ends (h : s.Prepared t settings) :
    ends skipByte (fun _ s' => Leads t settings s s')
      (fun e s' => Leads t settings s s' ∧ ¬ e.IsFault) s := by
  refine .bind (.get (.bind (.onBuffer ?_)))
  refine (Buffer.readByte_probed h.1.roomy).mono (fun found buffer hread => ?_) fun e buffer hread => ?_
  · have hread' := h.1.probed h.2.1 hread.1
    cases found with
    | none => exact .pure hread'
    | some byte =>
      have hcursor : s.buffer.cursor + 1 ≤ buffer.filled := hread.2 ▸ buffer.cursor_le_filled
      have hprepared : Prepared t settings { s with buffer } := ⟨hread'.coherent, h.2.1, h.2.2⟩
      exact (addUnmatched_ends hprepared hcursor byte).mono (fun _ _ => hread'.trans)
        fun _ _ h' => ⟨hread'.trans h'.1, h'.2⟩
  · exact ⟨h.1.probed h.2.1 hread.1, hread.2⟩

/-- The window of a match ends where the match does, also if it begins with a kept text. -/
theorem Coherent.setMatch (h : s.Coherent t settings) (hcovered : s.covered = none)
    {start length : Nat} (hstart : s.window.stop ≤ start) (hstop : start + length = s.buffer.cursor)
    (rule : Rule) : Leads t settings s (s.setMatch rule start length) ∧
      (s.setMatch rule start length).window.stop = s.buffer.cursor := by
  have hwindow : (s.setMatch rule start length).window.stop = s.buffer.cursor := by
    simp only [Scanner.setMatch, Window.stop] at hstart ⊢
    split <;> omega
  refine ⟨⟨{ h with
    stop_le := Nat.le_of_eq hwindow
    covered := fun c hc => ?_
    line_pos := Nat.le_trans h.line_pos (Nat.le_add_right _ _) }, Nat.le_refl _, id⟩, hwindow⟩
  exact absurd hc (by simp [Scanner.setMatch, hcovered])

/-- An attempt on sound tables keeps the scanner coherent, and no error of it is one of the tables. -/
theorem attempt_ends (ht : t.Sound) (h : s.Coherent t settings) (hcovered : s.covered = none) :
    ends attempt
      (fun step s' => Leads t settings s s' ∧
        ∀ rule, step = .matched rule → s'.BehindMatch)
      (fun e s' => Leads t settings s s' ∧ ¬ e.IsFault) s := by
  refine .bind ((prepare_ends h hcovered).mono (fun _ s₁ h₁ => ?_) fun _ _ => id)
  obtain ⟨hleads, hprepared⟩ := h₁
  obtain ⟨h₁, hcovered₁, hroom⟩ := hprepared
  refine .bind (.get (.bind (.onBuffer ?_)))
  have htables := h₁.tables_eq.symm
  refine (Tables.longestMatch_ends (htables ▸ ht) h₁.roomy (htables ▸ h₁.state_lt)
    (htables ▸ h₁.bolState_lt) _).mono
    (fun outcome buffer hmatch => ?_) fun e buffer hmatch => ?_
  · have hfound := h₁.probed hcovered₁ hmatch.1
    cases outcome with
    | accepted rule length =>
      refine .bind ((flush_ends _).mono (fun _ s₂ hs₂ => ?_) fun e s₂ hs₂ => ?_)
      · obtain ⟨output, rfl⟩ := hs₂
        have hflushed := hfound.coherent.flushed output
        obtain ⟨hset, hstop⟩ :=
          hflushed.coherent.setMatch hcovered₁ h₁.stop_le hmatch.2.symm rule
        exact .bind (.modify (.pure ⟨((hleads.trans hfound).trans hflushed).trans hset,
          fun _ _ => ⟨hstop, rfl⟩⟩))
      · obtain ⟨⟨output, rfl⟩, he⟩ := hs₂
        exact ⟨(hleads.trans hfound).trans (hfound.coherent.flushed output), he⟩
    | noMatch =>
      have hkeep := hfound.coherent.setKeepText false
      refine .bind (.modify (.bind ?_))
      have hprepared : Prepared t settings { s₁ with buffer, keepText := false } :=
        ⟨hkeep.coherent, hcovered₁, hroom⟩
      refine (skipByte_ends hprepared).mono (fun _ s₂ h₂ => .pure ⟨?_, fun _ h => nomatch h⟩)
        fun e s₂ h₂ => ⟨?_, h₂.2⟩
      · exact ((hleads.trans hfound).trans hkeep).trans h₂
      · exact ((hleads.trans hfound).trans hkeep).trans h₂.1
    | endOfInput =>
      refine .bind ((flush_ends _).mono (fun _ s₂ hs₂ => ?_) fun e s₂ hs₂ => ?_)
      · obtain ⟨output, rfl⟩ := hs₂
        have hflushed := hfound.coherent.flushed output
        exact .bind (.modify (.pure ⟨((hleads.trans hfound).trans hflushed).trans
          (hflushed.coherent.setKeepText false), fun _ h => nomatch h⟩))
      · obtain ⟨⟨output, rfl⟩, he⟩ := hs₂
        exact ⟨(hleads.trans hfound).trans (hfound.coherent.flushed output), he⟩
  · exact ⟨hleads.trans (h₁.probed hcovered₁ hmatch.1), hmatch.2⟩

/-- So does advancing, attempt by attempt. -/
theorem advance_ends (ht : t.Sound) (h : s.Coherent t settings) (hcovered : s.covered = none) :
    ends advance
      (fun found s' => Leads t settings s s' ∧
        (found.isSome = true → s'.BehindMatch))
      (fun e s' => Leads t settings s s' ∧ ¬ e.IsFault) s := by
  have hattempt := attempt_ends ht h hcovered
  unfold ends
  fun_induction advance s with
  | case1 s _ rule s' hrun =>
    have hstep := hattempt.ok hrun
    exact ⟨hstep.1, fun _ => hstep.2 rule rfl⟩
  | case2 s _ s' hrun => exact ⟨(hattempt.ok hrun).1, fun h => Bool.noConfusion h⟩
  | case3 s _ s' hrun ih =>
    have hstep := (hattempt.ok hrun).1
    have hrest := ih hstep.coherent (hstep.covered hcovered)
      (attempt_ends ht hstep.coherent (hstep.covered hcovered))
    exact ends.mono (m := advance) hrest (fun _ _ h' => ⟨hstep.trans h'.1, h'.2⟩)
      fun _ _ h' => ⟨hstep.trans h'.1, h'.2⟩
  | case4 s _ e s' hrun => exact hattempt.error hrun

end Scanner

end Munch
