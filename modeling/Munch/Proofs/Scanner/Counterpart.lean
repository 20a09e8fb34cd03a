-- SUMMARY: Scanners with and without terminators in actions: each operation has the same result on both.
import Munch.Proofs.Scanner.Twin
import Munch.Proofs.Scanner.Upkeep

/-! # Counterparts

While an action runs, a terminator may stand in one scanner and never does in the other. They hold the
same bytes as soon as it is taken away: `Counterpart` says this, and every operation keeps it. -/

namespace Munch

namespace Scanner

variable {t : Tables} {settings : BufferSettings} {s s' : Scanner}

/-- The buffer with the terminator taken away. -/
def bareBuffer (s : Scanner) : Buffer :=
  s.covered.elim s.buffer s.buffer.uncover

theorem unterminate_bare (s : Scanner) :
    s.unterminate = { s with covered := none, buffer := s.bareBuffer } := by
  unfold unterminate bareBuffer
  split
  · rename_i c hcovered
    rw [hcovered]
    rfl
  · rename_i hcovered
    rw [hcovered, Option.elim_none, ← hcovered]

/-- The second scanner is the first one as it is without terminators; one may stand in the first. -/
def Counterpart (s s' : Scanner) : Prop :=
  ∃ buffer, s.bareBuffer.Twin buffer ∧ s' = { s with covered := none, buffer }

theorem counterpart_iff : s.Counterpart s' ↔ s.unterminate.Twin s' := by
  rw [unterminate_bare]
  constructor
  · rintro ⟨buffer, hbuffer, rfl⟩
    exact ⟨rfl, buffer, hbuffer, rfl⟩
  · rintro ⟨-, buffer, hbuffer, rfl⟩
    exact ⟨buffer, hbuffer, rfl⟩

theorem Counterpart.twin (h : s.Counterpart s') (hcovered : s.covered = none) : s.Twin s' := by
  rw [counterpart_iff, unterminate_of_none hcovered] at h
  exact h

theorem Twin.counterpart (h : s.Twin s') : s.Counterpart s' :=
  counterpart_iff.2 ((unterminate_of_none h.1).symm ▸ h)

/-! ## Terminators -/

theorem Twin.terminate_right (h : s.Twin s') : s'.terminate = s' := by
  obtain ⟨hcovered, _, ⟨stale, rfl⟩, rfl⟩ := h
  exact terminate_of_none rfl hcovered

/-- A terminator that is put behind a match hides nothing for good. -/
theorem Twin.terminate (h : s.Twin s') (hstop : s.window.stop = s.buffer.cursor) :
    s.terminate.Counterpart s' := by
  obtain ⟨stale, heq⟩ := unterminate_terminate h.1 hstop
  obtain ⟨hcovered, _, ⟨stale', rfl⟩, rfl⟩ := h
  rw [counterpart_iff, heq]
  exact ⟨hcovered, _, ⟨stale', rfl⟩, rfl⟩

theorem Counterpart.unterminate (h : s.Counterpart s') : s.unterminate.Twin s'.unterminate := by
  have htwin := counterpart_iff.1 h
  obtain ⟨buffer, -, rfl⟩ := h
  exact htwin

/-- What a user sees of a coherent scanner is what there is to see without terminators. -/
theorem Counterpart.eq (h : s.Counterpart s') (hs : s.Coherent t settings) :
    ∃ ahead stale, ahead.length = s.buffer.ahead.length ∧ s' = { s with
      covered := none
      buffer := { s.buffer with
        settings := { s.buffer.settings with terminator := none }, ahead, stale } } := by
  obtain ⟨_, ⟨stale', rfl⟩, rfl⟩ := h
  obtain ⟨ahead, stale, hlength, heq⟩ := hs.unterminate_eq
  refine ⟨ahead, stale', hlength, ?_⟩
  have hbare : s.bareBuffer = { s.buffer with ahead, stale } := by
    rw [unterminate_bare] at heq
    exact congrArg Scanner.buffer heq
  rw [hbare]

theorem Counterpart.text_eq (h : s.Counterpart s') (hs : s.Coherent t settings) :
    s'.text = s.text := by
  obtain ⟨ahead, stale, -, rfl⟩ := h.eq hs
  unfold text
  rw [slice_of_le hs.stop_le]
  exact slice_of_le hs.stop_le

theorem Counterpart.covered_eq (h : s.Counterpart s') : s'.covered = none := by
  obtain ⟨buffer, -, rfl⟩ := h
  rfl

theorem Counterpart.pending_eq (h : s.Counterpart s') : s'.pending = s.pending := by
  obtain ⟨buffer, hbuffer, rfl⟩ := h
  exact hbuffer.same.pending_eq

/-! ## Operations -/

/-- An operation takes the terminator away on one side and goes on; on the other side none stands. -/
theorem Counterpart.bare (h : s.Counterpart s') {α : Type} {m : ScannerM α} (hm : InStep Twin m) :
    Parallel Counterpart ((modify Scanner.unterminate >>= fun _ => m) s)
      ((modify Scanner.unterminate >>= fun _ => m) s') :=
  (hm _ _ h.unterminate).mono fun _ _ => Twin.counterpart

theorem Twin.setLine (h : s.Twin s') {f : Nat → Nat} :
    Twin { s with line := f s.line } { s' with line := f s'.line } := by
  obtain ⟨hcovered, buffer, hbuffer, rfl⟩ := h
  exact ⟨hcovered, buffer, hbuffer, rfl⟩

theorem input_parallel (h : s.Counterpart s') : Parallel Counterpart (input s) (input s') := by
  refine h.bare ((Twin.inStep (Beside.onBuffer_inStep Buffer.readByte_inStep)).bind fun byte => ?_)
  dsimp only
  split
  · exact .bind (.modify fun _ _ h => h.setLine) fun _ => .pure _
  · exact .bind (.pure _) fun _ => .pure _

/-- Putting the terminator back on one side, if it stood there before. -/
theorem Twin.reterminate {terminated terminated' : Bool} (h : s.Twin s')
    (hstop : terminated = true → s.window.stop = s.buffer.cursor) (hright : terminated' = false) :
    Parallel Counterpart
      ((if terminated then modify Scanner.terminate else pure ⟨⟩ : ScannerM PUnit) s)
      ((if terminated' then modify Scanner.terminate else pure ⟨⟩ : ScannerM PUnit) s') := by
  subst hright
  cases terminated with
  | false => exact .ok h.counterpart
  | true => exact .ok (h.terminate (hstop rfl))

theorem Counterpart.isSome_eq (h : s.Counterpart s') : s'.covered.isSome = false := by
  rw [h.covered_eq, Option.isSome_none]

theorem Counterpart.setLine (h : s.Counterpart s') {f : Nat → Nat} :
    Counterpart { s with line := f s.line } { s' with line := f s'.line } := by
  obtain ⟨buffer, hbuffer, rfl⟩ := h
  exact ⟨buffer, hbuffer, rfl⟩

theorem unput_parallel (hs : s.Coherent t settings) (h : s.Counterpart s') (byte : UInt8) :
    Parallel Counterpart (unput byte s) (unput byte s') := by
  have hinsert := Twin.inStep (Beside.onBuffer_inStep (Buffer.insert_inStep byte)) _ _ h.unterminate
  refine hinsert.bind (fun _ _ => Twin.counterpart) fun _ s₁ s₁' hrun h₁ => ?_
  have hstop (hcovered : s.covered.isSome = true) : s₁.window.stop = s₁.buffer.cursor := by
    obtain ⟨buffer, hbuffer, rfl⟩ := onBuffer_eq_ok_iff.1 hrun
    obtain ⟨-, -, capacity, stale, rfl⟩ :=
      (Buffer.insert_ends hs.unterminate.coherent.roomy byte).ok hbuffer
    exact (hs.behindMatch hcovered).1
  refine .whenThen (h₁.reterminate hstop h.isSome_eq) (fun _ _ => id) fun s₂ s₂' h₂ => ?_
  split
  · exact .ok (h₂.setLine (f := fun line => max (line - 1) 1))
  · exact .ok h₂

theorem unputAll_parallel (hs : s.Coherent t settings) (h : s.Counterpart s') (bytes : List UInt8) :
    Parallel Counterpart (unputAll bytes s) (unputAll bytes s') := by
  unfold unputAll
  generalize bytes.reverse = bytes
  induction bytes generalizing s s' with
  | nil => exact .ok h
  | cons byte bytes ih =>
    show Parallel Counterpart ((unput byte >>= fun _ => bytes.forM unput) s)
      ((unput byte >>= fun _ => bytes.forM unput) s')
    refine (unput_parallel hs h byte).bind (fun _ _ => id) fun _ s₁ s₁' hrun h₁ => ?_
    exact ih ((unput_upholds hs byte).ok hrun).coherent h₁

theorem Twin.cut (h : s.Twin s') (n : Nat) : (s.cut n).Twin (s'.cut n) := by
  obtain ⟨hcovered, buffer, hbuffer, rfl⟩ := h
  refine ⟨hcovered, _, Buffer.seek_related hbuffer _, ?_⟩
  simp only [Scanner.cut, hbuffer.same.slice_eq, hbuffer.same.cursor_eq]

theorem less_parallel (hs : s.Coherent t settings) (h : s.Counterpart s') (n : Nat) :
    Parallel Counterpart (less n s) (less n s') := by
  have hwindow : s'.window = s.window := by
    obtain ⟨buffer, -, rfl⟩ := h
    rfl
  by_cases hn : s.window.length < n
  · rw [less_eq_error hn, less_eq_error (hwindow ▸ hn), hwindow]
    exact .error h
  · have hstop (_ : s.covered.isSome = true) :
        (s.unterminate.cut n).window.stop = (s.unterminate.cut n).buffer.cursor :=
      (hs.unterminate.coherent.cut (covered_unterminate s)
        (by rw [unterminate_window]; exact Nat.le_of_not_lt hn)).2
    rw [less_eq (Nat.le_of_not_lt hn), less_eq (hwindow ▸ Nat.le_of_not_lt hn)]
    exact (h.unterminate.cut n).reterminate hstop h.isSome_eq

/-! ## Output, modes and sources -/

theorem write_inStep (bytes : List UInt8) : InStep Counterpart (write bytes) := by
  rintro s _ ⟨buffer, hbuffer, rfl⟩
  unfold write
  dsimp only
  cases Sink.write bytes s.output with
  | ok u output => exact .ok ⟨buffer, hbuffer, rfl⟩
  | error e output => exact .error ⟨buffer, hbuffer, rfl⟩

theorem echo_parallel (hs : s.Coherent t settings) (h : s.Counterpart s') :
    Parallel Counterpart (echo s) (echo s') := by
  show Parallel Counterpart (write s.text s) (write s'.text s')
  rw [h.text_eq hs]
  exact write_inStep s.text s s' h

theorem more_inStep : InStep Counterpart more := by
  refine .modify fun s s' h => ?_
  obtain ⟨buffer, hbuffer, rfl⟩ := h
  exact ⟨buffer, hbuffer, rfl⟩

theorem Counterpart.tables_eq (h : s.Counterpart s') : s'.tables = s.tables := by
  obtain ⟨buffer, -, rfl⟩ := h
  rfl

theorem begin_inStep (sc : StartCondition) : InStep Counterpart (begin sc) := by
  refine .getThen fun s s' h => ?_
  rw [h.tables_eq]
  refine (InStep.liftFault _).bind (fun _ => .modify fun s s' h => ?_) s s' h
  obtain ⟨buffer, hbuffer, rfl⟩ := h
  exact ⟨buffer, hbuffer, rfl⟩

theorem beginNamed_inStep (name : String) : InStep Counterpart (beginNamed name) := by
  refine .getThen fun s s' h => ?_
  rw [h.tables_eq]
  cases s.tables.startCondition? name with
  | some sc => exact begin_inStep sc s s' h
  | none => exact .error h

/-- Unmatched bytes are written with the terminator still in place, but then there are none. -/
theorem flush_parallel (hs : s.Coherent t settings) (h : s.Counterpart s') :
    Parallel Counterpart (flush s) (flush s') := by
  cases hcovered : s.covered with
  | none =>
    exact (Twin.inStep Beside.flush_inStep s s' (h.twin hcovered)).mono fun _ _ => Twin.counterpart
  | some c =>
    have hnone := (hs.covered c hcovered).2.1.2
    have hright : s'.unmatched = none := by
      obtain ⟨buffer, -, rfl⟩ := h
      exact hnone
    have hskip {s : Scanner} (hunmatched : s.unmatched = none) : flush s = .ok () s := by
      simp only [flush, hunmatched]
    rw [hskip hnone, hskip hright]
    exact .ok h

theorem restart_parallel (hs : s.Coherent t settings) (h : s.Counterpart s') (source : Source) :
    Parallel Counterpart (restart source s) (restart source s') := by
  refine (flush_parallel hs h).bind (fun _ _ => id) fun _ s₁ s₁' _ h₁ => ?_
  refine h₁.bare (.modify fun s s' h => ?_)
  obtain ⟨hcovered, buffer, hbuffer, rfl⟩ := h
  exact ⟨hcovered, _, Buffer.Congruence.switchTo source hbuffer, rfl⟩

end Scanner

/-! ## Operations as data -/

section Perform

open Scanner

variable {t : Tables} {settings : BufferSettings} {s s' : Scanner}

/-- Every operation has the same result on both sides, or fails alike. -/
theorem Edit.perform_parallel (hs : s.Coherent t settings) (h : s.Counterpart s') (edit : Edit) :
    Parallel Counterpart (edit.perform s) (edit.perform s') := by
  cases edit with
  | input => exact input_parallel h
  | unput byte => exact silently_parallel (unput_parallel hs h byte)
  | unputAll bytes => exact silently_parallel (unputAll_parallel hs h bytes)
  | less n => exact silently_parallel (less_parallel hs h n)
  | more => exact silently_parallel (more_inStep s s' h)
  | echo => exact silently_parallel (echo_parallel hs h)
  | begin sc => exact silently_parallel (begin_inStep sc s s' h)
  | beginNamed name => exact silently_parallel (beginNamed_inStep name s s' h)
  | write bytes => exact silently_parallel (write_inStep bytes s s' h)
  | restart source => exact silently_parallel (restart_parallel hs h source)

end Perform

end Munch
