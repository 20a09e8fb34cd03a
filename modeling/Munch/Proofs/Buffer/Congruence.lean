-- SUMMARY: Relations of buffers that no read and no move can tell apart.
import Munch.Buffer.Read
import Munch.Proofs.Parallel

/-! # Congruences of buffers

What a buffer does depends on the bytes it holds, on its source, on the size of a block and on whether
it finds room to grow. A relation is a congruence if related buffers agree on these and moves, reads of
the source and growing keep it. Then reading does the same on both sides, and so does all that reads. -/

namespace Munch

namespace Buffer

/-- Two buffers hold the same bytes and read the same source in the same way. -/
structure Same (b b' : Buffer) : Prop where
  passed_eq : b'.passed = b.passed
  ahead_eq : b'.ahead = b.ahead
  source_eq : b'.source = b.source
  interactive_eq : b'.settings.interactive = b.settings.interactive
  blockSize_eq : b'.settings.blockSize = b.settings.blockSize

namespace Same

variable {b b' : Buffer}

theorem cursor_eq (h : b.Same b') : b'.cursor = b.cursor :=
  congrArg Array.size h.passed_eq

theorem filled_eq (h : b.Same b') : b'.filled = b.filled := by
  rw [filled, filled, h.passed_eq, h.ahead_eq]

theorem contents_eq (h : b.Same b') : b'.contents = b.contents := by
  rw [contents, contents, h.passed_eq, h.ahead_eq]

theorem pending_eq (h : b.Same b') : b'.pending = b.pending := by
  rw [pending, pending, h.ahead_eq, h.source_eq]

theorem slice_eq (h : b.Same b') (start stop : Nat) : b'.slice start stop = b.slice start stop := by
  rw [slice, slice, h.passed_eq, h.ahead_eq, h.cursor_eq]

theorem atLineStart_eq (h : b.Same b') : b'.atLineStart = b.atLineStart := by
  rw [atLineStart, atLineStart, h.passed_eq]

end Same

/-- Related buffers are the same for their readers, and stay related. -/
class Congruence (R : Buffer → Buffer → Prop) : Prop where
  same {b b' : Buffer} : R b b' → b.Same b'
  hold {b b' : Buffer} (passed : Array UInt8) (ahead stale stale' : List UInt8) : R b b' →
    R { b with passed, ahead, stale } { b' with passed, ahead, stale := stale' }
  receive {b b' : Buffer} (f : Fetch) : R b b' → R (b.receive f) (b'.receive f)
  switchTo {b b' : Buffer} (source : Source) : R b b' → R (b.switchTo source) (b'.switchTo source)
  reserve_inStep (minimum : Nat) : InStep R (reserve minimum)

variable {R : Buffer → Buffer → Prop} [Congruence R] {b b' : Buffer}

/-! ## Moves -/

theorem unread_related (h : R b b') : R b.unread b'.unread := by
  have hsame := Congruence.same h
  unfold unread
  rw [hsame.passed_eq, hsame.ahead_eq]
  split
  · exact Congruence.hold _ _ _ _ h
  · exact h

theorem seek_related (h : R b b') (offset : Nat) : R (b.seek offset) (b'.seek offset) := by
  have hsame := Congruence.same h
  unfold seek
  rw [hsame.passed_eq, hsame.ahead_eq, hsame.cursor_eq]
  split <;> exact Congruence.hold _ _ _ _ h

/-- As many bytes are dropped on both sides. -/
theorem trim_related (h : R b b') (keepFrom : Nat) :
    (b'.trim keepFrom).1 = (b.trim keepFrom).1 ∧ R (b.trim keepFrom).2 (b'.trim keepFrom).2 := by
  have hsame := Congruence.same h
  unfold trim
  rw [hsame.passed_eq, hsame.ahead_eq, hsame.cursor_eq, hsame.blockSize_eq]
  dsimp only
  split
  · exact ⟨rfl, h⟩
  · exact ⟨rfl, Congruence.hold _ b.ahead _ _ h⟩

/-! ## Reads -/

theorem fetch_inStep (count : Nat) : InStep R (fetch count) := by
  intro b b' h
  unfold fetch
  rw [(Congruence.same h).source_eq]
  dsimp only
  split
  · exact .ok (Congruence.receive _ h)
  · exact .error (Congruence.receive _ h)

theorem refillBlock_inStep : InStep R refillBlock := by
  refine .getThen fun b b' h => ?_
  have hsame := Congruence.same h
  rw [hsame.filled_eq, hsame.blockSize_eq]
  exact (Congruence.reserve_inStep _).bind (fun _ => (fetch_inStep _).bind fun _ => .pure _) b b' h

theorem refillByte_inStep : InStep R refillByte := by
  refine .getThen fun b b' h => ?_
  rw [(Congruence.same h).filled_eq]
  exact (Congruence.reserve_inStep _).bind (fun _ => (fetch_inStep _).bind fun _ => .pure _) b b' h

/-- One round of refilling a line. -/
theorem refillLine_eq (b : Buffer) : refillLine b = (refillByte >>= fun byte => match byte with
    | some byte => if byte = 10 then pure () else refillLine
    | none => pure ()) b := by
  rw [refillLine]
  simp only [Bind.bind, EStateM.bind]
  cases refillByte b with
  | error e b₁ => rfl
  | ok byte b₁ =>
    cases byte with
    | none => rfl
    | some byte => exact (apply_ite (· b₁) (byte = 10) (pure ()) refillLine).symm

theorem refillLine_inStep (b b' : Buffer) (h : R b b') :
    Parallel R (refillLine b) (refillLine b') := by
  rw [refillLine_eq b, refillLine_eq b']
  refine (refillByte_inStep b b' h).bind (fun _ _ => id) fun byte b₁ b₁' hrun h₁ => ?_
  cases byte with
  | none => exact .ok h₁
  | some byte =>
    dsimp only
    split
    · exact .ok h₁
    · exact refillLine_inStep b₁ b₁' h₁
  termination_by b.source.bytes.length
  decreasing_by exact length_lt_of_refillByte hrun

theorem refill_inStep : InStep R refill := by
  refine .getThen fun b b' h => ?_
  rw [(Congruence.same h).interactive_eq]
  split
  · exact refillLine_inStep b b' h
  · exact refillBlock_inStep b b' h

theorem pass_inStep : InStep R pass := by
  intro b b' h
  have hsame := Congruence.same h
  unfold pass
  rw [hsame.ahead_eq, hsame.passed_eq]
  split
  · exact .ok h
  · exact .ok (Congruence.hold _ _ _ _ h)

theorem readByte_inStep : InStep R readByte := by
  refine .getThen fun b b' h => ?_
  rw [(Congruence.same h).ahead_eq]
  split
  · exact refill_inStep.bind (fun _ => pass_inStep) b b' h
  · exact pass_inStep b b' h

theorem insert_inStep (byte : UInt8) : InStep R (insert byte) := by
  refine .getThen fun b b' h => ?_
  rw [(Congruence.same h).filled_eq]
  refine (Congruence.reserve_inStep _).bind (fun _ => .modify fun b b' h => ?_) b b' h
  have hsame := Congruence.same h
  rw [hsame.ahead_eq, hsame.passed_eq]
  exact Congruence.hold b.passed _ _ _ h

section Feed

variable {μ : Type} (live : μ → Bool) (step : μ → UInt8 → Nat → Except TableFault μ)

/-- One round of feeding. -/
theorem feed_eq (machine : μ) (b : Buffer) : feed live step machine b =
    (if live machine then readByte >>= fun byte => match byte with
      | some byte => fun b => match step machine byte b.cursor with
        | .ok machine => feed live step machine b
        | .error fault => .error (.malformed fault) b
      | none => pure machine
    else pure machine : BufferM μ) b := by
  rw [feed]
  split
  · simp only [Bind.bind, EStateM.bind]
    cases readByte b with
    | error e b₁ => rfl
    | ok byte b₁ => cases byte <;> rfl
  · rfl

theorem feed_inStep (machine : μ) (b b' : Buffer) (h : R b b') :
    Parallel R (feed live step machine b) (feed live step machine b') := by
  rw [feed_eq live step machine b, feed_eq live step machine b']
  split
  · refine (readByte_inStep b b' h).bind (fun _ _ => id) fun byte b₁ b₁' hrun h₁ => ?_
    cases byte with
    | none => exact .ok h₁
    | some byte =>
      simp only [(Congruence.same h₁).cursor_eq]
      split
      · exact feed_inStep _ b₁ b₁' h₁
      · exact .error h₁
  · exact .ok h
  termination_by b.remaining
  decreasing_by
    have hless := remaining_of_readByte hrun
    omega

end Feed

/-! ## New buffers -/

/-- Growing changes only the capacity, so a change of anything else can be made before it or after. -/
theorem reserve_map {f : Buffer → Buffer} {minimum : Nat}
    (hf : ∀ capacity, f { b with capacity } = { f b with capacity })
    (hgrown : (f b).grown? minimum = b.grown? minimum) :
    reserve minimum (f b) = onFinal f (reserve minimum b) := by
  have hcapacity : (f b).capacity = b.capacity := (congrArg capacity (hf b.capacity) :)
  unfold reserve
  rw [hcapacity, hgrown]
  split
  · rfl
  · cases b.grown? minimum with
    | none => rfl
    | some capacity => exact congrArg (EStateM.Result.ok ()) (hf capacity).symm

/-- So can a change of the empty buffer that a new one starts as. -/
theorem create_map {f : Buffer → Buffer} {settings settings' : BufferSettings}
    {source source' : Source} (hinitial : settings'.initialCapacity = settings.initialCapacity)
    (hempty : { settings := { settings' with blockSize := max settings'.blockSize 1 }
                source := source' } =
      f { settings := { settings with blockSize := max settings.blockSize 1 }, source })
    (hreserve : ∀ minimum b, reserve minimum (f b) = onFinal f (reserve minimum b)) :
    create settings' source' = (create settings source).map f := by
  unfold create
  dsimp only
  rw [hempty, hinitial, hreserve]
  cases reserve (max settings.initialCapacity 1)
    { settings := { settings with blockSize := max settings.blockSize 1 }, source } <;> rfl

end Buffer

end Munch
