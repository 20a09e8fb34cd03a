-- SUMMARY: Buffers that differ in their terminator only: no operation of a buffer tells them apart.
import Munch.Proofs.Buffer.Congruence

/-! # Twin buffers

The twin of a buffer holds the same bytes but puts no terminators. Without them other bytes are left in
the slots behind the last one. No operation of a buffer depends on either. -/

namespace Munch

namespace Buffer

/-- The buffer, set not to put terminators. -/
def plain (b : Buffer) : Buffer :=
  { b with settings := { b.settings with terminator := none } }

/-- The second buffer is the first one as it is without terminators. -/
def Twin (b b' : Buffer) : Prop :=
  ∃ stale, b' = { b with settings := { b.settings with terminator := none }, stale }

namespace Twin

variable {b b' : Buffer}

theorem same (h : b.Twin b') : b.Same b' := by
  obtain ⟨stale, rfl⟩ := h
  exact ⟨rfl, rfl, rfl, rfl, rfl⟩

theorem capacity_eq (h : b.Twin b') : b'.capacity = b.capacity := by
  obtain ⟨stale, rfl⟩ := h
  rfl

theorem grown?_eq (h : b.Twin b') (minimum : Nat) : b'.grown? minimum = b.grown? minimum := by
  obtain ⟨stale, rfl⟩ := h
  rfl

theorem reserve_inStep (minimum : Nat) : InStep Twin (reserve minimum) := by
  intro b b' h
  unfold reserve
  rw [h.capacity_eq, h.grown?_eq]
  obtain ⟨stale, rfl⟩ := h
  split
  · exact .ok ⟨stale, rfl⟩
  · split
    · exact .ok ⟨stale, rfl⟩
    · exact .error ⟨stale, rfl⟩

instance : Congruence Twin where
  same := same
  hold passed ahead stale stale' := by
    rintro ⟨_, rfl⟩
    exact ⟨stale', rfl⟩
  receive f := by
    rintro ⟨stale, rfl⟩
    exact ⟨_, rfl⟩
  switchTo source := by
    rintro ⟨stale, rfl⟩
    exact ⟨_, rfl⟩
  reserve_inStep := reserve_inStep

end Twin

/-! ## New buffers -/

/-- Creating a buffer that puts no terminators fails as it does for one that does. -/
theorem create_plain (settings : BufferSettings) (source : Source) :
    create { settings with terminator := none } source = (create settings source).map plain :=
  create_map rfl rfl fun _ _ => reserve_map (fun _ => rfl) rfl

end Buffer

end Munch
