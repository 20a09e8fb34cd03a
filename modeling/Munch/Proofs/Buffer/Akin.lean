-- SUMMARY: Buffers with different pasts: what is left of them, capacities and stale bytes, is never read.
import Munch.Proofs.Buffer.Congruence
import Munch.Proofs.Buffer.Growth

/-! # Akin buffers

Two buffers hold the same bytes over the same source but have come there on different ways: one may be
larger, have other bytes behind its last one and have read more. Without a limit, both are denied room
for the same requests. -/

namespace Munch

namespace Buffer

/-- Two buffers without terminators and without a limit that hold the same and are set the same. -/
structure Akin (b b' : Buffer) : Prop where
  same : b.Same b'
  settings_eq : b'.settings = b.settings
  plain : b.settings.terminator = none
  unlimited : b.settings.capacityLimit = none
  regular : b.Regular
  regular' : b'.Regular

namespace Akin

variable {b b' : Buffer}

theorem setCapacity {capacity capacity' : Nat} (h : b.Akin b')
    (hregular : Regular { b with capacity })
    (hregular' : Regular { b' with capacity := capacity' }) :
    Akin { b with capacity } { b' with capacity := capacity' } :=
  { h with
    same := ⟨h.same.passed_eq, h.same.ahead_eq, h.same.source_eq, h.same.interactive_eq,
      h.same.blockSize_eq⟩
    regular := hregular
    regular' := hregular' }

theorem reserve_inStep (minimum : Nat) : InStep Akin (reserve minimum) := by
  intro b b' h
  have hleft := (reserve_ends minimum b).and (reserve_regular h.unlimited h.regular.power
    fun _ : minimum ≤ b.capacity => h.regular)
  have hright := (reserve_ends minimum b').and (reserve_regular (h.settings_eq ▸ h.unlimited)
    h.regular'.power fun _ : minimum ≤ b'.capacity => h.regular')
  cases hrun : reserve minimum b with
  | ok u b₁ =>
    obtain ⟨hreserved, hregular⟩ := hleft.ok hrun
    obtain ⟨capacity, rfl⟩ := hreserved.eq
    cases hrun' : reserve minimum b' with
    | ok u' b₁' =>
      obtain ⟨hreserved', hregular'⟩ := hright.ok hrun'
      obtain ⟨capacity', rfl⟩ := hreserved'.eq
      exact .ok (h.setCapacity hregular hregular')
    | error e b₁' =>
      obtain ⟨-, -, hdenied⟩ := hright.error hrun'
      exact absurd hreserved.minimum_le (Nat.not_le_of_lt (hdenied _ (h.settings_eq ▸ hregular)))
  | error e b₁ =>
    obtain ⟨⟨rfl, rfl⟩, -, hdenied⟩ := hleft.error hrun
    cases hrun' : reserve minimum b' with
    | ok u' b₁' =>
      obtain ⟨hreserved', hregular'⟩ := hright.ok hrun'
      obtain ⟨capacity', rfl⟩ := hreserved'.eq
      have hregular : b₁.settings.Regular capacity' := h.settings_eq ▸ hregular'
      exact absurd hreserved'.minimum_le (Nat.not_le_of_lt (hdenied _ hregular))
    | error e' b₁' =>
      obtain ⟨⟨rfl, rfl⟩, -⟩ := hright.error hrun'
      exact .error h

instance : Congruence Akin where
  same := same
  hold passed ahead stale stale' h := by
    have hsource := h.same.source_eq
    exact { h with same := ⟨rfl, rfl, hsource, h.same.interactive_eq, h.same.blockSize_eq⟩ }
  receive f h := by
    have hahead := h.same.ahead_eq
    exact { h with same := ⟨h.same.passed_eq, congrArg (· ++ f.delivered) hahead, rfl,
      h.same.interactive_eq, h.same.blockSize_eq⟩ }
  switchTo source h :=
    { h with same := ⟨rfl, rfl, rfl, h.same.interactive_eq, h.same.blockSize_eq⟩ }
  reserve_inStep := reserve_inStep

end Akin

end Buffer

end Munch
