-- SUMMARY: How a buffer grows: by doublings to the first one that is enough, so without a limit to a power of two.
import Mathlib.Algebra.Group.Nat.Defs
import Munch.Proofs.Buffer.Carried

/-! # Growth

A buffer starts with no capacity and grows by doublings. Unless a limit cuts them down all capacities
are powers of two; then how large a buffer is when it asks for more has no part in what it gets. -/

namespace Munch

/-- In an ascending list the first hit is no more than any other. -/
theorem find?_le_of_mem {p : Nat → Bool} {xs : List Nat} (hxs : xs.Pairwise (· ≤ ·)) {x : Nat}
    (hx : x ∈ xs) (hp : p x = true) : ∃ y, xs.find? p = some y ∧ y ≤ x := by
  induction hxs with
  | nil => cases hx
  | @cons y ys hle _ ih =>
    cases hy : p y with
    | true =>
      refine ⟨y, List.find?_cons_of_pos hy, ?_⟩
      rcases List.mem_cons.1 hx with rfl | hmem
      · exact Nat.le_refl _
      · exact hle x hmem
    | false =>
      rw [List.find?_cons_of_neg (Bool.eq_false_iff.1 hy)]
      rcases List.mem_cons.1 hx with rfl | hmem
      · exact absurd hp (Bool.eq_false_iff.1 hy)
      · exact ih hmem

/-- A capacity of a buffer without a limit: a power of two that fits a word and the memory. -/
def BufferSettings.Regular (settings : BufferSettings) (capacity : Nat) : Prop :=
  ∃ k < 64, capacity = 2 ^ k ∧ capacity ≤ settings.heapLimit

namespace Buffer

/-- The capacity is one of a buffer without a limit. -/
def Regular (b : Buffer) : Prop :=
  b.settings.Regular b.capacity

variable {b b' : Buffer} {minimum size : Nat}

theorem doublings_ascending (capacity : Nat) : (doublings capacity).Pairwise (· ≤ ·) := by
  unfold doublings
  apply List.pairwise_map.2
  apply List.pairwise_lt_range.imp
  intro i j hlt
  rw [Nat.shiftLeft_eq, Nat.shiftLeft_eq]
  exact Nat.mul_le_mul_left _ (Nat.pow_le_pow_right Nat.two_pos (Nat.le_of_lt hlt))

/-- The first doubling that reaches a number stays below its double. -/
theorem exists_shift {m n : Nat} (hm : m < 2 * n) (j : Nat) (hj : n ≤ m <<< j) :
    ∃ i, n ≤ m <<< i ∧ m <<< i < 2 * n := by
  induction j with
  | zero => exact ⟨0, hj, hm⟩
  | succ j ih =>
    by_cases hreached : n ≤ m <<< j
    · exact ih hreached
    · refine ⟨j + 1, hj, ?_⟩
      rw [Nat.shiftLeft_succ]
      omega

theorem exists_doubling {capacity n : Nat} (hlt : capacity < n) (hword : 2 * n ≤ UInt64.size) :
    ∃ c ∈ doublings capacity, n ≤ c ∧ c < 2 * n := by
  have hpos : 0 < max capacity 1 := Nat.le_max_right _ _
  have hreach : n ≤ max capacity 1 <<< n := by
    rw [Nat.shiftLeft_eq]
    calc n ≤ 2 ^ n := Nat.le_of_lt Nat.lt_two_pow_self
      _ ≤ max capacity 1 * 2 ^ n := Nat.le_mul_of_pos_left _ hpos
  obtain ⟨i, hle, hbelow⟩ := exists_shift (by omega) n hreach
  refine ⟨_, List.mem_map.2 ⟨i, List.mem_range.2 ?_, rfl⟩, hle, hbelow⟩
  apply (Nat.pow_lt_pow_iff_right Nat.one_lt_two).1
  calc 2 ^ i ≤ max capacity 1 * 2 ^ i := Nat.le_mul_of_pos_left _ hpos
    _ = max capacity 1 <<< i := (Nat.shiftLeft_eq _ _).symm
    _ < 2 ^ 64 := Nat.lt_of_lt_of_le hbelow hword

/-- A doubling that is enough, and that word and memory hold, shows that the buffer can grow. -/
theorem grown?_of_mem (hlimit : b.settings.capacityLimit = none) (hmem : size ∈ doublings b.capacity)
    (hle : minimum ≤ size) (hword : size < UInt64.size) (hheap : size ≤ b.settings.heapLimit) :
    ∃ size', b.grown? minimum = some size' := by
  obtain ⟨size', hfind, hsize⟩ := find?_le_of_mem (p := fun c => minimum ≤ c && c < UInt64.size)
    (doublings_ascending b.capacity) hmem (by simp [hle, hword])
  refine ⟨size', ?_⟩
  unfold grown?
  rw [hlimit]
  dsimp only
  rw [hfind]
  exact Option.filter_eq_some_iff.2 ⟨rfl, decide_eq_true (Nat.le_trans hsize hheap)⟩

/-! ## Powers of two -/

/-- From a power of two, or from nothing, a buffer grows to a power of two. -/
theorem regular_of_grown? (hlimit : b.settings.capacityLimit = none)
    (hpower : ∃ k, max b.capacity 1 = 2 ^ k) (h : b.grown? minimum = some size) :
    b.settings.Regular size := by
  obtain ⟨k, hk⟩ := hpower
  simp only [grown?, hlimit, Option.filter_eq_some_iff, decide_eq_true_eq] at h
  obtain ⟨hfind, hheap⟩ := h
  obtain ⟨j, -, rfl⟩ := List.mem_map.1 (List.mem_of_find?_eq_some hfind)
  have hword := List.find?_some hfind
  simp only [Bool.and_eq_true, decide_eq_true_eq] at hword
  have hsize : max b.capacity 1 <<< j = 2 ^ (k + j) := by rw [Nat.shiftLeft_eq, hk, Nat.pow_add]
  rw [hsize] at hword hheap ⊢
  exact ⟨k + j, (Nat.pow_lt_pow_iff_right Nat.one_lt_two).1 hword.2, rfl, hheap⟩

/-- A regular capacity that is enough is one of the doublings. -/
theorem grown?_of_regular (hlimit : b.settings.capacityLimit = none)
    (hpower : ∃ k, max b.capacity 1 = 2 ^ k) (hlt : b.capacity < minimum) (hle : minimum ≤ size)
    (hsize : b.settings.Regular size) : ∃ size', b.grown? minimum = some size' := by
  obtain ⟨k, hk⟩ := hpower
  obtain ⟨i, hi, rfl, hheap⟩ := hsize
  have hword : 2 ^ i < UInt64.size := (Nat.pow_lt_pow_iff_right Nat.one_lt_two).2 hi
  have hki : k ≤ i := by
    apply (Nat.pow_le_pow_iff_right Nat.one_lt_two).1
    rw [← hk]
    exact Nat.max_le.2 ⟨Nat.le_of_lt (Nat.lt_of_lt_of_le hlt hle), Nat.two_pow_pos i⟩
  refine grown?_of_mem hlimit (List.mem_map.2 ⟨i - k, List.mem_range.2 (by omega), ?_⟩) hle hword hheap
  rw [Nat.shiftLeft_eq, hk, ← Nat.pow_add, Nat.add_sub_cancel' hki]

theorem Regular.power (h : b.Regular) : ∃ k, max b.capacity 1 = 2 ^ k := by
  obtain ⟨k, -, hk, -⟩ := h
  exact ⟨k, by rw [hk]; exact Nat.max_eq_left (Nat.two_pow_pos k)⟩

/-- Without a limit a buffer is denied room only if no regular capacity is enough. -/
theorem reserve_regular (hlimit : b.settings.capacityLimit = none)
    (hpower : ∃ k, max b.capacity 1 = 2 ^ k) (hregular : minimum ≤ b.capacity → b.Regular) :
    ends (reserve minimum) (fun _ b' => b'.Regular)
      (fun _ b' => b' = b ∧ ∀ size, b.settings.Regular size → size < minimum) b := by
  by_cases hroom : minimum ≤ b.capacity
  · have hrun : reserve minimum b = .ok () b := by simp only [reserve, hroom, if_true]
    exact .of_ok hrun (hregular hroom)
  · cases hgrown : b.grown? minimum with
    | some size =>
      have hrun : reserve minimum b = .ok () { b with capacity := size } := by
        simp only [reserve, hroom, if_false, hgrown]
      exact .of_ok hrun (regular_of_grown? (b := b) hlimit hpower hgrown)
    | none =>
      have hrun : reserve minimum b = .error (.allocation minimum) b := by
        simp only [reserve, hroom, if_false, hgrown]
      refine .of_error hrun ⟨rfl, fun size hsize => Nat.lt_of_not_le fun hle => ?_⟩
      obtain ⟨size', hgrown'⟩ := grown?_of_regular hlimit hpower (Nat.lt_of_not_le hroom) hle hsize
      rw [hgrown] at hgrown'
      cases hgrown'

/-- A new buffer without a limit has a regular capacity. -/
theorem create_regular {settings : BufferSettings} {source : Source}
    (hlimit : settings.capacityLimit = none) (h : create settings source = .ok b) : b.Regular := by
  unfold create at h
  dsimp only at h
  split at h
  · rename_i hreserve
    obtain rfl := Except.ok.inj h
    refine (reserve_regular ?_ ⟨0, rfl⟩ fun hroom => ?_).ok hreserve
    · exact hlimit
    · exact absurd (Nat.le_trans (Nat.le_max_right _ 1) hroom) (Nat.not_succ_le_zero 0)
  · cases h

/-- The settings are the same, and unless they set a limit the capacity stays regular. -/
structure StaysRegular (b b' : Buffer) : Prop where
  settings_eq : b'.settings = b.settings
  regular : b.settings.capacityLimit = none → b.Regular → b'.Regular

instance : Carried StaysRegular where
  refl _ := ⟨rfl, fun _ => id⟩
  trans h h' := ⟨h'.settings_eq.trans h.settings_eq, fun hlimit hb =>
    h'.regular (h.settings_eq.symm ▸ hlimit) (h.regular hlimit hb)⟩
  hold _ _ _ _ := ⟨rfl, fun _ => id⟩
  reserve minimum b := by
    obtain ⟨capacity, -, h⟩ := reserve_final minimum b
    refine ⟨by rw [h], fun hlimit hb => ?_⟩
    refine ((reserve_regular hlimit hb.power fun _ => hb).mono (fun _ _ => id) fun _ b' h' => ?_).final
    exact h'.1 ▸ hb
  fetch count b := by
    rw [fetch_final]
    exact ⟨rfl, fun _ => id⟩

end Buffer

end Munch
