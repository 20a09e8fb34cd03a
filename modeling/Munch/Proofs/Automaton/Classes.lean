-- SUMMARY: Byte classes merge only bytes with equal keys, and each class has a representative.
import Munch.Automaton.Classes

/-! # Byte classes

A partition by keys loses nothing that depends on the key alone: the representative of the class of
a byte has the key of that byte. -/

namespace Munch

/-! ## Removing duplicates -/

theorem eraseDups_sublist {α : Type} [BEq α] (l : List α) : l.eraseDups.Sublist l := by
  induction h : l.length using Nat.strongRecOn generalizing l with
  | ind n ih =>
    cases l with
    | nil => exact .slnil
    | cons a rest =>
      rw [List.eraseDups_cons]
      have hshort : (rest.filter fun b => !b == a).length < n :=
        h ▸ Nat.lt_succ_of_le (List.length_filter_le _ rest)
      exact ((ih _ hshort _ rfl).trans List.filter_sublist).cons_cons a

/-- Ascending elements without duplicates ascend strictly. -/
theorem pairwise_lt_eraseDups {l : List UInt32} (h : l.Pairwise (· ≤ ·)) :
    l.eraseDups.Pairwise (· < ·) := by
  induction hn : l.length using Nat.strongRecOn generalizing l with
  | ind n ih =>
    cases l with
    | nil => exact .nil
    | cons a rest =>
      rw [List.eraseDups_cons]
      have hshort : (rest.filter fun b => !b == a).length < n :=
        hn ▸ Nat.lt_succ_of_le (List.length_filter_le _ rest)
      refine .cons (fun b hb => ?_) (ih _ hshort (h.of_cons.filter _) rfl)
      obtain ⟨hmem, hne⟩ := List.mem_filter.1 (List.mem_eraseDups.1 hb)
      refine UInt32.lt_of_le_of_ne (List.rel_of_pairwise_cons h hmem) fun hab => ?_
      rw [hab, beq_self_eq_true] at hne
      exact Bool.noConfusion hne

namespace ByteClasses

variable {κ : Type} [DecidableEq κ] {key : UInt8 → κ}

/-! ## Partitions by keys -/

theorem getElem?_keys (key : UInt8 → κ) (byte : UInt8) :
    (allBytes.map key)[byte.toNat]? = some (key byte) := by
  have hbyte : byte.toNat < 256 := byte.toNat_lt
  rw [allBytes, List.getElem?_map, List.getElem?_map, List.getElem?_range hbyte, Option.map_some,
    Option.map_some, UInt8.ofNat_toNat]

theorem length_classOf : (ofKey key).classOf.length = 256 := by
  simp only [ofKey, allBytes, List.length_map, List.length_range]

theorem count_le : (ofKey key).count ≤ 256 := by
  have hle := (eraseDups_sublist (allBytes.map key)).length_le
  simpa only [ofKey, count, allBytes, List.length_map, List.length_range] using hle

theorem lt_count {c : ByteClass} (hc : c ∈ (ofKey key).classOf) : c < (ofKey key).count := by
  obtain ⟨k, hk, rfl⟩ := List.mem_map.1 hc
  have hlt := List.idxOf_lt_length_of_mem (List.mem_eraseDups.2 hk)
  simpa only [ofKey, count, List.length_map] using hlt

/-- The smallest byte with a key has that key. -/
theorem key_idxOf {k : κ} (hk : k ∈ allBytes.map key) :
    key (UInt8.ofNat ((allBytes.map key).idxOf k)) = k := by
  have hlt := List.idxOf_lt_length_of_mem hk
  have hbound : (allBytes.map key).idxOf k < 256 := by
    simpa only [allBytes, List.length_map, List.length_range] using hlt
  have hbyte := getElem?_keys key (UInt8.ofNat ((allBytes.map key).idxOf k))
  rw [UInt8.toNat_ofNat_of_lt' hbound, List.getElem?_eq_getElem hlt, List.getElem_idxOf] at hbyte
  exact (Option.some.inj hbyte).symm

/-- The class of a byte is represented by a byte with the same key. -/
theorem exists_representative (key : UInt8 → κ) (byte : UInt8) :
    ∃ c, (ofKey key).classOf[byte.toNat]? = some c ∧ ∃ rep, (ofKey key).representatives[c]? = some rep ∧ key rep = key byte := by
  have hmem : key byte ∈ allBytes.map key := List.mem_of_getElem? (getElem?_keys key byte)
  have hlt := List.idxOf_lt_length_of_mem (List.mem_eraseDups.2 hmem)
  refine ⟨(allBytes.map key).eraseDups.idxOf (key byte), ?_,
    UInt8.ofNat ((allBytes.map key).idxOf (key byte)), ?_, key_idxOf hmem⟩
  · unfold ofKey
    rw [List.getElem?_map, getElem?_keys, Option.map_some]
  · simp only [ofKey, List.getElem?_map, List.getElem?_eq_getElem hlt, List.getElem_idxOf,
      Option.map_some]

end ByteClasses

end Munch
