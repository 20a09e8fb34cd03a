-- SUMMARY: Byte classes are exact and as few as possible: one for each column, in the order of the bytes.
import Mathlib.Data.Finset.Card
import Munch.Proofs.Automaton.Pack

/-! # Partitions of the bytes

Bytes on which all states go the same way share a class, and others do not: merging more would change
the language, and merging less would waste slots. Columns are met in the order of the bytes, so each
place in the list of distinct columns belongs to the byte at which its column is met first. -/

namespace Munch

/-! ## First occurrences -/

section Occurrences

variable {α : Type} [DecidableEq α]

/-- An element does not occur before its first occurrence. -/
theorem idxOf_le_of_getElem? {l : List α} {a : α} {i : Nat} (h : l[i]? = some a) :
    l.idxOf a ≤ i := by
  refine Nat.le_of_not_lt fun hlt => ?_
  obtain ⟨hi, heq⟩ := List.getElem?_eq_some_iff.1 h
  have hbefore := List.not_of_lt_findIdx hlt
  rw [heq, beq_self_eq_true] at hbefore
  exact Bool.noConfusion hbefore

/-- The last element is kept if it is new. -/
theorem eraseDups_concat (l : List α) (a : α) :
    (l ++ [a]).eraseDups = if a ∈ l then l.eraseDups else l.eraseDups ++ [a] := by
  rw [List.eraseDups_append, List.removeAll]
  split <;> rename_i ha <;> simp [ha, List.eraseDups_cons]

/-- Without its duplicates a list is in the order of first occurrences. -/
theorem pairwise_idxOf_eraseDups (l : List α) :
    l.eraseDups.Pairwise fun a b => l.idxOf a < l.idxOf b := by
  induction l using List.reverseRecOn with
  | nil => exact .nil
  | append_singleton l a ih =>
    have hold : ∀ b ∈ l.eraseDups, (l ++ [a]).idxOf b = l.idxOf b := fun b hb => by
      rw [List.idxOf_append, if_pos (List.mem_eraseDups.1 hb)]
    have hseen : l.eraseDups.Pairwise fun b c => (l ++ [a]).idxOf b < (l ++ [a]).idxOf c :=
      ih.imp_of_mem fun {b c} hb hc hlt => by rwa [hold b hb, hold c hc]
    rw [eraseDups_concat]
    split
    · exact hseen
    · rename_i hnew
      refine List.pairwise_append.2 ⟨hseen, List.pairwise_singleton _ _, fun b hb c hc => ?_⟩
      rw [List.mem_singleton.1 hc, hold b hb, List.idxOf_append, if_neg hnew]
      exact Nat.lt_of_lt_of_le (List.idxOf_lt_length_of_mem (List.mem_eraseDups.1 hb))
        (Nat.le_add_left _ _)

theorem nodup_eraseDups (l : List α) : l.eraseDups.Nodup := by
  refine (pairwise_idxOf_eraseDups l).imp fun {a b} hlt heq => ?_
  rw [heq] at hlt
  exact Nat.lt_irrefl _ hlt

end Occurrences

/-! ## Partitions by keys -/

namespace ByteClasses

/-- The partition tells bytes apart exactly where they are not alike, and numbers its classes by their
smallest bytes. -/
structure Exact (p : ByteClasses) (alike : UInt8 → UInt8 → Prop) : Prop where
  size_eq : p.classOf.length = 256
  /-- Two bytes have the same class if and only if they are alike. -/
  same_iff : ∀ byte byte' : UInt8, p.classOf[byte.toNat]? = p.classOf[byte'.toNat]? ↔ alike byte byte'
  /-- The classes are the numbers below their count. -/
  mem_iff : ∀ c, c ∈ p.classOf ↔ c < p.count
  /-- A class is represented by its smallest byte. -/
  least : ∀ (c : ByteClass) (rep : UInt8), p.representatives[c]? = some rep →
    p.classOf[rep.toNat]? = some c ∧ ∀ byte : UInt8, p.classOf[byte.toNat]? = some c → rep ≤ byte
  /-- The classes are numbered in the order of their smallest bytes. -/
  ascending : p.representatives.Pairwise (· < ·)

variable {κ : Type} [DecidableEq κ] (key : UInt8 → κ)

theorem mem_keys (byte : UInt8) : key byte ∈ allBytes.map key :=
  List.mem_of_getElem? (getElem?_keys key byte)

/-- The class of a byte is the place of its key among the distinct ones. -/
theorem getElem?_classOf (byte : UInt8) :
    (ofKey key).classOf[byte.toNat]? = some ((allBytes.map key).eraseDups.idxOf (key byte)) := by
  unfold ofKey
  rw [List.getElem?_map, getElem?_keys, Option.map_some]

/-- There are as many classes as distinct keys. -/
theorem count_ofKey : (ofKey key).count = (allBytes.map key).toFinset.card := by
  have hsame : (allBytes.map key).toFinset = (allBytes.map key).eraseDups.toFinset :=
    Finset.ext fun k => by rw [List.mem_toFinset, List.mem_toFinset, List.mem_eraseDups]
  rw [hsame, List.toFinset_card_of_nodup (nodup_eraseDups _), ofKey, count, List.length_map]

/-- The representatives are the places of the first bytes with each key. -/
theorem ascending_ofKey : (ofKey key).representatives.Pairwise (· < ·) := by
  refine List.pairwise_map.2 ((pairwise_idxOf_eraseDups _).imp_of_mem fun {k k'} _ hk' hlt => ?_)
  have hbound : (allBytes.map key).idxOf k' < 256 := by
    simpa [allBytes] using List.idxOf_lt_length_of_mem (List.mem_eraseDups.1 hk')
  rw [UInt8.lt_iff_toNat_lt, UInt8.toNat_ofNat_of_lt' (Nat.lt_trans hlt hbound),
    UInt8.toNat_ofNat_of_lt' hbound]
  exact hlt

/-- A partition by keys is exact for the bytes that have the same key. -/
theorem ofKey_exact : (ofKey key).Exact fun byte byte' => key byte = key byte' where
  size_eq := length_classOf
  same_iff byte byte' := by
    have hmem := List.mem_eraseDups.2 (mem_keys key byte)
    rw [getElem?_classOf, getElem?_classOf, Option.some_inj, List.idxOf_inj hmem]
  mem_iff c := by
    refine ⟨lt_count, fun hc => ?_⟩
    have hlt : c < (allBytes.map key).eraseDups.length := by
      rwa [count, ofKey, List.length_map] at hc
    refine List.mem_map.2 ⟨_, List.mem_eraseDups.1 (List.getElem_mem hlt), ?_⟩
    exact (nodup_eraseDups _).idxOf_getElem c hlt
  least c rep hrep := by
    obtain ⟨k, hk, rfl⟩ := Option.map_eq_some_iff.1 ((List.getElem?_map ..).symm.trans hrep)
    obtain ⟨hlt, hget⟩ := List.getElem?_eq_some_iff.1 hk
    have hmem : k ∈ allBytes.map key := List.mem_eraseDups.1 (List.mem_of_getElem? hk)
    have hplace : (allBytes.map key).eraseDups.idxOf k = c :=
      hget ▸ (nodup_eraseDups _).idxOf_getElem c hlt
    refine ⟨by rw [getElem?_classOf, key_idxOf hmem, hplace], fun byte hbyte => ?_⟩
    -- A byte of this class has the key, and so is not before the first one that has it.
    rw [getElem?_classOf, Option.some_inj, ← hplace,
      List.idxOf_inj (List.mem_eraseDups.2 (mem_keys key byte))] at hbyte
    have hfirst : (allBytes.map key).idxOf k ≤ byte.toNat :=
      idxOf_le_of_getElem? (hbyte ▸ getElem?_keys key byte)
    rw [UInt8.le_iff_toNat_le, UInt8.toNat_ofNat_of_lt' (Nat.lt_of_le_of_lt hfirst byte.toNat_lt)]
    exact hfirst
  ascending := ascending_ofKey key

/-- The partition by the columns of some rows, each a target for every byte. -/
def ofRows (rows : List (UInt8 → Option State)) : ByteClasses :=
  .ofKey fun byte => rows.map (· byte)

theorem ofRows_exact (rows : List (UInt8 → Option State)) :
    (ofRows rows).Exact fun byte byte' => ∀ row ∈ rows, row byte = row byte' := by
  have hcolumns := ofKey_exact fun byte => rows.map (· byte)
  simpa only [ofRows, List.map_inj_left] using hcolumns

end ByteClasses

/-! ## Packed tables -/

namespace Automaton

variable {a : Automaton}

theorem byteClasses_eq (a : Automaton) :
    a.byteClasses = .ofRows (a.nodes.toList.map Node.step?) := by
  simp only [byteClasses, ByteClasses.ofRows, List.map_map]
  rfl

/-- The classes fit the entries of the tables. -/
theorem classOf_toTables : a.toTables.classOf.toList.map (·.toNat) = a.byteClasses.classOf := by
  have hentry : ∀ c ∈ a.byteClasses.classOf, (UInt32.ofNat c).toNat = c := fun c hc =>
    UInt32.toNat_ofNat_of_lt' (Nat.lt_of_lt_of_le (ByteClasses.lt_count hc)
      (Nat.le_trans ByteClasses.count_le (by decide)))
  simp only [toTables, List.map_map]
  exact (List.map_congr_left hentry).trans (List.map_id _)

/-- The tables count all classes, as the last one occurs among those of the bytes. -/
theorem classCount_eq : a.toTables.classCount = a.byteClasses.count := by
  refine Nat.le_antisymm classCount_toTables (Nat.le_of_not_lt fun hlt => ?_)
  have hmem := ((ByteClasses.ofKey_exact a.column).mem_iff _).2 hlt
  rw [← byteClasses, ← classOf_toTables] at hmem
  obtain ⟨entry, hentry, hcount⟩ := List.mem_map.1 hmem
  have hbelow := Tables.lt_classCount (Array.mem_toList_iff.1 hentry)
  exact absurd hcount (Nat.ne_of_lt hbelow)

/-- The classes are exact for all rows, so for every description. Packed tables have these classes, one
for each distinct column. -/
theorem byteClasses_exact :
    (∀ rows : List (UInt8 → Option State),
      (ByteClasses.ofRows rows).Exact fun byte byte' => ∀ row ∈ rows, row byte = row byte') ∧
    ∀ a : Automaton, a.byteClasses = .ofRows (a.nodes.toList.map Node.step?) ∧
      ∀ t, a.pack = .ok t → t.classOf.toList.map (·.toNat) = a.byteClasses.classOf ∧
        t.classCount = (allBytes.map a.column).toFinset.card := by
  refine ⟨ByteClasses.ofRows_exact, fun a => ⟨a.byteClasses_eq, fun t ht => ?_⟩⟩
  obtain ⟨-, -, rfl⟩ := pack_eq_ok_iff.1 ht
  exact ⟨classOf_toTables, classCount_eq.trans (ByteClasses.count_ofKey a.column)⟩

/-- The letter q, the other letters, and the rest. -/
theorem byteClasses_exact_untilQ : ∃ t, untilQ.pack = .ok t ∧ t.classCount = 3 := by
  have hwf : untilQ.WellFormed := ⟨by decide, by decide, by decide, by decide, by decide⟩
  have hpack := pack_of_wellFormed (by decide) hwf
  have hcolumns : (allBytes.map untilQ.column).toFinset.card = 3 := by decide +kernel
  exact ⟨_, hpack, ((byteClasses_exact.2 untilQ).2 _ hpack).2.trans hcolumns⟩

end Automaton

end Munch
