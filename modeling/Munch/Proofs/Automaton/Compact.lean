-- SUMMARY: Packing is compact: one slot for each entry, and as few entries as the fallbacks allow.
import Mathlib.Algebra.GroupWithZero.Nat
import Mathlib.Algebra.Order.BigOperators.Group.List
import Mathlib.Algebra.Order.Group.Nat
import Mathlib.Data.List.Perm.Subperm
import Munch.Proofs.Automaton.Partition

/-! # Compactness

A row costs the fewest entries that it can be stored with: its live ones, or those in which it
differs from an earlier row. A placement owns one more slot for each entry and leaves all owned slots
alone, so the owned slots are as many as the costs of all rows. -/

namespace Munch

/-! ## The cost of a row -/

namespace Row

/-- The entries a row needs, given the rows it may fall back to. -/
def cost (row : Row) (earlier : List Row) : Nat :=
  (earlier.map row.differences).foldl min row.live

theorem cost_nil (row : Row) : row.cost [] = row.live :=
  rfl

theorem cost_concat (row : Row) (earlier : List Row) (other : Row) :
    row.cost (earlier ++ [other]) = min (row.cost earlier) (row.differences other) := by
  rw [cost, List.map_append, List.foldl_append]
  rfl

theorem cost_le_live (row : Row) (earlier : List Row) : row.cost earlier ≤ row.live := by
  induction earlier using List.reverseRecOn with
  | nil => exact Nat.le_refl _
  | append_singleton earlier other ih =>
    rw [cost_concat]
    exact Nat.le_trans (Nat.min_le_left _ _) ih

/-- The best of the earlier rows so far, with its differences. -/
def best (row : Row) (earlier : List Row) : Option (Nat × State) :=
  earlier.zipIdx.foldl (fun best (other, s) =>
    let n := row.differences other
    if n < best.elim row.live (·.1) then some (n, s) else best) none

theorem chooseFallback_eq (row : Row) (earlier : List Row) :
    row.chooseFallback earlier = (row.best earlier).map (·.2) :=
  rfl

theorem best_concat (row : Row) (earlier : List Row) (other : Row) :
    row.best (earlier ++ [other]) =
      if row.differences other < (row.best earlier).elim row.live (·.1) then
        some (row.differences other, earlier.length)
      else row.best earlier := by
  rw [best, List.zipIdx_append, List.foldl_append, Nat.zero_add]
  rfl

/-- The best row has the fewest differences; without one the live entries are as few. -/
theorem elim_best (row : Row) (earlier : List Row) :
    (row.best earlier).elim row.live (·.1) = row.cost earlier := by
  induction earlier using List.reverseRecOn with
  | nil => rfl
  | append_singleton earlier other ih =>
    rw [best_concat, cost_concat, ih]
    split
    · rename_i hlt
      exact (Nat.min_eq_right (Nat.le_of_lt hlt)).symm
    · rename_i hge
      rw [ih, Nat.min_eq_left (Nat.le_of_not_lt hge)]

theorem differences_of_best {row : Row} {earlier : List Row} {n : Nat} {s : State}
    (h : row.best earlier = some (n, s)) :
    ∃ other, earlier[s]? = some other ∧ row.differences other = n := by
  induction earlier using List.reverseRecOn with
  | nil => cases h
  | append_singleton earlier other ih =>
    rw [best_concat] at h
    split at h
    · obtain ⟨rfl, rfl⟩ := Prod.mk.inj (Option.some.inj h)
      exact ⟨other, List.getElem?_concat_length, rfl⟩
    · obtain ⟨other', hother, hn⟩ := ih h
      obtain ⟨hlt, -⟩ := List.getElem?_eq_some_iff.1 hother
      exact ⟨other', by rw [List.getElem?_append_left hlt, hother], hn⟩

/-! ## The entries of a row -/

theorem length_entries_none (row : Row) : (row.entries none).length = row.live := by
  have hkept : (fun entry : Option State × ByteClass =>
      (if entry.1.isSome then some (entry.2, entry.1) else none).isSome) =
        (fun target : Option State => target.isSome) ∘ Prod.fst := by
    funext ⟨target, c⟩
    cases target <;> rfl
  rw [entries, List.length_filterMap_eq_countP, live]
  exact hkept ▸ List.countP_map.symm.trans (by rw [List.zipIdx_map_fst])

theorem length_entries_some (row other : Row) :
    (row.entries (some other)).length = row.differences other := by
  have hkept : (fun entry : (Option State × ByteClass) × Option State =>
      (if entry.1.1 = entry.2 then none else some (entry.1.2, entry.1.1)).isSome) =
        (fun pair : Option State × Option State => pair.1 != pair.2) ∘ Prod.map Prod.fst id := by
    funext ⟨⟨own, c⟩, inherited⟩
    by_cases heq : own = inherited <;> simp [heq]
  rw [entries, List.length_filterMap_eq_countP, differences]
  refine hkept ▸ List.countP_map.symm.trans ?_
  rw [← List.zip_map_left, List.zipIdx_map_fst]

/-- With the chosen fallback a row stores as many entries as it costs. -/
theorem length_entries_chooseFallback (row : Row) (earlier : List Row) :
    (row.entries ((row.chooseFallback earlier).bind (earlier[·]?))).length = row.cost earlier := by
  rw [chooseFallback_eq, ← elim_best]
  cases hbest : row.best earlier with
  | none => exact row.length_entries_none
  | some found =>
    obtain ⟨n, s⟩ := found
    obtain ⟨other, hother, hn⟩ := differences_of_best hbest
    rw [Option.map_some, Option.bind_some, hother, length_entries_some, hn, Option.elim_some]

end Row

/-! ## Owned slots -/

/-- Somebody owns the slot. -/
def Slot.Owned (slot : Slot) : Prop :=
  0 ≤ slot.owner.toInt

instance : DecidablePred Slot.Owned :=
  fun slot => inferInstanceAs (Decidable (0 ≤ slot.owner.toInt))

/-- The number of owned slots. -/
def ownedSlots (slots : Array Slot) : Nat :=
  slots.countP fun slot => decide slot.Owned

/-- Taking a free slot owns one more. -/
theorem ownedSlots_set {slots : Array Slot} {k : Nat} (hk : k < slots.size)
    (hfree : ¬ slots[k].Owned) {slot : Slot} (howned : slot.Owned) :
    ownedSlots (slots.setIfInBounds k slot) = ownedSlots slots + 1 := by
  rw [ownedSlots, ownedSlots, Array.setIfInBounds_def, dif_pos hk, Array.countP_set]
  simp only [hfree, howned, decide_true, decide_false, Bool.false_eq_true, if_false, if_true,
    Nat.sub_zero]

namespace Entries

/-- Entries on different free slots own one more slot each. -/
theorem ownedSlots_writeTo {owner : Int32} (howner : 0 ≤ owner.toInt) {offset : Nat}
    {entries : Entries} (hnodup : (entries.map Prod.fst).Nodup) {slots : Array Slot}
    (hfree : ∀ c target, (c, target) ∈ entries →
      ∃ slot, slots[offset + c]? = some slot ∧ ¬ slot.Owned) :
    ownedSlots (entries.writeTo owner offset slots) = ownedSlots slots + entries.length := by
  induction entries generalizing slots with
  | nil => rfl
  | cons entry entries ih =>
    obtain ⟨c, target⟩ := entry
    obtain ⟨hnew, hnodup⟩ := List.nodup_cons.1 hnodup
    obtain ⟨slot, hslot, hnot⟩ := hfree c target List.mem_cons_self
    obtain ⟨hlt, rfl⟩ := Array.getElem?_eq_some_iff.1 hslot
    -- The other entries fall on other slots, which are still free.
    have hrest : ∀ c' target', (c', target') ∈ entries → ∃ slot',
        (slots.setIfInBounds (offset + c) ⟨owner, State.toEntry target⟩)[offset + c']? = some slot' ∧
          ¬ slot'.Owned := by
      intro c' target' hmem
      have hne : offset + c ≠ offset + c' := by
        intro heq
        rw [Nat.add_left_cancel heq] at hnew
        exact hnew (List.mem_map.2 ⟨_, hmem, rfl⟩)
      rw [Array.getElem?_setIfInBounds_ne hne]
      exact hfree c' target' (List.mem_cons_of_mem _ hmem)
    have htaken : Slot.Owned ⟨owner, State.toEntry target⟩ := howner
    rw [writeTo_cons, ih hnodup hrest, ownedSlots_set hlt hnot htaken, List.length_cons,
      Nat.add_assoc, Nat.add_comm 1]

end Entries

/-! ## Placement -/

namespace Layout

/-- Places rows one after the other. -/
def placeAll (layout : Layout) (width : Nat) (placed : List Entries) : Layout :=
  placed.foldl (fun layout entries => layout.place width entries) layout

section Placement

variable {layout : Layout} {width : Nat}

theorem placeAll_cons (entries : Entries) (placed : List Entries) :
    layout.placeAll width (entries :: placed) =
      (layout.place width entries).placeAll width placed :=
  rfl

theorem placeAll_append (placed placed' : List Entries) :
    layout.placeAll width (placed ++ placed') =
      (layout.placeAll width placed).placeAll width placed' :=
  List.foldl_append

theorem size_base_place (entries : Entries) :
    (layout.place width entries).base.size = layout.base.size + 1 :=
  Array.size_push _

theorem size_base_placeAll (placed : List Entries) :
    (layout.placeAll width placed).base.size = layout.base.size + placed.length := by
  induction placed generalizing layout with
  | nil => rfl
  | cons entries placed ih =>
    rw [placeAll_cons, ih, size_base_place, List.length_cons, Nat.add_assoc, Nat.add_comm 1]

/-- The next row is displaced to where first fit puts it. -/
theorem offset_place {s : State} (hs : layout.base.size = s) (hsize : layout.slots.size < 2 ^ 31)
    {entries : Entries} :
    (layout.place width entries).offset s = entries.firstFit layout.slots :=
  hs ▸ offset_place_size hsize

/-- The displacement of a row does not change when more are placed. -/
theorem offset_placeAll {s : State} (hs : s < layout.base.size) (placed : List Entries) :
    (layout.placeAll width placed).offset s = layout.offset s := by
  induction placed generalizing layout with
  | nil => rfl
  | cons entries placed ih =>
    rw [placeAll_cons, ih, offset_place_of_lt hs]
    rw [size_base_place]
    exact Nat.lt_succ_of_lt hs

/-- A placement leaves owned slots alone. -/
theorem place_keeps (entries : Entries) {k : Nat} {slot : Slot}
    (hslot : layout.slots[k]? = some slot) (howned : slot.Owned) :
    (layout.place width entries).slots[k]? = some slot := by
  obtain ⟨hlt, -⟩ := Array.getElem?_eq_some_iff.1 hslot
  rw [place_slots, Entries.getElem?_writeTo_of_ne, room, Array.getElem?_append_left hlt, hslot]
  rintro c target hmem rfl
  exact absurd (Entries.free_of_firstFit hmem hslot) (Int.not_lt.2 howned)

/-- No slot is overwritten, whichever rows are placed later. -/
theorem placeAll_keeps (placed : List Entries) {k : Nat} {slot : Slot}
    (hslot : layout.slots[k]? = some slot) (howned : slot.Owned) :
    (layout.placeAll width placed).slots[k]? = some slot := by
  induction placed generalizing layout with
  | nil => exact hslot
  | cons entries placed ih =>
    rw [placeAll_cons]
    exact ih (place_keeps entries hslot howned)

theorem ownedSlots_room (entries : Entries) :
    ownedSlots (layout.room width entries) = ownedSlots layout.slots := by
  rw [ownedSlots, room, Array.countP_append, Array.countP_replicate]
  rfl

/-- A placement owns one more slot for each entry. -/
theorem ownedSlots_place {entries : Entries} (hlt : ∀ c ∈ entries.map Prod.fst, c < width)
    (hnodup : (entries.map Prod.fst).Nodup) (hcount : layout.base.size < 2 ^ 31) :
    ownedSlots (layout.place width entries).slots = ownedSlots layout.slots + entries.length := by
  have howner : 0 ≤ (Int32.ofNat layout.base.size).toInt := by
    rw [Int32.toInt_ofNat_of_lt hcount]
    exact Int.natCast_nonneg _
  rw [place_slots, Entries.ownedSlots_writeTo howner hnodup, ownedSlots_room]
  intro c target hmem
  have hroom : entries.firstFit layout.slots + c < (layout.room width entries).size := by
    rw [size_room]
    exact Nat.lt_of_lt_of_le (Nat.add_lt_add_left (hlt c (List.mem_map_of_mem hmem)) _)
      (Nat.le_max_right _ _)
  refine ⟨_, Array.getElem?_eq_getElem hroom, fun howned => ?_⟩
  rcases getElem?_room (Array.getElem?_eq_getElem hroom) with hslot | hfree
  · exact absurd (Entries.free_of_firstFit hmem hslot) (Int.not_lt.2 howned)
  · rw [hfree] at howned
    exact absurd howned (by decide)

theorem ownedSlots_placeAll {placed : List Entries}
    (hlt : ∀ entries ∈ placed, ∀ c ∈ entries.map Prod.fst, c < width)
    (hnodup : ∀ entries ∈ placed, (entries.map Prod.fst).Nodup)
    (hcount : layout.base.size + placed.length ≤ 2 ^ 31) :
    ownedSlots (layout.placeAll width placed).slots =
      ownedSlots layout.slots + (placed.map List.length).sum := by
  induction placed generalizing layout with
  | nil => rfl
  | cons entries placed ih =>
    rw [List.length_cons] at hcount
    have hplace : ownedSlots (layout.place width entries).slots =
        ownedSlots layout.slots + entries.length :=
      ownedSlots_place (hlt entries List.mem_cons_self) (hnodup entries List.mem_cons_self) (by omega)
    rw [placeAll_cons, ih (fun entries' hmem => hlt entries' (List.mem_cons_of_mem _ hmem))
      (fun entries' hmem => hnodup entries' (List.mem_cons_of_mem _ hmem))
      (by rw [size_base_place]; omega), hplace, List.map_cons, List.sum_cons, Nat.add_assoc]

end Placement

end Layout

/-! ## All rows -/

/-- A row has one entry for a class. -/
theorem Row.nodup_entries (row : Row) (fallback : Option Row) :
    ((row.entries fallback).map Prod.fst).Nodup := by
  refine List.pairwise_map.2 ?_
  cases fallback with
  | none =>
    refine List.pairwise_filterMap.2 (List.pairwise_iff_getElem.2 fun i j hi hj hij => ?_)
    rw [List.getElem_zipIdx, List.getElem_zipIdx]
    grind
  | some other =>
    refine List.pairwise_filterMap.2 (List.pairwise_iff_getElem.2 fun i j hi hj hij => ?_)
    rw [List.getElem_zip, List.getElem_zip, List.getElem_zipIdx, List.getElem_zipIdx]
    grind

namespace Automaton

variable {rows : List Row} {width : Nat}

/-- What the rows cost, each with the rows before it. -/
def costs (rows : List Row) : List Nat :=
  rows.zipIdx.map fun (row, s) => row.cost (rows.take s)

/-- Where first fit displaces the row of a state, with the rows before it in place. -/
def displacement (rows : List Row) (width : Nat) (s : State) : Nat :=
  ((stored rows)[s]?.getD []).firstFit (layOut (rows.take s) width).slots

theorem layOut_eq (rows : List Row) (width : Nat) :
    layOut rows width = ({} : Layout).placeAll width (stored rows) := by
  rw [stored, Layout.placeAll, List.foldl_map]
  rfl

/-- What a row stores depends on the rows before it only. -/
theorem getElem?_stored_eq {s : State} {row : Row} (hrow : rows[s]? = some row) :
    (stored rows)[s]? =
      some (row.entries ((row.chooseFallback (rows.take s)).bind ((rows.take s)[·]?))) := by
  have hfallback := getElem?_fallbacks hrow
  rw [getElem?_stored hrow hfallback]
  cases hd : row.chooseFallback (rows.take s) with
  | none => rfl
  | some d =>
    have hlt : d < s := fallback_lt (hd ▸ hfallback)
    rw [Option.bind_some, Option.bind_some, List.getElem?_take_of_lt hlt]

theorem stored_take (rows : List Row) (m : Nat) :
    stored (rows.take m) = (stored rows).take m := by
  refine List.ext_getElem? fun s => ?_
  by_cases hs : s < m ∧ s < rows.length
  · obtain ⟨hm, hlt⟩ := hs
    have hrow : rows[s]? = some rows[s] := List.getElem?_eq_getElem hlt
    have htake : (rows.take m)[s]? = some rows[s] := by rw [List.getElem?_take_of_lt hm, hrow]
    rw [List.getElem?_take_of_lt hm, getElem?_stored_eq hrow, getElem?_stored_eq htake,
      List.take_take, Nat.min_eq_left (Nat.le_of_lt hm)]
  · rw [List.getElem?_eq_none, List.getElem?_eq_none]
    all_goals
      simp only [length_stored, List.length_take]
      omega

/-- The layout of all rows goes on from the layout of the first ones. -/
theorem layOut_split (rows : List Row) (width m : Nat) :
    layOut rows width = (layOut (rows.take m) width).placeAll width ((stored rows).drop m) := by
  rw [layOut_eq, layOut_eq, stored_take, ← Layout.placeAll_append, List.take_append_drop]

/-- The stored entries are as many as the rows cost. -/
theorem length_stored_eq (rows : List Row) : (stored rows).map List.length = costs rows := by
  refine List.ext_getElem? fun s => ?_
  rw [costs, List.getElem?_map, List.getElem?_map, List.getElem?_zipIdx]
  cases hrow : rows[s]? with
  | none =>
    have hnone : (stored rows)[s]? = none := by
      rw [List.getElem?_eq_none_iff, length_stored]
      exact List.getElem?_eq_none_iff.1 hrow
    rw [hnone]
    rfl
  | some row =>
    rw [getElem?_stored_eq hrow, Option.map_some, Option.map_some, Option.map_some, Nat.zero_add,
      Row.length_entries_chooseFallback]

theorem sum_costs_le (rows : List Row) : (costs rows).sum ≤ (rows.map Row.live).sum := by
  have hlive : rows.map Row.live = rows.zipIdx.map fun entry => entry.1.live := by
    conv_lhs => rw [← List.zipIdx_map_fst 0 rows, List.map_map]
    rfl
  rw [costs, hlive]
  refine List.sum_le_sum fun entry _ => ?_
  exact entry.1.cost_le_live _

end Automaton

/-! ## Packed tables -/

namespace Tables

/-- The number of slots that a state owns. -/
def ownedCount (t : Tables) : Nat :=
  t.check.countP fun owner => decide (0 ≤ owner.toInt)

/-- The columns of the tables hold rows of a width without waste and without loss. -/
structure Compact (t : Tables) (rows : List Row) (width : Nat) : Prop where
  size_eq : t.next.size = t.check.size
  size_le : t.check.size ≤ rows.length * width
  base_size : t.base.size = rows.length
  /-- A displacement is small, and stored as first fit found it. -/
  base_eq : ∀ s < rows.length, Automaton.displacement rows width s ≤ (rows.length - 1) * width ∧
    t.base[s]?.map (·.toNat) = some (Automaton.displacement rows width s)
  /-- Every entry of a row is in a slot that its state owns. -/
  held : ∀ s entries, (Automaton.stored rows)[s]? = some entries →
    ∀ c target, (c, target) ∈ entries →
      t.check[Automaton.displacement rows width s + c]? = some (Int32.ofNat s) ∧
        t.next[Automaton.displacement rows width s + c]? = some (State.toEntry target)
  /-- What some rows have written stays as it is when the others are placed. -/
  kept : ∀ (m k : Nat) (slot : Slot),
    (Automaton.layOut (rows.take m) width).slots[k]? = some slot → slot.Owned →
      t.check[k]? = some slot.owner ∧ t.next[k]? = some slot.target
  count_eq : t.ownedCount = (Automaton.costs rows).sum

namespace Packs

variable {t : Tables} {rows : List Row} {width : Nat}

theorem take_holds (h : t.Packs rows width) (m : Nat) :
    (Automaton.layOut (rows.take m) width).Holds width (Automaton.stored (rows.take m)) := by
  have hle : (rows.take m).length ≤ rows.length := List.length_take_le' m rows
  exact Automaton.layOut_holds (fun row hrow => h.width_eq row (List.mem_of_mem_take hrow))
    (Nat.lt_of_le_of_lt (Nat.mul_le_mul_right width hle) h.size) (Nat.lt_of_le_of_lt hle h.count)

/-- Behind the slots of the rows before it there is room for a row. -/
theorem displacement_le (h : t.Packs rows width) {s : State} (hs : s < rows.length) :
    Automaton.displacement rows width s ≤ s * width := by
  have hsize := (h.take_holds s).size_le
  rw [Automaton.length_stored, List.length_take, Nat.min_eq_left (Nat.le_of_lt hs)] at hsize
  exact Nat.le_trans (Entries.firstFit_le _ _) hsize

/-- The layout stores each displacement as it was found. -/
theorem offset_eq (h : t.Packs rows width) {s : State} (hs : s < rows.length) :
    (Automaton.layOut rows width).offset s = Automaton.displacement rows width s := by
  have hstored : s < (Automaton.stored rows).length := by
    rw [Automaton.length_stored]
    exact hs
  have hholds := h.take_holds s
  have hbase : (Automaton.layOut (rows.take s) width).base.size = s := by
    rw [hholds.size_eq, Automaton.length_stored, List.length_take, Nat.min_eq_left (Nat.le_of_lt hs)]
  have hsize : (Automaton.layOut (rows.take s) width).slots.size < 2 ^ 31 := by
    refine Nat.lt_of_le_of_lt hholds.size_le (Nat.lt_of_le_of_lt ?_ h.size)
    rw [Automaton.length_stored]
    exact Nat.mul_le_mul_right width (List.length_take_le' s rows)
  have hsplit := Automaton.layOut_split rows width s
  rw [List.drop_eq_getElem_cons hstored, Layout.placeAll_cons] at hsplit
  have hplaced : s < ((Automaton.layOut (rows.take s) width).place width
      (Automaton.stored rows)[s]).base.size := by
    rw [Layout.size_base_place, hbase]
    exact Nat.lt_succ_self s
  rw [hsplit, Layout.offset_placeAll hplaced, Layout.offset_place hbase hsize, Automaton.displacement,
    List.getElem?_eq_getElem hstored, Option.getD_some]

theorem ownedCount_eq (h : t.Packs rows width) : t.ownedCount = (Automaton.costs rows).sum := by
  have hslots : t.ownedCount = ownedSlots (Automaton.layOut rows width).slots := by
    rw [ownedCount, h.check_eq, Array.countP_map]
    rfl
  have hwidth : ∀ entries ∈ Automaton.stored rows,
      (∀ c ∈ entries.map Prod.fst, c < width) ∧ (entries.map Prod.fst).Nodup := by
    intro entries hmem
    obtain ⟨⟨row, fallback⟩, hrow, rfl⟩ := List.mem_map.1 hmem
    refine ⟨fun c hc => ?_, Row.nodup_entries _ _⟩
    obtain ⟨⟨c, target⟩, hentry, rfl⟩ := List.mem_map.1 hc
    rw [← h.width_eq row (List.of_mem_zip hrow).1]
    exact (Row.entries_proper row _).lt c target hentry
  rw [hslots, Automaton.layOut_eq, Layout.ownedSlots_placeAll
    (fun entries hmem => (hwidth entries hmem).1) (fun entries hmem => (hwidth entries hmem).2),
    Automaton.length_stored_eq]
  · exact Nat.zero_add _
  · rw [Automaton.length_stored]
    exact (Nat.zero_add _).symm ▸ Nat.le_of_lt h.count

theorem compact (h : t.Packs rows width) : t.Compact rows width where
  size_eq := by rw [h.next_eq, h.check_eq, Array.size_map, Array.size_map]
  size_le := by
    rw [h.check_eq, Array.size_map, ← Automaton.length_stored]
    exact h.holds.size_le
  base_size := h.stateCount_eq
  base_eq s hs := by
    refine ⟨Nat.le_trans (h.displacement_le hs) (Nat.mul_le_mul_right width (by omega)), ?_⟩
    obtain ⟨entry, hentry, hoffset⟩ := h.getElem?_base hs
    rw [hentry, Option.map_some, hoffset, h.offset_eq hs]
  held s entries hs c target hmem := by
    have hlt : s < rows.length := by
      rw [← Automaton.length_stored]
      exact (List.getElem?_eq_some_iff.1 hs).1
    have hslot := h.holds.held s entries hs c target hmem
    rw [h.offset_eq hlt] at hslot
    rw [h.check_eq, h.next_eq, Array.getElem?_map, Array.getElem?_map, hslot]
    exact ⟨rfl, rfl⟩
  kept m k slot hslot howned := by
    have hlast : (Automaton.layOut rows width).slots[k]? = some slot := by
      rw [Automaton.layOut_split rows width m]
      exact Layout.placeAll_keeps _ hslot howned
    rw [h.check_eq, h.next_eq, Array.getElem?_map, Array.getElem?_map, hlast]
    exact ⟨rfl, rfl⟩
  count_eq := h.ownedCount_eq

end Packs

end Tables

/-- The number of bytes on which a node goes on. -/
def Node.live (n : Node) : Nat :=
  allBytes.countP fun byte => (n.step? byte).isSome

namespace Automaton

variable {a : Automaton}

theorem nodup_representatives (a : Automaton) : a.byteClasses.representatives.Nodup :=
  (ByteClasses.ascending_ofKey a.column).imp fun {byte byte'} hlt heq => by
    rw [heq] at hlt
    exact UInt8.lt_irrefl _ hlt

/-- A row by classes has no more live targets than the row by bytes. -/
theorem live_le (a : Automaton) (n : Node) :
    Row.live (a.byteClasses.representatives.map n.step?) ≤ n.live := by
  have hsub : a.byteClasses.representatives ⊆ allBytes := fun byte _ =>
    List.map_id allBytes ▸ ByteClasses.mem_keys id byte
  rw [Row.live, List.countP_map]
  exact (a.nodup_representatives.subperm hsub).countP_le _

/-- Packing loses no entry and is compact. The tables own as many slots as the rows cost, and so no more
than the rows have live targets, whether by classes or by bytes. -/
theorem pack_compact (hsize : a.size * 256 < 2 ^ 31) {t : Tables} (h : a.pack = .ok t) :
    (a.rows a.byteClasses).length = a.size ∧ t.Compact (a.rows a.byteClasses) t.classCount ∧
      t.ownedCount ≤ ((a.rows a.byteClasses).map Row.live).sum ∧
      t.ownedCount ≤ (a.nodes.toList.map Node.live).sum := by
  obtain ⟨-, -, rfl⟩ := pack_eq_ok_iff.1 h
  have hcompact := (toTables_packs hsize).compact
  have hlive : a.toTables.ownedCount ≤ ((a.rows a.byteClasses).map Row.live).sum := by
    rw [hcompact.count_eq]
    exact sum_costs_le _
  refine ⟨by rw [rows, List.length_map, Array.length_toList, size], classCount_eq ▸ hcompact, hlive,
    Nat.le_trans hlive ?_⟩
  rw [rows, List.map_map]
  exact List.sum_le_sum fun n _ => a.live_le n

/-- Letters up to a q, then letters z. The states differ on the letter z only. -/
def qThenZ : Automaton where
  nodes := #[{ edges := [⟨97, 122, 0⟩, ⟨113, 113, 1⟩] },
    { accept := [1], edges := [⟨97, 122, 0⟩, ⟨113, 113, 1⟩, ⟨122, 122, 1⟩] }]

/-- The second row stores one entry, where it differs from the first. -/
theorem pack_compact_qThenZ : qThenZ.size * 256 < 2 ^ 31 ∧
    ∃ t, qThenZ.pack = .ok t ∧ t.ownedCount = 4 ∧ t.ownedCount ≤ 52 := by
  have hsize : qThenZ.size * 256 < 2 ^ 31 := by decide
  have hwf : qThenZ.WellFormed := ⟨by decide, by decide, by decide, by decide, by decide⟩
  have hpack := pack_of_wellFormed hsize hwf
  obtain ⟨-, hcompact, -, hbytes⟩ := pack_compact hsize hpack
  have hcosts : (costs (qThenZ.rows qThenZ.byteClasses)).sum = 4 := by decide +kernel
  have hlive : (qThenZ.nodes.toList.map Node.live).sum = 52 := by decide +kernel
  exact ⟨hsize, _, hpack, hcompact.count_eq.trans hcosts, hlive ▸ hbytes⟩

end Automaton

end Munch
