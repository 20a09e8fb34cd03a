-- SUMMARY: Rows packed with fallbacks are read back: the walk along the fallback chain finds each target.
import Munch.Proofs.Automaton.Layout
import Munch.Proofs.Tables.Sound

/-! # Rows

A row is stored as the entries in which it differs from its fallback row, or as its live entries if
it has none. `Tables.Packs` says that some columns hold the layout of some rows. A walk from a state
then ends at the target that the row of the state has for the class. -/

namespace Munch

/-! ## Table entries -/

namespace State

theorem toInt_toEntry {o : Option State} (h : ∀ s ∈ o, s < 2 ^ 31) :
    (toEntry o).toInt = o.elim (-1) (fun s => (s : Int)) := by
  cases o with
  | none => rfl
  | some s => exact Int32.toInt_ofNat_of_lt (h s rfl)

theorem ofEntry?_toEntry {o : Option State} (h : ∀ s ∈ o, s < 2 ^ 31) :
    ofEntry? (toEntry o) = o := by
  unfold ofEntry?
  rw [toInt_toEntry h]
  cases o with
  | none => rfl
  | some s => exact if_neg (Int.not_lt.2 (Int.natCast_nonneg s))

theorem toInt_toEntry_lt {o : Option State} {n : Nat} (hn : n < 2 ^ 31) (h : ∀ s ∈ o, s < n) :
    (toEntry o).toInt < n := by
  rw [toInt_toEntry fun s hs => Nat.lt_trans (h s hs) hn]
  cases o with
  | none => exact Int.lt_of_lt_of_le (by decide) (Int.natCast_nonneg n)
  | some s => exact Int.ofNat_lt.2 (h s rfl)

end State

/-! ## Stored entries -/

namespace Row

theorem mem_entries_none {row : Row} {c : ByteClass} {target : Option State} :
    (c, target) ∈ row.entries none ↔ row[c]? = some target ∧ target.isSome = true := by
  simp only [entries, List.mem_filterMap]
  constructor
  · rintro ⟨⟨own, c'⟩, hmem, hkept⟩
    split at hkept
    · rename_i hsome
      obtain ⟨rfl, rfl⟩ := Prod.mk.inj (Option.some.inj hkept)
      exact ⟨List.mk_mem_zipIdx_iff_getElem?.1 hmem, hsome⟩
    · cases hkept
  · rintro ⟨hrow, hsome⟩
    exact ⟨(target, c), List.mk_mem_zipIdx_iff_getElem?.2 hrow, if_pos hsome⟩

theorem mem_entries_some {row other : Row} {c : ByteClass} {target : Option State} :
    (c, target) ∈ row.entries (some other) ↔
      row[c]? = some target ∧ ∃ inherited, other[c]? = some inherited ∧ target ≠ inherited := by
  simp only [entries, List.mem_filterMap]
  constructor
  · rintro ⟨⟨⟨own, c'⟩, inherited⟩, hmem, hkept⟩
    split at hkept
    · cases hkept
    · rename_i hne
      obtain ⟨rfl, rfl⟩ := Prod.mk.inj (Option.some.inj hkept)
      obtain ⟨i, hi⟩ := List.mem_iff_getElem?.1 hmem
      obtain ⟨hown, hinherited⟩ := List.getElem?_zip_eq_some.1 hi
      rw [List.getElem?_zipIdx, Option.map_eq_some_iff] at hown
      obtain ⟨own', hrow, heq⟩ := hown
      obtain ⟨rfl, rfl⟩ := Prod.mk.inj heq
      rw [Nat.zero_add]
      exact ⟨hrow, inherited, hinherited, hne⟩
  · rintro ⟨hrow, inherited, hinherited, hne⟩
    refine ⟨((target, c), inherited), List.mem_iff_getElem?.2 ⟨c, ?_⟩, if_neg hne⟩
    refine List.getElem?_zip_eq_some.2 ⟨?_, hinherited⟩
    rw [List.getElem?_zipIdx, hrow, Option.map_some, Nat.zero_add]

theorem getElem?_of_mem_entries {row : Row} {fallback : Option Row} {c : ByteClass}
    {target : Option State} (h : (c, target) ∈ row.entries fallback) : row[c]? = some target := by
  cases fallback with
  | none => exact (mem_entries_none.1 h).1
  | some other => exact (mem_entries_some.1 h).1

theorem entries_proper (row : Row) (fallback : Option Row) :
    (row.entries fallback).Proper row.length where
  lt c target h := by
    obtain ⟨hlt, -⟩ := List.getElem?_eq_some_iff.1 (getElem?_of_mem_entries h)
    exact hlt
  functional c target target' h h' := by
    have heq := (getElem?_of_mem_entries h).symm.trans (getElem?_of_mem_entries h')
    exact Option.some.inj heq

/-- A fallback is one of the earlier rows. -/
theorem lt_of_chooseFallback {row : Row} {earlier : List Row} {d : State}
    (h : row.chooseFallback earlier = some d) : d < earlier.length := by
  unfold chooseFallback at h
  obtain ⟨⟨n, d'⟩, hbest, rfl⟩ := Option.map_eq_some_iff.1 h
  revert hbest
  -- Every best row of the loop has an index of the list.
  refine List.foldlRecOn (motive := fun best => best = some (n, d') → d' < earlier.length)
    earlier.zipIdx _ (fun h => nomatch h) ?_
  intro best ih entry hmem hbest
  obtain ⟨other, s⟩ := entry
  dsimp only at hbest
  split at hbest
  · obtain ⟨-, rfl⟩ := Prod.mk.inj (Option.some.inj hbest)
    obtain ⟨hlt, -⟩ := List.getElem?_eq_some_iff.1 (List.mk_mem_zipIdx_iff_getElem?.1 hmem)
    exact hlt
  · exact ih hbest

end Row

namespace Automaton

/-! ## Fallbacks -/

theorem length_fallbacks (rows : List Row) : (fallbacks rows).length = rows.length := by
  rw [fallbacks, List.length_map, List.length_zipIdx]

theorem getElem?_fallbacks {rows : List Row} {s : State} {row : Row} (h : rows[s]? = some row) :
    (fallbacks rows)[s]? = some (row.chooseFallback (rows.take s)) := by
  rw [fallbacks, List.getElem?_map, List.getElem?_zipIdx, h, Option.map_some, Option.map_some,
    Nat.zero_add]

/-- A state falls back to a smaller one. -/
theorem fallback_lt {rows : List Row} {s d : State} (h : (fallbacks rows)[s]? = some (some d)) :
    d < s := by
  have hs : s < rows.length := by
    obtain ⟨hlt, -⟩ := List.getElem?_eq_some_iff.1 h
    rwa [length_fallbacks] at hlt
  rw [getElem?_fallbacks (List.getElem?_eq_getElem hs)] at h
  have hlt := Row.lt_of_chooseFallback (Option.some.inj h)
  exact Nat.lt_of_lt_of_le hlt (List.length_take_le s rows)

/-! ## The layout of all rows -/

/-- What the layout stores for each state. -/
def stored (rows : List Row) : List Entries :=
  (rows.zip (fallbacks rows)).map fun (row, fallback) =>
    row.entries (fallback.bind (rows[·]?))

theorem length_stored (rows : List Row) : (stored rows).length = rows.length := by
  rw [stored, List.length_map, List.length_zip, length_fallbacks, Nat.min_self]

theorem getElem?_stored {rows : List Row} {s : State} {row : Row} {fallback : Option State}
    (hrow : rows[s]? = some row) (hfallback : (fallbacks rows)[s]? = some fallback) :
    (stored rows)[s]? = some (row.entries (fallback.bind (rows[·]?))) := by
  have hboth : (rows.zip (fallbacks rows))[s]? = some (row, fallback) :=
    List.getElem?_zip_eq_some.2 ⟨hrow, hfallback⟩
  rw [stored, List.getElem?_map, hboth, Option.map_some]

theorem layOut_holds {rows : List Row} {width : Nat} (hwidth : ∀ row ∈ rows, row.length = width)
    (hsize : rows.length * width < 2 ^ 31) (hcount : rows.length < 2 ^ 31) :
    (layOut rows width).Holds width (stored rows) := by
  have hlength : (rows.zip (fallbacks rows)).length = rows.length := by
    rw [List.length_zip, length_fallbacks, Nat.min_self]
  refine (Layout.Holds.empty width).foldl ?_ ?_ ?_
  · rintro ⟨row, fallback⟩ hmem
    exact hwidth row (List.of_mem_zip hmem).1 ▸ row.entries_proper _
  · rw [List.length_nil, Nat.zero_add, hlength]
    exact hsize
  · rw [List.length_nil, Nat.zero_add, hlength]
    exact hcount

end Automaton

/-! ## Reading rows back -/

namespace Tables

/-- The columns of the tables hold some rows of a width, packed. -/
structure Packs (t : Tables) (rows : List Row) (width : Nat) : Prop where
  base_eq : t.base = (Automaton.layOut rows width).base
  check_eq : t.check = (Automaton.layOut rows width).slots.map (·.owner)
  next_eq : t.next = (Automaton.layOut rows width).slots.map (·.target)
  fallback_eq : t.fallback = ((Automaton.fallbacks rows).map State.toEntry).toArray
  width_eq : ∀ row ∈ rows, row.length = width
  count : rows.length < 2 ^ 31
  size : rows.length * width < 2 ^ 31

namespace Packs

variable {t : Tables} {rows : List Row} {width : Nat}

theorem holds (h : t.Packs rows width) :
    (Automaton.layOut rows width).Holds width (Automaton.stored rows) :=
  Automaton.layOut_holds h.width_eq h.size h.count

theorem stateCount_eq (h : t.Packs rows width) : t.stateCount = rows.length := by
  rw [stateCount, h.base_eq, h.holds.size_eq, Automaton.length_stored]

theorem getElem?_base (h : t.Packs rows width) {s : State} (hs : s < rows.length) :
    ∃ entry, t.base[s]? = some entry ∧ entry.toNat = (Automaton.layOut rows width).offset s := by
  have hlt : s < (Automaton.layOut rows width).base.size := by
    rw [h.holds.size_eq, Automaton.length_stored]
    exact hs
  refine ⟨(Automaton.layOut rows width).base[s], ?_, ?_⟩
  · rw [h.base_eq, Array.getElem?_eq_getElem hlt]
  · rw [Layout.offset, Array.getElem?_eq_getElem hlt, Option.getD_some]

theorem getElem?_slot (h : t.Packs rows width) {k : Nat}
    (hk : k < (Automaton.layOut rows width).slots.size) :
    ∃ slot, (Automaton.layOut rows width).slots[k]? = some slot ∧
      t.check[k]? = some slot.owner ∧ t.next[k]? = some slot.target := by
  refine ⟨_, Array.getElem?_eq_getElem hk, ?_, ?_⟩
  · rw [h.check_eq, Array.getElem?_map, Array.getElem?_eq_getElem hk, Option.map_some]
  · rw [h.next_eq, Array.getElem?_map, Array.getElem?_eq_getElem hk, Option.map_some]

theorem getElem?_fallback (h : t.Packs rows width) {s : State} {fallback : Option State}
    (hs : (Automaton.fallbacks rows)[s]? = some fallback) :
    t.fallback[s]? = some (State.toEntry fallback) := by
  rw [h.fallback_eq, List.getElem?_toArray, List.getElem?_map, hs, Option.map_some]

theorem fallback_bound (h : t.Packs rows width) {s : State} {fallback : Option State}
    (hs : s < rows.length) (hfallback : (Automaton.fallbacks rows)[s]? = some fallback) :
    ∀ d ∈ fallback, d < 2 ^ 31 := by
  rintro d rfl
  exact Nat.lt_trans (Nat.lt_trans (Automaton.fallback_lt hfallback) hs) h.count

/-- A slot in reach of a row is owned by it if and only if the row has an entry there. -/
theorem owner_eq_iff (h : t.Packs rows width) {s : State} {entries : Entries} {c : ByteClass}
    (hs : (Automaton.stored rows)[s]? = some entries) {slot : Slot}
    (hslot : (Automaton.layOut rows width).slots[(Automaton.layOut rows width).offset s + c]? =
      some slot) :
    slot.owner.toInt = s ↔ ∃ target, (c, target) ∈ entries := by
  obtain ⟨hlt, -⟩ := List.getElem?_eq_some_iff.1 hs
  have hbound : ∀ s' < (Automaton.stored rows).length, (Int32.ofNat s').toInt = s' := by
    intro s' hs'
    refine Int32.toInt_ofNat_of_lt (Nat.lt_trans hs' ?_)
    rw [Automaton.length_stored]
    exact h.count
  constructor
  · intro howner
    rcases h.holds.owned _ slot hslot with rfl | ⟨s', entries', c', target, hs', hmem, hk, rfl⟩
    · exact absurd (howner ▸ Int.natCast_nonneg s) (by decide)
    · obtain ⟨hlt', -⟩ := List.getElem?_eq_some_iff.1 hs'
      rw [hbound s' hlt'] at howner
      obtain rfl := Int.ofNat.inj howner
      obtain rfl := Option.some.inj (hs.symm.trans hs')
      obtain rfl := Nat.add_left_cancel hk
      exact ⟨target, hmem⟩
  · rintro ⟨target, hmem⟩
    rw [h.holds.held s entries hs c target hmem] at hslot
    rw [← Option.some.inj hslot]
    exact hbound s hlt

/-- A walk from a state ends at the target in its row. The induction is on the state, as fallbacks
descend. -/
theorem walk_eq (h : t.Packs rows width) {n : Nat} (hn : n < 2 ^ 31)
    (htargets : ∀ row ∈ rows, ∀ s, some s ∈ row → s < n) {c : ByteClass} (hc : c < width)
    (origin s : State) {steps : Nat} (hle : s < steps) {row : Row} {target : Option State}
    (hrow : rows[s]? = some row) (htarget : row[c]? = some target) :
    t.walk origin c steps s = .ok target := by
  induction s using Nat.strongRecOn generalizing steps row with
  | ind s ih =>
    cases steps with
    | zero => exact absurd hle (Nat.not_lt_zero s)
    | succ steps =>
      obtain ⟨hs, -⟩ := List.getElem?_eq_some_iff.1 hrow
      obtain ⟨fallback, hfallback⟩ : ∃ fallback, (Automaton.fallbacks rows)[s]? = some fallback :=
        ⟨_, Automaton.getElem?_fallbacks hrow⟩
      have hstored := Automaton.getElem?_stored hrow hfallback
      have hslotlt : (Automaton.layOut rows width).offset s + c <
          (Automaton.layOut rows width).slots.size :=
        Nat.lt_of_lt_of_le (Nat.add_lt_add_left hc _)
          (h.holds.row_le s (by rw [Automaton.length_stored]; exact hs))
      obtain ⟨base, hbase, hoffset⟩ := h.getElem?_base hs
      obtain ⟨slot, hslot, hcheck, hnext⟩ := h.getElem?_slot hslotlt
      have howner := h.owner_eq_iff hstored hslot
      simp only [Tables.walk, lookup, hbase, hoffset, hcheck, hnext, h.getElem?_fallback hfallback,
        ok_bind]
      split
      · rename_i hown
        obtain ⟨target', hmem⟩ := howner.1 hown
        obtain rfl : target = target' :=
          Option.some.inj (htarget.symm.trans (Row.getElem?_of_mem_entries hmem))
        rw [h.holds.held s _ hstored c target hmem] at hslot
        rw [← Option.some.inj hslot]
        refine congrArg Except.ok (State.ofEntry?_toEntry fun s' hs' => ?_)
        obtain rfl := Option.mem_def.1 hs'
        exact Nat.lt_trans (htargets row (List.mem_of_getElem? hrow) s'
          (List.mem_of_getElem? htarget)) hn
      · rename_i hown
        have hnotmem := mt howner.2 hown
        rw [State.ofEntry?_toEntry (h.fallback_bound hs hfallback)]
        cases fallback with
        | none =>
          -- Without a fallback every live target is stored.
          cases target with
          | none => rfl
          | some s' => exact absurd ⟨_, Row.mem_entries_none.2 ⟨htarget, rfl⟩⟩ hnotmem
        | some d =>
          have hd := Automaton.fallback_lt hfallback
          have hdlt : d < rows.length := Nat.lt_trans hd hs
          have hother : rows[d]? = some rows[d] := List.getElem?_eq_getElem hdlt
          have hclt : c < rows[d].length := by
            rw [h.width_eq _ (List.getElem_mem hdlt)]
            exact hc
          refine ih d hd (Nat.lt_of_lt_of_le hd (Nat.le_of_lt_succ hle)) hother ?_
          rw [List.getElem?_eq_getElem hclt]
          refine congrArg some (Classical.byContradiction fun hne => hnotmem ⟨target, ?_⟩)
          rw [Option.bind_some, hother]
          exact Row.mem_entries_some.2
            ⟨htarget, _, List.getElem?_eq_getElem hclt, fun heq => hne heq.symm⟩

end Packs

end Tables

end Munch
