-- SUMMARY: First-fit displacement keeps every entry of every row, although the rows share their slots.
import Mathlib.Algebra.Group.Nat.Defs
import Munch.Automaton.Pack

/-! # Layouts

Rows are placed one after the other where all their entries fall on free slots. `Layout.Holds` is
what each placement keeps: the entries of all rows are where their rows are displaced to, and a slot
is owned only by a row with an entry there. -/

namespace Munch

/-! ## Entries -/

/-- Entries of a row of a given width: one target at most for each class. -/
structure Entries.Proper (entries : Entries) (width : Nat) : Prop where
  lt : ∀ c target, (c, target) ∈ entries → c < width
  functional : ∀ c target target', (c, target) ∈ entries → (c, target') ∈ entries → target = target'

namespace Entries

/-- Writes the entries of a row at a displacement. -/
def writeTo (entries : Entries) (owner : Int32) (offset : Nat) (slots : Array Slot) : Array Slot :=
  entries.foldl (fun slots (c, target) =>
    slots.setIfInBounds (offset + c) ⟨owner, State.toEntry target⟩) slots

section Writing

variable {owner : Int32} {offset : Nat}

theorem writeTo_cons (c : ByteClass) (target : Option State) (entries : Entries)
    (slots : Array Slot) : writeTo ((c, target) :: entries) owner offset slots =
      writeTo entries owner offset (slots.setIfInBounds (offset + c) ⟨owner, State.toEntry target⟩) :=
  rfl

theorem size_writeTo (entries : Entries) (slots : Array Slot) :
    (writeTo entries owner offset slots).size = slots.size := by
  induction entries generalizing slots with
  | nil => rfl
  | cons entry entries ih =>
    rw [writeTo_cons, ih, Array.size_setIfInBounds]

/-- Other slots stay as they are. -/
theorem getElem?_writeTo_of_ne {entries : Entries} {k : Nat}
    (h : ∀ c target, (c, target) ∈ entries → offset + c ≠ k) (slots : Array Slot) :
    (writeTo entries owner offset slots)[k]? = slots[k]? := by
  induction entries generalizing slots with
  | nil => rfl
  | cons entry entries ih =>
    obtain ⟨c, target⟩ := entry
    rw [writeTo_cons, ih fun c target hmem => h c target (List.mem_cons_of_mem _ hmem)]
    exact Array.getElem?_setIfInBounds_ne (h c target List.mem_cons_self)

/-- The slot of an entry holds it in the end. Later entries for the same slot agree with it. -/
theorem getElem?_writeTo_of_mem {entries : Entries} {c : ByteClass} {target : Option State}
    (hmem : (c, target) ∈ entries)
    (hfun : ∀ target', (c, target') ∈ entries → target = target') {slots : Array Slot}
    (hlt : offset + c < slots.size) :
    (writeTo entries owner offset slots)[offset + c]? = some ⟨owner, State.toEntry target⟩ := by
  induction entries generalizing slots with
  | nil => cases hmem
  | cons entry entries ih =>
    obtain ⟨c', target'⟩ := entry
    rw [writeTo_cons]
    by_cases hrest : (c, target) ∈ entries
    · refine ih hrest (fun target' h => hfun target' (List.mem_cons_of_mem _ h)) ?_
      rw [Array.size_setIfInBounds]
      exact hlt
    · -- No later entry has this class, as it would have this target as well.
      obtain ⟨rfl, rfl⟩ : c = c' ∧ target = target' := by
        rcases List.mem_cons.1 hmem with heq | hmem
        · exact Prod.mk.inj heq
        · exact absurd hmem hrest
      rw [getElem?_writeTo_of_ne]
      · exact Array.getElem?_setIfInBounds_self_of_lt hlt
      · intro c' target' h hc
        obtain rfl := Nat.add_left_cancel hc
        exact hrest (hfun target' (List.mem_cons_of_mem _ h) ▸ h)

end Writing

/-! ## First fit -/

theorem firstFit_le (entries : Entries) (slots : Array Slot) :
    entries.firstFit slots ≤ slots.size := by
  unfold firstFit
  cases h : (List.range slots.size).find? (entries.fits slots) with
  | none => exact Nat.le_refl _
  | some offset => exact Nat.le_of_lt (List.mem_range.1 (List.mem_of_find?_eq_some h))

/-- What first fit chooses is free. -/
theorem free_of_firstFit {entries : Entries} {slots : Array Slot} {c : ByteClass}
    {target : Option State} (hmem : (c, target) ∈ entries) {slot : Slot}
    (hslot : slots[entries.firstFit slots + c]? = some slot) : slot.owner.toInt < 0 := by
  unfold firstFit at hslot
  cases h : (List.range slots.size).find? (entries.fits slots) with
  | none =>
    rw [h, Option.getD_none, Array.getElem?_eq_none (Nat.le_add_right _ _)] at hslot
    cases hslot
  | some offset =>
    rw [h, Option.getD_some] at hslot
    have hfits : entries.fits slots offset = true := List.find?_some h
    have hfree := List.all_eq_true.1 hfits _ hmem
    simpa only [hslot, Option.all_some, decide_eq_true_eq] using hfree

end Entries

/-! ## Placement -/

namespace Layout

/-- The displacement of the row of a state. -/
def offset (layout : Layout) (s : State) : Nat :=
  (layout.base[s]?.getD 0).toNat

/-- The layout holds the entries of the rows placed so far, and nothing else. -/
structure Holds (layout : Layout) (width : Nat) (placed : List Entries) : Prop where
  size_eq : layout.base.size = placed.length
  size_le : layout.slots.size ≤ placed.length * width
  row_le : ∀ s < placed.length, layout.offset s + width ≤ layout.slots.size
  held : ∀ s entries, placed[s]? = some entries → ∀ c target, (c, target) ∈ entries →
    layout.slots[layout.offset s + c]? = some ⟨Int32.ofNat s, State.toEntry target⟩
  owned : ∀ k slot, layout.slots[k]? = some slot → slot = .free ∨
    ∃ s entries c target, placed[s]? = some entries ∧ (c, target) ∈ entries ∧
      k = layout.offset s + c ∧ slot = ⟨Int32.ofNat s, State.toEntry target⟩

theorem Holds.empty (width : Nat) : Holds {} width [] where
  size_eq := rfl
  size_le := Nat.zero_le _
  row_le _ hs := nomatch hs
  held _ _ hplaced := nomatch hplaced
  owned _ _ hslot := nomatch hslot

section Placement

variable {layout : Layout} {width : Nat} {entries : Entries}

/-- The slots at hand for a row, new ones at the end included. -/
def room (layout : Layout) (width : Nat) (entries : Entries) : Array Slot :=
  layout.slots ++
    Array.replicate (entries.firstFit layout.slots + width - layout.slots.size) Slot.free

theorem place_slots : (layout.place width entries).slots =
    entries.writeTo (Int32.ofNat layout.base.size) (entries.firstFit layout.slots)
      (layout.room width entries) :=
  rfl

theorem size_room : (layout.room width entries).size =
    max layout.slots.size (entries.firstFit layout.slots + width) := by
  rw [room, Array.size_append, Array.size_replicate]
  omega

theorem getElem?_room {k : Nat} {slot : Slot} (h : (layout.room width entries)[k]? = some slot) :
    layout.slots[k]? = some slot ∨ slot = .free := by
  rw [room, Array.getElem?_append] at h
  split at h
  · exact .inl h
  · rw [Array.getElem?_replicate] at h
    split at h
    · exact .inr (Option.some.inj h).symm
    · cases h

theorem offset_place_of_lt {s : State} (hs : s < layout.base.size) :
    (layout.place width entries).offset s = layout.offset s := by
  unfold offset place
  rw [Array.getElem?_push_lt hs, Array.getElem?_eq_getElem hs]

theorem offset_place_size (h : layout.slots.size < 2 ^ 31) :
    (layout.place width entries).offset layout.base.size = entries.firstFit layout.slots := by
  have hle := entries.firstFit_le layout.slots
  unfold offset place
  rw [Array.getElem?_push_size, Option.getD_some]
  exact UInt32.toNat_ofNat_of_lt' (Nat.lt_of_le_of_lt hle (Nat.lt_trans h (by decide)))

/-- Placing a row adds its entries and leaves those of the others alone. -/
theorem Holds.place {placed : List Entries} (h : layout.Holds width placed)
    (hproper : entries.Proper width) (hsize : layout.slots.size < 2 ^ 31)
    (hcount : placed.length < 2 ^ 31) :
    (layout.place width entries).Holds width (placed ++ [entries]) := by
  have hle := entries.firstFit_le layout.slots
  have hnew : (layout.place width entries).offset placed.length = entries.firstFit layout.slots :=
    h.size_eq ▸ offset_place_size hsize
  have hold : ∀ s < placed.length, (layout.place width entries).offset s = layout.offset s :=
    fun s hs => offset_place_of_lt (h.size_eq ▸ hs)
  have hslots : (layout.place width entries).slots.size =
      max layout.slots.size (entries.firstFit layout.slots + width) := by
    rw [place_slots, Entries.size_writeTo, size_room]
  -- A slot of an earlier row is not free, so no new entry falls on it.
  have hframe : ∀ s < placed.length, ∀ (k : Nat) (target : Int32),
      layout.slots[k]? = some ⟨Int32.ofNat s, target⟩ →
      (layout.place width entries).slots[k]? = some ⟨Int32.ofNat s, target⟩ := by
    intro s hs k target hk
    obtain ⟨hklt, -⟩ := Array.getElem?_eq_some_iff.1 hk
    rw [place_slots, Entries.getElem?_writeTo_of_ne, room, Array.getElem?_append_left hklt, hk]
    rintro c target' hmem rfl
    have hfree := Entries.free_of_firstFit hmem hk
    rw [Int32.toInt_ofNat_of_lt (Nat.lt_trans hs hcount)] at hfree
    exact absurd (Int.natCast_nonneg s) (Int.not_le.2 hfree)
  have hentry : ∀ c target, (c, target) ∈ entries →
      (layout.place width entries).slots[entries.firstFit layout.slots + c]? =
        some ⟨Int32.ofNat placed.length, State.toEntry target⟩ := by
    intro c target hmem
    rw [place_slots, h.size_eq]
    refine Entries.getElem?_writeTo_of_mem hmem
      (fun target' hmem' => hproper.functional c target target' hmem hmem') ?_
    rw [size_room]
    exact Nat.lt_of_lt_of_le (Nat.add_lt_add_left (hproper.lt c target hmem) _) (Nat.le_max_right _ _)
  have hlookup : ∀ s entries', (placed ++ [entries])[s]? = some entries' →
      s < placed.length ∧ placed[s]? = some entries' ∨ s = placed.length ∧ entries' = entries := by
    intro s entries' hs
    rw [List.getElem?_append] at hs
    split at hs
    · rename_i hlt
      exact .inl ⟨hlt, hs⟩
    · obtain ⟨hlt, heq⟩ := List.getElem?_eq_some_iff.1 hs
      rw [List.length_singleton] at hlt
      exact .inr ⟨by omega, by rw [← heq, List.getElem_singleton]⟩
  constructor
  case size_eq =>
    rw [List.length_append, List.length_singleton, ← h.size_eq]
    exact Array.size_push _
  case size_le =>
    have hprev := h.size_le
    rw [hslots, List.length_append, List.length_singleton, Nat.succ_mul]
    omega
  case row_le =>
    intro s hs
    rw [List.length_append, List.length_singleton] at hs
    rw [hslots]
    rcases Nat.lt_succ_iff_lt_or_eq.1 hs with hlt | rfl
    · rw [hold s hlt]
      exact Nat.le_trans (h.row_le s hlt) (Nat.le_max_left _ _)
    · rw [hnew]
      exact Nat.le_max_right _ _
  case held =>
    intro s entries' hplaced c target hmem
    rcases hlookup s entries' hplaced with ⟨hlt, hplaced⟩ | ⟨rfl, rfl⟩
    · rw [hold s hlt]
      exact hframe s hlt _ _ (h.held s entries' hplaced c target hmem)
    · rw [hnew]
      exact hentry c target hmem
  case owned =>
    intro k slot hslot
    by_cases hmine : ∃ c target, (c, target) ∈ entries ∧ entries.firstFit layout.slots + c = k
    · obtain ⟨c, target, hmem, rfl⟩ := hmine
      rw [hentry c target hmem] at hslot
      refine .inr ⟨placed.length, entries, c, target, ?_, hmem, by rw [hnew], ?_⟩
      · rw [List.getElem?_append_right (Nat.le_refl _), Nat.sub_self]
        rfl
      · exact (Option.some.inj hslot).symm
    · rw [place_slots, Entries.getElem?_writeTo_of_ne fun c target hmem hc =>
        hmine ⟨c, target, hmem, hc⟩] at hslot
      rcases getElem?_room hslot with hslot | hfree
      · rcases h.owned k slot hslot with hfree | ⟨s, entries', c, target, hplaced, hmem, hk, heq⟩
        · exact .inl hfree
        · obtain ⟨hlt, -⟩ := List.getElem?_eq_some_iff.1 hplaced
          refine .inr ⟨s, entries', c, target, ?_, hmem, by rw [hold s hlt, hk], heq⟩
          rw [List.getElem?_append_left hlt, hplaced]
      · exact .inl hfree

end Placement

/-! ## Whole layouts -/

theorem Holds.foldl {α : Type} {width : Nat} {f : α → Entries} {as : List α} {layout : Layout}
    {placed : List Entries} (h : layout.Holds width placed)
    (hproper : ∀ a ∈ as, (f a).Proper width) (hsize : (placed.length + as.length) * width < 2 ^ 31)
    (hcount : placed.length + as.length < 2 ^ 31) :
    (as.foldl (fun layout a => layout.place width (f a)) layout).Holds width (placed ++ as.map f) := by
  induction as generalizing layout placed with
  | nil =>
    rw [List.map_nil, List.append_nil]
    exact h
  | cons a as ih =>
    rw [List.length_cons] at hsize hcount
    have hplace := h.place (hproper a List.mem_cons_self)
      (Nat.lt_of_le_of_lt (Nat.le_trans h.size_le
        (Nat.mul_le_mul_right width (Nat.le_add_right _ _))) hsize)
      (Nat.lt_of_le_of_lt (Nat.le_add_right _ _) hcount)
    have hlength : (placed ++ [f a]).length + as.length = placed.length + (as.length + 1) := by
      rw [List.length_append, List.length_singleton, Nat.add_assoc, Nat.add_comm 1]
    have hrest := ih hplace (fun a' hmem => hproper a' (List.mem_cons_of_mem _ hmem))
      (hlength ▸ hsize) (hlength ▸ hcount)
    rw [List.append_assoc] at hrest
    exact hrest

end Layout

end Munch
