-- SUMMARY: The ways to write a record as an object, and the fields that a reader gets from each of them.
import Mathlib.Data.List.Forall2
import Munch.Json.Record

/-! # Written records

A record may be written with its members in any order, with members that its reader does not know,
and without fields that have their default. Its reader gets the fields in their own order. -/

namespace Munch

namespace Json

/-! ## Records -/

/-- A field of a record that is written. -/
structure Field where
  name : String
  /-- The values that stand for what the field holds. -/
  Shows : Json → Prop
  /-- When the field may be left out. -/
  Omissible : Prop := False

/-- What a member that is not known may hold: a string or an integer. -/
def IsPlain : Json → Prop
  | text (some _) | number (.integer _) => True
  | _ => False

/-- Members that present the fields of a record, in any order. Each name occurs once. -/
structure Presents (members : List (String × Json)) (fields : List Field) : Prop where
  names_nodup : (members.map (·.1)).Nodup
  known : ∀ field ∈ fields, (∃ value, (field.name, value) ∈ members ∧ field.Shows value) ∨
    field.Omissible ∧ field.name ∉ members.map (·.1)
  unknown : ∀ m ∈ members, m.1 ∉ fields.map (·.name) → m.2.IsPlain

/-- A way to write a record. -/
def IsRecord (j : Json) (fields : List Field) : Prop :=
  ∃ members, j = record members ∧ Presents members fields

/-- A way to write a list of which each item is written in some way. -/
def IsListOf {α : Type} (Form : α → Json → Prop) (as : List α) (j : Json) : Prop :=
  ∃ items, j = array items ∧ List.Forall₂ Form as items

/-- One way to write a record is to write all fields in their order. -/
theorem isRecord_record {members : List (String × Json)} {fields : List Field}
    (h : List.Forall₂ (fun m field => m.1 = field.name ∧ field.Shows m.2) members fields)
    (hnodup : (fields.map (·.name)).Nodup) : (record members).IsRecord fields := by
  have hnames : members.map (·.1) = fields.map (·.name) := by
    induction h with
    | nil => rfl
    | cons hm _ ih => rw [List.map_cons, List.map_cons, hm.1, ih (List.nodup_cons.1 hnodup).2]
  refine ⟨members, rfl, hnames ▸ hnodup, fun field hfield => .inl ?_, fun m hm hunknown => ?_⟩
  · clear hnames hnodup
    induction h with
    | nil => cases hfield
    | @cons m _ _ _ hm _ ih =>
      rcases List.mem_cons.1 hfield with rfl | hfield
      · exact ⟨m.2, hm.1 ▸ List.mem_cons_self, hm.2⟩
      · obtain ⟨value, hmem, hshows⟩ := ih hfield
        exact ⟨value, List.mem_cons_of_mem _ hmem, hshows⟩
  · exact absurd (hnames ▸ List.mem_map.2 ⟨m, hm, rfl⟩) hunknown

/-! ## Reading fields -/

/-- What a reader may find for a field. -/
def Field.Meets (field : Field) : Option Json → Prop
  | some value => field.Shows value
  | none => field.Omissible

/-- The members of an object under their names. -/
def named (members : List (String × Json)) : List (JsonText × Json) :=
  members.map fun (name, value) => (some name, value)

theorem filter_named_of_notMem {members : List (String × Json)} {name : String}
    (hname : name ∉ members.map (·.1)) : (named members).filter (·.1 == some name) = [] := by
  rw [named, List.filter_map, List.map_eq_nil_iff, List.filter_eq_nil_iff]
  rintro ⟨name', value⟩ hmem heq
  obtain rfl : name' = name := by simpa using heq
  exact hname (List.mem_map.2 ⟨_, hmem, rfl⟩)

theorem filter_named {members : List (String × Json)} (hnodup : (members.map (·.1)).Nodup)
    {name : String} {value : Json} (hmem : (name, value) ∈ members) :
    (named members).filter (·.1 == some name) = [(some name, value)] := by
  induction members with
  | nil => cases hmem
  | cons m members ih =>
    obtain ⟨hm, hnodup⟩ := List.nodup_cons.1 hnodup
    rw [named, List.map_cons, ← named]
    rcases List.mem_cons.1 hmem with rfl | hmem
    · rw [List.filter_cons_of_pos (by simp), filter_named_of_notMem hm]
    · have hne : m.1 ≠ name := by
        rintro rfl
        exact hm (List.mem_map.2 ⟨_, hmem, rfl⟩)
      rw [List.filter_cons_of_neg (by simpa using hne), ih hnodup hmem]

theorem Presents.member?_meets {members : List (String × Json)} {fields : List Field}
    (h : Presents members fields) {field : Field} (hfield : field ∈ fields) :
    ∃ found, member? (named members) field.name = some found ∧ field.Meets found := by
  rcases h.known field hfield with ⟨value, hmem, hshows⟩ | ⟨homissible, hname⟩
  · exact ⟨some value, by rw [member?, filter_named h.names_nodup hmem], hshows⟩
  · exact ⟨none, by rw [member?, filter_named_of_notMem hname], homissible⟩

/-- The reader finds each field. -/
theorem Presents.membersNamed?_meets {members : List (String × Json)} {fields : List Field}
    (h : Presents members fields) : ∃ found,
      membersNamed? (fields.map (·.name)) (named members) = some found ∧
        List.Forall₂ Field.Meets fields found := by
  have hnames : (named members).all (·.1.isSome) = true := by
    simp [named]
  have hfound (fs : List Field) (hfs : fs ⊆ fields) : ∃ found,
      (fs.map (·.name)).mapM (member? (named members)) = some found ∧
        List.Forall₂ Field.Meets fs found := by
    induction fs with
    | nil => exact ⟨[], rfl, .nil⟩
    | cons field fs ih =>
      obtain ⟨found, hmember, hmeets⟩ := h.member?_meets (hfs List.mem_cons_self)
      obtain ⟨rest, hrest, hmeets'⟩ := ih fun f hmem => hfs (List.mem_cons_of_mem field hmem)
      refine ⟨found :: rest, ?_, .cons hmeets hmeets'⟩
      rw [List.map_cons, List.mapM_cons, hmember, hrest]
      rfl
  rw [membersNamed?, if_pos hnames]
  exact hfound fields (List.Subset.refl fields)

theorem IsRecord.fields?_meets {j : Json} {fields : List Field} (h : j.IsRecord fields) :
    ∃ found, j.fields? (fields.map (·.name)) = some found ∧
      List.Forall₂ Field.Meets fields found := by
  obtain ⟨members, rfl, hpresents⟩ := h
  exact hpresents.membersNamed?_meets

theorem required_eq {α : Type} {read : Json → Option α} {a : α} {name : String}
    {Shows : Json → Prop} {found : Option Json} (h : Field.Meets { name, Shows } found)
    (hread : ∀ value, Shows value → read value = some a) : required read found = some a := by
  cases found with
  | none => exact h.elim
  | some value => exact hread value h

/-- A field that is written in one way. -/
theorem required_value_eq {α : Type} {read : Json → Option α} {a : α} {name : String} {value : Json}
    {found : Option Json} (h : Field.Meets { name, Shows := (· = value) } found)
    (hread : read value = some a) : required read found = some a :=
  required_eq h fun _ heq => heq ▸ hread

theorem optional_eq {α : Type} {read : Json → Option α} {a default : α} {field : Field}
    {found : Option Json} (h : field.Meets found)
    (hread : ∀ value, field.Shows value → read value = some a)
    (hdefault : field.Omissible → a = default) : optional read default found = some a := by
  cases found with
  | none => exact congrArg some (hdefault h).symm
  | some value => exact hread value h

theorem IsPlain.isKeepable {j : Json} (h : j.IsPlain) (depth : Nat) : j.isKeepable depth = true := by
  cases j with
  | text s => cases s with
    | none => exact h.elim
    | some s => rfl
  | number n => cases n with
    | integer n => rfl
    | _ => exact h.elim
  | _ => exact h.elim

/-- Unknown members with plain values can be kept. -/
theorem Presents.areMembersKeepable {members : List (String × Json)} {fields : List Field}
    (h : Presents members fields) (depth : Nat) : areMembersKeepable depth
      ((named members).filter fun m => !m.1.any (fields.map (·.name)).contains) = true := by
  have hplain : ∀ m ∈ (named members).filter fun m => !m.1.any (fields.map (·.name)).contains,
      m.1.isSome ∧ m.2.IsPlain := by
    intro m hmem
    obtain ⟨hnamed, hname⟩ := List.mem_filter.1 hmem
    obtain ⟨⟨name, value⟩, hmember, rfl⟩ := List.mem_map.1 hnamed
    exact ⟨rfl, h.unknown (name, value) hmember (by simpa using hname)⟩
  generalize (named members).filter _ = unknown at hplain
  induction unknown with
  | nil => rfl
  | cons m unknown ih =>
    obtain ⟨hname, hvalue⟩ := hplain m List.mem_cons_self
    have hrest := ih fun m' hmem => hplain m' (List.mem_cons_of_mem m hmem)
    rw [Json.areMembersKeepable, hname, hvalue.isKeepable depth, hrest]
    rfl

/-! ## Reading values -/

theorem int?_eq {low high n : Int} (hlow : low ≤ n) (hhigh : n < high) :
    (number (.integer n)).int? low high = some n := by
  rw [int?, if_pos]
  rw [Bool.and_eq_true, decide_eq_true_iff, decide_eq_true_iff]
  exact ⟨hlow, hhigh⟩

theorem uint8?_ofNat (n : UInt8) : (ofNat n.toNat).uint8? = some n := by
  rw [uint8?, ofNat, int?_eq (Int.natCast_nonneg _) (Int.ofNat_lt.2 n.toNat_lt), Option.map_some,
    Int.toNat_natCast, UInt8.ofNat_toNat]

theorem uint32?_ofNat (n : UInt32) : (ofNat n.toNat).uint32? = some n := by
  rw [uint32?, ofNat, int?_eq (Int.natCast_nonneg _) (Int.ofNat_lt.2 n.toNat_lt), Option.map_some,
    Int.toNat_natCast, UInt32.ofNat_toNat]

theorem uint64?_ofNat (n : UInt64) : (ofNat n.toNat).uint64? = some n := by
  rw [uint64?, ofNat, int?_eq (Int.natCast_nonneg _) (Int.ofNat_lt.2 n.toNat_lt), Option.map_some,
    Int.toNat_natCast, UInt64.ofNat_toNat]

theorem int32?_ofInt (n : Int32) : (ofInt n.toInt).int32? = some n := by
  have hlow : -2147483648 ≤ n.toInt := n.le_toInt
  have hhigh : n.toInt < 2147483648 := n.toInt_lt
  rw [int32?, ofInt, int?_eq hlow hhigh, Option.map_some, Int32.ofInt_toInt]

/-- A list is read if each of its items is. -/
theorem IsListOf.list?_eq {α : Type} {Form : α → Json → Prop} {read : Json → Option α} {as : List α}
    {j : Json} (h : IsListOf Form as j) (hread : ∀ a j, Form a j → read j = some a) :
    j.list? read = some as := by
  obtain ⟨items, rfl, hitems⟩ := h
  rw [list?]
  induction hitems with
  | nil => rfl
  | cons hform _ ih =>
    rw [List.mapM_cons, hread _ _ hform, ih]
    rfl

/-- A list whose items are written in one way. -/
theorem isListOf_ofList {α : Type} {Form : α → Json → Prop} {write : α → Json}
    (h : ∀ a, Form a (write a)) (as : List α) : IsListOf Form as (ofList write as) := by
  refine ⟨_, rfl, ?_⟩
  induction as with
  | nil => exact .nil
  | cons a as ih => exact .cons (h a) ih

/-- A list that is written and read alike. -/
theorem list?_ofList {α : Type} {write : α → Json} {read : Json → Option α}
    (h : ∀ a, read (write a) = some a) (as : List α) : (ofList write as).list? read = some as := by
  change (as.map write).mapM read = some as
  induction as with
  | nil => rfl
  | cons a as ih =>
    rw [List.map_cons, List.mapM_cons, h a, ih]
    rfl

end Json

end Munch
