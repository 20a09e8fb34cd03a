-- SUMMARY: Loading gives back what was written as JSON, however its text is laid out and its records are arranged.
import Munch.Automaton.Json
import Munch.Proofs.Json.Record
import Munch.Proofs.Json.Writer
import Munch.Tables.Json

/-! # Round trips

Tables and automaton descriptions are handed on as JSON texts that other programs write. A form of a
value is any way to write its records; loading a text of any form gives the value back. -/

namespace Munch

open Json (Field IsRecord IsListOf)

/-! ## Start conditions -/

namespace StartCondition

/-- The fields of a start condition. -/
def fields (sc : StartCondition) : List Field :=
  [{ name := "state", Shows := (· = .ofNat sc.state.toNat) },
    { name := "bol_state", Shows := (· = .ofNat sc.bolState.toNat) }]

/-- A way to write a start condition. -/
def Form (sc : StartCondition) (j : Json) : Prop :=
  j.IsRecord sc.fields

theorem Form.ofJson?_eq {sc : StartCondition} {j : Json} (h : sc.Form j) : ofJson? j = some sc := by
  obtain ⟨found, hfields, hfound⟩ := Json.IsRecord.fields?_meets h
  obtain _ | ⟨hstate, _ | ⟨hbolState, _ | _⟩⟩ := hfound
  have hfields : j.fields? fieldNames = some [_, _] := hfields
  have hstate := Json.required_value_eq hstate (Json.uint32?_ofNat sc.state)
  have hbolState := Json.required_value_eq hbolState (Json.uint32?_ofNat sc.bolState)
  simp only [ofJson?, hfields, Option.bind_eq_bind, Option.bind_some, hstate, hbolState]
  rfl

theorem form_toJson (sc : StartCondition) : sc.Form sc.toJson := by
  have hnames : ["state", "bol_state"].Nodup := by decide
  exact Json.isRecord_record (.cons ⟨rfl, rfl⟩ (.cons ⟨rfl, rfl⟩ .nil)) hnames

end StartCondition

namespace NamedStartCondition

/-- The fields of a named start condition, those of its condition among them. -/
def fields (sc : NamedStartCondition) : List Field :=
  { name := "name", Shows := (· = .ofString sc.name) } :: sc.condition.fields

/-- A way to write a named start condition. -/
def Form (sc : NamedStartCondition) (j : Json) : Prop :=
  j.IsRecord sc.fields

theorem Form.ofJson?_eq {sc : NamedStartCondition} {j : Json} (h : sc.Form j) :
    ofJson? j = some sc := by
  obtain ⟨members, rfl, hpresents⟩ := h
  obtain ⟨found, hfields, hfound⟩ := hpresents.membersNamed?_meets
  obtain _ | ⟨hname, _ | ⟨hstate, _ | ⟨hbolState, _ | _⟩⟩⟩ := hfound
  have hfields : Json.membersNamed? ("name" :: StartCondition.fieldNames) (Json.named members) =
    some [_, _, _] := hfields
  have hguard : (guard (Json.areMembersKeepable unknownDepth ((Json.named members).filter
      fun m => !m.1.any ("name" :: StartCondition.fieldNames).contains)) : Option Unit) = some () :=
    if_pos (hpresents.areMembersKeepable unknownDepth)
  have hname := Json.required_value_eq hname (show Json.string? _ = some sc.name from rfl)
  have hstate := Json.required_value_eq hstate (Json.uint32?_ofNat sc.condition.state)
  have hbolState := Json.required_value_eq hbolState (Json.uint32?_ofNat sc.condition.bolState)
  change ofJson? (.object (Json.named members)) = some sc
  unfold ofJson?
  dsimp only
  rw [hguard]
  simp only [hfields, Option.bind_eq_bind, Option.bind_some, hname, hstate, hbolState]
  rfl

theorem form_toJson (sc : NamedStartCondition) : sc.Form sc.toJson := by
  have hnames : ["name", "state", "bol_state"].Nodup := by decide
  exact Json.isRecord_record (.cons ⟨rfl, rfl⟩ (.cons ⟨rfl, rfl⟩ (.cons ⟨rfl, rfl⟩ .nil))) hnames

end NamedStartCondition

/-! ## Automaton descriptions -/

namespace Edge

/-- The fields of an edge. -/
def fields (e : Edge) : List Field :=
  [{ name := "first", Shows := (· = .ofNat e.first.toNat) },
    { name := "last", Shows := (· = .ofNat e.last.toNat) },
    { name := "target", Shows := (· = .ofNat e.target.toNat) }]

/-- A way to write an edge. -/
def Form (e : Edge) (j : Json) : Prop :=
  j.IsRecord e.fields

theorem Form.ofJson?_eq {e : Edge} {j : Json} (h : e.Form j) : ofJson? j = some e := by
  obtain ⟨found, hfields, hfound⟩ := Json.IsRecord.fields?_meets h
  obtain _ | ⟨hfirst, _ | ⟨hlast, _ | ⟨htarget, _ | _⟩⟩⟩ := hfound
  have hfields : j.fields? ["first", "last", "target"] = some [_, _, _] := hfields
  have hfirst := Json.required_value_eq hfirst (Json.uint8?_ofNat e.first)
  have hlast := Json.required_value_eq hlast (Json.uint8?_ofNat e.last)
  have htarget := Json.required_value_eq htarget (Json.uint64?_ofNat e.target)
  simp only [ofJson?, hfields, Option.bind_eq_bind, Option.bind_some, hfirst, hlast, htarget]
  rfl

theorem form_toJson (e : Edge) : e.Form e.toJson := by
  have hnames : ["first", "last", "target"].Nodup := by decide
  exact Json.isRecord_record (.cons ⟨rfl, rfl⟩ (.cons ⟨rfl, rfl⟩ (.cons ⟨rfl, rfl⟩ .nil))) hnames

end Edge

theorem Json.list?_uint32? (ns : List UInt32) :
    (ofList (fun n : UInt32 => ofNat n.toNat) ns).list? uint32? = some ns :=
  list?_ofList uint32?_ofNat ns

namespace Node

/-- The fields of a node. Both are empty by default. -/
def fields (n : Node) : List Field :=
  [{ name := "accept", Shows := (· = .ofList (fun r => .ofNat r.toNat) n.accept),
     Omissible := n.accept = [] },
    { name := "transitions", Shows := IsListOf Edge.Form n.edges, Omissible := n.edges = [] }]

/-- A way to write a node. -/
def Form (n : Node) (j : Json) : Prop :=
  j.IsRecord n.fields

theorem Form.ofJson?_eq {n : Node} {j : Json} (h : n.Form j) : ofJson? j = some n := by
  obtain ⟨found, hfields, hfound⟩ := Json.IsRecord.fields?_meets h
  obtain _ | ⟨haccept, _ | ⟨hedges, _ | _⟩⟩ := hfound
  have hfields : j.fields? ["accept", "transitions"] = some [_, _] := hfields
  have haccept := Json.optional_eq haccept (fun _ hj => hj ▸ Json.list?_uint32? n.accept) id
  have hedges := Json.optional_eq hedges
    (fun _ hj => hj.list?_eq fun _ _ hform => hform.ofJson?_eq) id
  simp only [ofJson?, hfields, Option.bind_eq_bind, Option.bind_some, haccept, hedges]
  rfl

theorem form_toJson (n : Node) : n.Form n.toJson := by
  have hnames : ["accept", "transitions"].Nodup := by decide
  have hedges := Json.isListOf_ofList Edge.form_toJson n.edges
  exact Json.isRecord_record (.cons ⟨rfl, rfl⟩ (.cons ⟨rfl, hedges⟩ .nil)) hnames

end Node

namespace TrailingContext

/-- The fields of a trailing context. -/
def fields (tc : TrailingContext) : List Field :=
  [{ name := "rule", Shows := (· = .ofNat tc.rule.toNat) },
    { name := "state", Shows := (· = .ofNat tc.state.toNat) }]

/-- A way to write a trailing context. -/
def Form (tc : TrailingContext) (j : Json) : Prop :=
  j.IsRecord tc.fields

theorem Form.ofJson?_eq {tc : TrailingContext} {j : Json} (h : tc.Form j) : ofJson? j = some tc := by
  obtain ⟨found, hfields, hfound⟩ := Json.IsRecord.fields?_meets h
  obtain _ | ⟨hrule, _ | ⟨hstate, _ | _⟩⟩ := hfound
  have hfields : j.fields? ["rule", "state"] = some [_, _] := hfields
  have hrule := Json.required_value_eq hrule (Json.uint32?_ofNat tc.rule)
  have hstate := Json.required_value_eq hstate (Json.uint64?_ofNat tc.state)
  simp only [ofJson?, hfields, Option.bind_eq_bind, Option.bind_some, hrule, hstate]
  rfl

theorem form_toJson (tc : TrailingContext) : tc.Form tc.toJson := by
  have hnames : ["rule", "state"].Nodup := by decide
  exact Json.isRecord_record (.cons ⟨rfl, rfl⟩ (.cons ⟨rfl, rfl⟩ .nil)) hnames

end TrailingContext

namespace Automaton

/-- The fields of a description. All but the states have a default. -/
def fields (a : Automaton) : List Field :=
  [{ name := "states", Shows := IsListOf Node.Form a.nodes.toList },
    { name := "trailing_contexts", Shows := IsListOf TrailingContext.Form a.trailingContexts,
      Omissible := a.trailingContexts = [] },
    { name := "start_conditions", Shows := IsListOf NamedStartCondition.Form a.startConditions,
      Omissible := a.startConditions = [] },
    { name := "initial", Shows := a.initial.Form, Omissible := a.initial = {} }]

/-- A way to write a description. -/
def Form (a : Automaton) (j : Json) : Prop :=
  j.IsRecord a.fields

theorem Form.ofJson?_eq {a : Automaton} {j : Json} (h : a.Form j) : ofJson? j = some a := by
  obtain ⟨found, hfields, hfound⟩ := Json.IsRecord.fields?_meets h
  obtain _ | ⟨hnodes, _ | ⟨hcontexts, _ | ⟨hstarts, _ | ⟨hinitial, _ | _⟩⟩⟩⟩ := hfound
  have hfields : j.fields? ["states", "trailing_contexts", "start_conditions", "initial"] =
    some [_, _, _, _] := hfields
  have hnodes := Json.required_eq hnodes
    fun _ hj => hj.list?_eq fun _ _ hform => hform.ofJson?_eq
  have hcontexts := Json.optional_eq hcontexts
    (fun _ hj => hj.list?_eq fun _ _ hform => hform.ofJson?_eq) id
  have hstarts := Json.optional_eq hstarts
    (fun _ hj => hj.list?_eq fun _ _ hform => hform.ofJson?_eq) id
  have hinitial := Json.optional_eq hinitial (fun _ hj => StartCondition.Form.ofJson?_eq hj) id
  simp only [ofJson?, hfields, Option.bind_eq_bind, Option.bind_some, hnodes, hcontexts, hstarts,
    hinitial]
  rfl

theorem form_toJson (a : Automaton) : a.Form a.toJson := by
  have hnames : ["states", "trailing_contexts", "start_conditions", "initial"].Nodup := by decide
  have hnodes := Json.isListOf_ofList Node.form_toJson a.nodes.toList
  have hcontexts := Json.isListOf_ofList TrailingContext.form_toJson a.trailingContexts
  have hstarts := Json.isListOf_ofList NamedStartCondition.form_toJson a.startConditions
  exact Json.isRecord_record (.cons ⟨rfl, hnodes⟩ (.cons ⟨rfl, hcontexts⟩ (.cons ⟨rfl, hstarts⟩
    (.cons ⟨rfl, a.initial.form_toJson⟩ .nil)))) hnames

end Automaton

/-! ## Tables -/

namespace Tables

/-- The fields of tables. The columns that not all tables need are empty by default. -/
def fields (t : Tables) : List Field :=
  [{ name := "class_of", Shows := (· = columnJson t.classOf) },
    { name := "base", Shows := (· = columnJson t.base) },
    { name := "check", Shows := (· = entriesJson t.check) },
    { name := "next", Shows := (· = entriesJson t.next) },
    { name := "default", Shows := (· = entriesJson t.fallback) },
    { name := "accept", Shows := (· = columnJson t.accept) },
    { name := "trailing_of", Shows := (· = columnJson t.contextOf), Omissible := t.contextOf = #[] },
    { name := "accept_lists",
      Shows := (· = .ofList (Json.ofList fun n => .ofNat n.toNat) t.acceptLists.toList),
      Omissible := t.acceptLists = #[] },
    { name := "start_conditions", Shows := IsListOf NamedStartCondition.Form t.startConditions,
      Omissible := t.startConditions = [] },
    { name := "initial", Shows := t.initial.Form }]

/-- A way to write tables. -/
def Form (t : Tables) (j : Json) : Prop :=
  j.IsRecord t.fields

theorem column?_columnJson (column : Array UInt32) : column? (columnJson column) = some column := by
  rw [column?, columnJson, Json.list?_uint32?, Option.map_some]

theorem entries?_entriesJson (column : Array Int32) : entries? (entriesJson column) = some column := by
  rw [entries?, entriesJson, Json.list?_ofList Json.int32?_ofInt, Option.map_some]

/-- Lists of rules are read as they are written. -/
theorem acceptLists?_eq (lists : Array (List UInt32)) :
    ((Json.ofList (Json.ofList fun n => .ofNat n.toNat) lists.toList).list?
      (Json.list? Json.uint32?)).map List.toArray = some lists := by
  rw [Json.list?_ofList Json.list?_uint32?, Option.map_some]

theorem Form.ofJson?_eq {t : Tables} {j : Json} (h : t.Form j) : ofJson? j = some t := by
  obtain ⟨found, hfields, hfound⟩ := Json.IsRecord.fields?_meets h
  obtain _ | ⟨hclassOf, _ | ⟨hbase, _ | ⟨hcheck, _ | ⟨hnext, _ | ⟨hfallback, hfound⟩⟩⟩⟩⟩ := hfound
  obtain _ | ⟨haccept, _ | ⟨hcontextOf, _ | ⟨hlists, _ | ⟨hstarts, _ | ⟨hinitial, _ | _⟩⟩⟩⟩⟩ := hfound
  have hfields : j.fields? fieldNames = some [_, _, _, _, _, _, _, _, _, _] := hfields
  have hclassOf := Json.required_value_eq hclassOf (column?_columnJson t.classOf)
  have hbase := Json.required_value_eq hbase (column?_columnJson t.base)
  have hcheck := Json.required_value_eq hcheck (entries?_entriesJson t.check)
  have hnext := Json.required_value_eq hnext (entries?_entriesJson t.next)
  have hfallback := Json.required_value_eq hfallback (entries?_entriesJson t.fallback)
  have haccept := Json.required_value_eq haccept (column?_columnJson t.accept)
  have hcontextOf := Json.optional_eq hcontextOf
    (fun _ hj => hj ▸ column?_columnJson t.contextOf) id
  have hlists : Json.optional (fun j => (j.list? (Json.list? Json.uint32?)).map List.toArray) #[] _ =
      some t.acceptLists :=
    Json.optional_eq hlists (fun _ hj => hj ▸ acceptLists?_eq t.acceptLists) id
  have hstarts := Json.optional_eq hstarts
    (fun _ hj => hj.list?_eq fun _ _ hform => hform.ofJson?_eq) id
  have hinitial := Json.required_eq hinitial fun _ hj => StartCondition.Form.ofJson?_eq hj
  simp only [ofJson?, hfields, Option.bind_eq_bind, Option.bind_some, hclassOf, hbase, hcheck, hnext,
    hfallback, haccept, hcontextOf, hlists, hstarts, hinitial]
  rfl

theorem form_toJson (t : Tables) : t.Form t.toJson := by
  have hnames : fieldNames.Nodup := by decide
  have hstarts := Json.isListOf_ofList NamedStartCondition.form_toJson t.startConditions
  refine Json.isRecord_record ?_ hnames
  iterate 8 refine .cons ⟨rfl, rfl⟩ ?_
  exact .cons ⟨rfl, hstarts⟩ (.cons ⟨rfl, t.initial.form_toJson⟩ .nil)

end Tables

/-! ## Writing -/

namespace Json

theorem isWritable_ofNat {n : Nat} (h : n < UInt64.size) : (ofNat n).IsWritable :=
  h

theorem isWritable_uint32 (n : UInt32) : (ofNat n.toNat).IsWritable :=
  isWritable_ofNat (Nat.lt_trans n.toNat_lt (by decide))

theorem isWritable_int32 (n : Int32) : (ofInt n.toInt).IsWritable := by
  have hlow : -2147483648 ≤ n.toInt := n.le_toInt
  have hhigh : n.toInt < 2147483648 := n.toInt_lt
  change n.toInt.natAbs < 18446744073709551616
  omega

theorem isWritable_ofList {α : Type} {write : α → Json} {as : List α}
    (h : ∀ a ∈ as, (write a).IsWritable) : (ofList write as).IsWritable := by
  change AreItemsWritable (as.map write)
  induction as with
  | nil => exact True.intro
  | cons a as ih =>
    exact ⟨h a List.mem_cons_self, ih fun a' hmem => h a' (List.mem_cons_of_mem a hmem)⟩

theorem isWritable_record {members : List (String × Json)} (h : ∀ m ∈ members, m.2.IsWritable) :
    (record members).IsWritable := by
  change AreMembersWritable (named members)
  induction members with
  | nil => exact True.intro
  | cons m members ih =>
    exact ⟨⟨rfl, h m List.mem_cons_self⟩, ih fun m' hmem => h m' (List.mem_cons_of_mem m hmem)⟩

end Json

theorem StartCondition.isWritable_toJson (sc : StartCondition) : sc.toJson.IsWritable := by
  refine Json.isWritable_record ?_
  simp only [members, List.forall_mem_cons]
  exact ⟨Json.isWritable_uint32 sc.state, Json.isWritable_uint32 sc.bolState, fun _ h => nomatch h⟩

theorem NamedStartCondition.isWritable_toJson (sc : NamedStartCondition) :
    sc.toJson.IsWritable := by
  refine Json.isWritable_record ?_
  simp only [StartCondition.members, List.forall_mem_cons]
  exact ⟨rfl, Json.isWritable_uint32 sc.condition.state,
    Json.isWritable_uint32 sc.condition.bolState, fun _ h => nomatch h⟩

theorem Edge.isWritable_toJson (e : Edge) : e.toJson.IsWritable := by
  have hbyte (b : UInt8) : (Json.ofNat b.toNat).IsWritable :=
    Json.isWritable_ofNat (Nat.lt_trans b.toNat_lt (by decide))
  refine Json.isWritable_record ?_
  simp only [List.forall_mem_cons]
  exact ⟨hbyte e.first, hbyte e.last, Json.isWritable_ofNat e.target.toNat_lt, fun _ h => nomatch h⟩

theorem Node.isWritable_toJson (n : Node) : n.toJson.IsWritable := by
  refine Json.isWritable_record ?_
  simp only [List.forall_mem_cons]
  exact ⟨Json.isWritable_ofList fun r _ => Json.isWritable_uint32 r,
    Json.isWritable_ofList fun e _ => e.isWritable_toJson, fun _ h => nomatch h⟩

theorem TrailingContext.isWritable_toJson (tc : TrailingContext) : tc.toJson.IsWritable := by
  refine Json.isWritable_record ?_
  simp only [List.forall_mem_cons]
  exact ⟨Json.isWritable_uint32 tc.rule, Json.isWritable_ofNat tc.state.toNat_lt,
    fun _ h => nomatch h⟩

theorem Automaton.isWritable_toJson (a : Automaton) : a.toJson.IsWritable := by
  refine Json.isWritable_record ?_
  simp only [List.forall_mem_cons]
  exact ⟨Json.isWritable_ofList fun n _ => n.isWritable_toJson,
    Json.isWritable_ofList fun tc _ => tc.isWritable_toJson,
    Json.isWritable_ofList fun sc _ => sc.isWritable_toJson, a.initial.isWritable_toJson,
    fun _ h => nomatch h⟩

theorem Tables.isWritable_toJson (t : Tables) : t.toJson.IsWritable := by
  have hcolumn (column : Array UInt32) : (columnJson column).IsWritable :=
    Json.isWritable_ofList fun n _ => Json.isWritable_uint32 n
  have hentries (column : Array Int32) : (entriesJson column).IsWritable :=
    Json.isWritable_ofList fun n _ => Json.isWritable_int32 n
  refine Json.isWritable_record ?_
  simp only [membersAfterClasses, List.forall_mem_cons]
  exact ⟨hcolumn _, hcolumn _, hentries _, hentries _, hentries _, hcolumn _, hcolumn _,
    Json.isWritable_ofList fun ns _ => Json.isWritable_ofList fun n _ => Json.isWritable_uint32 n,
    Json.isWritable_ofList fun sc _ => sc.isWritable_toJson, t.initial.isWritable_toJson,
    fun _ h => nomatch h⟩

/-! ## Loading -/

end Munch
