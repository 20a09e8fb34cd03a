-- SUMMARY: Tables as JSON, and loading checked tables from a source.
import Munch.Error
import Munch.Json.Reader
import Munch.Json.StartCondition
import Munch.Tables.Valid

/-! # Tables as JSON -/

namespace Munch

namespace Tables

/-- The names of the fields, in order. -/
def fieldNames : List String :=
  ["class_of", "base", "check", "next", "default", "accept", "trailing_of", "accept_lists",
    "start_conditions", "initial"]

/-- Reads a column of unsigned integers. -/
def column? (j : Json) : Option (Array UInt32) :=
  (j.list? Json.uint32?).map List.toArray

/-- Reads a column of entries. -/
def entries? (j : Json) : Option (Array Int32) :=
  (j.list? Json.int32?).map List.toArray

/-- Reads tables without checking them. -/
def ofJson? (j : Json) : Option Tables := do
  match ← j.fields? fieldNames with
  | [classOf, base, check, next, fallback, accept, contextOf, acceptLists, startConditions,
      initial] =>
    return {
      classOf := ← Json.required column? classOf
      base := ← Json.required column? base
      check := ← Json.required entries? check
      next := ← Json.required entries? next
      fallback := ← Json.required entries? fallback
      accept := ← Json.required column? accept
      contextOf := ← Json.optional column? #[] contextOf
      acceptLists := ← Json.optional
        (fun j => (j.list? (Json.list? Json.uint32?)).map List.toArray) #[] acceptLists
      startConditions := ← Json.optional (Json.list? NamedStartCondition.ofJson?) [] startConditions
      initial := ← Json.required StartCondition.ofJson? initial }
  | _ => none

/-- Writes a column of unsigned integers. -/
def columnJson (column : Array UInt32) : Json :=
  .ofList (fun n => .ofNat n.toNat) column.toList

/-- Writes a column of entries. -/
def entriesJson (column : Array Int32) : Json :=
  .ofList (fun n => .ofInt n.toInt) column.toList

/-- The members behind the class map. -/
def membersAfterClasses (t : Tables) : List (String × Json) :=
  [("base", columnJson t.base),
    ("check", entriesJson t.check),
    ("next", entriesJson t.next),
    ("default", entriesJson t.fallback),
    ("accept", columnJson t.accept),
    ("trailing_of", columnJson t.contextOf),
    ("accept_lists", .ofList (Json.ofList fun n => .ofNat n.toNat) t.acceptLists.toList),
    ("start_conditions", .ofList NamedStartCondition.toJson t.startConditions),
    ("initial", t.initial.toJson)]

/-- Writes tables. -/
def toJson (t : Tables) : Json :=
  .record (("class_of", columnJson t.classOf) :: t.membersAfterClasses)

/-- Loads tables from a source of JSON text and checks them. -/
def load (source : Source) : Except ScanError Tables :=
  match (Json.ofSignals? source.signals).bind ofJson? with
  | some t => do
    t.validate.mapError .malformed
    return t
  | none => .error .json

end Tables

end Munch
