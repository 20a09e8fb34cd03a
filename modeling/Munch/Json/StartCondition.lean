-- SUMMARY: Start conditions as JSON.
import Munch.Json.Record
import Munch.StartCondition

/-! # Start conditions as JSON

A named start condition is one object that holds its name beside the fields of its condition. Since
its unknown members are held back until the condition is read, they must be well-formed themselves. -/

namespace Munch

namespace StartCondition

/-- The names of the fields. -/
def fieldNames : List String :=
  ["state", "bol_state"]

/-- Reads a start condition. -/
def ofJson? (j : Json) : Option StartCondition := do
  match ← j.fields? fieldNames with
  | [state, bolState] =>
    return { state := ← Json.required Json.uint32? state,
             bolState := ← Json.required Json.uint32? bolState }
  | _ => none

/-- The members of a start condition. -/
def members (sc : StartCondition) : List (String × Json) :=
  [("state", .ofNat sc.state.toNat), ("bol_state", .ofNat sc.bolState.toNat)]

/-- Writes a start condition. -/
def toJson (sc : StartCondition) : Json :=
  .record sc.members

end StartCondition

namespace NamedStartCondition

/-- The deepest nesting inside an unknown member. A text may nest 127 deep, and a named start
condition stands in an array of an object. -/
def unknownDepth : Nat := 124

/-- Reads a named start condition, which must be an object. -/
def ofJson? : Json → Option NamedStartCondition
  | .object members => do
    let known := "name" :: StartCondition.fieldNames
    guard (Json.areMembersKeepable unknownDepth (members.filter fun m => !m.1.any known.contains))
    match ← Json.membersNamed? known members with
    | [name, state, bolState] =>
      return { name := ← Json.required Json.string? name,
               condition :=
                 { state := ← Json.required Json.uint32? state,
                   bolState := ← Json.required Json.uint32? bolState } }
    | _ => none
  | _ => none

/-- Writes a named start condition. -/
def toJson (sc : NamedStartCondition) : Json :=
  .record (("name", .ofString sc.name) :: sc.condition.members)

end NamedStartCondition

end Munch
