-- SUMMARY: Automaton descriptions as JSON.
import Munch.Automaton.Basic
import Munch.Error
import Munch.Json.Reader
import Munch.Json.StartCondition

/-! # Automaton descriptions as JSON -/

namespace Munch

namespace Edge

/-- Reads an edge. -/
def ofJson? (j : Json) : Option Edge := do
  match ← j.fields? ["first", "last", "target"] with
  | [first, last, target] =>
    return {
      first := ← Json.required Json.uint8? first
      last := ← Json.required Json.uint8? last
      target := ← Json.required Json.uint64? target }
  | _ => none

/-- Writes an edge. -/
def toJson (e : Edge) : Json :=
  .record [("first", .ofNat e.first.toNat), ("last", .ofNat e.last.toNat),
    ("target", .ofNat e.target.toNat)]

end Edge

namespace Node

/-- Reads a node. -/
def ofJson? (j : Json) : Option Node := do
  match ← j.fields? ["accept", "transitions"] with
  | [accept, edges] =>
    return {
      accept := ← Json.optional (Json.list? Json.uint32?) [] accept
      edges := ← Json.optional (Json.list? Edge.ofJson?) [] edges }
  | _ => none

/-- Writes a node. -/
def toJson (n : Node) : Json :=
  .record [("accept", .ofList (fun r => .ofNat r.toNat) n.accept),
    ("transitions", .ofList Edge.toJson n.edges)]

end Node

namespace TrailingContext

/-- Reads a trailing context. -/
def ofJson? (j : Json) : Option TrailingContext := do
  match ← j.fields? ["rule", "state"] with
  | [rule, state] =>
    return {
      rule := ← Json.required Json.uint32? rule
      state := ← Json.required Json.uint64? state }
  | _ => none

/-- Writes a trailing context. -/
def toJson (tc : TrailingContext) : Json :=
  .record [("rule", .ofNat tc.rule.toNat), ("state", .ofNat tc.state.toNat)]

end TrailingContext

namespace Automaton

/-- Reads a description. -/
def ofJson? (j : Json) : Option Automaton := do
  match ← j.fields? ["states", "trailing_contexts", "start_conditions", "initial"] with
  | [nodes, trailingContexts, startConditions, initial] =>
    return {
      nodes := (← Json.required (Json.list? Node.ofJson?) nodes).toArray
      trailingContexts :=
        ← Json.optional (Json.list? TrailingContext.ofJson?) [] trailingContexts
      startConditions :=
        ← Json.optional (Json.list? NamedStartCondition.ofJson?) [] startConditions
      initial := ← Json.optional StartCondition.ofJson? {} initial }
  | _ => none

/-- Writes a description. -/
def toJson (a : Automaton) : Json :=
  .record [("states", .ofList Node.toJson a.nodes.toList),
    ("trailing_contexts", .ofList TrailingContext.toJson a.trailingContexts),
    ("start_conditions", .ofList NamedStartCondition.toJson a.startConditions),
    ("initial", a.initial.toJson)]

/-- Loads a description from a source of JSON text. -/
def load (source : Source) : Except ScanError Automaton :=
  match (Json.ofSignals? source.signals).bind ofJson? with
  | some a => .ok a
  | none => .error .json

end Automaton

end Munch
