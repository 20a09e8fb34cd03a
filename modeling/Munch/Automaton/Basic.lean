-- SUMMARY: Automaton descriptions, state by state with transitions on byte ranges, and their assembly.
import Munch.Tables.Fault

/-! # Automaton descriptions

The uncompressed form of scanner tables. Nodes are numbered in the order in which they are added. Of
two edges on one byte the later one counts. -/

namespace Munch

/-- A transition on the bytes from `first` to `last`; on none if `last` is smaller. -/
structure Edge where
  first : UInt8
  last : UInt8
  target : UInt64
  deriving DecidableEq, Inhabited, Repr

/-- A described state. -/
structure Node where
  /-- The rules accepted here, in any order. -/
  accept : List UInt32 := []
  edges : List Edge := []
  deriving DecidableEq, Inhabited, Repr

/-- A rule whose match must be followed by what the automaton from `state` accepts. -/
structure TrailingContext where
  rule : UInt32
  state : UInt64
  deriving DecidableEq, Inhabited, Repr

/-- An uncompressed automaton. -/
structure Automaton where
  nodes : Array Node := #[]
  trailingContexts : List TrailingContext := []
  startConditions : List NamedStartCondition := []
  initial : StartCondition := {}
  deriving DecidableEq, Inhabited, Repr

/-- Whether an edge takes a byte. -/
def Edge.covers (e : Edge) (byte : UInt8) : Bool :=
  e.first ≤ byte && byte ≤ e.last

/-- Where a node goes on a byte: along the last edge that takes it. -/
def Node.step? (n : Node) (byte : UInt8) : Option State :=
  (n.edges.reverse.find? (·.covers byte)).map (·.target.toNat)

/-- The accepted rules in ascending order, each once. -/
def Node.rules (n : Node) : List UInt32 :=
  (n.accept.mergeSort (fun a b => decide (a ≤ b))).eraseDups

namespace Automaton

/-! ## Assembly -/

/-- The number of described states. -/
def size (a : Automaton) : Nat :=
  a.nodes.size

/-- Adds a node that accepts the given rules; its number is the size before. -/
def addNode (a : Automaton) (accept : List UInt32) : Automaton :=
  { a with nodes := a.nodes.push { accept } }

/-- Adds an edge to a node, if there is such a node. -/
def addEdge? (a : Automaton) (source : Nat) (edge : Edge) : Option Automaton :=
  if source < a.size then
    some { a with nodes := a.nodes.modify source fun n => { n with edges := n.edges ++ [edge] } }
  else
    none

/-- Declares the trailing context of a rule. -/
def addTrailingContext (a : Automaton) (tc : TrailingContext) : Automaton :=
  { a with trailingContexts := a.trailingContexts ++ [tc] }

/-- Declares a named start condition. -/
def addStartCondition (a : Automaton) (sc : NamedStartCondition) : Automaton :=
  { a with startConditions := a.startConditions ++ [sc] }

/-! ## References -/

/-- The first fault of a node: it accepts rule 0, or an edge leads nowhere. -/
def nodeFault? (a : Automaton) (s : Nat) (n : Node) : Option TableFault :=
  if n.accept.contains 0 then
    some (.acceptsRuleZero s)
  else
    (n.edges.find? (fun e => a.size ≤ e.target.toNat)).map (fun e => .missingTarget s e.target.toNat)

/-- The first fault in a declared trailing context. State 0 never starts one. -/
def trailingFault? (a : Automaton) : Option TableFault :=
  (a.trailingContexts.find? (fun tc => tc.rule == 0 || tc.state == 0 || a.size ≤ tc.state.toNat)).map
    (fun tc => .badTrailing tc.rule.toNat tc.state.toNat)

/-- Every rule is a rule and every referenced node exists. -/
def checkReferences (a : Automaton) : Except TableFault Unit :=
  match (a.nodes.toList.zipIdx.findSome? (fun (n, s) => a.nodeFault? s n)).or a.trailingFault? with
  | some fault => .error fault
  | none => .ok ()

end Automaton

end Munch
