-- SUMMARY: The transition graph of tables and its rendering in the dot language.
import Munch.Tables.Valid

/-! # Transition graphs

The graph of tables has one node per state and one edge per pair of states that a transition
connects, labelled with all classes that do. Rendering writes one statement per line; no text is
escaped. -/

namespace Munch

/-- A state as it is drawn. -/
structure GraphNode where
  state : State
  /-- Whether a start condition enters here. -/
  isEntry : Bool
  /-- The rule accepted here; 0 for none. -/
  rule : Rule
  deriving DecidableEq, Repr

/-- All transitions between two states. -/
structure GraphEdge where
  source : State
  target : State
  classes : List ByteClass
  deriving DecidableEq, Repr

/-- A transition graph. -/
structure Graph where
  nodes : List GraphNode
  edges : List GraphEdge
  deriving DecidableEq, Repr

namespace Tables

/-- Whether a start condition enters at a state. -/
def isEntry (t : Tables) (s : State) : Bool :=
  t.allStartConditions.any fun sc => sc.state.toNat == s || sc.bolState.toNat == s

/-- The edges that leave a state, by ascending target. -/
def edgesFrom (t : Tables) (s : State) : Except TableFault (List GraphEdge) := do
  let targets ← (List.range t.classCount).mapM (t.transition s ·)
  return (List.range t.stateCount).filterMap fun target =>
    match (targets.zipIdx.filter (·.1 = some target)).map (·.2) with
    | [] => none
    | classes => some { source := s, target, classes }

/-- The transition graph of the tables, fallback chains resolved. -/
def graph (t : Tables) : Except TableFault Graph := do
  let edges ← (List.range t.stateCount).mapM t.edgesFrom
  return {
    nodes := t.accept.toList.zipIdx.map fun (rule, s) => ⟨s, t.isEntry s, rule.toNat⟩
    edges := edges.flatten }

end Tables

namespace Graph

/-- An attribute whose value stands between quotes. -/
def quoted (name value : String) : String :=
  name ++ "=\"" ++ value ++ "\""

/-- The attributes of a node: entries are blue circles, accepting states are red and show their
rule. -/
def nodeAttributes (n : GraphNode) : List String :=
  [quoted "label" (toString n.state)]
    ++ (if n.isEntry then ["shape=circle", "color=blue", "penwidth=3"] else [])
    ++ (if n.rule = 0 then [] else
      ["color=red", "penwidth=3", quoted "label" s!"{n.state}\nrule {n.rule}"])

/-- A statement with its attributes between brackets. -/
def statement (subject : String) (attributes : List String) : String :=
  "  " ++ subject ++ " [" ++ ", ".intercalate attributes ++ "];\n"

/-- The statement that draws a node. -/
def renderNode (n : GraphNode) : String :=
  statement s!"node_{n.state}" (nodeAttributes n)

/-- The statement that draws an edge. -/
def renderEdge (e : GraphEdge) : String :=
  statement s!"node_{e.source} -> node_{e.target}"
    [quoted "label" (",".intercalate (e.classes.map toString))]

/-- The graph in the dot language, drawn from left to right. -/
def render (g : Graph) (label : String) : String :=
  "digraph \x7b\n  " ++ quoted "label" label ++ ";\n  rankdir=LR;\n"
    ++ String.join (g.nodes.map renderNode) ++ String.join (g.edges.map renderEdge) ++ "\x7d\n"

end Graph

/-- Checks the tables and draws their graph. -/
def Tables.renderGraph (t : Tables) (label : String) : Except TableFault String := do
  t.validate
  return (← t.graph).render label

end Munch
