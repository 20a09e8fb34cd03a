-- SUMMARY: Packed scanner tables: a displaced transition table with fallback rows, accepted rules and start conditions.
import Munch.Tables.Fault

/-! # Packed tables

The rows of all states share one array of slots. Row `s` is displaced by `base[s]`, and the slot for
class `c` is `base[s] + c`; it belongs to `s` only if `check` says so. A state without a slot of its
own for a class does as its fallback state does, and a negative fallback is the dead state. -/

namespace Munch

/-- The tables that drive a scanner. -/
structure Tables where
  /-- The class of each of the 256 bytes. -/
  classOf : Array UInt32 := #[]
  /-- The displacement of the row of each state. -/
  base : Array UInt32 := #[]
  /-- The state that owns each slot; negative if nobody does. -/
  check : Array Int32 := #[]
  /-- The state that each slot leads to; negative for the dead state. -/
  next : Array Int32 := #[]
  /-- The state that each state falls back to; negative for none. -/
  fallback : Array Int32 := #[]
  /-- The rule accepted in each state; 0 for none. -/
  accept : Array UInt32 := #[]
  /-- For each rule the start state of its trailing context; 0 for none. -/
  contextOf : Array UInt32 := #[]
  /-- For each state all rules accepted there, ascending. Empty if `accept` alone says it. -/
  acceptLists : Array (List UInt32) := #[]
  /-- The declared start conditions. -/
  startConditions : List NamedStartCondition := []
  /-- The start condition of a new scanner. -/
  initial : StartCondition := {}
  deriving DecidableEq, Inhabited, Repr

namespace Tables

/-- The number of states. -/
def stateCount (t : Tables) : Nat :=
  t.base.size

/-- One more than the largest class; 0 if there is no class. -/
def classCount (t : Tables) : Nat :=
  t.classOf.foldl (fun n c => max n (c.toNat + 1)) 0

/-- The first start condition declared under a name. -/
def startCondition? (t : Tables) (name : String) : Option StartCondition :=
  (t.startConditions.find? (·.name == name)).map (·.condition)

/-- The initial start condition, then the declared ones. -/
def allStartConditions (t : Tables) : List StartCondition :=
  t.initial :: t.startConditions.map (·.condition)

end Tables

end Munch
