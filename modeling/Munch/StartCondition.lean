-- SUMMARY: Start conditions: the lexical modes of a scanner, each a pair of entry states into the automaton.

/-! # Start conditions

A scanner is always in one start condition. It carries the entry state of every match attempt and a
second entry state that takes part only at the beginning of a line, so that anchored rules can match
there. -/

namespace Munch

/-- A state of an automaton, by its row number. -/
abbrev State := Nat

/-- A rule, by its number. Number 0 stands for "accepts nothing"; a smaller number has priority. -/
abbrev Rule := Nat

/-- A class of bytes that no state tells apart. -/
abbrev ByteClass := Nat

/-- The two entry states of a lexical mode. -/
structure StartCondition where
  /-- The entry state of every attempt. -/
  state : UInt32 := 0
  /-- The entry state that joins in at the beginning of a line. -/
  bolState : UInt32 := 0
  deriving DecidableEq, Inhabited, Repr

namespace StartCondition

/-- Whether the beginning of a line has an entry state of its own. -/
def hasOwnBol (sc : StartCondition) : Bool :=
  sc.state != sc.bolState

/-- The two states, joined by a caret. -/
def render (sc : StartCondition) : String :=
  s!"{sc.state}^{sc.bolState}"

end StartCondition

/-- A start condition under the name it was declared with. -/
structure NamedStartCondition where
  name : String
  condition : StartCondition
  deriving DecidableEq, Inhabited, Repr

end Munch
