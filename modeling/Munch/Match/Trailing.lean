-- SUMMARY: Trailing context: finding where a match ends so that the required context follows.
import Munch.Buffer.Read
import Munch.Tables.Lookup

/-! # Trailing context

A rule with trailing context matches a head only where a second automaton accepts what follows. All
boundaries are tried in one pass: wherever the primary automaton accepts the rule a run of the
trailing automaton starts, and all runs advance together with it. Of the confirmed splits the one
that extends furthest wins, then the one with the longer head. -/

namespace Munch

/-- A head and the context behind it, by their end offsets. -/
structure Split where
  /-- Where the head ends, and with it the match. -/
  headEnd : Nat
  /-- Where the context ends. Matches compete by this extent. -/
  extentEnd : Nat
  deriving DecidableEq, Repr

namespace Split

/-- Whether a split is preferred: its extent is longer, or as long with a longer head. -/
def betterThan (a b : Split) : Bool :=
  b.extentEnd < a.extentEnd || (a.extentEnd == b.extentEnd && b.headEnd < a.headEnd)

/-- The better of the best split so far and a new one. -/
def best (best : Option Split) (new : Split) : Option Split :=
  if best.all new.betterThan then some new else best

end Split

/-- A run of the trailing automaton behind one head. -/
structure TrailingRun where
  headEnd : Nat
  state : State
  deriving DecidableEq, Repr

/-- The search for splits of one rule, after some bytes. -/
structure SplitSearch where
  /-- The state of the primary automaton; none if it is dead. -/
  primary : Option State
  /-- The live runs of the trailing automaton. -/
  runs : List TrailingRun := []
  best : Option Split := none
  deriving DecidableEq, Repr

namespace Tables

/-- The transition of a run that may be dead. -/
def transition? (t : Tables) (s : Option State) (c : ByteClass) :
    Except TableFault (Option State) :=
  match s with
  | some s => t.transition s c
  | none => .ok none

/-- Whether a state accepts some rule. -/
def accepts (t : Tables) (s : State) : Except TableFault Bool :=
  (· != 0) <$> t.ruleAt s

/-- The runs in the order in which they advance once the first of them has died: the last one takes
its place. -/
def closeGap (runs : List TrailingRun) : List TrailingRun :=
  runs.getLast?.toList ++ runs.dropLast

theorem length_closeGap (runs : List TrailingRun) : (closeGap runs).length = runs.length := by
  cases runs with
  | nil => rfl
  | cons r rest => simp [closeGap, List.getLast?_cons]

/-- Advances all runs over a byte of class `c` and records the splits that end behind it. -/
def advanceRuns (t : Tables) (c : ByteClass) (stop : Nat) (runs : List TrailingRun)
    (best : Option Split) : Except TableFault (List TrailingRun × Option Split) :=
  match runs with
  | [] => .ok ([], best)
  | run :: rest => do
    match ← t.transition run.state c with
    | none => t.advanceRuns c stop (closeGap rest) best
    | some s =>
      let best := if ← t.accepts s then Split.best best ⟨run.headEnd, stop⟩ else best
      let (runs, best) ← t.advanceRuns c stop rest best
      return ({ run with state := s } :: runs, best)
  termination_by runs.length
  decreasing_by
    · simp [length_closeGap]
    · simp

/-- Starts a run behind a head that the primary automaton has just accepted. -/
def startRun (t : Tables) (trailing : State) (stop : Nat) (search : SplitSearch) :
    Except TableFault SplitSearch := do
  let best := if ← t.accepts trailing then Split.best search.best ⟨stop, stop⟩ else search.best
  return { search with runs := search.runs ++ [⟨stop, trailing⟩], best }

/-- Advances the search for splits of a rule over a byte; `stop` is the offset behind it. -/
def stepSplits (t : Tables) (rule : Rule) (trailing : State) (search : SplitSearch)
    (byte : UInt8) (stop : Nat) : Except TableFault SplitSearch := do
  let c ← t.byteClass byte
  let (runs, best) ← t.advanceRuns c stop search.runs search.best
  let primary ← t.transition? search.primary c
  let search := { primary, runs, best }
  match primary with
  | none => return search
  | some s => if rule ∈ (← t.rulesAt s) then t.startRun trailing stop search else return search

/-- Finds the best split of a rule from the offset `start`, if there is any. The primary automaton
begins in `entry`, the trailing one in `trailing`. The cursor ends at `start`. -/
def bestSplit (t : Tables) (entry : State) (rule : Rule) (trailing : State) (start : Nat) :
    BufferM (Option Split) := do
  modify (·.seek start)
  let search ← Buffer.feed (fun search => search.primary.isSome || !search.runs.isEmpty)
    (t.stepSplits rule trailing) { primary := some entry }
  modify (·.seek start)
  return search.best

end Tables

end Munch
