-- SUMMARY: The structural checks that tables pass before a scanner uses them.
import Munch.Tables.Lookup

/-! # Checking tables

`Tables.validate` reports the first violated rule. Tables that pass it have every entry that a lookup
asks for, and no fallback chain runs in a cycle. -/

namespace Munch

/-- Reports the first entry of a column that is `bad`. -/
def forbid {α : Type} (column : Array α) (bad : α → Bool) (fault : Nat → α → TableFault) :
    Except TableFault Unit :=
  match column.toList.zipIdx.find? (fun entry => bad entry.1) with
  | some (entry, index) => .error (fault index entry)
  | none => .ok ()

/-- A rule that must hold, with the fault that reports its violation. -/
def demand (holds : Bool) (fault : TableFault) : Except TableFault Unit :=
  if holds then .ok () else .error fault

/-- What the search for cycles knows of the fallback chain of a state. -/
inductive Mark where
  /-- Nothing so far. -/
  | unknown
  /-- The state is on the path that is being followed. -/
  | onPath
  /-- The chain ends. -/
  | ends
  deriving DecidableEq, Repr

/-- A state that is marked as one on the path is not unknown any more. -/
theorem count_unknown_lt {marks : Array Mark} {s : State} (h : marks[s]? = some .unknown) :
    (marks.setIfInBounds s .onPath).count .unknown < marks.count .unknown := by
  obtain ⟨hs, hmark⟩ := Array.getElem?_eq_some_iff.1 h
  have hpos : 0 < marks.count .unknown := Array.count_pos_iff.2 (hmark ▸ Array.getElem_mem hs)
  rw [Array.setIfInBounds_def, dif_pos hs, Array.count_set, hmark]
  change marks.count .unknown - 1 + 0 < marks.count .unknown
  omega

namespace Tables

/-- Whether each entry is smaller than the one behind it. -/
def ascending : List UInt32 → Bool
  | a :: b :: rest => a < b && ascending (b :: rest)
  | _ => true

/-- Whether an entry is dead or a state. -/
def inRange (t : Tables) (entry : Int32) : Bool :=
  entry.toInt < t.stateCount

/-- The state that a state falls back to; `none` is the dead state. -/
def fallsTo? (t : Tables) (s : State) : Option State :=
  t.fallback[s]?.bind State.ofEntry?

/-- The columns cover all bytes and all states, and slots have an owner and a target. -/
def checkShape (t : Tables) : Except TableFault Unit := do
  demand (t.classOf.size == 256) (.classMapSize t.classOf.size)
  demand (t.stateCount != 0) .noStates
  demand (t.fallback.size == t.stateCount && t.accept.size == t.stateCount)
    (.stateColumns t.stateCount t.fallback.size t.accept.size)
  demand (t.check.size == t.next.size) (.slotColumns t.check.size t.next.size)

/-- Every row lies within the slots. -/
def checkRows (t : Tables) : Except TableFault Unit :=
  let classes := t.classCount
  forbid t.base (fun base => t.check.size < base.toNat + classes)
    (fun s base => .rowOverrun s base.toNat t.check.size)

/-- Every owner, target and fallback is a state or dead. -/
def checkEntries (t : Tables) : Except TableFault Unit := do
  forbid t.check (!t.inRange ·) (fun i entry => .strayCheck i entry.toInt)
  forbid t.next (!t.inRange ·) (fun i entry => .strayNext i entry.toInt)
  forbid t.fallback (!t.inRange ·) (fun s entry => .strayFallback s entry.toInt)

/-- Marks all states of a path as ones whose chains end. -/
def markEnds (path : List State) (marks : Array Mark) : Array Mark :=
  path.foldl (fun marks s => marks.setIfInBounds s .ends) marks

/-- Follows the fallbacks from the state `s` on until the dead state or a state whose chain ends, and
marks the states on the way. `path` are the states already passed, the latest first, on a chain that
began at `origin`. A chain that comes back to its path is a cycle. -/
def follow (t : Tables) (origin : State) (marks : Array Mark) (path : List State) (s : State) :
    Except TableFault (Array Mark) :=
  match _h : marks[s]? with
  | some .unknown =>
    match t.fallsTo? s with
    | some d => t.follow origin (marks.setIfInBounds s .onPath) (s :: path) d
    | none => .ok (markEnds (s :: path) marks)
  | some .onPath => .error (.cyclicFallback origin)
  | some .ends => .ok (markEnds path marks)
  | none => .ok (markEnds path marks)
  termination_by marks.count .unknown
  decreasing_by exact count_unknown_lt _h

/-- Every fallback chain ends. The chains are followed one after the other; each stops where it joins
one that was followed before. -/
def checkFallbacks (t : Tables) : Except TableFault Unit := do
  let _ ← (List.range t.stateCount).foldlM (fun marks s => t.follow s marks [] s)
    (Array.replicate t.stateCount .unknown)

/-- Every trailing context starts in a state. -/
def checkTrailing (t : Tables) : Except TableFault Unit :=
  forbid t.contextOf (fun s => t.stateCount ≤ s.toNat) (fun rule _ => .strayTrailing rule)

/-- If there are accept lists, there is one per state; each ascends and starts with the accepted
rule, or is empty where none is accepted. -/
def checkAcceptLists (t : Tables) : Except TableFault Unit := do
  if t.acceptLists.isEmpty then return
  demand (t.acceptLists.size == t.stateCount) (.acceptListCount t.acceptLists.size t.stateCount)
  forbid (t.acceptLists.zip t.accept)
    (fun (rules, rule) => !(rules.head?.getD 0 == rule && ascending rules))
    (fun s (rules, rule) => .acceptListHead (rules.map (·.toNat)) s rule.toNat)

/-- Every start condition enters at states. -/
def checkStartConditions (t : Tables) : Except TableFault Unit :=
  forbid t.allStartConditions.toArray
    (fun sc => t.stateCount ≤ sc.state.toNat || t.stateCount ≤ sc.bolState.toNat)
    (fun _ sc => .strayStartCondition sc)

/-- Checks the structure of the tables and reports the first fault. -/
def validate (t : Tables) : Except TableFault Unit := do
  t.checkShape
  t.checkRows
  t.checkEntries
  t.checkFallbacks
  t.checkTrailing
  t.checkAcceptLists
  t.checkStartConditions

end Tables

end Munch
