-- SUMMARY: Lookups in packed tables: byte classes, transitions along the fallback chain, accepted rules, trailing contexts.
import Munch.Tables.Basic

/-! # Lookups

Each lookup answers with the fault of the first entry that does not exist, so it is defined on all
tables, checked or not. A transition follows fallbacks; a chain that visits more states than there
are cannot end, which bounds the walk. -/

namespace Munch

/-- The state in a table entry; a negative entry is the dead state. -/
def State.ofEntry? (entry : Int32) : Option State :=
  if entry.toInt < 0 then none else some entry.toInt.toNat

/-- The entry of a column at an index, or the fault that stands for its absence. -/
def lookup {α : Type} (column : Array α) (index : Nat) (missing : TableFault) :
    Except TableFault α :=
  match column[index]? with
  | some entry => .ok entry
  | none => .error missing

namespace Tables

/-- The class of a byte. -/
def byteClass (t : Tables) (byte : UInt8) : Except TableFault ByteClass :=
  (·.toNat) <$> lookup t.classOf byte.toNat (.noClass byte)

/-! ## Transitions -/

/-- Walks the fallback chain from a state through at most `steps` states until one owns its slot for
the class. `origin` is the state the walk began at. -/
def walk (t : Tables) (origin : State) (c : ByteClass) :
    (steps : Nat) → State → Except TableFault (Option State)
  | 0, _ => .error (.endlessFallback origin)
  | steps + 1, s => do
    let base ← lookup t.base s (.noRow s)
    let slot := base.toNat + c
    let owner ← lookup t.check slot (.checkOutOfRange slot s)
    if owner.toInt = s then
      return State.ofEntry? (← lookup t.next slot (.nextOutOfRange slot))
    match State.ofEntry? (← lookup t.fallback s (.noFallback s)) with
    | some d => t.walk origin c steps d
    | none => return none

/-- The state that a state goes to on a class; `none` is the dead state. -/
def transition (t : Tables) (s : State) (c : ByteClass) : Except TableFault (Option State) :=
  t.walk s c (t.stateCount + 1) s

/-! ## Acceptance -/

/-- The first rule accepted in a state; 0 if none is. -/
def ruleAt (t : Tables) (s : State) : Except TableFault Rule :=
  (·.toNat) <$> lookup t.accept s (.noAccept s)

/-- All rules accepted in a state, in order of priority. -/
def rulesAt (t : Tables) (s : State) : Except TableFault (List Rule) :=
  if t.acceptLists.isEmpty then do
    let rule ← t.ruleAt s
    return if rule = 0 then [] else [rule]
  else
    (·.map (·.toNat)) <$> lookup t.acceptLists s (.noAcceptList s)

/-! ## Entry states -/

/-- A number as a state of the tables. -/
def checkState (t : Tables) (entry : UInt32) : Except TableFault State :=
  if entry.toNat < t.stateCount then .ok entry.toNat else .error (.notAState entry.toNat)

/-- The state in which the trailing context of a rule starts, if the rule has one. -/
def trailingStart? (t : Tables) (rule : Rule) : Except TableFault (Option State) :=
  match t.contextOf[rule]? with
  | none => .ok none
  | some entry => if entry = 0 then .ok none else some <$> t.checkState entry

/-- The two entry states of a start condition: everywhere, and at the beginning of a line. -/
def entryStates (t : Tables) (sc : StartCondition) : Except TableFault (State × State) := do
  return (← t.checkState sc.state, ← t.checkState sc.bolState)

end Tables

end Munch
