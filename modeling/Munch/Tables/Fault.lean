-- SUMMARY: The ways in which scanner tables can be malformed, and the text that reports each.
import Munch.StartCondition

/-! # Faults of tables

Every defect that a check or a lookup can find has one constructor, holding what the report names.
`TableFault.message` is the only place where the wording lives. -/

namespace Munch

/-- A defect of packed tables or of an automaton description. -/
inductive TableFault where
  /-- The class map does not cover the 256 bytes. -/
  | classMapSize (found : Nat)
  /-- There is no state at all. -/
  | noStates
  /-- The columns indexed by states differ in length. -/
  | stateColumns (base fallback accept : Nat)
  /-- The two slot columns differ in length. -/
  | slotColumns (check next : Nat)
  /-- The row of a state reaches behind the last slot. -/
  | rowOverrun (state base slots : Nat)
  /-- A slot is owned by a number that is no state. -/
  | strayCheck (index : Nat) (entry : Int)
  /-- A slot leads to a number that is no state. -/
  | strayNext (index : Nat) (entry : Int)
  /-- A fallback is a number that is no state. -/
  | strayFallback (state : Nat) (entry : Int)
  /-- The fallbacks of a state run into a cycle. -/
  | cyclicFallback (state : Nat)
  /-- The trailing context of a rule starts in a number that is no state. -/
  | strayTrailing (rule : Nat)
  /-- There are accept lists, but not one per state. -/
  | acceptListCount (lists states : Nat)
  /-- An accept list is not ascending or does not start with the accepted rule. -/
  | acceptListHead (rules : List Nat) (state rule : Nat)
  /-- A start condition enters at a number that is no state. -/
  | strayStartCondition (condition : StartCondition)
  /-- A byte has no class. -/
  | noClass (byte : UInt8)
  /-- A state has no row. -/
  | noRow (state : Nat)
  /-- A lookup misses the slot owners. -/
  | checkOutOfRange (index state : Nat)
  /-- A lookup misses the slot targets. -/
  | nextOutOfRange (index : Nat)
  /-- A state has no fallback entry. -/
  | noFallback (state : Nat)
  /-- The fallbacks of a state never end. -/
  | endlessFallback (state : Nat)
  /-- A state has no accept entry. -/
  | noAccept (state : Nat)
  /-- A state has no accept list. -/
  | noAcceptList (state : Nat)
  /-- A number that should be a state is none. -/
  | notAState (entry : Nat)
  /-- A described state accepts the reserved rule 0. -/
  | acceptsRuleZero (state : Nat)
  /-- A described transition leads to a state that is not described. -/
  | missingTarget (state target : Nat)
  /-- A declared trailing context names rule 0, state 0 or a missing state. -/
  | badTrailing (rule state : Nat)
  deriving DecidableEq, Repr

namespace TableFault

/-- Numbers between square brackets, separated by a comma and a blank. -/
def renderList (ns : List Nat) : String :=
  "[" ++ ", ".intercalate (ns.map toString) ++ "]"

/-- A digit of base sixteen, in lower case. -/
def hexDigit (n : Nat) : Char :=
  Char.ofNat (if n < 10 then 48 + n else 87 + n)

/-- A byte as two digits of base sixteen behind `0x`. -/
def renderByte (b : UInt8) : String :=
  "0x" ++ String.ofList [hexDigit (b.toNat / 16), hexDigit (b.toNat % 16)]

/-- The report of a fault. -/
def message : TableFault → String
  | classMapSize found => s!"class_of must have 256 entries, found {found}"
  | noStates => "no states"
  | stateColumns base fallback accept =>
    s!"base, default and accept differ in length: {base}, {fallback}, {accept}"
  | slotColumns check next => s!"check and next differ in length: {check}, {next}"
  | rowOverrun state base slots =>
    s!"row of state {state} at base {base} exceeds the table length {slots}"
  | strayCheck index entry => s!"check[{index}] = {entry} is no state"
  | strayNext index entry => s!"next[{index}] = {entry} is no state"
  | strayFallback state entry => s!"default[{state}] = {entry} is no state"
  | cyclicFallback state => s!"default chain of state {state} is cyclic"
  | strayTrailing rule => s!"trailing context state of rule {rule} is no state"
  | acceptListCount lists states => s!"accept_lists has {lists} entries for {states} states"
  | acceptListHead rules state rule =>
    s!"accept list {renderList rules} of state {state} doesn't start with its accepted rule {rule}"
  | strayStartCondition condition =>
    s!"start condition {condition.render} refers to a missing state"
  | noClass byte => s!"no class for byte {renderByte byte}"
  | noRow state => s!"state {state} has no row"
  | checkOutOfRange index state => s!"check[{index}] out of range for state {state}"
  | nextOutOfRange index => s!"next[{index}] out of range"
  | noFallback state => s!"state {state} has no default"
  | endlessFallback state => s!"default chain of state {state} does not terminate"
  | noAccept state => s!"state {state} has no accept entry"
  | noAcceptList state => s!"state {state} has no accept list"
  | notAState entry => s!"{entry} is no state"
  | acceptsRuleZero state => s!"state {state} accepts rule 0"
  | missingTarget state target => s!"transition of state {state} into missing state {target}"
  | badTrailing rule state =>
    s!"invalid trailing context TrailingContext \x7b rule: {rule}, state: {state} \x7d"

end TableFault

end Munch
