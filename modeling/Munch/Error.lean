-- SUMMARY: The errors of a scanner, one constructor per cause, and their wording.
import Munch.Tables.Fault

/-! # Errors -/

namespace Munch

/-- Why an operation of a scanner failed. -/
inductive ScanError where
  /-- The buffer could not grow to the requested number of bytes. -/
  | allocation (requested : Nat)
  /-- The tables are malformed. -/
  | malformed (fault : TableFault)
  /-- A source or a sink failed, with the text it gave. -/
  | io (text : String)
  /-- No start condition has this name. -/
  | unknownStartCondition (name : String)
  /-- A match cannot be cut to more bytes than it has. -/
  | lessOutOfRange (requested length : Nat)
  /-- An action gave up, with the text it gave. -/
  | action (text : String)
  /-- A JSON text could not be read, or does not describe what was asked for. -/
  | json
  deriving DecidableEq, Repr

namespace ScanError

/-- The report of an error. -/
def message : ScanError → String
  | allocation requested => s!"Buffer allocation of {requested} bytes failed"
  | malformed fault => "Malformed tables: " ++ fault.message
  | io text => text
  | unknownStartCondition name => "Unknown start condition: " ++ name
  | lessOutOfRange requested length =>
    s!"Cannot keep {requested} bytes of a match with length {length}"
  | action text => "Action error: " ++ text
  | json => "Malformed JSON"

end ScanError

/-- The result of a lookup as a computation that leaves the state alone. -/
def liftFault {σ α : Type} : Except TableFault α → EStateM ScanError σ α
  | .ok a => pure a
  | .error fault => throw (.malformed fault)

theorem liftFault_eq_ok_iff {σ α : Type} {r : Except TableFault α} {a : α} {s s' : σ} :
    (liftFault r : EStateM ScanError σ α) s = .ok a s' ↔ r = .ok a ∧ s = s' := by
  cases r with
  | ok x =>
    rw [show (liftFault (.ok x) : EStateM ScanError σ α) s = .ok x s from rfl]
    simp
  | error fault =>
    rw [show (liftFault (.error fault) : EStateM ScanError σ α) s = .error (.malformed fault) s
      from rfl]
    simp

end Munch
