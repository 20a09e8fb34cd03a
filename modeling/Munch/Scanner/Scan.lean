-- SUMMARY: The scan loop: matches run an action, the end of the input asks a hook whether there is more.
import Munch.Scanner.Advance

/-! # Scanning

A scan advances from match to match and runs the action of each. An action sees the scanner with the
matched text terminated, may edit it, and says whether to go on. Actions and hooks have a state of
their own beside the scanner. A scan is given a number of matches and ends of input to handle; when
they are used up it can be resumed. -/

namespace Munch

/-- What a scan does after an action. -/
inductive ActionResult where
  /-- Go on. -/
  | resume
  /-- Stop and hand a value to the caller. -/
  | yield (token : Nat)
  deriving DecidableEq, Repr

/-- How a scan ended. -/
inductive ScanEnd where
  /-- The input has ended, and the hook did not provide more. -/
  | exhausted
  /-- An action stopped the scan with a value. -/
  | token (value : Nat)
  /-- The number of events to handle is used up. -/
  | suspended
  deriving DecidableEq, Repr

/-- Computations of actions: on a scanner and a state of type `σ`. A failure keeps what was done
before it. -/
abbrev SessionM (σ : Type) := EStateM ScanError (Scanner × σ)

/-- A computation on the scanner alone. -/
def onScanner {σ α : Type} (m : ScannerM α) : SessionM σ α := fun (s, x) =>
  match m s with
  | .ok a s => .ok a (s, x)
  | .error e s => .error e (s, x)

/-- What runs at the events of a scan. -/
structure Hooks (σ : Type) where
  /-- The action of a rule. -/
  onMatch : Rule → SessionM σ ActionResult
  /-- Asked at the end of the input whether the scan ends. -/
  onEnd : SessionM σ Bool := pure true

namespace Hooks

variable {σ : Type}

/-- Runs the action of a rule with the match terminated. The terminator goes whatever the outcome. -/
def runAction (hooks : Hooks σ) (rule : Rule) : SessionM σ ActionResult := fun (s, x) =>
  match hooks.onMatch rule (s.terminate, x) with
  | .ok flow (s, x) => .ok flow (s.unterminate, x)
  | .error e (s, x) => .error e (s.unterminate, x)

/-- Handles up to `events` matches and ends of the input. -/
def handle (hooks : Hooks σ) : (events : Nat) → SessionM σ ScanEnd
  | 0 => return .suspended
  | events + 1 => do
    match ← onScanner Scanner.advance with
    | some rule =>
      match ← hooks.runAction rule with
      | .yield value => return .token value
      | .resume => hooks.handle events
    | none => if ← hooks.onEnd then return .exhausted else hooks.handle events

/-- Scans until an action stops it, the input ends, or `events` matches and ends were handled. -/
def scan (hooks : Hooks σ) (events : Nat) : SessionM σ ScanEnd := do
  onScanner (modify Scanner.unterminate)
  hooks.handle events

end Hooks

end Munch
