-- SUMMARY: Sessions, everything a user can do with a scanner at any place, run with a diary of all states in between.
import Mathlib.Control.Monad.Basic
import Munch.Scanner.Edit
import Munch.Scanner.Scan

/-! # Sessions

A session is what a user does with a scanner: operations and scans in any order, between scans, inside
the actions of a scan and inside the hook at the end of the input. Each step may depend on what the
scanner shows, on the results before it and on a memory that all actions share, and a session may go
on after everything that failed. The diary of a run keeps the scanner behind every single step. -/

namespace Munch

/-- What a scanner shows to its user. -/
structure View where
  text : List UInt8
  length : Nat
  rule : Rule
  line : Nat
  startCondition : StartCondition
  capacity : Nat
  output : Sink
  debug : String

/-- What a scanner shows now. -/
def Scanner.view (s : Scanner) : View where
  text := s.text
  length := s.window.length
  rule := s.rule
  line := s.line
  startCondition := s.startCondition
  capacity := s.buffer.capacity
  output := s.output
  debug := s.describe

/-- What a user does with a scanner, with a memory of type `σ` and a result of type `α`. -/
inductive Session (σ : Type) : Type → Type 1 where
  /-- Ends with a result. -/
  | finish {α : Type} (result : α) : Session σ α
  /-- Gives up. -/
  | fail {α : Type} (error : ScanError) : Session σ α
  /-- Looks at the scanner and into the memory. -/
  | look {α : Type} (next : View → σ → Session σ α) : Session σ α
  /-- Changes the memory. -/
  | remember {α : Type} (memory : σ) (next : Session σ α) : Session σ α
  /-- Performs an operation and goes on as its result says. -/
  | perform {α : Type} (edit : Edit) (next : Except ScanError (Option UInt8) → Session σ α) :
      Session σ α
  /-- Changes the output behind the back of the scanner. -/
  | alter {α : Type} (change : Sink → Sink) (next : Session σ α) : Session σ α
  /-- Scans, with a session as the action of each rule and one as the hook at the end of the input,
  and goes on as the scan has ended. -/
  | scan {α : Type} (events : Nat) (onMatch : Rule → Session σ ActionResult)
      (onEnd : Session σ Bool) (next : Except ScanError ScanEnd → Session σ α) : Session σ α

/-! ## Diaries -/

/-- What has just happened. -/
inductive Event where
  /-- The scanner was built. -/
  | built
  | performed (edit : Edit) (result : Except ScanError (Option UInt8))
  | altered
  /-- The action of a rule begins. -/
  | entered (rule : Rule)
  /-- An action has ended. -/
  | left (result : Except ScanError ActionResult)
  /-- The hook at the end of the input begins. -/
  | asked
  /-- The hook has ended. -/
  | answered (result : Except ScanError Bool)
  | scanned (result : Except ScanError ScanEnd)
  deriving DecidableEq, Repr

/-- An event, and the scanner just behind it. -/
structure Note where
  event : Event
  /-- The number of actions that are running, one inside the other. -/
  running : Nat
  scanner : Scanner
  deriving DecidableEq, Repr

/-- The state of a session beside its scanner. -/
structure Diary (σ : Type) where
  memory : σ
  /-- The number of actions that are running. -/
  running : Nat := 0
  /-- The notes, the latest first. -/
  notes : List Note

namespace Diary

variable {σ α : Type}

/-- The diary of a session that begins with a new scanner. -/
def start (memory : σ) (s : Scanner) : Diary σ :=
  { memory, notes := [⟨.built, 0, s⟩] }

/-- A session with an event entered. -/
def enter (event : Event) : Scanner × Diary σ → Scanner × Diary σ
  | (s, d) => (s, { d with notes := ⟨event, d.running, s⟩ :: d.notes })

/-- Enters what has happened. -/
def note (event : Event) : SessionM (Diary σ) Unit :=
  modify (enter event)

/-- Changes the number of actions that are running. -/
def count (f : Nat → Nat) : SessionM (Diary σ) Unit :=
  modify fun (s, d) => (s, { d with running := f d.running })

/-- A computation with its outcome as the result. What it did before a failure stays. -/
def caught (m : SessionM (Diary σ) α) : SessionM (Diary σ) (Except ScanError α) := fun st =>
  match m st with
  | .ok a st => .ok (.ok a) st
  | .error e st => .ok (.error e) st

/-- Ends as an earlier computation did. -/
def again : Except ScanError α → SessionM (Diary σ) α
  | .ok a => pure a
  | .error e => throw e

/-- A computation with its outcome as the result, and a note of it. -/
def noted (event : Except ScanError α → Event) (m : SessionM (Diary σ) α) :
    SessionM (Diary σ) (Except ScanError α) := do
  let result ← caught m
  note (event result)
  return result

/-- The action of a rule, with notes of its beginning and end. -/
def action (rule : Rule) (m : SessionM (Diary σ) ActionResult) :
    SessionM (Diary σ) ActionResult := do
  count (· + 1)
  note (.entered rule)
  let result ← noted .left m
  count (· - 1)
  again result

/-- The hook at the end of the input, with notes of its beginning and end. -/
def hook (m : SessionM (Diary σ) Bool) : SessionM (Diary σ) Bool := do
  note .asked
  let result ← noted .answered m
  again result

/-- Actions and a hook at the end of the input, with notes. -/
def hooks (onMatch : Rule → SessionM (Diary σ) ActionResult) (onEnd : SessionM (Diary σ) Bool) :
    Hooks (Diary σ) where
  onMatch rule := action rule (onMatch rule)
  onEnd := hook onEnd

/-- A change of the output, with a note of it. -/
def altered (change : Sink → Sink) : SessionM (Diary σ) Unit := do
  onScanner (modify fun s => { s with output := change s.output })
  note .altered

end Diary

/-! ## Runs -/

namespace Session

open Diary

variable {σ α : Type}

/-- Runs a session. -/
def run {σ α : Type} : Session σ α → SessionM (Diary σ) α
  | .finish result => pure result
  | .fail e => throw e
  | .look next => do
    let (s, d) ← get
    (next s.view d.memory).run
  | .remember memory next => do
    modify fun (s, d) => (s, { d with memory })
    next.run
  | .perform edit next => do
    let result ← noted (.performed edit) (onScanner edit.perform)
    (next result).run
  | .alter change next => do
    altered change
    next.run
  | .scan events onMatch onEnd next => do
    let result ← noted .scanned ((hooks (fun rule => (onMatch rule).run) onEnd.run).scan events)
    (next result).run

/-- The notes of a session on a new scanner, the latest first. -/
def notes (session : Session σ α) (memory : σ) (s : Scanner) : List Note :=
  (final session.run (s, start memory s)).2.notes

end Session

end Munch
