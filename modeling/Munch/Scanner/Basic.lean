-- SUMMARY: The state of a scanner, what can be read off it, and the primitive steps on its buffer and output.
import Munch.Match.Longest
import Munch.Sink
import Munch.Window

/-! # Scanners

A scanner owns a buffer and an output, and keeps the last match as a window into the buffer. While
the action of a match runs, a terminator stands behind the matched text and `covered` is the byte it
replaces. Bytes that no rule matches collect in a run behind each other before they are written. -/

namespace Munch

/-- A scanner in the middle of its input. -/
structure Scanner where
  tables : Tables
  buffer : Buffer
  output : Sink := {}
  startCondition : StartCondition
  /-- The text of the last match. -/
  window : Window := {}
  /-- The rule of the last match. -/
  rule : Rule := 0
  /-- The byte that the terminator has replaced, while one stands behind the match. -/
  covered : Option CoveredByte := none
  /-- Whether the next match keeps the text of this one in front of its own. -/
  keepText : Bool := false
  /-- Unmatched bytes that are not yet written. -/
  unmatched : Option Window := none
  /-- The line of the cursor, counted from 1. -/
  line : Nat := 1
  deriving DecidableEq, Repr

/-- Computations on a scanner. A failure keeps what was done before it. -/
abbrev ScannerM := EStateM ScanError Scanner

/-- The number of newlines among some bytes. -/
def newlines (bytes : List UInt8) : Nat :=
  bytes.count 10

namespace Scanner

/-! ## Views -/

/-- The text of the last match. -/
def text (s : Scanner) : List UInt8 :=
  s.buffer.slice s.window.start s.window.stop

/-- The text of the last match as characters, if it is valid UTF-8. -/
def textString? (s : Scanner) : Option String :=
  String.fromUTF8? ⟨s.text.toArray⟩

/-- The input not yet passed, with the terminator taken away. -/
def pending (s : Scanner) : List UInt8 :=
  (s.covered.elim s.buffer s.buffer.uncover).pending

/-- The form in which debug texts show a scanner. -/
def describe (s : Scanner) : String :=
  s!"Scanner \x7b buffer: {s.buffer.describe}, start_condition: StartCondition \x7b "
    ++ s!"state: {s.startCondition.state}, bol_state: {s.startCondition.bolState} \x7d, "
    ++ s!"window: {s.window.describe}, rule: {s.rule}, line_number: {s.line} \x7d"

/-! ## Steps on the parts -/

/-- A computation on the buffer, as one on the scanner. -/
def onBuffer {α : Type} (m : BufferM α) : ScannerM α := fun s =>
  match m s.buffer with
  | .ok a buffer => .ok a { s with buffer }
  | .error e buffer => .error e { s with buffer }

theorem onBuffer_eq_ok_iff {α : Type} {m : BufferM α} {s s' : Scanner} {a : α} :
    onBuffer m s = .ok a s' ↔ ∃ b, m s.buffer = .ok a b ∧ { s with buffer := b } = s' := by
  cases h : m s.buffer <;> simp [onBuffer, h, and_assoc]

/-- Writes bytes to the output. -/
def write (bytes : List UInt8) : ScannerM Unit := fun s =>
  match Sink.write bytes s.output with
  | .ok _ output => .ok () { s with output }
  | .error e output => .error e { s with output }

/-- Writes the run of unmatched bytes, if there is one. The run is gone even if the write fails. -/
def flush : ScannerM Unit := fun s =>
  match s.unmatched with
  | none => .ok () s
  | some run => write (s.buffer.slice run.start run.stop) { s with unmatched := none }

/-- Puts the terminator behind the matched text. -/
def terminate (s : Scanner) : Scanner :=
  let (covered, buffer) := s.buffer.cover s.window.stop
  { s with covered, buffer }

/-- Takes the terminator away, if one stands. -/
def unterminate (s : Scanner) : Scanner :=
  match s.covered with
  | some h => { s with covered := none, buffer := s.buffer.uncover h }
  | none => s

theorem unterminate_of_none {s : Scanner} (h : s.covered = none) : s.unterminate = s := by
  unfold unterminate
  rw [h]

/-- Taking the terminator away concerns the buffer only. -/
theorem unterminate_eq (s : Scanner) :
    s.unterminate = { s with covered := none, buffer := s.unterminate.buffer } := by
  unfold unterminate
  split
  · rfl
  · rename_i hnone
    rw [← hnone]

/-- Pending input is counted with the terminator taken away. -/
theorem pending_eq (s : Scanner) : s.pending = s.unterminate.buffer.pending := by
  unfold unterminate pending
  cases hcovered : s.covered <;> simp

theorem unterminate_window (s : Scanner) : s.unterminate.window = s.window := by
  rw [unterminate_eq]

theorem unterminate_output (s : Scanner) : s.unterminate.output = s.output := by
  rw [unterminate_eq]

theorem unterminate_line (s : Scanner) : s.unterminate.line = s.line := by
  rw [unterminate_eq]

theorem unterminate_startCondition (s : Scanner) :
    s.unterminate.startCondition = s.startCondition := by
  rw [unterminate_eq]

theorem unterminate_keepText (s : Scanner) : s.unterminate.keepText = s.keepText := by
  rw [unterminate_eq]

theorem unterminate_tables (s : Scanner) : s.unterminate.tables = s.tables := by
  rw [unterminate_eq]

/-- A scanner over a source, if the start condition enters at states. -/
def create (tables : Tables) (source : Source) (output : Sink) (settings : BufferSettings)
    (startCondition : StartCondition) : Except ScanError Scanner := do
  let _ ← (tables.entryStates startCondition).mapError .malformed
  let buffer ← Buffer.create settings source
  return { tables, buffer, output, startCondition }

end Scanner

end Munch
