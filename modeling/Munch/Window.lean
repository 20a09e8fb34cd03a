-- SUMMARY: Ranges of buffer offsets: the text of a match, a run of unmatched bytes.

/-! # Windows

A window names a range of offsets into the buffer. When the buffer drops bytes at its front the
window moves along; one that loses bytes is void. -/

namespace Munch

/-- A range of buffer offsets. -/
structure Window where
  start : Nat := 0
  length : Nat := 0
  deriving DecidableEq, Inhabited, Repr

namespace Window

/-- The offset behind the last byte. -/
def stop (w : Window) : Nat :=
  w.start + w.length

/-- Takes in `n` more bytes at the end. -/
def lengthen (w : Window) (n : Nat) : Window :=
  { w with length := w.length + n }

/-- Keeps at most the first `n` bytes. -/
def shorten (w : Window) (n : Nat) : Window :=
  { w with length := min w.length n }

/-- Follows the buffer after it dropped bytes at its front; void if the window began in these. -/
def shift (w : Window) (dropped : Nat) : Window :=
  if dropped ≤ w.start then { w with start := w.start - dropped } else {}

/-- The form in which debug texts show a window. -/
def describe (w : Window) : String :=
  s!"MatchWindow \x7b start: {w.start}, len: {w.length} \x7d"

@[simp] theorem shift_zero (w : Window) : w.shift 0 = w := by
  simp [shift]

end Window

end Munch
