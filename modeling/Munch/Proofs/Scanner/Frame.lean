-- SUMMARY: What reading, pushing back and cutting leave alone: all but the buffer, the terminator, the line and the length of the text.
import Munch.Proofs.Scanner.Edit

/-! # Frames

Operations on the input change the buffer, the terminator, the number of the line and how much of the text
there is, and nothing else. A relation that does not mind these changes holds across all of them. -/

namespace Munch

namespace Scanner

/-- The relation does not mind what operations on the input change. -/
class Frames (R : Scanner → Scanner → Prop) : Prop extends History R where
  handle (s : Scanner) (buffer : Buffer) (covered : Option CoveredByte) (line : Nat) :
    R s { s with buffer, covered, line }
  shorten (s : Scanner) (n : Nat) : R s { s with window := s.window.shorten n }

variable (R : Scanner → Scanner → Prop) [Frames R]

theorem unterminate_frames (s : Scanner) : R s s.unterminate := by
  rw [unterminate_eq]
  exact Frames.handle s s.unterminate.buffer none s.line

theorem terminate_frames (s : Scanner) : R s s.terminate :=
  Frames.handle s (s.buffer.cover s.window.stop).2 (s.buffer.cover s.window.stop).1 s.line

theorem setLine_frames (s : Scanner) (line : Nat) : R s { s with line } :=
  Frames.handle s s.buffer s.covered line

theorem onBuffer_frames {α : Type} (m : BufferM α) : Across R (onBuffer m) := by
  intro s
  unfold final onBuffer
  cases m s.buffer <;> exact Frames.handle s _ s.covered s.line

theorem reterminate_frames (terminated : Bool) :
    Across R (if terminated then modify terminate else pure ⟨⟩ : ScannerM PUnit) := by
  cases terminated with
  | true => exact .modify (terminate_frames R)
  | false => exact .pure _

theorem input_frames : Across R input := by
  refine .bind (.modify (unterminate_frames R)) fun _ => .bind (onBuffer_frames R _) fun byte => ?_
  dsimp only
  split
  · exact .bind (.modify fun s => setLine_frames R s _) fun _ => .pure _
  · exact .pure _

theorem unput_frames (byte : UInt8) : Across R (unput byte) := by
  refine .bind .get fun s => .bind (.modify (unterminate_frames R)) fun _ =>
    .bind (onBuffer_frames R _) fun _ => ?_
  dsimp only
  rw [ite_bind_eq]
  refine .bind (reterminate_frames R _) fun _ => ?_
  split
  · exact .modify fun s => setLine_frames R s _
  · exact .pure _

theorem unputAll_frames (bytes : List UInt8) : Across R (unputAll bytes) := by
  unfold unputAll
  induction bytes.reverse with
  | nil => exact .pure _
  | cons byte bytes ih => exact .bind (unput_frames R byte) fun _ => ih

theorem cut_frames (s : Scanner) (n : Nat) : R s (s.cut n) :=
  History.trans (Frames.handle s (s.cut n).buffer s.covered (s.cut n).line)
    (Frames.shorten { s with buffer := (s.cut n).buffer, line := (s.cut n).line } n)

theorem less_frames (n : Nat) : Across R (less n) := by
  intro s
  by_cases hn : s.window.length < n
  · rw [final_of_error (less_eq_error hn)]
    exact History.refl s
  · have hcut : R s (s.unterminate.cut n) :=
      History.trans (unterminate_frames R s) (cut_frames R s.unterminate n)
    have hrest := reterminate_frames R s.covered.isSome (s.unterminate.cut n)
    unfold final at hrest ⊢
    rw [less_eq (Nat.le_of_not_lt hn)]
    exact History.trans hcut hrest

end Scanner

end Munch
