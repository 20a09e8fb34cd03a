-- SUMMARY: Scanners that stand on a tape: how buffer, windows and unmatched runs stand for absolute positions.
import Munch.Proofs.Scanner.Tape

/-! # Scanners on tapes

A scanner stands on a tape if its buffer holds the bytes of the tape but for the first few, which it
has dropped. `Between` adds what holds between two attempts, where some bytes of the output may still
be an unmatched run, and `AtMatch` what holds at a match, where the window shows the text. Dropping
bytes never takes away the byte before the cursor, so the beginning of a line can be told. -/

namespace Munch

namespace Scanner

/-! ## The relation -/

/-- The scanner stands on the tape and has dropped some bytes of it. -/
structure OnTape (t : Tables) (tape : Tape) (dropped : Nat) (s : Scanner) : Prop where
  tables_eq : s.tables = t
  covered_eq : s.covered = none
  steady : s.buffer.Steady
  passed_eq : s.buffer.passed.toList = tape.behind.drop dropped
  pending_eq : s.buffer.pending = tape.pending
  /-- The byte before the cursor is at hand, if there is one. -/
  look : dropped = 0 ∨ dropped < tape.behind.length
  limit_eq : s.output.limit = none
  startCondition_eq : s.startCondition = tape.startCondition
  keepText_eq : s.keepText = tape.keepText
  line_eq : s.line = tape.line
  state_lt : tape.startCondition.state.toNat < t.stateCount
  bolState_lt : tape.startCondition.bolState.toNat < t.stateCount

/-- The bytes of an unmatched run. -/
def RunOf (s : Scanner) (run : List UInt8) : Prop :=
  s.unmatched = none ∧ run = [] ∨
    ∃ start, s.unmatched = some ⟨start, run.length⟩ ∧ start + run.length ≤ s.buffer.cursor ∧
      run = (s.buffer.passed.toList.drop start).take run.length

/-- The scanner stands on the tape between two attempts. -/
structure Between (t : Tables) (tape : Tape) (dropped : Nat) (s : Scanner) : Prop
    extends OnTape t tape dropped s where
  /-- The text to keep is at hand. -/
  kept : tape.keepText = true →
    s.window.start + dropped = tape.textStart ∧ tape.textStart ≤ tape.behind.length
  run : ∃ run, s.RunOf run ∧ s.output.written.toList ++ run = tape.output
  /-- An unmatched run ends at the cursor. -/
  runStop : ∀ w ∈ s.unmatched, w.stop = s.buffer.cursor

/-- The scanner stands on the tape at a match. -/
structure AtMatch (t : Tables) (tape : Tape) (dropped : Nat) (s : Scanner) : Prop
    extends OnTape t tape dropped s where
  unmatched_eq : s.unmatched = none
  output_eq : s.output.written.toList = tape.output
  rule_eq : s.rule = tape.rule
  start_eq : s.window.start + dropped = tape.textStart
  length_eq : s.window.length = tape.textLength
  stop_le : tape.textStart + tape.textLength ≤ tape.behind.length
  /-- So is the byte before the text, unless the text begins with kept bytes. -/
  fresh : tape.prefixed = false → dropped = 0 ∨ dropped < tape.textStart

section OnTape

variable {t : Tables} {tape : Tape} {dropped : Nat} {s : Scanner}

namespace OnTape

theorem dropped_le (h : s.OnTape t tape dropped) : dropped ≤ tape.behind.length := by
  rcases h.look with hzero | hlt
  · exact hzero ▸ Nat.zero_le _
  · exact Nat.le_of_lt hlt

/-- The cursor as an offset of the tape. -/
theorem cursor_add (h : s.OnTape t tape dropped) :
    s.buffer.cursor + dropped = tape.behind.length := by
  have hlength := congrArg List.length h.passed_eq
  rw [Array.length_toList, List.length_drop] at hlength
  rw [Buffer.cursor, hlength]
  exact Nat.sub_add_cancel h.dropped_le

theorem atLineStart_eq (h : s.OnTape t tape dropped) :
    s.buffer.atLineStart = tape.atLineStart := by
  unfold Buffer.atLineStart Tape.atLineStart
  have hlast : s.buffer.passed.back? = (tape.behind.drop dropped).getLast? := by
    rw [← h.passed_eq, Array.getLast?_toList]
  rw [hlast]
  rcases h.look with hzero | hlt
  · rw [hzero, List.drop_zero]
  · rw [List.getLast?_drop, if_neg (Nat.not_le.2 hlt)]

end OnTape

/-- What is kept of a match is enough for the attempts behind it. -/
theorem AtMatch.between (h : s.AtMatch t tape dropped) : s.Between t tape dropped where
  toOnTape := h.toOnTape
  kept _ := ⟨h.start_eq, Nat.le_trans (Nat.le_add_right _ _) h.stop_le⟩
  run := ⟨[], .inl ⟨h.unmatched_eq, rfl⟩, by rw [List.append_nil, h.output_eq]⟩
  runStop w hw := by
    rw [h.unmatched_eq] at hw
    cases hw

/-! ## Reading the text -/

theorem slice_of_le {b : Buffer} {start stop : Nat} (h : stop ≤ b.cursor) :
    b.slice start stop = (b.passed.toList.drop start).take (stop - start) := by
  unfold Buffer.slice
  rw [Nat.sub_eq_zero_of_le h, List.take_zero, List.drop_nil, List.append_nil,
    Array.toList_extract, List.extract_eq_take_drop]

/-- A slice of passed bytes as one of the tape. -/
theorem OnTape.slice_eq (h : s.OnTape t tape dropped) (start : Nat) {stop : Nat}
    (hstop : stop ≤ s.buffer.cursor) : s.buffer.slice start stop =
      (tape.behind.drop (start + dropped)).take (stop - start) := by
  rw [slice_of_le hstop, h.passed_eq, List.drop_drop, Nat.add_comm dropped]

theorem AtMatch.stop_le_cursor (h : s.AtMatch t tape dropped) :
    s.window.stop ≤ s.buffer.cursor := by
  have hcursor := h.cursor_add
  have hstart := h.start_eq
  have hstop := h.stop_le
  rw [Window.stop, h.length_eq]
  omega

theorem AtMatch.text_eq (h : s.AtMatch t tape dropped) : s.text = tape.text := by
  unfold Scanner.text Tape.text
  rw [h.slice_eq _ h.stop_le_cursor, h.start_eq, Window.stop, Nat.add_sub_cancel_left,
    h.length_eq]

end OnTape

end Scanner

end Munch
