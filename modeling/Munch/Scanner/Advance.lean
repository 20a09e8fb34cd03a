-- SUMMARY: Advancing a scanner to its next match: single attempts, and the bytes that no rule matches.
import Munch.Match.Progress
import Munch.Scanner.Basic

/-! # Advancing

An attempt ends in a match, in the end of the input, or it skips one byte that no rule matches.
`Scanner.advance` repeats attempts until one does not skip. Each skipped byte is one less to be read,
so this ends. -/

namespace Munch

namespace Scanner

/-! ## Before an attempt -/

/-- The offset from which bytes are still needed: the one before the cursor, which tells the
beginning of a line, the text that the next match keeps, and the unmatched run. -/
def keepFrom (s : Scanner) : Nat :=
  let line := s.buffer.cursor - 1
  let kept := if s.keepText then min line s.window.start else line
  s.unmatched.elim kept fun run => min kept run.start

/-- Drops bytes that are not needed any more. -/
def trim (s : Scanner) : Scanner :=
  let (dropped, buffer) := s.buffer.trim s.keepFrom
  { s with
    buffer
    window := s.window.shift dropped
    unmatched := s.unmatched.map (·.shift dropped) }

/-- Makes room: writes an unmatched run that is as long as a block, and drops bytes. -/
def prepare : ScannerM Unit := do
  let s ← get
  if s.unmatched.any (s.buffer.settings.blockSize ≤ ·.length) then
    flush
  modify trim

/-! ## Attempts -/

/-- How an attempt ended. -/
inductive Step where
  /-- A rule matched, and the match is set up. -/
  | matched (rule : Rule)
  /-- A byte was added to the unmatched run. -/
  | skipped
  /-- No input was left. -/
  | ended
  deriving DecidableEq, Repr

/-- Begins an unmatched run at an offset, unless the present run ends there. A run that ends
elsewhere is written first. -/
def openRun (offset : Nat) : ScannerM Unit := do
  if (← get).unmatched.any (·.stop == offset) then
    return
  flush
  modify fun s => { s with unmatched := some ⟨offset, 0⟩ }

/-- Takes a byte in at the end of the unmatched run. -/
def lengthenRun (byte : UInt8) (s : Scanner) : Scanner :=
  { s with
    unmatched := s.unmatched.map (·.lengthen 1)
    line := if byte = 10 then s.line + 1 else s.line }

/-- Adds the byte at an offset to the unmatched run. -/
def addUnmatched (offset : Nat) (byte : UInt8) : ScannerM Unit := do
  openRun offset
  modify (lengthenRun byte)

/-- Moves the next byte to the unmatched run. -/
def skipByte : ScannerM Unit := do
  let offset := (← get).buffer.cursor
  match ← onBuffer Buffer.readByte with
  | some byte => addUnmatched offset byte
  | none => return

/-- Sets up a match of `length` bytes from the offset `start`. -/
def setMatch (rule : Rule) (start length : Nat) (s : Scanner) : Scanner :=
  let textStart := if s.keepText then s.window.start else start
  { s with
    window := ⟨textStart, start + length - textStart⟩
    rule
    keepText := false
    line := s.line + newlines (s.buffer.slice start (start + length)) }

/-- Attempts a match at the cursor. -/
def attempt : ScannerM Step := do
  prepare
  let s ← get
  match ← onBuffer (s.tables.longestMatch s.startCondition s.buffer.atLineStart) with
  | .accepted rule length =>
    flush
    modify (setMatch rule s.buffer.cursor length)
    return .matched rule
  | .noMatch =>
    modify fun s => { s with keepText := false }
    skipByte
    return .skipped
  | .endOfInput =>
    flush
    modify fun s => { s with keepText := false }
    return .ended

/-! ## Attempts make progress -/

/-- The later scanner has as much left to read. -/
def SameRemaining (s s' : Scanner) : Prop :=
  s'.buffer.remaining = s.buffer.remaining

instance : History SameRemaining :=
  ⟨fun _ => rfl, fun h h' => h'.trans h⟩

theorem write_sameRemaining (bytes : List UInt8) : Across SameRemaining (write bytes) := by
  intro s
  cases h : Sink.write bytes s.output <;> simp [SameRemaining, final, write, h]

theorem flush_sameRemaining : Across SameRemaining flush := by
  intro s
  cases h : s.unmatched with
  | none => simp [SameRemaining, final, flush, h]
  | some run =>
    have := write_sameRemaining (s.buffer.slice run.start run.stop) { s with unmatched := none }
    simpa [SameRemaining, final, flush, h] using this

theorem prepare_sameRemaining : Across SameRemaining prepare := by
  have htrim : Across SameRemaining (modify trim : ScannerM Unit) :=
    .modify fun s => Buffer.remaining_trim s.buffer s.keepFrom
  refine .bind .get fun s => ?_
  cases h : s.unmatched.any (s.buffer.settings.blockSize ≤ ·.length)
  · simpa [h] using htrim
  · simpa [h] using .bind flush_sameRemaining fun _ => htrim

theorem openRun_sameRemaining (offset : Nat) : Across SameRemaining (openRun offset) := by
  refine .bind .get fun s => ?_
  split
  · exact .pure _
  · exact .bind flush_sameRemaining fun _ => .modify fun _ => rfl

theorem addUnmatched_sameRemaining (offset : Nat) (byte : UInt8) :
    Across SameRemaining (addUnmatched offset byte) :=
  .bind (openRun_sameRemaining offset) fun _ => .modify fun _ => rfl

/-- Skipping takes a byte that is ahead. -/
theorem remaining_of_skipByte {s s' : Scanner} (hs : s.buffer.ahead ≠ [])
    (h : skipByte s = .ok () s') : s'.buffer.remaining < s.buffer.remaining := by
  obtain ⟨byte, rest, ha⟩ := List.exists_cons_of_ne_nil hs
  have hread := Buffer.readByte_of_cons ha
  simp only [skipByte, bind_eq_ok_iff, get_apply, EStateM.Result.ok.injEq, onBuffer_eq_ok_iff] at h
  obtain ⟨_, _, ⟨rfl, rfl⟩, found, s₁, ⟨b, hb, rfl⟩, h⟩ := h
  obtain ⟨rfl, -⟩ := EStateM.Result.ok.inj (hread.symm.trans hb)
  have hadd := addUnmatched_sameRemaining s.buffer.cursor byte { s with buffer := b }
  rw [final_of_ok h] at hadd
  have := Buffer.remaining_of_readByte hb
  simp only [SameRemaining] at hadd
  omega

/-- After an attempt that skips there is less to be read. -/
theorem remaining_of_attempt {s s' : Scanner} (h : attempt s = .ok .skipped s') :
    s'.buffer.remaining < s.buffer.remaining := by
  simp only [attempt, bind_eq_ok_iff, get_apply, EStateM.Result.ok.injEq, onBuffer_eq_ok_iff] at h
  obtain ⟨_, s₁, hprep, _, _, ⟨rfl, rfl⟩, outcome, s₂, ⟨b, hfind, rfl⟩, h⟩ := h
  have h₁ : s₁.buffer.remaining = s.buffer.remaining :=
    final_of_ok hprep ▸ prepare_sameRemaining s
  cases outcome with
  | noMatch =>
    obtain ⟨hrem, hne⟩ := Tables.longestMatch_noMatch hfind
    simp only [bind_eq_ok_iff, modify_apply, pure_apply, EStateM.Result.ok.injEq] at h
    obtain ⟨_, _, ⟨-, rfl⟩, _, _, hskip, -, rfl⟩ := h
    have hless := remaining_of_skipByte hne hskip
    simp only at hless
    omega
  | accepted rule length =>
    simp only [bind_eq_ok_iff, pure_apply, EStateM.Result.ok.injEq, reduceCtorEq, false_and,
      and_false, exists_false] at h
  | endOfInput =>
    simp only [bind_eq_ok_iff, pure_apply, EStateM.Result.ok.injEq, reduceCtorEq, false_and,
      and_false, exists_false] at h

/-! ## Matches -/

/-- Advances to the next match and returns its rule; none at the end of the input. -/
def advance : ScannerM (Option Rule)
  | s =>
    match _h : attempt s with
    | .ok (.matched rule) s' => .ok (some rule) s'
    | .ok .ended s' => .ok none s'
    | .ok .skipped s' => advance s'
    | .error e s' => .error e s'
  termination_by s => s.buffer.remaining
  decreasing_by exact remaining_of_attempt _h

/-- Advances to the next match, as a scan does whose action stops at once. -/
def next : ScannerM (Option Rule) := do
  modify unterminate
  advance

end Scanner

end Munch
