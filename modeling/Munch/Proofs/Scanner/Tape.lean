-- SUMMARY: Scanning without a buffer: a tape that holds all bytes, and what attempts and edits do to it.
import Munch.Proofs.Match.Attempt
import Munch.Scanner.Advance

/-! # Tapes

A tape is what a scanner is about when the buffer is left out: all bytes behind the cursor since the
beginning, all bytes ahead of it, and all output including the bytes that are not yet written. Its
offsets never move. Steps of a scanner are functions of the tape, but for the outcome of an attempt,
which is the one that `Tables.Decides` allows. -/

namespace Munch

/-- A scanner without its buffer. -/
structure Tape where
  /-- The bytes before the cursor. -/
  behind : List UInt8 := []
  /-- The bytes at and behind the cursor. -/
  pending : List UInt8
  /-- Where the text of the last match begins. -/
  textStart : Nat := 0
  textLength : Nat := 0
  /-- Whether the text has a prefix that was kept from the match before. -/
  prefixed : Bool := false
  rule : Rule := 0
  keepText : Bool := false
  startCondition : StartCondition
  line : Nat := 1
  /-- What was written, and what is to be written next. -/
  output : List UInt8 := []

namespace Tape

/-! ## Views -/

/-- The text of the last match. -/
def text (tape : Tape) : List UInt8 :=
  (tape.behind.drop tape.textStart).take tape.textLength

/-- Whether the cursor stands at the start of a line. -/
def atLineStart (tape : Tape) : Bool :=
  tape.behind.getLast?.all (· == 10)

/-! ## Attempts -/

/-- Where the text of the next match begins. -/
def nextStart (tape : Tape) : Nat :=
  if tape.keepText then tape.textStart else tape.behind.length

/-- Passes a match. -/
def accept (tape : Tape) (rule : Rule) (length : Nat) : Tape :=
  { tape with
    behind := tape.behind ++ tape.pending.take length
    pending := tape.pending.drop length
    textStart := tape.nextStart
    textLength := tape.behind.length + length - tape.nextStart
    prefixed := tape.nextStart < tape.behind.length
    rule
    keepText := false
    line := tape.line + newlines (tape.pending.take length) }

/-- Passes a byte that no rule matches. -/
def skip (tape : Tape) (byte : UInt8) : Tape :=
  { tape with
    behind := tape.behind ++ [byte]
    pending := tape.pending.tail
    keepText := false
    line := if byte = 10 then tape.line + 1 else tape.line
    output := tape.output ++ [byte] }

/-- Meets the end of the input. -/
def close (tape : Tape) : Tape :=
  { tape with keepText := false }

/-- What an attempt does to a tape. -/
inductive Attempts (t : Tables) (tape : Tape) : Scanner.Step → Tape → Prop where
  | matched {rule : Rule} {length : Nat} :
      t.Decides tape.startCondition tape.atLineStart tape.pending (.accepted rule length) →
      Attempts t tape (.matched rule) (tape.accept rule length)
  | skipped {byte : UInt8} {rest : List UInt8} :
      t.Decides tape.startCondition tape.atLineStart tape.pending .noMatch →
      tape.pending = byte :: rest → Attempts t tape .skipped (tape.skip byte)
  | ended :
      t.Decides tape.startCondition tape.atLineStart tape.pending .endOfInput →
      Attempts t tape .ended tape.close

/-- What advancing does to a tape. -/
inductive Advances (t : Tables) : Tape → Option Rule → Tape → Prop where
  | matched {tape tape' : Tape} {rule : Rule} :
      Attempts t tape (.matched rule) tape' → Advances t tape (some rule) tape'
  | skipped {tape tape' tape'' : Tape} {found : Option Rule} :
      Attempts t tape .skipped tape' → Advances t tape' found tape'' → Advances t tape found tape''
  | ended {tape tape' : Tape} :
      Attempts t tape .ended tape' → Advances t tape none tape'

/-! ## Edits -/

/-- Passes the next byte, if there is one. -/
def input (tape : Tape) : Tape :=
  match tape.pending with
  | [] => tape
  | byte :: rest =>
    { tape with
      behind := tape.behind ++ [byte]
      pending := rest
      line := if byte = 10 then tape.line + 1 else tape.line }

/-- Pushes a byte back. -/
def unput (tape : Tape) (byte : UInt8) : Tape :=
  { tape with
    pending := byte :: tape.pending
    line := if byte = 10 then max (tape.line - 1) 1 else tape.line }

/-- Keeps the first `n` bytes of the text. -/
def less (tape : Tape) (n : Nat) : Tape :=
  { tape with
    behind := tape.behind.take (tape.textStart + n)
    pending := tape.behind.drop (tape.textStart + n) ++ tape.pending
    textLength := min tape.textLength n
    line := max (tape.line - newlines (tape.behind.drop (tape.textStart + n))) 1 }

/-- Lets the next match keep the text. -/
def more (tape : Tape) : Tape :=
  { tape with keepText := true }

/-- Writes some bytes. -/
def write (tape : Tape) (bytes : List UInt8) : Tape :=
  { tape with output := tape.output ++ bytes }

/-- Changes the start condition. -/
def begin (tape : Tape) (sc : StartCondition) : Tape :=
  { tape with startCondition := sc }

/-! ## Determinism -/

variable {t : Tables}

theorem Attempts.unique {tape tape₁ tape₂ : Tape} {step₁ step₂ : Scanner.Step}
    (h₁ : Attempts t tape step₁ tape₁) (h₂ : Attempts t tape step₂ tape₂) :
    step₁ = step₂ ∧ tape₁ = tape₂ := by
  cases h₁ with
  | matched hd₁ =>
    cases h₂ with
    | matched hd₂ =>
      obtain ⟨rfl, rfl⟩ := Attempt.accepted.inj (hd₁.unique hd₂)
      exact ⟨rfl, rfl⟩
    | skipped hd₂ => cases hd₁.unique hd₂
    | ended hd₂ => cases hd₁.unique hd₂
  | skipped hd₁ hp₁ =>
    cases h₂ with
    | matched hd₂ => cases hd₁.unique hd₂
    | skipped hd₂ hp₂ =>
      obtain ⟨rfl, -⟩ := List.cons.inj (hp₁.symm.trans hp₂)
      exact ⟨rfl, rfl⟩
    | ended hd₂ => cases hd₁.unique hd₂
  | ended hd₁ =>
    cases h₂ with
    | matched hd₂ => cases hd₁.unique hd₂
    | skipped hd₂ => cases hd₁.unique hd₂
    | ended hd₂ => exact ⟨rfl, rfl⟩

theorem Advances.unique {tape tape₁ tape₂ : Tape} {found₁ found₂ : Option Rule}
    (h₁ : Advances t tape found₁ tape₁) (h₂ : Advances t tape found₂ tape₂) :
    found₁ = found₂ ∧ tape₁ = tape₂ := by
  induction h₁ with
  | matched ha₁ =>
    cases h₂ with
    | matched ha₂ =>
      obtain ⟨hstep, htape⟩ := ha₁.unique ha₂
      exact ⟨congrArg some (Scanner.Step.matched.inj hstep), htape⟩
    | skipped ha₂ => cases (ha₁.unique ha₂).1
    | ended ha₂ => cases (ha₁.unique ha₂).1
  | skipped ha₁ hrest ih =>
    cases h₂ with
    | matched ha₂ => cases (ha₁.unique ha₂).1
    | skipped ha₂ hrest₂ =>
      obtain ⟨-, rfl⟩ := ha₁.unique ha₂
      exact ih hrest₂
    | ended ha₂ => cases (ha₁.unique ha₂).1
  | ended ha₁ =>
    cases h₂ with
    | matched ha₂ => cases (ha₁.unique ha₂).1
    | skipped ha₂ => cases (ha₁.unique ha₂).1
    | ended ha₂ => exact ⟨rfl, (ha₁.unique ha₂).2⟩

/-! ## Kept prefixes -/

/-- After advancing no text is kept. -/
theorem Advances.keepText_eq {tape tape' : Tape} {found : Option Rule}
    (h : Advances t tape found tape') : tape'.keepText = false := by
  induction h with
  | matched ha =>
    cases ha with
    | matched hd => rfl
  | skipped ha hrest ih => exact ih
  | ended ha =>
    cases ha with
    | ended hd => rfl

/-- A match has a kept prefix only if it was the first attempt, and there was text to keep. -/
theorem Advances.of_prefixed {tape tape' : Tape} {rule : Rule}
    (h : Advances t tape (some rule) tape') (hp : tape'.prefixed = true) :
    tape.keepText = true ∧ tape.textStart < tape.behind.length ∧ tape'.output = tape.output := by
  generalize hfound : some rule = found at h
  induction h with
  | matched ha =>
    cases ha with
    | matched hd =>
      have hlt := of_decide_eq_true hp
      unfold nextStart at hlt
      split at hlt
      · rename_i hkeep
        exact ⟨hkeep, hlt, rfl⟩
      · exact absurd hlt (Nat.lt_irrefl _)
  | skipped ha hrest ih =>
    obtain ⟨hkeep, -⟩ := ih hp hfound
    cases ha with
    | skipped hd hpending => cases hkeep
  | ended ha => cases hfound

end Tape

end Munch
