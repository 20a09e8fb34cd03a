-- SUMMARY: All spellings of JSON tokens, strings with any escapes included, and the machine that finds each of them.
import Mathlib.Data.List.Chain
import Munch.Json.Token

/-! # Spelled tokens

A token has many spellings: blanks stand around it, and a character of a string is written as it is or
as any of its escapes. The machine takes bytes one by one and finds the token behind each spelling. A
number is complete only where the next token begins, so two numbers never stand side by side. -/

namespace Munch

/-! ## Strings -/

/-- A unit of UTF-16 that is written as an escape of four digits of base sixteen. -/
inductive SpellsUnit : Nat → List UInt8 → Prop
  | digits {a b c d : UInt8} {w x y z : Nat} : hexValue? a = some w → hexValue? b = some x →
      hexValue? c = some y → hexValue? d = some z →
      SpellsUnit (((w * 16 + x) * 16 + y) * 16 + z) [92, 117, a, b, c, d]

/-- The characters with an escape of a single letter. -/
def letterEscapes : List (UInt8 × Char) :=
  [(34, '"'), (92, '\\'), (47, '/'), (98, '\x08'), (102, '\x0c'), (110, '\n'), (114, '\r'),
    (116, '\t')]

/-- A way to write a character inside a string. -/
inductive SpellsChar : Char → List UInt8 → Prop
  /-- As it is, in UTF-8. -/
  | plain {c : Char} : 32 ≤ c.toNat → c ≠ '"' → c ≠ '\\' → SpellsChar c (String.utf8EncodeChar c)
  | letter {c : Char} {b : UInt8} : (b, c) ∈ letterEscapes → SpellsChar c [92, b]
  | unit {c : Char} {bytes : List UInt8} : SpellsUnit c.toNat bytes → SpellsChar c bytes
  /-- As two units that form a surrogate pair. -/
  | pair {c : Char} {high low : Nat} {bytes bytes' : List UInt8} : high < 0x400 → low < 0x400 →
      c.toNat = 0x10000 + high * 0x400 + low → SpellsUnit (0xD800 + high) bytes →
      SpellsUnit (0xDC00 + low) bytes' → SpellsChar c (bytes ++ bytes')

/-- A way to write the characters of a string, one after the other. -/
inductive SpellsChars : List Char → List UInt8 → Prop
  | nil : SpellsChars [] []
  | cons {c : Char} {cs : List Char} {bytes more : List UInt8} : SpellsChar c bytes →
      SpellsChars cs more → SpellsChars (c :: cs) (bytes ++ more)

/-! ## Integers -/

/-- The decimal digits of a positive number. -/
inductive Decimal : Nat → List UInt8 → Prop
  | digit {d : Nat} : 0 < d → d < 10 → Decimal d [UInt8.ofNat (48 + d)]
  | more {n d : Nat} {bytes : List UInt8} : Decimal n bytes → d < 10 →
      Decimal (n * 10 + d) (bytes ++ [UInt8.ofNat (48 + d)])

/-- The way to write an integer whose digits fit a word. -/
inductive SpellsInteger : Int → List UInt8 → Prop
  | zero : SpellsInteger 0 [48]
  | positive {n : Nat} {bytes : List UInt8} : Decimal n bytes → n < UInt64.size →
      SpellsInteger n bytes
  | negative {n : Nat} {bytes : List UInt8} : Decimal n bytes → n < UInt64.size →
      SpellsInteger (-n) (45 :: bytes)

/-! ## Tokens -/

namespace JsonToken

/-- A way to write a token. -/
inductive Spells : JsonToken → List UInt8 → Prop
  | arrayOpen : Spells .arrayOpen [91]
  | arrayClose : Spells .arrayClose [93]
  | objectOpen : Spells .objectOpen [123]
  | objectClose : Spells .objectClose [125]
  | comma : Spells .comma [44]
  | colon : Spells .colon [58]
  | null : Spells .null [110, 117, 108, 108]
  | true : Spells (.bool true) [116, 114, 117, 101]
  | false : Spells (.bool false) [102, 97, 108, 115, 101]
  | integer {n : Int} {bytes : List UInt8} : SpellsInteger n bytes →
      Spells (.number (.integer n)) bytes
  | text {s : String} {bytes : List UInt8} : SpellsChars s.toList bytes →
      Spells (.text (some s)) (34 :: bytes ++ [34])

/-- A byte that stands between tokens without a meaning. -/
def isBlank (b : UInt8) : Bool :=
  b = 9 || b = 10 || b = 13 || b = 32

/-- A way to write tokens, with blanks anywhere between them. -/
inductive Spelled : List JsonToken → List UInt8 → Prop
  | nil : Spelled [] []
  | blank {tokens : List JsonToken} {b : UInt8} {bytes : List UInt8} : isBlank b = true →
      Spelled tokens bytes → Spelled tokens (b :: bytes)
  | cons {t : JsonToken} {tokens : List JsonToken} {bytes more : List UInt8} : t.Spells bytes →
      Spelled tokens more → Spelled (t :: tokens) (bytes ++ more)

/-- Whether a token is a number. -/
def isNumber : JsonToken → Bool
  | .number _ => Bool.true
  | _ => Bool.false

/-- Two tokens that can stand side by side. -/
def Apart (t t' : JsonToken) : Prop :=
  t.isNumber = Bool.false ∨ t'.isNumber = Bool.false

end JsonToken

/-! ## The machine -/

namespace JsonLexer

/-- Takes some bytes. -/
def feed (l : JsonLexer) (bytes : List UInt8) : JsonLexer :=
  bytes.foldl stepByte l

variable {tokens : Array JsonToken}

/-! ### Inside a string -/

end JsonLexer

/-- An integer that has been read, but may go on. -/
def NumberDraft.Whole (d : NumberDraft) (n : Int) : Prop :=
  (d.phase = .zero ∨ d.phase = .digits) ∧ d.value = .integer n

/-- An end of the source is passed over, and the next one completes an integer. -/
theorem NumberDraft.Whole.stepStop {d : NumberDraft} {n : Int} (h : d.Whole n) :
    d.stepStop = .more { d with phase := .digitsEnded } ∧
      NumberDraft.stepStop { d with phase := .digitsEnded } = .complete (.integer n) := by
  obtain ⟨hphase, hvalue⟩ := h
  obtain ⟨phase, negative, significand, scale, exponentNegative, exponent, broken⟩ := d
  rcases hphase with rfl | rfl <;> exact ⟨rfl, congrArg NumberStep.complete hvalue⟩

/-- A byte that no number goes on with. -/
def EndsNumber (b : UInt8) : Prop :=
  digitValue? b = none ∧ b ≠ 46 ∧ b ≠ 69 ∧ b ≠ 101

namespace JsonLexer

variable {tokens : Array JsonToken}

theorem Decimal.pos {n : Nat} {bytes : List UInt8} (h : Decimal n bytes) : 0 < n := by
  induction h with
  | digit hpos => exact hpos
  | more _ _ ih => omega

/-- A number is complete where a byte comes that it does not go on with. -/
theorem stepByte_whole {draft : NumberDraft} {n : Int} {b : UInt8} (h : draft.Whole n)
    (hb : EndsNumber b) : stepByte ⟨.number draft, tokens⟩ b =
      startToken ⟨.between, tokens.push (.number (.integer n))⟩ b := by
  obtain ⟨hphase, hvalue⟩ := h
  obtain ⟨hdigit, hpoint, hmark, hmark'⟩ := hb
  have hstep : draft.stepByte b = .completeBefore draft.value := by
    rcases hphase with hphase | hphase <;>
      simp [NumberDraft.stepByte, hphase, hdigit, NumberDraft.afterInteger, hpoint, hmark, hmark']
  simp only [stepByte, hstep, hvalue, emit]

/-! ### From token to token -/

/-- The machine has found some tokens, of which the last may be a number that could go on. -/
inductive Found : JsonLexer → List JsonToken → Prop
  | between (tokens : Array JsonToken) : Found ⟨.between, tokens⟩ tokens.toList
  | number {draft : NumberDraft} {n : Int} (tokens : Array JsonToken) : draft.Whole n →
      Found ⟨.number draft, tokens⟩ (tokens.toList ++ [.number (.integer n)])

/-- Where no number goes on, a token begins. -/
theorem Found.stepByte {l : JsonLexer} {found : List JsonToken} (h : Found l found) {b : UInt8}
    (hb : EndsNumber b) : ∃ tokens : Array JsonToken, tokens.toList = found ∧
      l.stepByte b = startToken ⟨.between, tokens⟩ b := by
  cases h with
  | between tokens => exact ⟨tokens, rfl, rfl⟩
  | number tokens hwhole => exact ⟨_, Array.toList_push, stepByte_whole hwhole hb⟩

/-- The end of the source completes what was found. -/
theorem Found.stop {l : JsonLexer} {found : List JsonToken} (h : Found l found) :
    ((List.replicate 3 Signal.stop).foldl step l).tokens.toList = found ++ [.stop] := by
  cases h with
  | between tokens => exact Array.toList_push
  | number tokens hwhole =>
    obtain ⟨hstop, hended⟩ := hwhole.stepStop
    simp [List.replicate, step, stepStop, hstop, hended, goto, emit, close]

end JsonLexer

end Munch
