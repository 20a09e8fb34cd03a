-- SUMMARY: The tokens of JSON texts and the machine that finds them, one signal of a source at a time.
import Munch.Json.Basic
import Munch.Json.Double
import Munch.Source

/-! # JSON tokens

The machine is fed with what a source delivers: bytes, ends and failures. An end of the source closes
a number, and one end may pass unnoticed inside a number where the reader only looks ahead; anywhere
else it ends the tokens. A wrong byte or a failure ends them with `bad`. The digits of a number are
collected in a 64 bit word as far as it holds them. -/

namespace Munch

/-- What a source delivers to a reader that takes single bytes. -/
inductive Signal where
  | byte (value : UInt8)
  | stop
  | failure
  deriving DecidableEq, Repr

/-- The signals of a source. Interruptions pass unnoticed. -/
def Source.signals (s : Source) : List Signal :=
  s.chunks.flatMap fun
    | .data bytes => bytes.map .byte
    | .stop => [.stop]
    | .interruption => []
    | .failure _ => [.failure]

/-- A token of a JSON text. -/
inductive JsonToken where
  | arrayOpen
  | arrayClose
  | objectOpen
  | objectClose
  | comma
  | colon
  | null
  | bool (value : Bool)
  | number (value : JsonNumber)
  | text (value : JsonText)
  /-- The end of the source. -/
  | stop
  /-- What is no token. -/
  | bad
  deriving DecidableEq, Repr

/-! ## Strings -/

/-- A piece of a string: a byte of UTF-8, or an escaped UTF-16 unit. -/
inductive TextUnit where
  | byte (value : UInt8)
  | unit (value : Nat)
  deriving DecidableEq, Repr

/-- The UTF-8 bytes of a scalar value. -/
def utf8Bytes (scalar : Nat) : List UInt8 :=
  String.utf8EncodeChar (Char.ofNat scalar)

/-- Joins the pieces to UTF-8 bytes. Two units that form a surrogate pair stand for one character; a
surrogate on its own stands for none. -/
def joinUnits : List TextUnit → Option (List UInt8)
  | [] => some []
  | .byte b :: rest => (b :: ·) <$> joinUnits rest
  | .unit u :: rest =>
    if u < 0xD800 || 0xE000 ≤ u then
      (utf8Bytes u ++ ·) <$> joinUnits rest
    else match rest with
      | .unit v :: rest =>
        if u < 0xDC00 && 0xDC00 ≤ v && v < 0xE000 then
          (utf8Bytes (0x10000 + (u - 0xD800) * 0x400 + (v - 0xDC00)) ++ ·) <$> joinUnits rest
        else
          none
      | _ => none

/-- The string that the pieces form, if they form Unicode text. -/
def textOfUnits (units : List TextUnit) : JsonText :=
  (joinUnits units).bind fun bytes => String.fromUTF8? ⟨bytes.toArray⟩

/-! ## Numbers -/

/-- How far a number has been read. -/
inductive NumberPhase where
  /-- Behind the minus sign. -/
  | sign
  /-- Behind a leading zero. -/
  | zero
  /-- Behind a digit of the integer part. -/
  | digits
  /-- Behind the integer part and an end of the source. -/
  | digitsEnded
  /-- Behind a digit of an integer part that does not fit a word. -/
  | excess
  /-- Behind an integer part that does not fit a word and an end of the source. -/
  | excessEnded
  /-- Behind the point. -/
  | point
  /-- Behind a digit of the fraction. -/
  | fraction
  /-- Behind a digit of the fraction that does not fit a word. -/
  | fractionExcess
  /-- Behind the fraction and an end of the source. -/
  | fractionEnded
  /-- Behind the exponent mark. -/
  | mark
  /-- Behind the sign of the exponent, or where only a digit may follow. -/
  | markSign
  /-- Behind a digit of the exponent. -/
  | exponent
  deriving DecidableEq, Repr

/-- A number as far as it has been read. -/
structure NumberDraft where
  phase : NumberPhase
  negative : Bool
  /-- The digits that fit a word. -/
  significand : Nat := 0
  /-- The power of ten by which the significand counts, but for the exponent. -/
  scale : Int := 0
  exponentNegative : Bool := false
  exponent : Nat := 0
  /-- Whether an end of the source stands behind an integer part that does not fit a word, and more
  of the number behind it. Such a number can only be passed over. -/
  broken : Bool := false
  deriving DecidableEq, Repr

namespace NumberDraft

/-- The significand with its sign. -/
def signed (d : NumberDraft) : Int :=
  if d.negative then -d.significand else d.significand

/-- The number that was read. -/
def value (d : NumberDraft) : JsonNumber :=
  match d.phase with
  | .sign | .zero | .digits | .digitsEnded =>
    if d.negative && d.significand = 0 then .decimal 0 0 else .integer d.signed
  | _ =>
    let exponent := if d.exponentNegative then d.scale - d.exponent else d.scale + d.exponent
    if !d.broken && Double.inRange d.significand exponent then
      .decimal d.signed exponent
    else
      .unreadable

/-- Whether a word holds the significand with one more digit. -/
def fits (d : NumberDraft) (digit : Nat) : Bool :=
  d.significand * 10 + digit < UInt64.size

/-- A digit of the integer part. From the first one that does not fit on, digits only count. -/
def integerDigit (d : NumberDraft) (digit : Nat) : NumberDraft :=
  if d.fits digit then
    { d with phase := .digits, significand := d.significand * 10 + digit }
  else
    { d with phase := .excess, scale := d.scale + 1 }

/-- A digit of the fraction. From the first one that does not fit on, digits are left out. -/
def fractionDigit (d : NumberDraft) (digit : Nat) : NumberDraft :=
  if d.fits digit then
    { d with phase := .fraction, significand := d.significand * 10 + digit, scale := d.scale - 1 }
  else
    { d with phase := .fractionExcess }

end NumberDraft

/-- The value of a byte that is a decimal digit. -/
def digitValue? (b : UInt8) : Option Nat :=
  if 48 ≤ b && b ≤ 57 then some (b.toNat - 48) else none

/-- The value of a byte that is a digit of base sixteen, in either case. -/
def hexValue? (b : UInt8) : Option Nat :=
  if 48 ≤ b && b ≤ 57 then some (b.toNat - 48)
  else if 65 ≤ b && b ≤ 70 then some (b.toNat - 55)
  else if 97 ≤ b && b ≤ 102 then some (b.toNat - 87)
  else none

/-- What becomes of a number at the next signal. -/
inductive NumberStep where
  /-- The signal belongs to the number. -/
  | more (draft : NumberDraft)
  /-- The number is complete, and the signal was needed to see that. -/
  | complete (value : JsonNumber)
  /-- The number is complete, and the signal comes after it. -/
  | completeBefore (value : JsonNumber)
  | bad
  deriving DecidableEq, Repr

namespace NumberDraft

/-- A byte behind the integer part that is no digit of it. -/
def afterInteger (d : NumberDraft) (b : UInt8) : NumberStep :=
  let d' := { d with broken := d.phase == NumberPhase.excessEnded }
  if b = 46 then .more { d' with phase := .point }
  else if b = 69 || b = 101 then .more { d' with phase := .mark }
  else .completeBefore d.value

/-- A byte behind the fraction that is no digit of it. -/
def afterFraction (d : NumberDraft) (b : UInt8) : NumberStep :=
  if b = 69 || b = 101 then .more { d with phase := .mark } else .completeBefore d.value

/-- A byte behind the exponent mark that is no digit. -/
def afterMark (d : NumberDraft) (b : UInt8) : NumberStep :=
  if b = 43 || b = 45 then
    .more { d with phase := .markSign, exponentNegative := b = 45 }
  else
    .bad

/-- A byte inside a number. -/
def stepByte (d : NumberDraft) (b : UInt8) : NumberStep :=
  match d.phase, digitValue? b with
  | .sign, some 0 => .more { d with phase := .zero }
  | .sign, some n | .digits, some n => .more (d.integerDigit n)
  | .excess, some _ => .more { d with scale := d.scale + 1 }
  | .zero, some _ => .bad
  | .digitsEnded, some _ | .excessEnded, some _ | .fractionEnded, some _ => .completeBefore d.value
  | .point, some n | .fraction, some n => .more (d.fractionDigit n)
  | .fractionExcess, some _ => .more d
  | .mark, some n | .markSign, some n | .exponent, some n =>
    .more { d with phase := .exponent, exponent := d.exponent * 10 + n }
  | .zero, none | .digits, none | .digitsEnded, none | .excess, none | .excessEnded, none =>
    d.afterInteger b
  | .fraction, none | .fractionExcess, none | .fractionEnded, none => d.afterFraction b
  | .mark, none => d.afterMark b
  | .exponent, none => .completeBefore d.value
  | .sign, none | .point, none | .markSign, none => .bad

/-- An end of the source inside a number. -/
def stepStop (d : NumberDraft) : NumberStep :=
  match d.phase with
  | .sign | .point | .markSign => .bad
  | .zero | .digits => .more { d with phase := .digitsEnded }
  | .excess => .more { d with phase := .excessEnded }
  | .fraction | .fractionExcess => .more { d with phase := .fractionEnded }
  | .mark => .more { d with phase := .markSign }
  | .digitsEnded | .fractionEnded | .exponent => .complete d.value
  | .excessEnded => .complete .unreadable

end NumberDraft

/-! ## The machine -/

/-- Where the machine stands. -/
inductive JsonMode where
  /-- Between tokens. -/
  | between
  /-- Inside a word that still has to spell some bytes. -/
  | word (rest : List UInt8) (token : JsonToken)
  /-- Inside a string, with the pieces so far, the latest first. -/
  | text (units : List TextUnit)
  /-- Behind a backslash. -/
  | escape (units : List TextUnit)
  /-- Inside a unit of four digits of base sixteen, with how many are missing. -/
  | unit (units : List TextUnit) (missing value : Nat)
  | number (draft : NumberDraft)
  /-- Behind the last token. -/
  | ended
  deriving DecidableEq, Repr

/-- The machine with the tokens found so far. -/
structure JsonLexer where
  mode : JsonMode := .between
  tokens : Array JsonToken := #[]
  deriving DecidableEq, Repr

namespace JsonLexer

/-- Goes into a mode. -/
def goto (l : JsonLexer) (mode : JsonMode) : JsonLexer :=
  { l with mode }

/-- Adds a token. -/
def emit (l : JsonLexer) (token : JsonToken) : JsonLexer :=
  { mode := .between, tokens := l.tokens.push token }

/-- Adds the last token. -/
def close (l : JsonLexer) (token : JsonToken) : JsonLexer :=
  { mode := .ended, tokens := l.tokens.push token }

/-- Ends the tokens because of what is none. -/
def fail (l : JsonLexer) : JsonLexer :=
  l.close .bad

/-- A byte between tokens. -/
def startToken (l : JsonLexer) (b : UInt8) : JsonLexer :=
  match b with
  | 9 | 10 | 13 | 32 => l.goto .between
  | 91 => l.emit .arrayOpen
  | 93 => l.emit .arrayClose
  | 123 => l.emit .objectOpen
  | 125 => l.emit .objectClose
  | 44 => l.emit .comma
  | 58 => l.emit .colon
  | 34 => l.goto (.text [])
  | 110 => l.goto (.word [117, 108, 108] .null)
  | 116 => l.goto (.word [114, 117, 101] (.bool true))
  | 102 => l.goto (.word [97, 108, 115, 101] (.bool false))
  | 45 => l.goto (.number { phase := .sign, negative := true })
  | _ =>
    match NumberDraft.stepByte { phase := .sign, negative := false } b with
    | .more draft => l.goto (.number draft)
    | _ => l.fail

/-- A byte inside a string. -/
def stepText (l : JsonLexer) (units : List TextUnit) (b : UInt8) : JsonLexer :=
  if b = 34 then l.emit (.text (textOfUnits units.reverse))
  else if b = 92 then l.goto (.escape units)
  else if b < 32 then l.fail
  else l.goto (.text (.byte b :: units))

/-- The byte behind a backslash. -/
def stepEscape (l : JsonLexer) (units : List TextUnit) (b : UInt8) : JsonLexer :=
  let literal (value : UInt8) : JsonLexer := l.goto (.text (.byte value :: units))
  match b with
  | 34 | 92 | 47 => literal b
  | 98 => literal 8
  | 102 => literal 12
  | 110 => literal 10
  | 114 => literal 13
  | 116 => literal 9
  | 117 => l.goto (.unit units 4 0)
  | _ => l.fail

/-- A byte of an escaped unit. -/
def stepUnit (l : JsonLexer) (units : List TextUnit) (missing value : Nat) (b : UInt8) :
    JsonLexer :=
  match hexValue? b with
  | none => l.fail
  | some digit =>
    let value := value * 16 + digit
    if missing ≤ 1 then l.goto (.text (.unit value :: units))
    else l.goto (.unit units (missing - 1) value)

/-- Takes a byte. -/
def stepByte (l : JsonLexer) (b : UInt8) : JsonLexer :=
  match l.mode with
  | .between => l.startToken b
  | .word [] token => (l.emit token).startToken b
  | .word [c] token => if b = c then l.emit token else l.fail
  | .word (c :: rest) token => if b = c then l.goto (.word rest token) else l.fail
  | .text units => l.stepText units b
  | .escape units => l.stepEscape units b
  | .unit units missing value => l.stepUnit units missing value b
  | .number draft =>
    match draft.stepByte b with
    | .more draft => l.goto (.number draft)
    | .complete value => l.emit (.number value)
    | .completeBefore value => (l.emit (.number value)).startToken b
    | .bad => l.fail
  | .ended => l

/-- Takes an end of the source. -/
def stepStop (l : JsonLexer) : JsonLexer :=
  match l.mode with
  | .between => l.close .stop
  | .number draft =>
    match draft.stepStop with
    | .more draft => l.goto (.number draft)
    | .complete value | .completeBefore value => l.emit (.number value)
    | .bad => l.fail
  | .ended => l
  | _ => l.fail

/-- Takes a signal. -/
def step (l : JsonLexer) : Signal → JsonLexer
  | .byte b => l.stepByte b
  | .stop => l.stepStop
  | .failure =>
    match l.mode with
    | .ended => l
    | _ => l.fail

end JsonLexer

/-- The tokens of what a source delivers, up to its end. Three ends are enough to complete a number
and to end the tokens. -/
def JsonToken.ofSignals (signals : List Signal) : List JsonToken :=
  ((signals ++ List.replicate 3 Signal.stop).foldl JsonLexer.step {}).tokens.toList

end Munch
