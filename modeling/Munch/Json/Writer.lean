-- SUMMARY: Writing JSON values as text.
import Munch.Json.Basic

/-! # Writing JSON

Values are written without blanks. In strings only quotes, backslashes and control characters are
escaped. A text that is no Unicode text is written as a lone surrogate, a number without a value as
one that is out of range. -/

namespace Munch

namespace Json

/-- A digit of base sixteen, in lower case. -/
def hexDigit (n : Nat) : Char :=
  Char.ofNat (if n < 10 then 48 + n else 87 + n)

/-- A character as it stands in a string. -/
def escape (c : Char) : List Char :=
  if c = '"' || c = '\\' then ['\\', c]
  else if c.toNat < 32 then
    ['\\', 'u', '0', '0', hexDigit (c.toNat / 16), hexDigit (c.toNat % 16)]
  else [c]

/-- A string between quotes. -/
def writeText : JsonText → String
  | some s => "\"" ++ String.ofList (s.toList.flatMap escape) ++ "\""
  | none => "\"\\ud800\""

/-- A number. -/
def writeNumber : JsonNumber → String
  | .integer value => toString value
  | .decimal significand exponent => toString significand ++ "e" ++ toString exponent
  | .unreadable => "1e999"

mutual

/-- The text of a value. -/
def write : Json → String
  | null => "null"
  | bool value => if value then "true" else "false"
  | number value => writeNumber value
  | text value => writeText value
  | array items => "[" ++ ",".intercalate (writeItems items) ++ "]"
  | object members => "\x7b" ++ ",".intercalate (writeMembers members) ++ "\x7d"

/-- The texts of the items of an array. -/
def writeItems : List Json → List String
  | [] => []
  | item :: rest => item.write :: writeItems rest

/-- The texts of the members of an object. -/
def writeMembers : List (JsonText × Json) → List String
  | [] => []
  | (name, value) :: rest => (writeText name ++ ":" ++ value.write) :: writeMembers rest

end

end Json

end Munch
