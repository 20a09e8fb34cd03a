-- SUMMARY: JSON values as trees that keep what readers of typed data need to tell apart.

/-! # JSON values

Numbers written as integers are kept apart from all others. A string that is no Unicode text, because
of a lone surrogate escape or invalid UTF-8, and a number that has no value can be passed over but
not read. Objects keep their members in order, repeated names included. -/

namespace Munch

/-- A string of a JSON text; none if it is no Unicode text. -/
abbrev JsonText := Option String

/-- A number of a JSON text. -/
inductive JsonNumber where
  /-- An integer that fits a 64 bit word, but for a negative zero. -/
  | integer (value : Int)
  /-- Any other number in the range of doubles: the digits that a 64 bit word holds, times a power
  of ten. -/
  | decimal (significand exponent : Int)
  /-- A number without a value: it is out of range, or broken by an end of the source. -/
  | unreadable
  deriving DecidableEq, Repr

/-- A JSON value. -/
inductive Json where
  | null
  | bool (value : Bool)
  | number (value : JsonNumber)
  | text (value : JsonText)
  | array (items : List Json)
  | object (members : List (JsonText × Json))
  deriving Inhabited, Repr

end Munch
