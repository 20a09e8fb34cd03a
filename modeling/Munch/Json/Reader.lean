-- SUMMARY: Reading JSON values from tokens, with a stack of the arrays and objects that are open.
import Munch.Json.Token

/-! # Reading JSON

The reader takes one token at a time. The open arrays and objects form a stack, so nothing limits how
deep a text may nest. -/

namespace Munch

/-- An array or object that is not yet complete, with the latest part first. -/
inductive JsonFrame where
  /-- The items before the current one. -/
  | array (items : List Json)
  /-- The members before the current one, and the name of the current one. -/
  | object (members : List (JsonText × Json)) (name : JsonText)
  deriving Repr

/-- What the reader expects next. -/
inductive JsonReader where
  /-- A value. -/
  | value (stack : List JsonFrame)
  /-- A value, or the end of an array that has just begun. -/
  | firstItem (stack : List JsonFrame)
  /-- A name, or the end of an object that has just begun. -/
  | firstName (stack : List JsonFrame)
  /-- A name. -/
  | name (members : List (JsonText × Json)) (stack : List JsonFrame)
  /-- The colon behind a name. -/
  | colon (members : List (JsonText × Json)) (name : JsonText) (stack : List JsonFrame)
  /-- What follows a complete value. -/
  | after (value : Json) (stack : List JsonFrame)
  deriving Repr

namespace JsonReader

/-- The first token of a value. -/
def startValue (stack : List JsonFrame) : JsonToken → Option JsonReader
  | .null => some (.after .null stack)
  | .bool b => some (.after (.bool b) stack)
  | .number n => some (.after (.number n) stack)
  | .text s => some (.after (.text s) stack)
  | .arrayOpen => some (.firstItem stack)
  | .objectOpen => some (.firstName stack)
  | _ => none

/-- Takes a token. -/
def step : JsonReader → JsonToken → Option JsonReader
  | value stack, token => startValue stack token
  | firstItem stack, .arrayClose => some (.after (.array []) stack)
  | firstItem stack, token => startValue (.array [] :: stack) token
  | firstName stack, .objectClose => some (.after (.object []) stack)
  | firstName stack, .text n => some (.colon [] n stack)
  | name members stack, .text n => some (.colon members n stack)
  | colon members n stack, .colon => some (.value (.object members n :: stack))
  | after v (.array items :: stack), .comma => some (.value (.array (v :: items) :: stack))
  | after v (.array items :: stack), .arrayClose =>
    some (.after (.array (v :: items).reverse) stack)
  | after v (.object members n :: stack), .comma => some (.name ((n, v) :: members) stack)
  | after v (.object members n :: stack), .objectClose =>
    some (.after (.object ((n, v) :: members).reverse) stack)
  | _, _ => none

/-- Takes tokens up to the end of the source, which must find a complete value. -/
def run : JsonReader → List JsonToken → Option Json
  | after v [], .stop :: _ => some v
  | reader, token :: rest => (reader.step token).bind fun reader => reader.run rest
  | _, [] => none

end JsonReader

namespace Json

/-- The value that a source delivers as JSON text. -/
def ofSignals? (signals : List Signal) : Option Json :=
  (JsonReader.value []).run (JsonToken.ofSignals signals)

/-- The value of a JSON text in UTF-8. -/
def ofBytes? (bytes : List UInt8) : Option Json :=
  ofSignals? (bytes.map .byte)

end Json

end Munch
