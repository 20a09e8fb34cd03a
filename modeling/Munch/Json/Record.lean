-- SUMMARY: Reading typed data from JSON values: numbers in range, lists, and records given by name or by position.
import Munch.Json.Basic

/-! # Typed data in JSON

A record is an object whose members have known names, or an array of the fields in order. An unknown
member of an object is passed over; a known one may occur only once. A field that is left out can
have a default. -/

namespace Munch

namespace Json

/-! ## Values -/

/-- An integer from `low` to before `high`. -/
def int? (low high : Int) : Json → Option Int
  | number (.integer value) => if low ≤ value && value < high then some value else none
  | _ => none

/-- An unsigned integer of 8 bits. -/
def uint8? (j : Json) : Option UInt8 :=
  (j.int? 0 UInt8.size).map fun n => UInt8.ofNat n.toNat

/-- An unsigned integer of 32 bits. -/
def uint32? (j : Json) : Option UInt32 :=
  (j.int? 0 UInt32.size).map fun n => UInt32.ofNat n.toNat

/-- An unsigned integer of 64 bits. -/
def uint64? (j : Json) : Option UInt64 :=
  (j.int? 0 UInt64.size).map fun n => UInt64.ofNat n.toNat

/-- A signed integer of 32 bits. -/
def int32? (j : Json) : Option Int32 :=
  (j.int? (-2147483648) 2147483648).map Int32.ofInt

/-- A string. -/
def string? : Json → Option String
  | text value => value
  | _ => none

/-- An array of items that are all read alike. -/
def list? {α : Type} (read : Json → Option α) : Json → Option (List α)
  | array items => items.mapM read
  | _ => none

/-! ## Records -/

/-- The member of a name, if there is one; fails if there are several. -/
def member? (members : List (JsonText × Json)) (name : String) : Option (Option Json) :=
  match members.filter (·.1 == some name) with
  | [] => some none
  | [(_, value)] => some (some value)
  | _ => none

/-- The members of the given names, in their order. The names of all members must be text. -/
def membersNamed? (names : List String) (members : List (JsonText × Json)) :
    Option (List (Option Json)) :=
  if members.all (·.1.isSome) then names.mapM (member? members) else none

/-- The fields of a record, given by name or by position. -/
def fields? (names : List String) : Json → Option (List (Option Json))
  | object members => membersNamed? names members
  | array items =>
    if items.length ≤ names.length then
      some (items.map some ++ List.replicate (names.length - items.length) none)
    else
      none
  | _ => none

/-- A field that must be there. -/
def required {α : Type} (read : Json → Option α) (field : Option Json) : Option α :=
  field.bind read

/-- A field with a default. -/
def optional {α : Type} (read : Json → Option α) (default : α) : Option Json → Option α
  | some value => read value
  | none => some default

/-! ## Unknown members that are kept -/

mutual

/-- Whether a value can be kept as it is: its strings are text, its numbers have values, and it nests
at most `depth` arrays and objects. -/
def isKeepable (depth : Nat) : Json → Bool
  | null | bool _ => true
  | number value => value != .unreadable
  | text value => value.isSome
  | array items => 0 < depth && areItemsKeepable (depth - 1) items
  | object members => 0 < depth && areMembersKeepable (depth - 1) members

/-- Whether all items can be kept. -/
def areItemsKeepable (depth : Nat) : List Json → Bool
  | [] => true
  | item :: rest => item.isKeepable depth && areItemsKeepable depth rest

/-- Whether all members can be kept. -/
def areMembersKeepable (depth : Nat) : List (JsonText × Json) → Bool
  | [] => true
  | (name, value) :: rest =>
    name.isSome && value.isKeepable depth && areMembersKeepable depth rest

end

/-! ## Writing -/

/-- A natural number. -/
def ofNat (n : Nat) : Json :=
  number (.integer n)

/-- An integer. -/
def ofInt (n : Int) : Json :=
  number (.integer n)

/-- A string. -/
def ofString (s : String) : Json :=
  text (some s)

/-- A list. -/
def ofList {α : Type} (write : α → Json) (items : List α) : Json :=
  array (items.map write)

/-- An object with the given names. -/
def record (members : List (String × Json)) : Json :=
  object (members.map fun (name, value) => (some name, value))

end Json

end Munch
