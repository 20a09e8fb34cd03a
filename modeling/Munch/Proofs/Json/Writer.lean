-- SUMMARY: What is written for a JSON value is a text of it.
import Munch.Json.Writer
import Munch.Proofs.Json.Text

/-! # Written values

The writer picks one of the spellings of each token, with no blanks between them. Strings must be
Unicode text, and numbers integers whose digits fit a word; all others have no spelling. -/

namespace Munch

/-- The bytes of a string. -/
def utf8 (s : String) : List UInt8 :=
  s.toUTF8.data.toList

@[simp] theorem utf8_append (s s' : String) : utf8 (s ++ s') = utf8 s ++ utf8 s' := by
  simp only [utf8, String.toUTF8_eq_toByteArray, String.toByteArray_append, ByteArray.data_append,
    Array.toList_append]

theorem utf8_ofList (cs : List Char) :
    utf8 (String.ofList cs) = cs.flatMap String.utf8EncodeChar := by
  rw [utf8, String.toUTF8_eq_toByteArray, String.toByteArray_ofList, List.utf8Encode,
    List.data_toByteArray]

/-! ## Numbers -/

theorem utf8EncodeChar_digitChar :
    ∀ d < 10, String.utf8EncodeChar d.digitChar = [UInt8.ofNat (48 + d)] := by
  decide

theorem decimal_toDigits {n : Nat} (hpos : 0 < n) :
    Decimal n ((Nat.toDigits 10 n).flatMap String.utf8EncodeChar) := by
  induction n using Nat.strongRecOn with
  | ind n ih =>
    by_cases hn : n < 10
    · rw [Nat.toDigits_of_lt_base hn, List.flatMap_singleton, utf8EncodeChar_digitChar n hn]
      exact .digit hpos hn
    · have hle : 10 ≤ n := Nat.not_lt.1 hn
      have hdigit : n % 10 < 10 := Nat.mod_lt n (by decide)
      rw [Nat.toDigits_of_base_le (by decide) hle, List.flatMap_append, List.flatMap_singleton,
        utf8EncodeChar_digitChar _ hdigit]
      have hmore := Decimal.more (ih (n / 10) (by omega) (by omega)) hdigit
      rwa [Nat.mul_comm, Nat.div_add_mod] at hmore

theorem spellsInteger_toString {n : Int} (h : n.natAbs < UInt64.size) :
    SpellsInteger n (utf8 (toString n)) := by
  have hrepr (n : Nat) : utf8 n.repr = (Nat.toDigits 10 n).flatMap String.utf8EncodeChar := by
    rw [Nat.repr_eq_ofList_toDigits, utf8_ofList]
  cases n with
  | ofNat n =>
    change SpellsInteger n (utf8 n.repr)
    rw [hrepr]
    cases n with
    | zero => exact .zero
    | succ n => exact .positive (decimal_toDigits (Nat.succ_pos n)) h
  | negSucc n =>
    change SpellsInteger (-(n + 1 : Nat)) (utf8 ("-" ++ (n + 1).repr))
    rw [utf8_append, hrepr]
    exact .negative (decimal_toDigits (Nat.succ_pos n)) h

/-! ## Strings -/

theorem hexValue?_hexDigit : ∀ d < 16, ∃ b,
    String.utf8EncodeChar (Json.hexDigit d) = [b] ∧ hexValue? b = some d := by
  have hdigits : ∀ d < 16, String.utf8EncodeChar (Json.hexDigit d) =
      [UInt8.ofNat (if d < 10 then 48 + d else 87 + d)] ∧
        hexValue? (UInt8.ofNat (if d < 10 then 48 + d else 87 + d)) = some d := by
    decide
  exact fun d hd => ⟨_, hdigits d hd⟩

theorem spellsChar_escape (c : Char) :
    SpellsChar c ((Json.escape c).flatMap String.utf8EncodeChar) := by
  unfold Json.escape
  split
  · rename_i h
    simp only [Bool.or_eq_true, decide_eq_true_eq] at h
    rcases h with rfl | rfl <;> exact .letter (by decide)
  · rename_i hquote
    split
    · rename_i hcontrol
      obtain ⟨a, ha, hva⟩ := hexValue?_hexDigit (c.toNat / 16) (by omega)
      obtain ⟨b, hb, hvb⟩ := hexValue?_hexDigit (c.toNat % 16) (by omega)
      have hunit : SpellsUnit c.toNat [92, 117, 48, 48, a, b] := by
        have hzero : hexValue? 48 = some 0 := rfl
        have hdigits := SpellsUnit.digits hzero hzero hva hvb
        rwa [show ((0 * 16 + 0) * 16 + c.toNat / 16) * 16 + c.toNat % 16 = c.toNat by omega]
          at hdigits
      simp only [List.flatMap_cons, List.flatMap_nil, ha, hb]
      exact .unit hunit
    · rename_i hcontrol
      rw [List.flatMap_singleton]
      simp only [Bool.or_eq_true, decide_eq_true_eq, not_or] at hquote
      exact .plain (Nat.not_lt.1 hcontrol) hquote.1 hquote.2

theorem spellsChars_escape (cs : List Char) :
    SpellsChars cs ((cs.flatMap Json.escape).flatMap String.utf8EncodeChar) := by
  induction cs with
  | nil => exact .nil
  | cons c cs ih =>
    rw [List.flatMap_cons, List.flatMap_append]
    exact .cons (spellsChar_escape c) ih

theorem spells_writeText (s : String) :
    (JsonToken.text (some s)).Spells (utf8 (Json.writeText (some s))) := by
  have hchars : utf8 (String.ofList (s.toList.flatMap Json.escape)) =
      (s.toList.flatMap Json.escape).flatMap String.utf8EncodeChar := utf8_ofList _
  rw [Json.writeText, utf8_append, utf8_append, hchars]
  exact .text (spellsChars_escape s.toList)

namespace JsonToken.Spelled

theorem append {ts ts' : List JsonToken} {bytes bytes' : List UInt8} (h : Spelled ts bytes)
    (h' : Spelled ts' bytes') : Spelled (ts ++ ts') (bytes ++ bytes') := by
  induction h with
  | nil => exact h'
  | blank hb _ ih => exact .blank hb ih
  | cons hspells _ ih =>
    rw [List.append_assoc]
    exact .cons hspells ih

theorem singleton {t : JsonToken} {bytes : List UInt8} (h : t.Spells bytes) : Spelled [t] bytes :=
  List.append_nil bytes ▸ .cons h .nil

end JsonToken.Spelled

/-! ## Values -/

namespace Json

mutual

/-- Whether a value has a text: its strings are text, and its numbers are integers that fit. -/
def IsWritable : Json → Prop
  | null | bool _ => True
  | number (.integer n) => n.natAbs < UInt64.size
  | number _ => False
  | text s => s.isSome
  | array items => AreItemsWritable items
  | object members => AreMembersWritable members

def AreItemsWritable : List Json → Prop
  | [] => True
  | item :: rest => item.IsWritable ∧ AreItemsWritable rest

def AreMembersWritable : List (JsonText × Json) → Prop
  | [] => True
  | (name, value) :: rest => (name.isSome ∧ value.IsWritable) ∧ AreMembersWritable rest

end

/-- What stands behind the first of several texts that commas part. -/
theorem intercalate_cons (x : String) (xs : List String) :
    ",".intercalate (x :: xs) = x ++ String.join (xs.map ("," ++ ·)) := by
  induction xs generalizing x with
  | nil => rw [String.intercalate_singleton, List.map_nil, String.join_nil, String.append_empty]
  | cons y xs ih =>
    rw [String.intercalate_cons_cons, ih y, List.map_cons, String.join_cons]
    simp only [String.append_assoc]

mutual

theorem IsWritable.isText_write {j : Json} (h : j.IsWritable) : j.IsText (utf8 j.write) := by
  cases j with
  | null => exact .singleton .null
  | bool value =>
    cases value with
    | false => exact .singleton .false
    | true => exact .singleton .true
  | number n =>
    cases n with
    | integer n => exact .singleton (.integer (spellsInteger_toString h))
    | _ => exact h.elim
  | text s =>
    cases s with
    | none => cases h
    | some s => exact .singleton (spells_writeText s)
  | array items =>
    rw [write, String.append_assoc, utf8_append]
    exact .cons .arrayOpen (AreItemsWritable.spelled h)
  | object members =>
    rw [write, String.append_assoc, utf8_append]
    exact .cons .objectOpen (AreMembersWritable.spelled h)

theorem AreItemsWritable.spelled {items : List Json} (h : AreItemsWritable items) :
    JsonToken.Spelled (itemTokens items) (utf8 (",".intercalate (writeItems items) ++ "]")) := by
  cases items with
  | nil => exact .singleton .arrayClose
  | cons item items =>
    rw [writeItems, intercalate_cons, String.append_assoc, utf8_append]
    exact .append (IsWritable.isText_write h.1) (AreItemsWritable.spelled_more h.2)

theorem AreItemsWritable.spelled_more {items : List Json} (h : AreItemsWritable items) :
    JsonToken.Spelled (moreItemTokens items)
      (utf8 (String.join ((writeItems items).map ("," ++ ·)) ++ "]")) := by
  cases items with
  | nil => exact .singleton .arrayClose
  | cons item items =>
    rw [writeItems, List.map_cons, String.join_cons, String.append_assoc, String.append_assoc,
      utf8_append, utf8_append]
    exact .cons .comma (.append (IsWritable.isText_write h.1) (AreItemsWritable.spelled_more h.2))

theorem AreMembersWritable.spelled {members : List (JsonText × Json)}
    (h : AreMembersWritable members) : JsonToken.Spelled (memberTokens members)
      (utf8 (",".intercalate (writeMembers members) ++ "\x7d")) := by
  match members with
  | [] => exact .singleton .objectClose
  | (none, _) :: _ => cases h.1.1
  | (some name, value) :: members =>
    rw [writeMembers, intercalate_cons, String.append_assoc, String.append_assoc,
      String.append_assoc, utf8_append, utf8_append, utf8_append]
    exact .cons (spells_writeText name) (.cons .colon
      (.append (IsWritable.isText_write h.1.2) (AreMembersWritable.spelled_more h.2)))

theorem AreMembersWritable.spelled_more {members : List (JsonText × Json)}
    (h : AreMembersWritable members) : JsonToken.Spelled (moreMemberTokens members)
      (utf8 (String.join ((writeMembers members).map ("," ++ ·)) ++ "\x7d")) := by
  match members with
  | [] => exact .singleton .objectClose
  | (none, _) :: _ => cases h.1.1
  | (some name, value) :: members =>
    rw [writeMembers, List.map_cons, String.join_cons, String.append_assoc, String.append_assoc,
      String.append_assoc, String.append_assoc, utf8_append, utf8_append, utf8_append, utf8_append]
    exact .cons .comma (.cons (spells_writeText name) (.cons .colon
      (.append (IsWritable.isText_write h.1.2) (AreMembersWritable.spelled_more h.2))))

end

end Json

end Munch
