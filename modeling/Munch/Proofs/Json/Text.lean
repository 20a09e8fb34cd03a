-- SUMMARY: The texts of a JSON value, in any spelling and layout, and the reader that gets the value back from each of them.
import Munch.Json.Reader
import Munch.Proofs.Json.Token

/-! # Texts of JSON values

A value determines its tokens, and a text of the value spells these tokens. The reader takes the
tokens of a value, wherever the value stands, to the state behind it. -/

namespace Munch

namespace Json

/-! ## Tokens of values -/

mutual

/-- The tokens of a value. -/
def tokens : Json → List JsonToken
  | null => [.null]
  | bool value => [.bool value]
  | number value => [.number value]
  | text value => [.text value]
  | array items => .arrayOpen :: itemTokens items
  | object members => .objectOpen :: memberTokens members

/-- The tokens of the items of an array, and its end. -/
def itemTokens : List Json → List JsonToken
  | [] => [.arrayClose]
  | item :: rest => item.tokens ++ moreItemTokens rest

/-- The tokens of items behind another one, and the end of the array. -/
def moreItemTokens : List Json → List JsonToken
  | [] => [.arrayClose]
  | item :: rest => .comma :: (item.tokens ++ moreItemTokens rest)

/-- The tokens of the members of an object, and its end. -/
def memberTokens : List (JsonText × Json) → List JsonToken
  | [] => [.objectClose]
  | (name, value) :: rest => .text name :: .colon :: (value.tokens ++ moreMemberTokens rest)

/-- The tokens of members behind another one, and the end of the object. -/
def moreMemberTokens : List (JsonText × Json) → List JsonToken
  | [] => [.objectClose]
  | (name, value) :: rest =>
    .comma :: .text name :: .colon :: (value.tokens ++ moreMemberTokens rest)

end

/-- A text of a value: its tokens, each in any spelling, with blanks anywhere around them. -/
def IsText (j : Json) (bytes : List UInt8) : Prop :=
  JsonToken.Spelled j.tokens bytes

/-! ## Numbers among the tokens -/

/-- Tokens in which no two numbers stand side by side, also not behind another one. -/
def Separate (ts : List JsonToken) : Prop :=
  ts.IsChain JsonToken.Apart ∧ ∀ t ∈ ts.head?, t.isNumber = false

theorem Separate.cons {t : JsonToken} {ts : List JsonToken} (ht : t.isNumber = false)
    (h : ts.IsChain JsonToken.Apart) : Separate (t :: ts) :=
  ⟨List.isChain_cons.2 ⟨fun _ _ => .inl ht, h⟩, fun _ h => Option.some.inj h ▸ ht⟩

theorem Separate.behind {t : JsonToken} {ts : List JsonToken} (h : Separate ts) :
    (t :: ts).IsChain JsonToken.Apart :=
  List.isChain_cons.2 ⟨fun t' hmem => .inr (h.2 t' hmem), h.1⟩

mutual

theorem tokens_apart (j : Json) {rest : List JsonToken} (h : Separate rest) :
    (j.tokens ++ rest).IsChain JsonToken.Apart := by
  cases j with
  | array items => exact (Separate.cons rfl (itemTokens_apart items h)).1
  | object members => exact (Separate.cons rfl (memberTokens_apart members h)).1
  | _ => exact h.behind

theorem itemTokens_apart (items : List Json) {rest : List JsonToken} (h : Separate rest) :
    (itemTokens items ++ rest).IsChain JsonToken.Apart := by
  cases items with
  | nil => exact h.behind
  | cons item items =>
    rw [itemTokens, List.append_assoc]
    exact tokens_apart item (moreItemTokens_separate items h)

theorem moreItemTokens_separate (items : List Json) {rest : List JsonToken} (h : Separate rest) :
    Separate (moreItemTokens items ++ rest) := by
  cases items with
  | nil => exact .cons rfl h.1
  | cons item items =>
    rw [moreItemTokens, List.cons_append, List.append_assoc]
    exact .cons rfl (tokens_apart item (moreItemTokens_separate items h))

theorem memberTokens_apart (members : List (JsonText × Json)) {rest : List JsonToken}
    (h : Separate rest) : (memberTokens members ++ rest).IsChain JsonToken.Apart := by
  match members with
  | [] => exact h.behind
  | (name, value) :: members =>
    rw [memberTokens, List.cons_append, List.cons_append, List.append_assoc]
    have hrest := tokens_apart value (moreMemberTokens_separate members h)
    exact (Separate.cons rfl (Separate.cons rfl hrest).1).1

theorem moreMemberTokens_separate (members : List (JsonText × Json)) {rest : List JsonToken}
    (h : Separate rest) : Separate (moreMemberTokens members ++ rest) := by
  match members with
  | [] => exact .cons rfl h.1
  | (name, value) :: members =>
    rw [moreMemberTokens, List.cons_append, List.cons_append, List.cons_append, List.append_assoc]
    have hrest := tokens_apart value (moreMemberTokens_separate members h)
    exact .cons rfl (Separate.cons rfl (Separate.cons rfl hrest).1).1

end

end Json

/-! ## Reading tokens -/

namespace JsonReader

theorem run_cons {reader : JsonReader} {t : JsonToken} (ht : t ≠ .stop) (rest : List JsonToken) :
    reader.run (t :: rest) = (reader.step t).bind (·.run rest) := by
  rw [run]
  rintro v rfl rfl
  exact ht rfl

/-- The first item of an array is read as any value. -/
theorem run_firstItem (j : Json) (stack : List JsonFrame) (rest : List JsonToken) :
    (firstItem stack).run (j.tokens ++ rest) = (value (.array [] :: stack)).run (j.tokens ++ rest) := by
  obtain ⟨t, ts, htokens, hclose, hstop⟩ :
      ∃ t ts, j.tokens = t :: ts ∧ t ≠ .arrayClose ∧ t ≠ .stop := by
    cases j <;> exact ⟨_, _, rfl, JsonToken.noConfusion, JsonToken.noConfusion⟩
  have hstep : (firstItem stack).step t = (value (.array [] :: stack)).step t := by
    cases t with
    | arrayClose => exact absurd rfl hclose
    | _ => rfl
  rw [htokens, List.cons_append, run_cons hstop, run_cons hstop, hstep]

mutual

/-- The tokens of a value lead behind it. -/
theorem run_tokens (j : Json) (stack : List JsonFrame) (rest : List JsonToken) :
    (value stack).run (j.tokens ++ rest) = (after j stack).run rest := by
  cases j with
  | array items => exact run_itemTokens items stack rest
  | object members => exact run_memberTokens members stack rest
  | _ => rfl

theorem run_itemTokens (items : List Json) (stack : List JsonFrame) (rest : List JsonToken) :
    (firstItem stack).run (Json.itemTokens items ++ rest) = (after (.array items) stack).run rest := by
  cases items with
  | nil => rfl
  | cons item items =>
    rw [Json.itemTokens, List.append_assoc, run_firstItem, run_tokens item,
      run_moreItemTokens items]
    rfl

theorem run_moreItemTokens (items done : List Json) (v : Json) (stack : List JsonFrame)
    (rest : List JsonToken) :
    (after v (.array done :: stack)).run (Json.moreItemTokens items ++ rest) =
      (after (.array ((v :: done).reverse ++ items)) stack).run rest := by
  cases items with
  | nil =>
    rw [List.append_nil]
    rfl
  | cons item items =>
    rw [Json.moreItemTokens, List.cons_append, List.append_assoc, run_cons JsonToken.noConfusion]
    change (value (.array (v :: done) :: stack)).run _ = _
    rw [run_tokens item, run_moreItemTokens items, List.reverse_cons, List.append_assoc]
    rfl

theorem run_memberTokens (members : List (JsonText × Json)) (stack : List JsonFrame)
    (rest : List JsonToken) : (firstName stack).run (Json.memberTokens members ++ rest) =
      (after (.object members) stack).run rest := by
  match members with
  | [] => rfl
  | (n, v) :: members =>
    rw [Json.memberTokens, List.cons_append, List.cons_append, List.append_assoc]
    change (value (.object [] n :: stack)).run _ = _
    rw [run_tokens v, run_moreMemberTokens members]
    rfl

theorem run_moreMemberTokens (members done : List (JsonText × Json)) (n : JsonText) (v : Json)
    (stack : List JsonFrame) (rest : List JsonToken) :
    (after v (.object done n :: stack)).run (Json.moreMemberTokens members ++ rest) =
      (after (.object (((n, v) :: done).reverse ++ members)) stack).run rest := by
  match members with
  | [] =>
    rw [List.append_nil]
    rfl
  | (n', v') :: members =>
    rw [Json.moreMemberTokens, List.cons_append, List.cons_append, List.cons_append,
      List.append_assoc, run_cons JsonToken.noConfusion]
    change (value (.object ((n, v) :: done) n' :: stack)).run _ = _
    rw [run_tokens v', run_moreMemberTokens members, List.reverse_cons, List.append_assoc]
    rfl

end

end JsonReader

end Munch
