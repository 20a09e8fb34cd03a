-- SUMMARY: What a match attempt leaves behind: the stream, and after a failed attempt the same cursor with a byte ahead of it.
import Munch.Match.Longest

/-! # Attempts lose no input

Whatever the outcome, an attempt only reads and moves the cursor. If no rule matches, the cursor is
where it was and at least one byte is ahead of it, so the byte can be skipped. -/

namespace Munch

open Buffer

namespace Tables

/-! ## The stream is kept -/

theorem liftFault_extends {α : Type} (r : Except TableFault α) :
    Across Extends (liftFault r : BufferM α) := by
  intro b
  cases r <;> exact .refl b

theorem bestSplit_extends (t : Tables) (entry : State) (rule : Rule) (trailing : State)
    (start : Nat) : Across Extends (t.bestSplit entry rule trailing start) :=
  .bind (.modify fun b => seek_extends b start) fun _ =>
    .bind (feed_extends _ _ _) fun _ =>
      .bind (.modify fun b => seek_extends b start) fun _ => .pure _

theorem consider_extends (t : Tables) (start : Nat) (entry : State) (stop : Nat)
    (sel : Selection) (rule : Rule) : Across Extends (t.consider start entry stop sel rule) := by
  refine .bind (liftFault_extends _) fun trailing => ?_
  cases trailing with
  | none => exact .pure _
  | some trailing =>
    cases h : sel.splits.lookup rule with
    | some split => simpa [h] using .pure _
    | none => simpa [h] using .bind (bestSplit_extends _ _ _ _ _) fun _ => .pure _

theorem chooseWinner_extends (t : Tables) (start : Nat) (tracks : List Track) :
    Across Extends (t.chooseWinner start tracks) := by
  refine .foldlM (fun best track => ?_) tracks none
  refine .bind (.foldlM (fun sel point => ?_) _ _) fun _ => .pure _
  exact .bind (liftFault_extends _) fun rules =>
    .foldlM (fun sel rule => consider_extends _ _ _ _ _ _) rules sel

theorem leaveLastByte_extends (tracks : List Track) : Across Extends (leaveLastByte tracks) := by
  refine .modify fun b => ?_
  split
  · exact .refl b
  · exact unread_extends b

theorem settle_extends (start : Nat) (winner : Option Candidate) :
    Across Extends (settle start winner) := by
  cases winner <;> exact .bind (.modify fun b => seek_extends b _) fun _ => .pure _

theorem longestMatch_extends (t : Tables) (sc : StartCondition) (atLineStart : Bool) :
    Across Extends (t.longestMatch sc atLineStart) := by
  refine .bind (liftFault_extends _) fun tracks => .bind .get fun b => ?_
  refine .bind (feed_extends _ _ _) fun tracks => .bind .get fun b' => ?_
  by_cases h : b'.cursor = b.cursor
  · simpa [h] using .pure _
  · simpa [h] using .bind (leaveLastByte_extends _) fun _ =>
      .bind (chooseWinner_extends _ _ _) fun _ => settle_extends _ _

/-! ## A failed attempt -/

/-- If no rule matches, what can be read is what could be read before, and it is not nothing. -/
theorem longestMatch_noMatch {t : Tables} {sc : StartCondition} {atLineStart : Bool} {b b' : Buffer}
    (h : t.longestMatch sc atLineStart b = .ok .noMatch b') :
    b'.remaining = b.remaining ∧ b'.ahead ≠ [] := by
  simp only [longestMatch, bind_eq_ok_iff, get_apply, liftFault_eq_ok_iff,
    EStateM.Result.ok.injEq] at h
  obtain ⟨tracks, b₀, ⟨-, rfl⟩, _, _, ⟨rfl, rfl⟩, tracks', b₁, hfeed, _, _, ⟨rfl, rfl⟩, h⟩ := h
  split at h
  · simp [pure_apply] at h
  · rename_i hmoved
    simp only [bind_eq_ok_iff] at h
    obtain ⟨_, b₂, hleave, winner, b₃, hsel, h⟩ := h
    have h₁ : Extends b b₁ := final_of_ok hfeed ▸ feed_extends _ _ _ b
    have h₂ : Extends b₁ b₂ := final_of_ok hleave ▸ leaveLastByte_extends _ b₁
    have h₃ : Extends b₂ b₃ := final_of_ok hsel ▸ chooseWinner_extends _ _ _ b₂
    have hon : b.cursor ≤ b₁.cursor := final_of_ok hfeed ▸ feed_onward _ _ _ b
    have hfilled : b.cursor < b₃.filled := by
      have := h₂.filled_le
      have := h₃.filled_le
      have : b₁.cursor ≤ b₁.filled := by simp [cursor, filled]
      omega
    cases winner with
    | some w => simp only [settle, bind_eq_ok_iff, pure_apply, EStateM.Result.ok.injEq, reduceCtorEq,
        false_and, and_false, exists_false] at h
    | none =>
      simp only [settle, bind_eq_ok_iff, modify_apply, pure_apply, EStateM.Result.ok.injEq] at h
      obtain ⟨_, _, ⟨-, rfl⟩, -, rfl⟩ := h
      have hcursor : (b₃.seek b.cursor).cursor = b.cursor := by
        rw [cursor_seek]
        omega
      have hall := (((h₁.trans h₂).trans h₃).trans (seek_extends b₃ b.cursor)).cursor_add_remaining_eq
      refine ⟨by omega, fun hnil => ?_⟩
      have : (b₃.seek b.cursor).filled = (b₃.seek b.cursor).cursor := by
        rw [filled_eq, hnil, List.length_nil, Nat.add_zero]
      have := filled_seek b₃ b.cursor
      omega

end Tables

end Munch
