-- SUMMARY: Relations that are carried over by all that a scanner does to a buffer.
import Munch.Proofs.Buffer.Room

/-! # Carried relations

A buffer is touched in few ways: it is asked for room, it reads from its source, and bytes are moved
between what was passed, what is ahead and what is left behind. A relation that these carry over holds
across every read and every move, whether it succeeds or fails. -/

namespace Munch

/-- A step that is taken on a condition, and what follows in any case. -/
theorem Across.whenThen {ε σ β : Type} {R : σ → σ → Prop} [History R] {c : Prop} [Decidable c]
    {m : EStateM ε σ PUnit} {f : PUnit → EStateM ε σ β} (hm : Across R m) (hf : Across R (f ⟨⟩)) :
    Across R (if c then m >>= f else f ⟨⟩) := by
  split
  · exact bind hm fun _ => hf
  · exact hf

/-- The relation is carried over by all that a scanner does to a buffer over its source. -/
class Buffer.Carried (R : Buffer → Buffer → Prop) : Prop extends History R where
  hold (b : Buffer) (passed : Array UInt8) (ahead stale : List UInt8) :
    R b { b with passed, ahead, stale }
  reserve (minimum : Nat) : Across R (reserve minimum)
  fetch (count : Nat) : Across R (fetch count)

namespace Buffer

variable (R : Buffer → Buffer → Prop) [Carried R]

/-! ## Moves -/

theorem unread_carried (b : Buffer) : R b b.unread := by
  unfold unread
  split
  · exact Carried.hold b _ _ _
  · exact History.refl b

theorem seek_carried (b : Buffer) (offset : Nat) : R b (b.seek offset) := by
  unfold seek
  split <;> exact Carried.hold b _ _ _

theorem trim_carried (b : Buffer) (keepFrom : Nat) : R b (b.trim keepFrom).2 := by
  obtain ⟨stale, h⟩ := b.trim_eq keepFrom
  rw [h]
  exact Carried.hold b _ _ _

theorem poke_carried (b : Buffer) (offset : Nat) (byte : UInt8) : R b (b.poke offset byte) := by
  unfold poke
  split
  · exact Carried.hold b _ _ _
  · split <;> exact Carried.hold b _ _ _

/-! ## Reads -/

theorem refillByte_carried : Across R refillByte :=
  .bind .get fun _ => .bind (Carried.reserve _) fun _ => .bind (Carried.fetch _) fun _ => .pure _

theorem refillBlock_carried : Across R refillBlock :=
  .bind .get fun _ => .bind (Carried.reserve _) fun _ => .bind (Carried.fetch _) fun _ => .pure _

theorem refillLine_carried : Across R refillLine := by
  have hbyte := refillByte_carried R
  intro b
  unfold final
  fun_induction refillLine b with
  | case1 b _ b' h => exact final_of_ok h ▸ hbyte b
  | case2 b _ byte b' h _ ih => exact History.trans (final_of_ok h ▸ hbyte b) ih
  | case3 b _ b' h => exact final_of_ok h ▸ hbyte b
  | case4 b _ e b' h => exact final_of_error h ▸ hbyte b

theorem pass_carried : Across R pass := by
  intro b
  cases h : b.ahead with
  | nil =>
    rw [show final pass b = b by simp only [final, pass, h]]
    exact History.refl b
  | cons byte rest =>
    rw [show final pass b = { b with passed := b.passed.push byte, ahead := rest } by
      simp only [final, pass, h]]
    exact Carried.hold b _ _ _

theorem readByte_carried : Across R readByte := by
  refine .bind .get fun b => .whenThen (.bind .get fun b => ?_) (pass_carried R)
  split
  · exact refillLine_carried R
  · exact refillBlock_carried R

theorem insert_carried (byte : UInt8) : Across R (insert byte) :=
  .bind .get fun _ => .bind (Carried.reserve _) fun _ => .modify fun b => Carried.hold b _ _ _

end Buffer

end Munch
