-- SUMMARY: Terminators on buffers: covering the byte at the cursor and putting it back.
import Munch.Buffer.Basic

/-! # Covering

A terminator stands at the cursor. Putting it there and taking it away changes neither what the buffer
has passed nor how much it holds, and in the end not a byte of it. -/

namespace Munch

namespace Buffer

/-- Overwriting the slot at the cursor changes the next byte, or only a slot that is not held. -/
theorem poke_cursor_eq (b : Buffer) (byte : UInt8) :
    ∃ stale, b.poke b.cursor byte = { b with ahead := b.ahead.set 0 byte, stale } := by
  unfold poke
  cases hahead : b.ahead with
  | nil => exact ⟨byte :: b.stale.tail, by simp [filled_eq, hahead]⟩
  | cons first rest => exact ⟨b.stale, by simp [filled_eq, hahead]⟩

/-- Behind the passed bytes a slot is overwritten without changing those. -/
theorem poke_cursor (b : Buffer) (byte : UInt8) : (b.poke b.cursor byte).passed = b.passed ∧
    (b.poke b.cursor byte).source = b.source ∧ (b.poke b.cursor byte).settings = b.settings ∧
    (b.poke b.cursor byte).capacity = b.capacity ∧
    (b.poke b.cursor byte).ahead = b.ahead.set 0 byte := by
  obtain ⟨stale, h⟩ := b.poke_cursor_eq byte
  simp only [h, and_self]

/-- What was put into a slot stands there. -/
theorem slot_poke_cursor (b : Buffer) (byte : UInt8) :
    (b.poke b.cursor byte).slot b.cursor = byte := by
  cases hahead : b.ahead with
  | nil => simp [poke, slot, byteAt?, filled_eq, hahead, cursor]
  | cons first rest => simp [poke, slot, byteAt?, filled_eq, hahead, cursor]

/-- The slot at the cursor, put back. -/
theorem set_slot_cursor (b : Buffer) (byte : UInt8) :
    (b.ahead.set 0 byte).set 0 (b.slot b.cursor) = b.ahead := by
  cases hahead : b.ahead with
  | nil => rfl
  | cons first rest =>
    have hslot : b.slot b.cursor = first := by
      unfold slot byteAt?
      rw [if_neg (Nat.lt_irrefl _), Nat.sub_self, hahead]
      rfl
    rw [hslot]
    rfl

/-- Two buffers that differ at most in what the slots behind the last byte hold. -/
def Alike (b b' : Buffer) : Prop :=
  ∃ stale, b' = { b with stale }

namespace Alike

variable {b b' : Buffer}

theorem passed_eq (h : b.Alike b') : b'.passed = b.passed := by
  obtain ⟨stale, rfl⟩ := h
  rfl

theorem ahead_eq (h : b.Alike b') : b'.ahead = b.ahead := by
  obtain ⟨stale, rfl⟩ := h
  rfl

theorem source_eq (h : b.Alike b') : b'.source = b.source := by
  obtain ⟨stale, rfl⟩ := h
  rfl

theorem settings_eq (h : b.Alike b') : b'.settings = b.settings := by
  obtain ⟨stale, rfl⟩ := h
  rfl

end Alike

theorem cover_cursor (b : Buffer) : (b.cover b.cursor).2.passed = b.passed ∧
    ((b.cover b.cursor).1 = none → b.Alike (b.cover b.cursor).2) ∧
    ∀ h, (b.cover b.cursor).1 = some h → h.offset = b.cursor ∧
      b.Alike ((b.cover b.cursor).2.uncover h) := by
  have hsame : b.Alike b := ⟨b.stale, rfl⟩
  unfold cover
  cases b.settings.terminator with
  | none => exact ⟨rfl, fun _ => hsame, fun h hh => nomatch hh⟩
  | some terminator =>
    dsimp only
    split
    · rename_i hroom
      obtain ⟨stale, hpoke⟩ := b.poke_cursor_eq terminator
      rw [hpoke]
      refine ⟨rfl, (fun hnone => nomatch hnone), fun h hh => ?_⟩
      obtain rfl := Option.some.inj hh
      obtain ⟨stale', hback⟩ :=
        { b with ahead := b.ahead.set 0 terminator, stale }.poke_cursor_eq (b.slot b.cursor)
      refine ⟨rfl, stale', ?_⟩
      rw [uncover, if_pos hroom]
      refine hback.trans ?_
      rw [set_slot_cursor]
    · exact ⟨rfl, fun _ => hsame, fun h hh => nomatch hh⟩

end Buffer

end Munch
