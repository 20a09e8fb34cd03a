-- SUMMARY: The end of a steady source is for good: a buffer that has met it meets it again, and needs no more memory for that.
import Munch.Proofs.Buffer.Carried
import Munch.Proofs.Buffer.Congruence
import Munch.Proofs.Buffer.Steady

/-! # Drained buffers

A read that finds no byte has still reserved room for one, and asked the source. On a steady source the
next read does the same again: the room is there already and the source answers as before. -/

namespace Munch

/-! ## Sources stay steady -/

theorem steadyChunks_fetch (count : Nat) {chunks : List Chunk} (h : steadyChunks chunks = true) :
    steadyChunks (fetchChunks count chunks).rest = true := by
  fun_induction fetchChunks count chunks with
  | case1 => rfl
  | case2 rest ih => exact ih h
  | case3 b bs rest => exact h
  | case4 rest =>
    rw [steadyChunks, Bool.and_eq_true] at h
    exact h.2
  | case5 rest ih => exact ih h
  | case6 text rest => cases h

namespace Buffer

/-- The source is steady if it was before. -/
def StaysSteady (b b' : Buffer) : Prop :=
  b.source.steady = true → b'.source.steady = true

instance : Carried StaysSteady where
  refl _ := id
  trans h h' := h' ∘ h
  hold _ _ _ _ := id
  reserve minimum b := by
    obtain ⟨capacity, -, h⟩ := reserve_final minimum b
    rw [h]
    exact id
  fetch count b h := by
    rw [fetch_final]
    exact steadyChunks_fetch count h

/-! ## Ends of the input -/

/-- How much room a refill asks for. -/
def request (b : Buffer) : Nat :=
  if b.settings.interactive then b.filled + 2 else b.filled + b.settings.blockSize + 1

/-- No byte is pending, and none will be. -/
structure Ended (b : Buffer) : Prop where
  ahead_eq : b.ahead = []
  source_eq : b.source.bytes = []
  steady : b.Steady

/-- The input has ended, and there is room to find that out once more. -/
structure Dry (b : Buffer) : Prop extends Ended b where
  room : b.request ≤ b.capacity

variable {b b' : Buffer}

/-- A steady source without bytes delivers none. -/
theorem fetch_of_ended {count : Nat} (hcount : 0 < count) (hsteady : b.source.steady = true)
    (hbytes : b.source.bytes = []) : ∃ source reads, source.steady = true ∧ source.bytes = [] ∧
      ∀ capacity, fetch count { b with capacity } = .ok [] { b with capacity, source, reads } := by
  obtain ⟨got, hout, hrest, -⟩ := fetchChunks_of_steady hcount hsteady
  have hall := fetchChunks_bytes count b.source.chunks
  rw [show (Source.mk b.source.chunks).bytes = [] from hbytes, List.append_eq_nil_iff] at hall
  have hdelivered := hall.1
  obtain rfl : got = [] := by rwa [Fetch.delivered, hout] at hdelivered
  refine ⟨⟨(fetchChunks count b.source.chunks).rest⟩,
    b.reads + (fetchChunks count b.source.chunks).calls, hrest, hall.2, fun capacity => ?_⟩
  simp only [fetch, hout, receive, append, hdelivered, List.append_nil, List.length_nil,
    List.drop_zero, Nat.add_zero]

/-- A refill at the end of the input reserves room, and nothing else that matters. -/
theorem refill_of_ended (h : b.Ended) : ∃ source reads, source.steady = true ∧ source.bytes = [] ∧
    refill b = (do reserve b.request; modify fun b => { b with source, reads } : BufferM Unit) b := by
  have hreserve (minimum : Nat) {source : Source} {reads count : Nat} {α : Type}
      {f : List UInt8 → α} (hfetch : ∀ capacity, fetch count { b with capacity } =
        .ok [] { b with capacity, source, reads }) :
      (do reserve minimum; return f (← fetch count) : BufferM α) b =
        (do reserve minimum; modify fun b => { b with source, reads }; return f [] :
          BufferM α) b := by
    simp only [Bind.bind, EStateM.bind]
    cases hrun : reserve minimum b with
    | error e b₁ => rfl
    | ok u b₁ =>
      obtain ⟨capacity, rfl⟩ := ((reserve_ends minimum b).ok hrun).eq
      simp only [hfetch]
      rfl
  rw [refill_eq]
  unfold request
  split
  · obtain ⟨source, reads, hsteady, hbytes, hfetch⟩ :=
      fetch_of_ended Nat.one_pos h.steady.source h.source_eq
    refine ⟨source, reads, hsteady, hbytes, ?_⟩
    have hbyte : refillByte b = _ := hreserve (b.filled + 2) (f := List.head?) hfetch
    rw [refillLine_eq]
    simp only [Bind.bind, EStateM.bind] at hbyte ⊢
    rw [hbyte]
    cases reserve (b.filled + 2) b <;> rfl
  · obtain ⟨source, reads, hsteady, hbytes, hfetch⟩ :=
      fetch_of_ended h.steady.block h.steady.source h.source_eq
    refine ⟨source, reads, hsteady, hbytes, ?_⟩
    have hblock : refillBlock b = _ :=
      hreserve (b.filled + b.settings.blockSize + 1) (f := fun _ => ()) hfetch
    rw [hblock]
    simp only [Bind.bind, EStateM.bind]
    cases reserve (b.filled + b.settings.blockSize + 1) b <;> rfl

/-- A read that finds no byte leaves a dry buffer. -/
theorem dry_of_readByte (hb : b.Steady) (h : readByte b = .ok none b') : b'.Dry := by
  have hread := readByte_wp hb
  rw [wp, h] at hread
  have hpending : b.pending = [] := List.head?_eq_none_iff.1 hread.1.symm
  rw [pending, List.append_eq_nil_iff] at hpending
  have hended : b.Ended := ⟨hpending.1, hpending.2, hb⟩
  obtain ⟨source, reads, hsteady, hbytes, hrefill⟩ := refill_of_ended hended
  rw [readByte_of_nil hended.ahead_eq] at h
  simp only [bind_eq_ok_iff, hrefill, modify_apply] at h
  obtain ⟨_, b₂, ⟨_, b₁, hreserve, hmodify⟩, hpass⟩ := h
  have hreserved := (reserve_ends b.request b).ok hreserve
  obtain ⟨capacity, rfl⟩ := hreserved.eq
  obtain rfl := (EStateM.Result.ok.inj hmodify).2
  have hstay : pass { b with capacity, source, reads } =
      .ok none { b with capacity, source, reads } := by
    simp only [pass, hended.ahead_eq]
  obtain rfl := (EStateM.Result.ok.inj (hstay.symm.trans hpass)).2
  exact ⟨⟨hended.ahead_eq, hbytes, hsteady, hb.block⟩, hreserved.minimum_le⟩

namespace Dry

/-- A read of a dry buffer finds no byte and leaves a dry buffer. -/
theorem readByte (h : b.Dry) : ∃ b', readByte b = .ok none b' ∧ b'.Dry ∧ b'.cursor = b.cursor := by
  obtain ⟨source, reads, hsteady, hbytes, hrefill⟩ := refill_of_ended h.toEnded
  have hreserve : reserve b.request b = .ok () b := by rw [reserve, if_pos h.room]
  refine ⟨{ b with source, reads }, ?_, ⟨⟨h.ahead_eq, hbytes, hsteady, h.steady.block⟩, h.room⟩, rfl⟩
  rw [readByte_of_nil h.ahead_eq, bind_of_ok (hrefill.trans (bind_of_ok hreserve))]
  simp only [pass, h.ahead_eq]

/-- Dropping bytes leaves more room. -/
theorem trim (h : b.Dry) (keepFrom : Nat) : (b.trim keepFrom).2.Dry := by
  have hfilled := (b.cursor_trim keepFrom).2
  have hroom := h.room
  unfold request at hroom
  obtain ⟨stale, htrim⟩ := b.trim_eq keepFrom
  rw [htrim] at hfilled ⊢
  refine ⟨⟨h.ahead_eq, h.source_eq, h.steady.source, h.steady.block⟩, ?_⟩
  unfold request
  dsimp only at hfilled hroom ⊢
  split at hroom
  · rename_i hinteractive
    rw [if_pos hinteractive]
    omega
  · rename_i hblock
    rw [if_neg hblock]
    omega

end Dry

end Buffer

end Munch
