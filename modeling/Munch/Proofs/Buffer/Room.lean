-- SUMMARY: A free slot behind the last byte: every operation on a buffer keeps it, whether it succeeds or fails.
import Munch.Buffer.Read
import Munch.Proofs.Endings

/-! # Room

A buffer always has a slot free behind its last byte, and no more slots than the limit allows. Growing
comes before every byte that is added, so this also holds where growing or the source fails. Reads of
any source, steady or not, blame no table. -/

namespace Munch

namespace Buffer

/-- A slot is free behind the last byte, and the capacity is within its limit. -/
structure Roomy (b : Buffer) : Prop where
  block_pos : 0 < b.settings.blockSize
  filled_lt : b.filled < b.capacity
  capacity_le : ∀ limit ∈ b.settings.capacityLimit, b.capacity ≤ limit

/-- Buffers that hold as much have the same room. -/
theorem Roomy.congr {b b' : Buffer} (h : b.Roomy) (hsettings : b'.settings = b.settings)
    (hfilled : b'.filled = b.filled) (hcapacity : b'.capacity = b.capacity) : b'.Roomy :=
  ⟨hsettings ▸ h.block_pos, by rw [hfilled, hcapacity]; exact h.filled_lt,
    by rw [hsettings, hcapacity]; exact h.capacity_le⟩

/-! ## Growing -/

/-- Growing stays within the limit. -/
theorem le_limit_of_grown? {b : Buffer} {minimum size limit : Nat}
    (h : b.grown? minimum = some size) (hlimit : b.settings.capacityLimit = some limit) :
    size ≤ limit := by
  simp only [grown?, hlimit, Option.filter_eq_some_iff] at h
  split at h
  · obtain ⟨doubled, -, rfl⟩ := Option.map_eq_some_iff.1 h.1
    exact Nat.min_le_left _ _
  · simp at h

/-- The buffer with a capacity that is enough for some bytes, and still within its limit. -/
structure Reserved (minimum : Nat) (b b' : Buffer) : Prop where
  eq : ∃ capacity, b' = { b with capacity }
  capacity_le : b.capacity ≤ b'.capacity
  minimum_le : minimum ≤ b'.capacity
  within : ∀ limit ∈ b.settings.capacityLimit, b.capacity ≤ limit → b'.capacity ≤ limit

theorem reserve_ends (minimum : Nat) (b : Buffer) :
    ends (reserve minimum) (fun _ => Reserved minimum b)
      (fun e b' => e = .allocation minimum ∧ b' = b) b := by
  by_cases hroom : minimum ≤ b.capacity
  · have hrun : reserve minimum b = .ok () b := by simp [reserve, hroom]
    exact .of_ok hrun ⟨⟨b.capacity, rfl⟩, Nat.le_refl _, hroom, fun _ _ => id⟩
  · cases hgrown : b.grown? minimum with
    | none =>
      have hrun : reserve minimum b = .error (.allocation minimum) b := by
        simp [reserve, hroom, hgrown]
      exact .of_error hrun ⟨rfl, rfl⟩
    | some size =>
      have hrun : reserve minimum b = .ok () { b with capacity := size } := by
        simp [reserve, hroom, hgrown]
      have hsize := le_of_grown? hgrown
      refine .of_ok hrun ⟨⟨size, rfl⟩, Nat.le_trans (Nat.le_of_not_le hroom) hsize, hsize, ?_⟩
      exact fun limit hlimit _ => le_limit_of_grown? hgrown hlimit

/-- A request that is denied changes nothing. -/
theorem reserve_eq_allocation {minimum n : Nat} {b b' : Buffer}
    (h : reserve minimum b = .error (.allocation n) b') :
    n = minimum ∧ b' = b ∧ b.capacity < minimum ∧ b.grown? minimum = none := by
  unfold reserve at h
  split at h
  · cases h
  · rename_i hroom
    split at h
    · cases h
    · rename_i hgrown
      obtain ⟨he, rfl⟩ := EStateM.Result.error.inj h
      exact ⟨(ScanError.allocation.inj he).symm, rfl, Nat.lt_of_not_le hroom, hgrown⟩

/-- After growing to more than what will be held there is room for it. -/
theorem Reserved.roomy {minimum : Nat} {b b' b'' : Buffer} (h : Reserved minimum b b')
    (hb : b.Roomy) (hsettings : b''.settings = b'.settings) (hcapacity : b''.capacity = b'.capacity)
    (hfilled : b''.filled < minimum) : b''.Roomy := by
  obtain ⟨capacity, rfl⟩ := h.eq
  refine ⟨hsettings ▸ hb.block_pos, ?_, ?_⟩
  · exact hcapacity ▸ Nat.lt_of_lt_of_le hfilled h.minimum_le
  · rw [hsettings, hcapacity]
    exact fun limit hlimit => h.within limit hlimit (hb.capacity_le limit hlimit)

theorem Reserved.filled_eq {minimum : Nat} {b b' : Buffer} (h : Reserved minimum b b') :
    b'.filled = b.filled := by
  obtain ⟨capacity, rfl⟩ := h.eq
  rfl

/-! ## Refills -/

/-- A read of the source adds no more than it was asked for, and nothing if it fails. -/
theorem fetch_ends (count : Nat) (b : Buffer) :
    ends (fetch count)
      (fun _ b' => b'.settings = b.settings ∧ b'.capacity = b.capacity ∧
        b'.filled ≤ b.filled + count)
      (fun e b' => ¬ e.IsFault ∧ b'.settings = b.settings ∧ b'.capacity = b.capacity ∧
        b'.filled ≤ b.filled + count) b := by
  have hlength := fetchChunks_length count b.source.chunks
  have hfilled : (b.receive (fetchChunks count b.source.chunks)).filled ≤ b.filled + count := by
    simp only [receive, append, filled, List.length_append]
    omega
  cases hout : (fetchChunks count b.source.chunks).outcome with
  | ok bytes =>
    have hrun : fetch count b = .ok bytes (b.receive (fetchChunks count b.source.chunks)) := by
      simp only [fetch, hout]
    exact .of_ok hrun ⟨rfl, rfl, hfilled⟩
  | error text =>
    have hrun : fetch count b =
        .error (.io text) (b.receive (fetchChunks count b.source.chunks)) := by
      simp only [fetch, hout]
    exact .of_error hrun ⟨ScanError.not_isFault_io text, rfl, rfl, hfilled⟩

/-- A read of as many bytes as were reserved. -/
theorem reserve_fetch_ends {α : Type} {b : Buffer} (hb : b.Roomy) (count : Nat)
    (f : List UInt8 → α) :
    ends (do reserve (b.filled + count + 1); return f (← fetch count)) (fun _ b' => b'.Roomy)
      (fun e b' => b'.Roomy ∧ ¬ e.IsFault) b := by
  refine .bind ((reserve_ends _ b).mono (fun _ b₁ hreserved => .bind ?_) fun e b' h => ?_)
  · have hfilled := hreserved.filled_eq
    refine (fetch_ends count b₁).mono (fun _ b' h => .pure ?_) fun e b' h => ⟨?_, h.1⟩
    · exact hreserved.roomy hb h.1 h.2.1 (by omega)
    · exact hreserved.roomy hb h.2.1 h.2.2.1 (by omega)
  · obtain ⟨rfl, rfl⟩ := h
    exact ⟨hb, ScanError.not_isFault_allocation _⟩

theorem refillLine_ends {b : Buffer} (hb : b.Roomy) :
    ends refillLine (fun _ b' => b'.Roomy) (fun e b' => b'.Roomy ∧ ¬ e.IsFault) b := by
  have hbyte {b : Buffer} (hb : b.Roomy) :
      ends refillByte (fun _ b' => b'.Roomy) (fun e b' => b'.Roomy ∧ ¬ e.IsFault) b :=
    .bind (.get (reserve_fetch_ends hb 1 List.head?))
  unfold ends
  fun_induction refillLine b with
  | case1 b _ b' h => exact (hbyte hb).ok h
  | case2 b _ byte b' h _ ih => exact ih ((hbyte hb).ok h)
  | case3 b _ b' h => exact (hbyte hb).ok h
  | case4 b _ e b' h => exact (hbyte hb).error h

/-- The settings say how a buffer is refilled. -/
theorem refill_eq (b : Buffer) :
    refill b = if b.settings.interactive then refillLine b else refillBlock b := by
  simp only [refill, Bind.bind, EStateM.bind, get_apply]
  split <;> rfl

theorem refill_ends {b : Buffer} (hb : b.Roomy) :
    ends refill (fun _ b' => b'.Roomy) (fun e b' => b'.Roomy ∧ ¬ e.IsFault) b := by
  refine .bind (.get ?_)
  split
  · exact refillLine_ends hb
  · exact .bind (.get (reserve_fetch_ends hb b.settings.blockSize fun _ => ()))

/-! ## Reads and moves -/

/-- Passing a byte needs nothing that could be missing. -/
theorem pass_ne_error (e : ScanError) (b b' : Buffer) : pass b ≠ .error e b' := by
  intro h
  unfold pass at h
  split at h <;> cases h

theorem pass_ends {b : Buffer} (hb : b.Roomy) :
    ends pass (fun byte b' => b'.Roomy ∧ b'.cursor = b.cursor + byte.toList.length)
      (fun _ _ => False) b := by
  cases hahead : b.ahead with
  | nil =>
    have hrun : pass b = .ok none b := by simp only [pass, hahead]
    exact .of_ok hrun ⟨hb, rfl⟩
  | cons byte rest =>
    have hrun : pass b = .ok (some byte) { b with passed := b.passed.push byte, ahead := rest } := by
      simp only [pass, hahead]
    refine .of_ok hrun ⟨hb.congr rfl ?_ rfl, ?_⟩
    · simp only [filled, hahead, Array.size_push, List.length_cons]
      omega
    · simp [cursor]

/-- A read that succeeds steps over the byte it returns; one that fails stays where it was. -/
theorem readByte_ends {b : Buffer} (hb : b.Roomy) :
    ends readByte (fun byte b' => b'.Roomy ∧ b'.cursor = b.cursor + byte.toList.length)
      (fun e b' => b'.Roomy ∧ ¬ e.IsFault ∧ b'.cursor = b.cursor) b := by
  by_cases hahead : b.ahead = []
  · refine .congr (readByte_of_nil hahead) (.bind ?_)
    refine ((refill_ends hb).and (.of_across refill_refilled b)).mono (fun _ b₁ h => ?_)
      fun e b' h => ?_
    · have hcursor : b₁.cursor = b.cursor := congrArg Array.size h.2.passed_eq
      exact hcursor ▸ (pass_ends h.1).mono (fun _ _ => id) fun _ _ => False.elim
    · exact ⟨h.1.1, h.1.2, congrArg Array.size h.2.passed_eq⟩
  · refine .congr (readByte_of_ahead hahead) ?_
    exact (pass_ends hb).mono (fun _ _ => id) fun _ _ => False.elim

theorem seek_roomy {b : Buffer} (hb : b.Roomy) (offset : Nat) : (b.seek offset).Roomy := by
  refine hb.congr (seek_extends b offset).settings_eq (filled_seek b offset) ?_
  unfold seek
  split <;> rfl

theorem filled_unread (b : Buffer) : b.unread.filled = b.filled := by
  simpa [contents, filled] using congrArg List.length (contents_unread b)

theorem cursor_unread (b : Buffer) : b.unread.cursor = b.cursor - 1 := by
  unfold unread
  split
  · simp [cursor]
  · rename_i hnone
    have hempty : b.passed = #[] := by simpa using hnone
    simp [cursor, hempty]

theorem unread_roomy {b : Buffer} (hb : b.Roomy) : b.unread.Roomy := by
  refine hb.congr (unread_extends b).settings_eq (filled_unread b) ?_
  unfold unread
  split <;> rfl

/-! ## Changing the contents -/

/-- An insertion puts the byte in front of those ahead, or fails and changes nothing. -/
theorem insert_ends {b : Buffer} (hb : b.Roomy) (byte : UInt8) :
    ends (insert byte)
      (fun _ b' => b'.Roomy ∧ b.capacity ≤ b'.capacity ∧ ∃ capacity stale,
        b' = { b with capacity, ahead := byte :: b.ahead, stale })
      (fun e b' => ¬ e.IsFault ∧ b' = b) b := by
  refine .bind (.get (.bind ((reserve_ends _ b).mono (fun _ b₁ h => .modify ?_) fun e b' h => ?_)))
  · have hfilled : b.filled + 1 < b.filled + 2 := Nat.lt_succ_self _
    obtain ⟨capacity, rfl⟩ := h.eq
    refine ⟨h.roomy hb rfl rfl ?_, h.capacity_le, capacity, _, rfl⟩
    exact hfilled
  · obtain ⟨rfl, rfl⟩ := h
    exact ⟨ScanError.not_isFault_allocation _, rfl⟩

/-- What trimming leaves: all but the first bytes before the cursor. -/
theorem trim_eq (b : Buffer) (keepFrom : Nat) : ∃ stale, (b.trim keepFrom).2 =
    { b with passed := b.passed.extract (b.trim keepFrom).1 b.cursor, stale } := by
  unfold trim
  dsimp only
  split
  · exact ⟨b.stale, by simp [cursor]⟩
  · exact ⟨_, rfl⟩

theorem trim_le (b : Buffer) (keepFrom : Nat) :
    (b.trim keepFrom).1 ≤ keepFrom ∧ (b.trim keepFrom).1 ≤ b.cursor := by
  unfold trim
  dsimp only
  split
  · exact ⟨Nat.zero_le _, Nat.zero_le _⟩
  · exact ⟨Nat.min_le_left _ _, Nat.min_le_right _ _⟩

/-- Trimming moves the cursor and the end of the held bytes down by as much as it drops. -/
theorem cursor_trim (b : Buffer) (keepFrom : Nat) :
    (b.trim keepFrom).1 + (b.trim keepFrom).2.cursor = b.cursor ∧
      (b.trim keepFrom).1 + (b.trim keepFrom).2.filled = b.filled := by
  obtain ⟨stale, h⟩ := b.trim_eq keepFrom
  have hle := (b.trim_le keepFrom).2
  rw [h]
  simp only [cursor, filled, Array.size_extract] at hle ⊢
  omega

theorem trim_roomy {b : Buffer} (hb : b.Roomy) (keepFrom : Nat) : (b.trim keepFrom).2.Roomy := by
  have hfilled := (b.cursor_trim keepFrom).2
  obtain ⟨stale, h⟩ := b.trim_eq keepFrom
  rw [h] at hfilled ⊢
  exact ⟨hb.block_pos, Nat.lt_of_le_of_lt (hfilled ▸ Nat.le_add_left _ _) hb.filled_lt, hb.capacity_le⟩

theorem switchTo_roomy {b : Buffer} (hb : b.Roomy) (source : Source) : (b.switchTo source).Roomy :=
  ⟨hb.block_pos, Nat.zero_lt_of_lt hb.filled_lt, hb.capacity_le⟩

/-- A new buffer has room, and differs from an empty one only by its capacity. -/
theorem create_roomy {settings : BufferSettings} {source : Source} {b : Buffer}
    (h : create settings source = .ok b) : b.Roomy ∧ ∃ capacity, b =
      { settings := { settings with blockSize := max settings.blockSize 1 }, source, capacity } := by
  unfold create at h
  dsimp only at h
  split at h
  · rename_i hreserve
    obtain rfl := Except.ok.inj h
    have hreserved := (reserve_ends _ _).ok hreserve
    obtain ⟨capacity, rfl⟩ := hreserved.eq
    refine ⟨⟨Nat.le_max_right _ _, ?_, fun limit hlimit => ?_⟩, capacity, rfl⟩
    · exact Nat.lt_of_lt_of_le (Nat.le_max_right _ _) hreserved.minimum_le
    · exact hreserved.within limit hlimit (Nat.zero_le _)
  · cases h

end Buffer

end Munch
