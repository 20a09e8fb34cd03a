-- SUMMARY: Over a source that does not fail, a read fails only if it is denied room; settings that afford a capacity deny none up to it.
import Munch.Proofs.Buffer.Drained
import Munch.Proofs.Buffer.Growth

/-! # Refusals

A read asks for room and then asks the source. If no read of the source fails, all that can go wrong is
that there is no room: the limit is too low or the memory too small. -/

namespace Munch

/-! ## Sources that do not fail -/

/-- Whether a chunk is a failure. -/
def Chunk.fails : Chunk → Bool
  | .failure _ => true
  | _ => false

/-- Whether no read of the source will fail. -/
def Source.unfailing (s : Source) : Bool :=
  s.chunks.all fun chunk => !chunk.fails

theorem fetchChunks_of_unfailing (count : Nat) {chunks : List Chunk}
    (h : (Source.mk chunks).unfailing = true) :
    (∃ got, (fetchChunks count chunks).outcome = .ok got) ∧
      (Source.mk (fetchChunks count chunks).rest).unfailing = true := by
  have htail {chunk : Chunk} {rest : List Chunk} (h : (Source.mk (chunk :: rest)).unfailing = true) :
      (Source.mk rest).unfailing = true := by
    rw [Source.unfailing, List.all_cons, Bool.and_eq_true] at h
    exact h.2
  fun_induction fetchChunks count chunks with
  | case1 => exact ⟨⟨_, rfl⟩, rfl⟩
  | case2 rest ih => exact ih (htail h)
  | case3 b bs rest => exact ⟨⟨_, rfl⟩, @htail (.data _) _ h⟩
  | case4 rest => exact ⟨⟨_, rfl⟩, htail h⟩
  | case5 rest ih => exact ih (htail h)
  | case6 text rest => cases h

namespace Buffer

/-- The settings are the same, and the source does not fail if it did not before. -/
structure StaysUnfailing (b b' : Buffer) : Prop where
  settings_eq : b'.settings = b.settings
  unfailing : b.source.unfailing = true → b'.source.unfailing = true

instance : Carried StaysUnfailing where
  refl _ := ⟨rfl, id⟩
  trans h h' := ⟨h'.settings_eq.trans h.settings_eq, h'.unfailing ∘ h.unfailing⟩
  hold _ _ _ _ := ⟨rfl, id⟩
  reserve minimum b := by
    obtain ⟨capacity, -, h⟩ := reserve_final minimum b
    rw [h]
    exact ⟨rfl, id⟩
  fetch count b := by
    rw [fetch_final]
    exact ⟨rfl, fun h => (fetchChunks_of_unfailing count h).2⟩

/-! ## Reads -/

/-- A read by blocks fails if nothing is ahead and the room that it asks for is denied. -/
structure Refused (e : ScanError) (b : Buffer) : Prop where
  error_eq : e = .allocation b.request
  ahead_eq : b.ahead = []
  capacity_lt : b.capacity < b.request
  grown?_eq : b.grown? b.request = none

variable {b b' : Buffer} {e : ScanError}

theorem refillBlock_refused (hblock : b.settings.interactive = false)
    (hsource : b.source.unfailing = true) (h : refillBlock b = .error e b') :
    e = .allocation b.request ∧ b.capacity < b.request ∧ b.grown? b.request = none := by
  have hrequest : b.request = b.filled + b.settings.blockSize + 1 := by
    rw [request, hblock]
    rfl
  rw [refillBlock, bind_of_ok (get_apply b), ← hrequest] at h
  rcases bind_eq_error_iff.1 h with hdenied | ⟨_, b₁, hreserve, h⟩
  · obtain ⟨rfl, rfl⟩ := (reserve_ends _ _).error hdenied
    exact ⟨rfl, (reserve_eq_allocation hdenied).2.2⟩
  · -- With room reserved the source is asked, and answers.
    obtain ⟨capacity, rfl⟩ := ((reserve_ends _ _).ok hreserve).eq
    obtain ⟨⟨got, hgot⟩, -⟩ := fetchChunks_of_unfailing b.settings.blockSize hsource
    rcases bind_eq_error_iff.1 h with h | ⟨_, _, _, h⟩
    · simp only [fetch, hgot] at h
      cases h
    · cases h

theorem readByte_refused (hblock : b.settings.interactive = false)
    (hsource : b.source.unfailing = true) (h : readByte b = .error e b') : b.Refused e := by
  by_cases hahead : b.ahead = []
  · rw [readByte_of_nil hahead] at h
    rcases bind_eq_error_iff.1 h with h | ⟨_, b₁, -, h⟩
    · rw [refill_eq, hblock] at h
      obtain ⟨he, hlt, hgrown⟩ := refillBlock_refused hblock hsource h
      exact ⟨he, hahead, hlt, hgrown⟩
    · exact absurd h (pass_ne_error e b₁ b')
  · rw [readByte_of_ahead hahead] at h
    exact absurd h (pass_ne_error e b b')

end Buffer

/-! ## Room that settings afford -/

/-- Requests for up to `count` bytes are within the limit, and memory can hold the doubling that meets
them, cut down to the limit. -/
structure BufferSettings.Affords (settings : BufferSettings) (count : Nat) : Prop where
  limit : ∀ limit ∈ settings.capacityLimit, count ≤ limit
  heap : settings.capacityLimit.elim (2 * count) (min (2 * count)) ≤ settings.heapLimit
  word : 2 * count ≤ UInt64.size

namespace Buffer

variable {b : Buffer} {n count : Nat}

theorem grown?_of_affords (h : b.settings.Affords count) (hlt : b.capacity < n) (hle : n ≤ count) :
    b.grown? n ≠ none := by
  have hword := h.word
  obtain ⟨c, hmem, hreach, hbelow⟩ := exists_doubling hlt (by omega)
  obtain ⟨d, hfind, hd⟩ := find?_le_of_mem (p := fun c => n ≤ c && c < UInt64.size)
    (doublings_ascending b.capacity) hmem (by simp only [Bool.and_eq_true, decide_eq_true_eq]; omega)
  have hheap := h.heap
  unfold grown?
  rw [hfind]
  cases hlimit : b.settings.capacityLimit with
  | none =>
    rw [hlimit, Option.elim_none] at hheap
    simp only [Option.filter_some, decide_eq_true_eq]
    rw [if_pos (by omega)]
    exact Option.some_ne_none d
  | some limit =>
    have hlimited := h.limit limit hlimit
    rw [hlimit, Option.elim_some] at hheap
    simp only [if_pos (Nat.le_trans hle hlimited), Option.map_some, Option.filter_some,
      decide_eq_true_eq]
    rw [if_pos (by omega)]
    exact Option.some_ne_none _

/-- A read that was refused has asked for more than the settings afford. -/
theorem Refused.lt_request {e : ScanError} (h : b.Refused e) (haffords : b.settings.Affords count) :
    count < b.request :=
  Nat.lt_of_not_le fun hle => grown?_of_affords haffords h.capacity_lt hle h.grown?_eq

end Buffer

end Munch
