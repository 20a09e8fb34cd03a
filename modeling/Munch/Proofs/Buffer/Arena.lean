-- SUMMARY: Buffer growth is exact: the first doubling that is enough, cut down to the limit, old bytes in place.
import Mathlib.Order.Bounds.Basic
import Munch.Proofs.Buffer.Growth
import Munch.Proofs.Buffer.Line

/-! # The arena of a buffer

The slots of a buffer, held or stale, are as many as its capacity. Growing adds empty slots behind
them. By how many is decided by a loop that doubles the capacity until it is enough; the limit is
applied afterwards, so a doubling that does not fit a word is a failure under any limit. -/

namespace Munch

/-! ## Doubling -/

/-- The loop that doubles a capacity until it is enough, with its result: none if a doubling does not
fit a word. -/
inductive Doubles (minimum : Nat) : Nat → Option Nat → Prop
  | enough {c : Nat} : minimum ≤ c → Doubles minimum c (some c)
  | overflow {c : Nat} : c < minimum → UInt64.size ≤ 2 * c → Doubles minimum c none
  | again {c : Nat} {result : Option Nat} : c < minimum → 2 * c < UInt64.size →
      Doubles minimum (2 * c) result → Doubles minimum c result

/-- The doublings of a capacity that are enough. -/
def enoughDoublings (minimum c : Nat) : Set Nat :=
  {n | minimum ≤ n ∧ ∃ j, n = c * 2 ^ j}

/-- A doubling is no less than what was doubled. -/
theorem le_of_mem_enoughDoublings {minimum c n : Nat} (h : n ∈ enoughDoublings minimum c) : c ≤ n := by
  obtain ⟨-, j, rfl⟩ := h
  exact Nat.le_mul_of_pos_right c (Nat.two_pow_pos j)

/-- What is not enough is not counted, so the doublings may be counted from the next one. -/
theorem enoughDoublings_double {minimum c : Nat} (h : c < minimum) :
    enoughDoublings minimum (2 * c) = enoughDoublings minimum c := by
  have hnext (j : Nat) : 2 * c * 2 ^ j = c * 2 ^ (j + 1) := by
    rw [Nat.pow_succ, Nat.mul_comm 2 c, Nat.mul_assoc, Nat.mul_comm 2]
  refine Set.ext fun n => and_congr_right fun hle => ⟨?_, ?_⟩
  · rintro ⟨j, rfl⟩
    exact ⟨j + 1, hnext j⟩
  · rintro ⟨j, rfl⟩
    cases j with
    | zero => exact absurd hle (by omega)
    | succ j => exact ⟨j, (hnext j).symm⟩

namespace Doubles

variable {minimum c : Nat}

/-- The loop ends, as each round brings a capacity nearer to the minimum. -/
theorem exists_result (minimum : Nat) {c : Nat} (hc : 0 < c) : ∃ result, Doubles minimum c result := by
  induction hn : minimum - c using Nat.strongRecOn generalizing c with
  | ind n ih =>
    subst hn
    by_cases henough : minimum ≤ c
    · exact ⟨some c, .enough henough⟩
    · have hlt : c < minimum := Nat.lt_of_not_le henough
      by_cases hword : 2 * c < UInt64.size
      · obtain ⟨result, h⟩ := ih (minimum - 2 * c) (by omega) (Nat.mul_pos Nat.two_pos hc) rfl
        exact ⟨result, .again hlt hword h⟩
      · exact ⟨none, .overflow hlt (Nat.le_of_not_lt hword)⟩

/-- The result is the first doubling that is enough. -/
theorem isLeast {size : Nat} (h : Doubles minimum c (some size)) :
    IsLeast (enoughDoublings minimum c) size := by
  generalize hresult : some size = result at h
  induction h with
  | enough hle =>
    obtain rfl := Option.some.inj hresult
    exact ⟨⟨hle, 0, (Nat.mul_one size).symm⟩, fun n => le_of_mem_enoughDoublings⟩
  | overflow => cases hresult
  | again hlt _ _ ih => exact enoughDoublings_double hlt ▸ ih hresult

/-- A word holds the result, unless it is what the loop started from. -/
theorem lt_word {size : Nat} (h : Doubles minimum c (some size)) : size = c ∨ size < UInt64.size := by
  generalize hresult : some size = result at h
  induction h with
  | enough => exact .inl (Option.some.inj hresult)
  | overflow => cases hresult
  | again _ hword _ ih =>
    rcases ih hresult with rfl | hlt
    · exact .inr hword
    · exact .inr hlt

/-- Without a result no word holds a doubling that is enough. -/
theorem word_le (h : Doubles minimum c none) {n : Nat} (hn : n ∈ enoughDoublings minimum c) :
    UInt64.size ≤ n := by
  generalize hresult : none = result at h
  induction h with
  | enough => cases hresult
  | overflow hlt hword =>
    rw [← enoughDoublings_double hlt] at hn
    exact Nat.le_trans hword (le_of_mem_enoughDoublings hn)
  | again hlt _ _ ih => exact ih (enoughDoublings_double hlt ▸ hn) hresult

end Doubles

namespace Buffer

variable {b b' : Buffer} {minimum : Nat}

/-- What the capacity becomes before the limit is applied. -/
def doubled? (b : Buffer) (minimum : Nat) : Option Nat :=
  (doublings b.capacity).find? fun n => minimum ≤ n && n < UInt64.size

/-- A size, cut down to the limit. -/
def cut (b : Buffer) (size : Nat) : Nat :=
  b.settings.capacityLimit.elim size (min · size)

/-- The doublings that a buffer tries are those that a word can hold. -/
theorem mem_doublings_iff {capacity n : Nat} (h : n < UInt64.size) :
    n ∈ doublings capacity ↔ ∃ j, n = max capacity 1 * 2 ^ j := by
  rw [doublings, List.mem_map]
  constructor
  · rintro ⟨j, -, rfl⟩
    exact ⟨j, Nat.shiftLeft_eq _ _⟩
  · rintro ⟨j, rfl⟩
    refine ⟨j, List.mem_range.2 ((Nat.pow_lt_pow_iff_right Nat.one_lt_two).1 ?_), Nat.shiftLeft_eq _ _⟩
    calc 2 ^ j ≤ max capacity 1 * 2 ^ j := Nat.le_mul_of_pos_left _ (Nat.le_max_right _ 1)
      _ < 2 ^ 64 := h

/-- Growing starts with the result of the loop. -/
theorem doubled?_eq (hlt : b.capacity < minimum) {result : Option Nat}
    (h : Doubles minimum (max b.capacity 1) result) : b.doubled? minimum = result := by
  have hpasses {n : Nat} :
      (minimum ≤ n && n < UInt64.size) = true ↔ minimum ≤ n ∧ n < UInt64.size := by
    rw [Bool.and_eq_true, decide_eq_true_eq, decide_eq_true_eq]
  cases result with
  | none =>
    refine List.find?_eq_none.2 fun n hmem hp => ?_
    obtain ⟨hle, hword⟩ := hpasses.1 hp
    exact absurd hword (Nat.not_lt.2 (h.word_le ⟨hle, (mem_doublings_iff hword).1 hmem⟩))
  | some size =>
    obtain ⟨⟨hle, hdoubling⟩, hleast⟩ := h.isLeast
    have hword : size < UInt64.size := by
      rcases h.lt_word with rfl | hword
      · -- The loop did not start: nothing was reserved yet, and one byte is enough.
        have hone : max b.capacity 1 = 1 := by omega
        rw [hone]
        decide
      · exact hword
    obtain ⟨first, hfirst, hfirstle⟩ := find?_le_of_mem
      (p := fun n => minimum ≤ n && n < UInt64.size) (doublings_ascending b.capacity)
      ((mem_doublings_iff hword).2 hdoubling) (hpasses.2 ⟨hle, hword⟩)
    have hgood : (minimum ≤ first && first < UInt64.size) = true :=
      List.find?_some (p := fun n => minimum ≤ n && n < UInt64.size) hfirst
    obtain ⟨hle', hword'⟩ := hpasses.1 hgood
    have hmem := (mem_doublings_iff hword').1 (List.mem_of_find?_eq_some hfirst)
    rw [doubled?, hfirst, Nat.le_antisymm hfirstle (hleast ⟨hle', hmem⟩)]

theorem grown?_eq_some_iff {capacity : Nat} : b.grown? minimum = some capacity ↔
    (∀ limit ∈ b.settings.capacityLimit, minimum ≤ limit) ∧
      ∃ size, b.doubled? minimum = some size ∧ b.cut size = capacity ∧
        capacity ≤ b.settings.heapLimit := by
  unfold grown? cut
  rw [Option.filter_eq_some_iff, decide_eq_true_eq]
  cases b.settings.capacityLimit with
  | none =>
    constructor
    · rintro ⟨hsize, hheap⟩
      exact ⟨fun _ h => (nomatch h), _, hsize, rfl, hheap⟩
    · rintro ⟨-, size, hsize, rfl, hheap⟩
      exact ⟨hsize, hheap⟩
  | some limit =>
    by_cases hlimit : minimum ≤ limit
    · simp only [hlimit, if_true, Option.map_eq_some_iff, Option.mem_def, Option.some.injEq,
        forall_eq', Option.elim_some, true_and]
      constructor
      · rintro ⟨⟨size, hsize, rfl⟩, hheap⟩
        exact ⟨size, hsize, rfl, hheap⟩
      · rintro ⟨size, hsize, rfl, hheap⟩
        exact ⟨⟨size, hsize, rfl⟩, hheap⟩
    · simp only [hlimit, if_false]
      exact ⟨fun h => (nomatch h.1), fun h => absurd (h.1 limit rfl) hlimit⟩

/-! ## Slots -/

/-- All slots of a buffer, held or stale. -/
def arena (b : Buffer) : List UInt8 :=
  (List.range b.capacity).map b.slot

/-- The slots with a content are among those that were reserved. -/
def Fits (b : Buffer) : Prop :=
  b.filled + b.stale.length ≤ b.capacity

instance : DecidablePred Fits :=
  fun b => inferInstanceAs (Decidable (b.filled + b.stale.length ≤ b.capacity))

/-- A slot without a content is 0. -/
theorem slot_of_le {k : Nat} (h : b.filled + b.stale.length ≤ k) : b.slot k = 0 := by
  have hbyte : b.byteAt? k = none := by
    rw [filled_eq] at h
    rw [byteAt?, if_neg (by omega), List.getElem?_eq_none (by omega)]
  rw [slot, hbyte, Option.getD_none, List.getElem?_eq_none (by omega), Option.getD_none]

/-- More capacity adds empty slots behind the others. -/
theorem arena_grow (h : b.Fits) {capacity : Nat} (hle : b.capacity ≤ capacity) :
    arena { b with capacity } = b.arena ++ List.replicate (capacity - b.capacity) 0 := by
  have hslot : Buffer.slot { b with capacity } = b.slot := rfl
  obtain ⟨more, rfl⟩ := Nat.exists_eq_add_of_le hle
  rw [arena, arena, hslot, List.range_add, List.map_append, Nat.add_sub_cancel_left, List.map_map]
  refine congrArg (b.arena ++ ·) (List.eq_replicate_iff.2 ⟨?_, fun byte hbyte => ?_⟩)
  · rw [List.length_map, List.length_range]
  · obtain ⟨k, -, rfl⟩ := List.mem_map.1 hbyte
    exact slot_of_le (Nat.le_trans h (Nat.le_add_right _ k))

theorem length_slice {start stop : Nat} (h : stop ≤ b.filled) :
    (b.slice start stop).length = stop - start := by
  rw [slice, List.length_append, Array.length_toList, Array.size_extract, List.length_drop,
    List.length_take]
  unfold filled at h
  unfold cursor
  omega

namespace Fits

/-- What matters is how many slots have a content. -/
theorem congr (h : b.Fits) (hlength : b'.filled + b'.stale.length = b.filled + b.stale.length)
    (hcapacity : b'.capacity = b.capacity) : b'.Fits := by
  rw [Fits, hlength, hcapacity]
  exact h

theorem grow (h : b.Fits) {capacity : Nat} (hle : b.capacity ≤ capacity) :
    Fits { b with capacity } :=
  Nat.le_trans h hle

theorem append (h : b.Fits) {bytes : List UInt8} (hroom : b.filled + bytes.length ≤ b.capacity) :
    (b.append bytes).Fits := by
  unfold Fits at h ⊢
  simp only [Buffer.append, filled, List.length_append, List.length_drop] at h hroom ⊢
  omega

theorem reserve (h : b.Fits) (minimum : Nat) :
    ends (Buffer.reserve minimum)
      (fun _ b' => b'.Fits ∧ b'.filled = b.filled ∧ minimum ≤ b'.capacity) (fun _ => Fits) b := by
  refine (reserve_ends minimum b).mono (fun _ b' hreserved => ?_) fun _ b' hdenied => hdenied.2 ▸ h
  refine ⟨?_, hreserved.filled_eq, hreserved.minimum_le⟩
  have hle := hreserved.capacity_le
  obtain ⟨capacity, rfl⟩ := hreserved.eq
  exact h.grow hle

theorem fetch (h : b.Fits) {count : Nat} (hroom : b.filled + count ≤ b.capacity) :
    ends (Buffer.fetch count) (fun _ => Fits) (fun _ => Fits) b := by
  have hdelivered := fetchChunks_length count b.source.chunks
  have hfinal : (final (Buffer.fetch count) b).Fits := by
    rw [fetch_final]
    exact h.append (Nat.le_trans (Nat.add_le_add_left hdelivered _) hroom)
  exact .of_result (fun _ _ hrun => final_of_ok hrun ▸ hfinal)
    fun _ _ hrun => final_of_error hrun ▸ hfinal

/-- A read of no more bytes than there is room for. -/
theorem reserve_fetch {α : Type} (h : b.Fits) (count : Nat) (f : List UInt8 → α) :
    ends (do Buffer.reserve (b.filled + count + 1); return f (← Buffer.fetch count)) (fun _ => Fits)
      (fun _ => Fits) b := by
  refine .bind ((h.reserve _).mono (fun _ b₁ hreserved => .bind ?_) fun _ _ => id)
  obtain ⟨hfits, hfilled, hroom⟩ := hreserved
  exact (hfits.fetch (by omega)).mono (fun _ _ h' => .pure h') fun _ _ => id

theorem refillByte (h : b.Fits) : ends Buffer.refillByte (fun _ => Fits) (fun _ => Fits) b :=
  .bind (.get (h.reserve_fetch 1 List.head?))

theorem refillLine (h : b.Fits) : ends Buffer.refillLine (fun _ => Fits) (fun _ => Fits) b := by
  unfold ends
  fun_induction Buffer.refillLine b with
  | case1 b _ b' hrun => exact h.refillByte.ok hrun
  | case2 b _ byte b' hrun _ ih => exact ih (h.refillByte.ok hrun)
  | case3 b _ b' hrun => exact h.refillByte.ok hrun
  | case4 b _ e b' hrun => exact h.refillByte.error hrun

theorem refill (h : b.Fits) : ends Buffer.refill (fun _ => Fits) (fun _ => Fits) b := by
  refine .bind (.get ?_)
  split
  · exact h.refillLine
  · exact .bind (.get (h.reserve_fetch b.settings.blockSize fun _ => ()))

theorem pass (h : b.Fits) : ends Buffer.pass (fun _ => Fits) (fun _ => Fits) b := by
  cases hahead : b.ahead with
  | nil =>
    have hrun : Buffer.pass b = .ok none b := by simp only [Buffer.pass, hahead]
    exact .of_ok hrun h
  | cons byte rest =>
    have hrun : Buffer.pass b =
        .ok (some byte) { b with passed := b.passed.push byte, ahead := rest } := by
      simp only [Buffer.pass, hahead]
    refine .of_ok hrun (h.congr ?_ rfl)
    simp only [filled, hahead, Array.size_push, List.length_cons]
    omega

theorem readByte (h : b.Fits) : ends Buffer.readByte (fun _ => Fits) (fun _ => Fits) b := by
  by_cases hahead : b.ahead = []
  · refine .congr (readByte_of_nil hahead) (.bind ?_)
    exact h.refill.mono (fun _ _ h' => h'.pass) fun _ _ => id
  · exact .congr (readByte_of_ahead hahead) h.pass

theorem unread (h : b.Fits) : b.unread.Fits := by
  have hrest : b.unread.stale = b.stale ∧ b.unread.capacity = b.capacity := by
    unfold Buffer.unread
    split <;> exact ⟨rfl, rfl⟩
  exact h.congr (by rw [filled_unread, hrest.1]) hrest.2

theorem seek (h : b.Fits) (offset : Nat) : (b.seek offset).Fits := by
  have hrest : (b.seek offset).stale = b.stale ∧ (b.seek offset).capacity = b.capacity := by
    unfold Buffer.seek
    split <;> exact ⟨rfl, rfl⟩
  exact h.congr (by rw [filled_seek, hrest.1]) hrest.2

theorem insert (h : b.Fits) (byte : UInt8) :
    ends (Buffer.insert byte) (fun _ => Fits) (fun _ => Fits) b := by
  refine .bind (.get (.bind ((h.reserve _).mono (fun _ b₁ hreserved => .modify ?_) fun _ _ => id)))
  obtain ⟨hfits, hfilled, hroom⟩ := hreserved
  unfold Fits at hfits ⊢
  simp only [filled, List.length_cons, List.length_drop] at hfits hfilled hroom ⊢
  omega

/-- A slot that was reserved can be overwritten. -/
theorem poke (h : b.Fits) {offset : Nat} (hoffset : offset < b.capacity) (byte : UInt8) :
    (b.poke offset byte).Fits := by
  unfold Buffer.poke
  split
  · exact h.congr (by simp only [filled, Array.size_setIfInBounds]) rfl
  · split
    · exact h.congr (by simp only [filled, List.length_set]) rfl
    · unfold Fits at h ⊢
      simp only [filled, List.length_append, List.length_take, List.length_replicate,
        List.length_cons, List.length_drop] at *
      omega

theorem cover (h : b.Fits) (offset : Nat) : (b.cover offset).2.Fits := by
  unfold Buffer.cover
  split
  · split
    · rename_i hoffset
      exact h.poke hoffset _
    · exact h
  · exact h

theorem uncover (h : b.Fits) (covered : CoveredByte) : (b.uncover covered).Fits := by
  unfold Buffer.uncover
  split
  · rename_i hoffset
    exact h.poke hoffset _
  · exact h

/-- What is dropped is stale. -/
theorem trim (h : b.Fits) (keepFrom : Nat) : (b.trim keepFrom).2.Fits := by
  have hfilled := (b.cursor_trim keepFrom).2
  have hstale : (b.trim keepFrom).2.stale.length = (b.trim keepFrom).1 + b.stale.length := by
    unfold Buffer.trim
    dsimp only
    split
    · exact (Nat.zero_add _).symm
    · have hle : min keepFrom b.cursor ≤ b.filled :=
        Nat.le_trans (Nat.min_le_right _ _) (Nat.le_add_right _ _)
      rw [List.length_append, length_slice (Nat.le_refl _), Nat.sub_sub_self hle]
  refine h.congr (by omega) ?_
  unfold Buffer.trim
  dsimp only
  split <;> rfl

theorem switchTo (h : b.Fits) (source : Source) : (b.switchTo source).Fits := by
  refine h.congr ?_ rfl
  simp only [Buffer.switchTo, filled, contents, List.length_append, Array.length_toList,
    List.size_toArray, List.length_nil, Nat.zero_add]

end Fits

/-- Every operation keeps the contents among the reserved slots. -/
theorem perform_fits (h : b.Fits) (operation : Operation) :
    ends operation.perform (fun _ => Fits) (fun _ => Fits) b := by
  cases operation with
  | read => exact h.readByte
  | unread => exact .bind (.modify (.pure h.unread))
  | seek offset => exact .bind (.modify (.pure (h.seek offset)))
  | reserve minimum =>
    exact .bind ((h.reserve minimum).mono (fun _ _ h' => .pure h'.1) fun _ _ => id)
  | insert byte => exact .bind ((h.insert byte).mono (fun _ _ h' => .pure h') fun _ _ => id)
  | cover offset => exact .bind (.modify (.pure (h.cover offset)))
  | uncover covered => exact .bind (.modify (.pure (h.uncover covered)))
  | trim keepFrom => exact .bind (.modify (.pure (h.trim keepFrom)))
  | switchTo source => exact .bind (.modify (.pure (h.switchTo source)))

/-- So do sequences of operations, whatever fails among them. -/
theorem steps_fit (h : b.Fits) (operations : List Operation) :
    ∀ s ∈ steps operations b, s.after.Fits := by
  induction operations generalizing b with
  | nil => exact fun s hs => (nomatch hs)
  | cons operation rest ih =>
    have hstep : (b.step operation).after.Fits :=
      step_of_ends (fun _ => Fits) (perform_fits h operation)
    intro s hs
    rcases List.mem_cons.1 hs with rfl | hs
    · exact hstep
    · exact ih hstep s hs

/-- A new buffer has no content. -/
theorem create_fits {settings : BufferSettings} {source : Source}
    (h : create settings source = .ok b) : b.Fits := by
  obtain ⟨-, capacity, rfl⟩ := create_roomy h
  exact Nat.zero_le _

/-! ## Growth -/

/-- Why a buffer cannot grow to a minimum: it exceeds the limit, a doubling does not fit a word, or
memory does not hold the size. -/
inductive Denied (b : Buffer) (minimum : Nat) : Prop
  | limit {limit : Nat} : limit ∈ b.settings.capacityLimit → limit < minimum → Denied b minimum
  | word : Doubles minimum (max b.capacity 1) none → Denied b minimum
  | memory {size : Nat} : Doubles minimum (max b.capacity 1) (some size) →
      b.settings.heapLimit < b.cut size → Denied b minimum

/-- The buffer after growing to a minimum. -/
structure Grown (minimum : Nat) (b b' : Buffer) : Prop where
  /-- Only the capacity is another: cursor, contents and source are the same. -/
  eq : b' = { b with capacity := b'.capacity }
  /-- The capacity is the first doubling that is enough, cut down to the limit. -/
  least : ∃ size, IsLeast (enoughDoublings minimum (max b.capacity 1)) size ∧ b'.capacity = b.cut size
  minimum_le : minimum ≤ b'.capacity
  le_limit : ∀ limit ∈ b.settings.capacityLimit, b'.capacity ≤ limit
  /-- All bytes keep their offsets, and new ones are 0. -/
  arena_eq : b'.arena = b.arena ++ List.replicate (b'.capacity - b.capacity) 0

/-- A buffer is denied what it cannot grow to. -/
theorem grown?_eq_none (hlt : b.capacity < minimum) (h : b.Denied minimum) :
    b.grown? minimum = none := by
  refine Option.eq_none_iff_forall_ne_some.2 fun capacity hgrown => ?_
  obtain ⟨hlimits, size, hsize, rfl, hheap⟩ := grown?_eq_some_iff.1 hgrown
  cases h with
  | limit hlimit hexceeds => exact absurd (hlimits _ hlimit) (Nat.not_le.2 hexceeds)
  | word hword => cases (doubled?_eq hlt hword).symm.trans hsize
  | memory hdoubles hheap' =>
    obtain rfl := Option.some.inj ((doubled?_eq hlt hdoubles).symm.trans hsize)
    exact absurd hheap (Nat.not_le.2 hheap')

/-- What is not denied is granted. -/
theorem grown?_eq_some (hlt : b.capacity < minimum) (h : ¬ b.Denied minimum) :
    ∃ size, IsLeast (enoughDoublings minimum (max b.capacity 1)) size ∧
      b.grown? minimum = some (b.cut size) := by
  obtain ⟨result, hresult⟩ := Doubles.exists_result minimum (Nat.le_max_right b.capacity 1)
  cases result with
  | none => exact absurd (.word hresult) h
  | some size =>
    refine ⟨size, hresult.isLeast, grown?_eq_some_iff.2 ⟨fun limit hlimit => ?_, size,
      doubled?_eq hlt hresult, rfl, ?_⟩⟩
    · exact Nat.le_of_not_lt fun hexceeds => h (.limit hlimit hexceeds)
    · exact Nat.le_of_not_lt fun hheap => h (.memory hresult hheap)

/-- Growth is exact. A buffer that has the capacity is left alone; another one either cannot grow, and
then nothing changes, or gets the first doubling that is enough, cut down to the limit. The loop that
looks for it ends for every minimum. -/
theorem reserve_exact :
    (∀ settings source b, create settings source = .ok b →
      b.Fits ∧ ∀ operations, ∀ s ∈ steps operations b, s.after.Fits) ∧
    ∀ b : Buffer, b.Fits → ∀ minimum,
      (∃ result, Doubles minimum (max b.capacity 1) result) ∧
      (minimum ≤ b.capacity → reserve minimum b = .ok () b) ∧
      (b.capacity < minimum →
        (b.Denied minimum → reserve minimum b = .error (.allocation minimum) b) ∧
        (¬ b.Denied minimum → ∃ b', reserve minimum b = .ok () b' ∧ Grown minimum b b')) := by
  refine ⟨fun settings source b h => ⟨create_fits h, steps_fit (create_fits h)⟩,
    fun b hfits minimum => ⟨Doubles.exists_result minimum (Nat.le_max_right _ _), fun hroom => ?_,
      fun hlt => ⟨fun hdenied => ?_, fun hgranted => ?_⟩⟩⟩
  · rw [reserve, if_pos hroom]
  · rw [reserve, if_neg (Nat.not_le.2 hlt), grown?_eq_none hlt hdenied]
  · obtain ⟨size, hleast, hgrown⟩ := grown?_eq_some hlt hgranted
    have hminimum := le_of_grown? hgrown
    refine ⟨{ b with capacity := b.cut size }, ?_, rfl, ⟨size, hleast, rfl⟩, hminimum,
      fun limit hlimit => le_limit_of_grown? hgrown hlimit, ?_⟩
    · rw [reserve, if_neg (Nat.not_le.2 hlt), hgrown]
    · exact arena_grow hfits (Nat.le_trans (Nat.le_of_lt hlt) hminimum)

/-- Twelve slots of the sixteen that doubling would give, and no more than that. -/
theorem reserve_exact_twelve :
    let b : Buffer := { settings := ⟨false, 4, 4, some 12, 64, none⟩, source := ⟨[]⟩, capacity := 4
                        passed := #[97], ahead := [98], stale := [99] }
    (∃ b', reserve 9 b = .ok () b' ∧ Grown 9 b b' ∧
      b'.arena = [97, 98, 99, 0, 0, 0, 0, 0, 0, 0, 0, 0]) ∧
    reserve 13 b = .error (.allocation 13) b := by
  intro b
  have hfits : b.Fits := by decide
  have hgranted : ¬ b.Denied 9 := by
    intro hdenied
    have hnone := grown?_eq_none (b := b) (by decide) hdenied
    have hsome : b.grown? 9 = some 12 := by decide
    cases hnone.symm.trans hsome
  obtain ⟨-, -, hgrows⟩ := reserve_exact.2 b hfits 9
  obtain ⟨-, -, hfails⟩ := reserve_exact.2 b hfits 13
  obtain ⟨b', hrun, hgrown⟩ := (hgrows (by decide)).2 hgranted
  have hcapacity : reserve 9 b = .ok () { b with capacity := 12 } := rfl
  obtain rfl := (EStateM.Result.ok.inj (hcapacity.symm.trans hrun)).2
  exact ⟨⟨_, hrun, hgrown, rfl⟩, (hfails (by decide)).1 (.limit rfl (by decide))⟩

end Buffer

end Munch
