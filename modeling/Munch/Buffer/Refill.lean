-- SUMMARY: Refills of a buffer from its source: by one block, or in interactive mode up to a newline.
import Munch.Buffer.Basic
import Munch.Outcome

/-! # Refills

A refill asks the source for one block, or in interactive mode for single bytes up to a newline. It
takes bytes from the source in order and loses none, also when it fails half way: `Refilled` relates
the buffer before and after. -/

namespace Munch

namespace Buffer

/-! ## Taking bytes from the source -/

/-- The buffer after the source has answered: what it delivered stands behind the last byte. -/
def receive (b : Buffer) (f : Fetch) : Buffer :=
  { b.append f.delivered with
    source := ⟨f.rest⟩
    reads := b.reads + f.calls
    received := b.received + f.delivered.length }

/-- Asks the source for up to `count` bytes and adds them behind the last one. -/
def fetch (count : Nat) : BufferM (List UInt8) := fun b =>
  let f := fetchChunks count b.source.chunks
  match f.outcome with
  | .ok bytes => .ok bytes (b.receive f)
  | .error text => .error (.io text) (b.receive f)

/-- Adds the bytes of one read. -/
def refillBlock : BufferM Unit := do
  let b ← get
  reserve (b.filled + b.settings.blockSize + 1)
  let _ ← fetch b.settings.blockSize

/-- Adds a single byte, if the source has one, and returns it. -/
def refillByte : BufferM (Option UInt8) := do
  reserve ((← get).filled + 2)
  return (← fetch 1).head?

/-- The relation of a buffer to a later one that has only taken bytes from the source: they were
added in order behind the last one, and the capacity may have grown. -/
structure Refilled (b b' : Buffer) : Prop where
  passed_eq : b'.passed = b.passed
  settings_eq : b'.settings = b.settings
  capacity_le : b.capacity ≤ b'.capacity
  taken : ∃ bytes, b'.ahead = b.ahead ++ bytes ∧ b.source.bytes = bytes ++ b'.source.bytes

namespace Refilled

theorem refl (b : Buffer) : Refilled b b :=
  ⟨rfl, rfl, Nat.le_refl _, [], by simp⟩

theorem trans {a b c : Buffer} (hab : Refilled a b) (hbc : Refilled b c) : Refilled a c := by
  obtain ⟨s, hs, hs'⟩ := hab.taken
  obtain ⟨t, ht, ht'⟩ := hbc.taken
  exact ⟨hbc.passed_eq.trans hab.passed_eq, hbc.settings_eq.trans hab.settings_eq,
    Nat.le_trans hab.capacity_le hbc.capacity_le, s ++ t, by simp [ht, hs], by simp [hs', ht']⟩

theorem pending_eq {b b' : Buffer} (h : Refilled b b') : b'.pending = b.pending := by
  obtain ⟨s, hs, hs'⟩ := h.taken
  simp [pending, hs, hs']

instance : History Refilled :=
  ⟨refl, trans⟩

end Refilled

/-- Growing reaches the minimum asked for. -/
theorem le_of_grown? {b : Buffer} {minimum size : Nat} (h : b.grown? minimum = some size) :
    minimum ≤ size := by
  simp only [grown?, Option.filter_eq_some_iff] at h
  have reaches {n : Nat}
      (hn : (doublings b.capacity).find? (fun n => minimum ≤ n && n < UInt64.size) = some n) :
      minimum ≤ n := by
    have := List.find?_some hn
    simp only [Bool.and_eq_true, decide_eq_true_eq] at this
    exact this.1
  cases hmax : b.settings.capacityLimit with
  | none => exact reaches (by simpa [hmax] using h.1)
  | some limit =>
    simp only [hmax] at h
    split at h
    · obtain ⟨doubled, hd, rfl⟩ := Option.map_eq_some_iff.1 h.1
      exact Nat.le_min.2 ⟨by assumption, reaches hd⟩
    · simp at h

/-- Reserving changes at most the capacity, and never takes any away. -/
theorem reserve_final (minimum : Nat) (b : Buffer) :
    ∃ capacity, b.capacity ≤ capacity ∧ final (reserve minimum) b = { b with capacity } := by
  by_cases hc : minimum ≤ b.capacity
  · exact ⟨b.capacity, Nat.le_refl _, by simp [final, reserve, hc]⟩
  · cases h : b.grown? minimum with
    | none => exact ⟨b.capacity, Nat.le_refl _, by simp [final, reserve, hc, h]⟩
    | some size =>
      have := le_of_grown? h
      exact ⟨size, by omega, by simp [final, reserve, hc, h]⟩

theorem reserve_refilled (minimum : Nat) : Across Refilled (reserve minimum) := by
  intro b
  obtain ⟨capacity, hle, h⟩ := reserve_final minimum b
  rw [h]
  exact ⟨rfl, rfl, hle, [], by simp⟩

theorem fetch_final (count : Nat) (b : Buffer) :
    final (fetch count) b = b.receive (fetchChunks count b.source.chunks) := by
  cases h : (fetchChunks count b.source.chunks).outcome <;> simp [final, fetch, h]

theorem fetch_refilled (count : Nat) : Across Refilled (fetch count) := by
  intro b
  rw [fetch_final]
  exact ⟨rfl, rfl, Nat.le_refl _, _, rfl, (fetchChunks_bytes count b.source.chunks).symm⟩

/-- What a fetch returns has left the source. -/
theorem bytes_eq_of_fetch {count : Nat} {b b' : Buffer} {bytes : List UInt8}
    (h : fetch count b = .ok bytes b') : b.source.bytes = bytes ++ b'.source.bytes := by
  have := fetchChunks_bytes count b.source.chunks
  cases ho : (fetchChunks count b.source.chunks).outcome with
  | ok s =>
    simp only [fetch, ho, EStateM.Result.ok.injEq] at h
    obtain ⟨rfl, rfl⟩ := h
    simpa [Fetch.delivered, ho, Except.toOption, receive] using this.symm
  | error e => simp [fetch, ho] at h

theorem refillBlock_refilled : Across Refilled refillBlock :=
  .bind .get fun _ => .bind (reserve_refilled _) fun _ =>
    .bind (fetch_refilled _) fun _ => .pure _

theorem refillByte_refilled : Across Refilled refillByte :=
  .bind .get fun _ => .bind (reserve_refilled _) fun _ =>
    .bind (fetch_refilled _) fun _ => .pure _

/-- A byte that a refill adds is gone from the source. -/
theorem length_lt_of_refillByte {b b' : Buffer} {byte : UInt8}
    (h : refillByte b = .ok (some byte) b') :
    b'.source.bytes.length < b.source.bytes.length := by
  simp only [refillByte, bind_eq_ok_iff, get_apply, pure_apply, EStateM.Result.ok.injEq] at h
  obtain ⟨_, _, ⟨rfl, rfl⟩, _, b₁, hr, bytes, b₂, hf, hhead, rfl⟩ := h
  obtain ⟨capacity, -, hb⟩ := reserve_final (b.filled + 2) b
  obtain ⟨rest, rfl⟩ := List.head?_eq_some_iff.1 hhead
  have := bytes_eq_of_fetch hf
  rw [← final_of_ok hr, hb] at this
  have hlength := congrArg List.length this
  simp only [List.cons_append, List.length_cons, List.length_append] at hlength
  omega

/-- Adds single bytes until a newline was added or the source has no more. -/
def refillLine : BufferM Unit
  | b =>
    match _h : refillByte b with
    | .ok (some byte) b' => if byte = 10 then .ok () b' else refillLine b'
    | .ok none b' => .ok () b'
    | .error e b' => .error e b'
  termination_by b => b.source.bytes.length
  decreasing_by exact length_lt_of_refillByte _h

/-- Adds bytes from the source, as the settings say. -/
def refill : BufferM Unit := do
  if (← get).settings.interactive then refillLine else refillBlock

theorem refillLine_refilled : Across Refilled refillLine := by
  intro b
  unfold final
  fun_induction refillLine b with
  | case1 b _ b' h => exact final_of_ok h ▸ refillByte_refilled b
  | case2 b _ byte b' h hne ih => exact (final_of_ok h ▸ refillByte_refilled b).trans ih
  | case3 b _ b' h => exact final_of_ok h ▸ refillByte_refilled b
  | case4 b _ e b' h => exact final_of_error h ▸ refillByte_refilled b

theorem refill_refilled : Across Refilled refill := by
  refine .bind .get fun b => ?_
  cases b.settings.interactive
  · exact refillBlock_refilled
  · exact refillLine_refilled

end Buffer

end Munch
