-- SUMMARY: Reading from a buffer: single bytes, and machines that are fed byte by byte.
import Munch.Buffer.Refill

/-! # Reading

A read passes the next byte and refills the buffer if none is ahead. `Buffer.feed` hands bytes to a
machine until the machine stops or the input ends. Reading and moving the cursor lose nothing:
`Extends` relates the buffer before and after. -/

namespace Munch

namespace Buffer

/-- Passes the next byte; none at the end of the input. -/
def readByte : BufferM (Option UInt8) := do
  if (← get).ahead.isEmpty then refill
  pass

/-- The bytes held and those still in the source. -/
def stream (b : Buffer) : List UInt8 :=
  b.contents ++ b.source.bytes

/-- How many bytes can still be passed. -/
def remaining (b : Buffer) : Nat :=
  b.pending.length

/-- The relation of a buffer to a later one that has only read and moved its cursor: the stream is
the same, at least as much of it is held, and the capacity may have grown. -/
structure Extends (b b' : Buffer) : Prop where
  stream_eq : b'.stream = b.stream
  filled_le : b.filled ≤ b'.filled
  settings_eq : b'.settings = b.settings
  capacity_le : b.capacity ≤ b'.capacity

theorem cursor_add_remaining (b : Buffer) : b.cursor + b.remaining = b.stream.length := by
  simp [cursor, remaining, pending, stream, contents]

namespace Extends

theorem refl (b : Buffer) : Extends b b :=
  ⟨rfl, Nat.le_refl _, rfl, Nat.le_refl _⟩

theorem trans {a b c : Buffer} (hab : Extends a b) (hbc : Extends b c) : Extends a c :=
  ⟨hbc.stream_eq.trans hab.stream_eq, Nat.le_trans hab.filled_le hbc.filled_le,
    hbc.settings_eq.trans hab.settings_eq, Nat.le_trans hab.capacity_le hbc.capacity_le⟩

/-- What the cursor has moved is what remains less. -/
theorem cursor_add_remaining_eq {b b' : Buffer} (h : Extends b b') :
    b'.cursor + b'.remaining = b.cursor + b.remaining := by
  rw [cursor_add_remaining, cursor_add_remaining, h.stream_eq]

instance : History Extends :=
  ⟨refl, trans⟩

end Extends

theorem Refilled.toExtends {b b' : Buffer} (h : Refilled b b') : Extends b b' := by
  obtain ⟨s, hs, hs'⟩ := h.taken
  exact ⟨by simp [stream, contents, h.passed_eq, hs, hs'],
    by simp [filled, h.passed_eq, hs], h.settings_eq, h.capacity_le⟩

/-! ## Single bytes -/

theorem pass_extends : Across Extends pass := by
  intro b
  cases h : b.ahead with
  | nil => simp [final, pass, h, Extends.refl]
  | cons byte rest =>
    simp only [final, pass, h]
    exact ⟨by simp [stream, contents, h], by simp [filled, h]; omega, rfl, Nat.le_refl _⟩

theorem passed_of_pass {b b' : Buffer} {byte : UInt8} (h : pass b = .ok (some byte) b') :
    b'.passed = b.passed.push byte := by
  cases ha : b.ahead with
  | nil => simp [pass, ha] at h
  | cons x rest =>
    simp only [pass, ha, EStateM.Result.ok.injEq, Option.some.injEq] at h
    obtain ⟨rfl, rfl⟩ := h
    rfl

theorem readByte_of_ahead {b : Buffer} (h : b.ahead ≠ []) : readByte b = pass b := by
  simp [readByte, Bind.bind, EStateM.bind, get_apply, h]

theorem readByte_of_nil {b : Buffer} (h : b.ahead = []) :
    readByte b = (refill >>= fun _ => pass) b := by
  simp [readByte, Bind.bind, EStateM.bind, get_apply, h]

theorem readByte_extends : Across Extends readByte := by
  intro b
  by_cases h : b.ahead = []
  · unfold final
    rw [readByte_of_nil h]
    exact Across.bind (fun b => (refill_refilled b).toExtends) (fun _ => pass_extends) b
  · unfold final
    rw [readByte_of_ahead h]
    exact pass_extends b

/-- A byte that was read is the last one before the cursor. -/
theorem passed_of_readByte {b b' : Buffer} {byte : UInt8}
    (h : readByte b = .ok (some byte) b') : b'.passed = b.passed.push byte := by
  by_cases ha : b.ahead = []
  · rw [readByte_of_nil ha, bind_eq_ok_iff] at h
    obtain ⟨_, b₁, hr, h⟩ := h
    rw [passed_of_pass h, ← final_of_ok hr, (refill_refilled b).passed_eq]
  · rw [readByte_of_ahead ha] at h
    exact passed_of_pass h

/-- Reading a byte leaves one less to be read. -/
theorem remaining_of_readByte {b b' : Buffer} {byte : UInt8}
    (h : readByte b = .ok (some byte) b') : b'.remaining + 1 = b.remaining := by
  have := (final_of_ok h ▸ readByte_extends b).cursor_add_remaining_eq
  have := passed_of_readByte h
  simp only [cursor, this, Array.size_push] at *
  omega

/-! ## Feeding machines -/

/-- Reads bytes and steps a machine with each, as long as the machine is live and input remains. A
step gets the byte and the offset behind it. -/
def feed {μ : Type} (live : μ → Bool) (step : μ → UInt8 → Nat → Except TableFault μ) (machine : μ) :
    BufferM μ
  | b =>
    if live machine then
      match _h : readByte b with
      | .ok (some byte) b' =>
        match step machine byte b'.cursor with
        | .ok machine => feed live step machine b'
        | .error fault => .error (.malformed fault) b'
      | .ok none b' => .ok machine b'
      | .error e b' => .error e b'
    else
      .ok machine b
  termination_by b => b.remaining
  decreasing_by exact Nat.lt_of_succ_le (Nat.le_of_eq (remaining_of_readByte _h))

/-- What holds across each read holds across the reads of a machine. -/
theorem feed_across {μ : Type} {R : Buffer → Buffer → Prop} [History R] (hread : Across R readByte)
    (live : μ → Bool) (step : μ → UInt8 → Nat → Except TableFault μ) (machine : μ) :
    Across R (feed live step machine) := by
  intro b
  unfold final
  fun_induction feed live step machine b with
  | case1 m b _ hl byte b' h m' hs ih => exact History.trans (final_of_ok h ▸ hread b) ih
  | case2 m b _ hl byte b' h fault hs => exact final_of_ok h ▸ hread b
  | case3 m b _ hl b' h => exact final_of_ok h ▸ hread b
  | case4 m b _ hl e b' h => exact final_of_error h ▸ hread b
  | case5 m b _ hl => exact History.refl b

theorem feed_extends {μ : Type} (live : μ → Bool)
    (step : μ → UInt8 → Nat → Except TableFault μ) (machine : μ) :
    Across Extends (feed live step machine) :=
  feed_across readByte_extends live step machine

/-- The cursor does not move back. -/
def Onward (b b' : Buffer) : Prop :=
  b.cursor ≤ b'.cursor

instance : History Onward :=
  ⟨fun _ => Nat.le_refl _, fun h h' => Nat.le_trans h h'⟩

theorem readByte_onward : Across Onward readByte := by
  have hpass : Across Onward pass := by
    intro b
    cases h : b.ahead <;> simp [Onward, final, pass, h, cursor]
  intro b
  unfold final
  by_cases h : b.ahead = []
  · rw [readByte_of_nil h]
    refine Across.bind (fun b => ?_) (fun _ => hpass) b
    simp [Onward, cursor, (refill_refilled b).passed_eq]
  · rw [readByte_of_ahead h]
    exact hpass b

theorem feed_onward {μ : Type} (live : μ → Bool)
    (step : μ → UInt8 → Nat → Except TableFault μ) (machine : μ) :
    Across Onward (feed live step machine) :=
  feed_across readByte_onward live step machine

/-! ## Moving the cursor -/

theorem contents_unread (b : Buffer) : b.unread.contents = b.contents := by
  unfold unread
  split
  · rename_i byte h
    obtain ⟨xs, hxs⟩ := Array.back?_eq_some_iff.1 h
    simp [contents, hxs]
  · rfl

theorem contents_seek (b : Buffer) (offset : Nat) : (b.seek offset).contents = b.contents := by
  unfold seek
  split
  · have : (b.passed.extract offset b.cursor).toList = b.passed.toList.drop offset := by
      rw [Array.toList_extract, List.extract_eq_take_drop, List.take_of_length_le (by simp [cursor])]
    simp only [contents, this, Array.toList_shrink, ← List.append_assoc, List.take_append_drop]
  · simp [contents]

theorem filled_seek (b : Buffer) (offset : Nat) : (b.seek offset).filled = b.filled := by
  simpa [contents, filled] using congrArg List.length (contents_seek b offset)

theorem cursor_seek (b : Buffer) (offset : Nat) : (b.seek offset).cursor = min offset b.filled := by
  unfold seek
  split
  · simp_all [cursor, filled]
    omega
  · simp_all [cursor, filled]
    omega

/-- Moving within the held bytes keeps the stream. -/
theorem extends_of_contents {b b' : Buffer} (hc : b'.contents = b.contents)
    (hs : b'.source = b.source) (hf : b'.settings = b.settings) (hk : b'.capacity = b.capacity) :
    Extends b b' := by
  have hl : b'.filled = b.filled := by
    have := congrArg List.length hc
    simpa [contents, filled] using this
  exact ⟨by simp [stream, hc, hs], Nat.le_of_eq hl.symm, hf, Nat.le_of_eq hk.symm⟩

theorem unread_extends (b : Buffer) : Extends b b.unread := by
  apply extends_of_contents (contents_unread b) <;> unfold unread <;> split <;> rfl

theorem seek_extends (b : Buffer) (offset : Nat) : Extends b (b.seek offset) := by
  apply extends_of_contents (contents_seek b offset) <;> unfold seek <;> split <;> rfl

theorem remaining_trim (b : Buffer) (keepFrom : Nat) :
    (b.trim keepFrom).2.remaining = b.remaining := by
  simp only [trim]
  split <;> rfl

/-- A byte that is ahead is read. -/
theorem readByte_of_cons {b : Buffer} {byte : UInt8} {rest : List UInt8}
    (h : b.ahead = byte :: rest) :
    readByte b = .ok (some byte) { b with passed := b.passed.push byte, ahead := rest } := by
  rw [readByte_of_ahead (by simp [h])]
  simp [pass, h]

end Buffer

end Munch
