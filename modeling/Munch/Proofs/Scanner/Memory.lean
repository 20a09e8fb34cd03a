-- SUMMARY: How much memory a scanner needs: what it asks for is bounded by its stream, which never becomes longer.
import Munch.Proofs.Buffer.Growth
import Munch.Proofs.WeakestPre
import Munch.Scanner.Advance

/-! # Memory

A buffer that grows asks for room for the bytes that it holds and a block more. Advancing does not
make the stream of a scanner longer, so memory for the whole stream and a block, doubled, is enough
for all of it. -/

namespace Munch

/-- Memory can hold some bytes and a block more, also if the capacity is doubled. -/
structure BufferSettings.Suffices (settings : BufferSettings) (count : Nat) : Prop where
  unlimited : settings.capacityLimit = none
  heap : 2 * (count + settings.blockSize + 2) ≤ settings.heapLimit
  word : 2 * (count + settings.blockSize + 2) ≤ UInt64.size

/-- Every failure to allocate in a computation leaves a state with the property. -/
def Starves {σ α : Type} (P : Nat → σ → Prop) (m : EStateM ScanError σ α) : Prop :=
  ∀ s n s', m s = .error (.allocation n) s' → P n s'

namespace Starves

variable {σ α β : Type} {P : Nat → σ → Prop}

theorem pure (a : α) : Starves P (Pure.pure a) := by
  intro s n s' h
  cases h

theorem get : Starves P MonadState.get := by
  intro s n s' h
  cases h

theorem modify (f : σ → σ) : Starves P (modify f) := by
  intro s n s' h
  cases h

theorem liftFault (r : Except TableFault α) : Starves P (liftFault r) := by
  intro s n s' h
  cases r with
  | ok a => cases h
  | error fault => cases h

theorem bind {m : EStateM ScanError σ α} {f : α → EStateM ScanError σ β} (hm : Starves P m)
    (hf : ∀ a, Starves P (f a)) : Starves P (m >>= f) := by
  intro s n s' h
  rcases bind_eq_error_iff.1 h with h | ⟨a, t, -, h⟩
  · exact hm s n s' h
  · exact hf a t n s' h

theorem foldlM {f : β → α → EStateM ScanError σ β} (hf : ∀ b a, Starves P (f b a)) (as : List α)
    (b : β) : Starves P (as.foldlM f b) := by
  induction as generalizing b with
  | nil => exact pure b
  | cons a as ih => exact bind (hf b a) ih

end Starves

/-! ## Growing -/

namespace Buffer

theorem grown?_ne_none {b : Buffer} {n : Nat} (hlt : b.capacity < n)
    (hlimit : b.settings.capacityLimit = none) (hheap : 2 * n ≤ b.settings.heapLimit)
    (hword : 2 * n ≤ UInt64.size) : b.grown? n ≠ none := by
  obtain ⟨c, hmem, hle, hbelow⟩ := exists_doubling hlt hword
  obtain ⟨d, hgrown⟩ := grown?_of_mem hlimit hmem hle (by omega) (by omega)
  rw [hgrown]
  exact Option.some_ne_none d

/-- A request that failed, for not more than the held bytes and a block. -/
structure Starved (n : Nat) (b : Buffer) : Prop where
  capacity_lt : b.capacity < n
  request_le : n ≤ b.filled + b.settings.blockSize + 2
  grown?_eq : b.grown? n = none

theorem Starved.not_suffices {n count : Nat} {b : Buffer} (h : b.Starved n)
    (hfilled : b.filled ≤ count) : ¬ b.settings.Suffices count := by
  intro hsuffices
  have hle := h.request_le
  have hheap := hsuffices.heap
  have hword := hsuffices.word
  exact grown?_ne_none h.capacity_lt hsuffices.unlimited (by omega) (by omega) h.grown?_eq

/-! ## Requests of a buffer -/

/-- Reserving room for the held bytes and `extra` more. -/
theorem reserve_starves {b : Buffer} {extra : Nat} (hextra : extra ≤ b.settings.blockSize + 2)
    {n : Nat} {b' : Buffer} (h : reserve (b.filled + extra) b = .error (.allocation n) b') :
    b'.Starved n := by
  obtain ⟨rfl, rfl, hlt, hgrown⟩ := reserve_eq_allocation h
  exact ⟨hlt, by omega, hgrown⟩

theorem fetch_starves (count : Nat) : Starves Starved (fetch count) := by
  intro b n b' h
  unfold fetch at h
  dsimp only at h
  split at h
  · cases h
  · cases (EStateM.Result.error.inj h).1

theorem refillBlock_starves : Starves Starved refillBlock := by
  intro b n b' h
  rcases bind_eq_error_iff.1 h with h | ⟨_, _, hget, h⟩
  · cases h
  obtain ⟨rfl, rfl⟩ := EStateM.Result.ok.inj hget
  rcases bind_eq_error_iff.1 h with h | ⟨_, b₁, -, h⟩
  · exact reserve_starves (Nat.le_succ _) h
  · exact (fetch_starves _).bind (fun _ => .pure _) b₁ n b' h

theorem refillByte_starves : Starves Starved refillByte := by
  intro b n b' h
  rcases bind_eq_error_iff.1 h with h | ⟨_, _, hget, h⟩
  · cases h
  obtain ⟨rfl, rfl⟩ := EStateM.Result.ok.inj hget
  rcases bind_eq_error_iff.1 h with h | ⟨_, b₁, -, h⟩
  · exact reserve_starves (Nat.le_add_left _ _) h
  · exact (fetch_starves _).bind (fun _ => .pure _) b₁ n b' h

theorem refillLine_starves : Starves Starved refillLine := by
  intro b n b'
  fun_induction refillLine b with
  | case1 b _ b₁ hrun =>
    intro h
    cases h
  | case2 b _ byte b₁ hrun hne ih => exact ih
  | case3 b _ b₁ hrun =>
    intro h
    cases h
  | case4 b _ e b₁ hrun =>
    intro h
    obtain ⟨rfl, rfl⟩ := EStateM.Result.error.inj h
    exact refillByte_starves b n b₁ hrun

theorem refill_starves : Starves Starved refill := by
  refine .bind .get fun b => ?_
  split
  · exact refillLine_starves
  · exact refillBlock_starves

theorem pass_starves : Starves Starved pass :=
  fun b _ b' h => absurd h (pass_ne_error _ b b')

theorem readByte_starves : Starves Starved readByte := by
  intro b n b' h
  by_cases hnil : b.ahead = []
  · rw [readByte_of_nil hnil] at h
    exact refill_starves.bind (fun _ => pass_starves) b n b' h
  · rw [readByte_of_ahead hnil] at h
    exact pass_starves b n b' h

theorem feed_starves {μ : Type} (live : μ → Bool) (step : μ → UInt8 → Nat → Except TableFault μ)
    (machine : μ) : Starves Starved (feed live step machine) := by
  intro b n b'
  fun_induction feed live step machine b with
  | case1 m b _ hl byte b₁ hread m' hs ih => exact ih
  | case2 m b _ hl byte b₁ hread fault hs =>
    intro h
    cases h
  | case3 m b _ hl b₁ hread =>
    intro h
    cases h
  | case4 m b _ hl e b₁ hread =>
    intro h
    obtain ⟨rfl, rfl⟩ := EStateM.Result.error.inj h
    exact readByte_starves b n b₁ hread
  | case5 m b _ hl =>
    intro h
    cases h

/-! ## Narrowing -/

/-- The later buffer has the same settings, and no longer stream. -/
structure Narrows (b b' : Buffer) : Prop where
  settings_eq : b'.settings = b.settings
  length_le : b'.stream.length ≤ b.stream.length

theorem Narrows.refl (b : Buffer) : b.Narrows b :=
  ⟨rfl, Nat.le_refl _⟩

theorem Narrows.trans {b b' b'' : Buffer} (h : b.Narrows b') (h' : b'.Narrows b'') :
    b.Narrows b'' :=
  ⟨h'.settings_eq.trans h.settings_eq, Nat.le_trans h'.length_le h.length_le⟩

theorem Extends.narrows {b b' : Buffer} (h : b.Extends b') : b.Narrows b' :=
  ⟨h.settings_eq, Nat.le_of_eq (congrArg List.length h.stream_eq)⟩

theorem trim_narrows (b : Buffer) (keepFrom : Nat) : b.Narrows (b.trim keepFrom).2 := by
  unfold trim
  dsimp only
  split
  · exact .refl b
  · refine ⟨rfl, ?_⟩
    simp only [stream, contents, List.length_append, Array.length_toList, Array.size_extract, cursor]
    omega

theorem settings_poke (b : Buffer) (offset : Nat) (byte : UInt8) :
    (b.poke offset byte).settings = b.settings := by
  unfold poke
  split
  · rfl
  · split
    · rfl
    · rfl

theorem filled_le_stream (b : Buffer) : b.filled ≤ b.stream.length := by
  simp only [filled, stream, contents, List.length_append, Array.length_toList]
  exact Nat.le_add_right _ _

end Buffer

/-! ## Requests of an attempt -/

namespace Tables

open Buffer

theorem consider_starves (t : Tables) (start : Nat) (entry : State) (stop : Nat) (sel : Selection)
    (rule : Rule) : Starves Starved (t.consider start entry stop sel rule) := by
  refine .bind (.liftFault _) fun trailing => ?_
  cases trailing with
  | none => exact .pure _
  | some trailing =>
    dsimp only
    split
    · exact .pure _
    · refine .bind ?_ fun _ => .pure _
      exact .bind (.modify _) fun _ => .bind (feed_starves _ _ _) fun _ =>
        .bind (.modify _) fun _ => .pure _

theorem chooseWinner_starves (t : Tables) (start : Nat) (tracks : List Track) :
    Starves Starved (t.chooseWinner start tracks) := by
  refine .foldlM (fun best track => ?_) tracks none
  refine .bind (.foldlM (fun sel point => ?_) _ _) fun _ => .pure _
  exact .bind (.liftFault _) fun rules =>
    .foldlM (fun sel rule => consider_starves _ _ _ _ _ _) rules sel

theorem longestMatch_starves (t : Tables) (sc : StartCondition) (atLineStart : Bool) :
    Starves Starved (t.longestMatch sc atLineStart) := by
  refine .bind (.liftFault _) fun tracks => .bind .get fun b => ?_
  refine .bind (feed_starves _ _ _) fun tracks => .bind .get fun b' => ?_
  split
  · exact .pure _
  · refine .bind (.modify _) fun _ => .bind (chooseWinner_starves _ _ _) fun winner => ?_
    cases winner with
    | none => exact .bind (.modify _) fun _ => .pure _
    | some winner => exact .bind (.modify _) fun _ => .pure _

end Tables

/-! ## Requests of a scanner -/

namespace Scanner

/-- A computation narrows the scanner, and fails to allocate only if the buffer cannot grow to what
it holds and a block. -/
def Frugal {α : Type} (m : ScannerM α) : Prop :=
  ∀ s, match m s with
    | .ok _ s' => s.buffer.Narrows s'.buffer
    | .error e s' => s.buffer.Narrows s'.buffer ∧ ∀ n, e = .allocation n → s'.buffer.Starved n

namespace Frugal

variable {α β : Type}

theorem pure (a : α) : Frugal (Pure.pure a) :=
  fun _ => .refl _

theorem get : Frugal MonadState.get :=
  fun _ => .refl _

theorem modify {f : Scanner → Scanner} (h : ∀ s : Scanner, s.buffer.Narrows (f s).buffer) :
    Frugal (modify f) :=
  h

theorem bind {m : ScannerM α} {f : α → ScannerM β} (hm : Frugal m) (hf : ∀ a, Frugal (f a)) :
    Frugal (m >>= f) := by
  intro s
  have hfirst := hm s
  simp only [Bind.bind, EStateM.bind]
  revert hfirst
  cases m s with
  | error e s' => exact id
  | ok a s' =>
    intro hfirst
    have hsecond := hf a s'
    dsimp only
    revert hsecond
    cases f a s' with
    | ok b s'' => exact hfirst.trans
    | error e s'' => exact fun hsecond => ⟨hfirst.trans hsecond.1, hsecond.2⟩

theorem onBuffer {m : BufferM α} (hextends : Across Buffer.Extends m)
    (hstarves : Starves Buffer.Starved m) : Frugal (onBuffer m) := by
  intro s
  have hbuffer := hextends s.buffer
  have hfails := hstarves s.buffer
  unfold final at hbuffer
  unfold Scanner.onBuffer
  revert hbuffer hfails
  cases m s.buffer with
  | ok a b =>
    exact fun hbuffer _ => hbuffer.narrows
  | error e b =>
    intro hbuffer hfails
    exact ⟨hbuffer.narrows, fun n he => hfails n b (he ▸ rfl)⟩

end Frugal

theorem write_frugal (bytes : List UInt8) : Frugal (write bytes) := by
  intro s
  have hsink : ∀ n output, Sink.write bytes s.output ≠ .error (.allocation n) output := by
    intro n output h
    unfold Sink.write at h
    dsimp only at h
    split at h
    · cases h
    · cases (EStateM.Result.error.inj h).1
  unfold write
  revert hsink
  cases Sink.write bytes s.output with
  | ok _ output => exact fun _ => .refl _
  | error e output =>
    exact fun hsink => ⟨.refl _, fun n he => absurd (he ▸ rfl) (hsink n output)⟩

theorem flush_frugal : Frugal flush := by
  intro s
  unfold flush
  cases s.unmatched with
  | none => exact .refl _
  | some run => exact write_frugal _ { s with unmatched := none }

theorem prepare_frugal : Frugal prepare := by
  refine .bind .get fun s => ?_
  split
  · exact .bind flush_frugal fun _ => .modify fun s => Buffer.trim_narrows s.buffer s.keepFrom
  · exact .modify fun s => Buffer.trim_narrows s.buffer s.keepFrom

theorem addUnmatched_frugal (offset : Nat) (byte : UInt8) : Frugal (addUnmatched offset byte) := by
  refine .bind (.bind .get fun s => ?_) fun _ => .modify fun _ => .refl _
  split
  · exact .pure _
  · exact .bind flush_frugal fun _ => .modify fun _ => .refl _

theorem skipByte_frugal : Frugal skipByte := by
  refine .bind .get fun s => .bind (.onBuffer Buffer.readByte_extends Buffer.readByte_starves) ?_
  intro found
  cases found with
  | some byte => exact addUnmatched_frugal _ _
  | none => exact .pure _

theorem attempt_frugal : Frugal attempt := by
  refine .bind prepare_frugal fun _ => .bind .get fun s => ?_
  refine .bind (.onBuffer (Tables.longestMatch_extends _ _ _) (Tables.longestMatch_starves _ _ _)) ?_
  intro outcome
  cases outcome with
  | accepted rule length =>
    exact .bind flush_frugal fun _ => .bind (.modify fun _ => .refl _) fun _ => .pure _
  | noMatch =>
    exact .bind (.modify fun _ => .refl _) fun _ => .bind skipByte_frugal fun _ => .pure _
  | endOfInput =>
    exact .bind flush_frugal fun _ => .bind (.modify fun _ => .refl _) fun _ => .pure _

theorem advance_frugal : Frugal advance := by
  intro s
  have hattempt := attempt_frugal
  fun_induction advance s with
  | case1 s _ rule s' =>
    rename_i hrun
    have hstep := hattempt s
    rw [hrun] at hstep
    exact hstep
  | case2 s _ s' =>
    rename_i hrun
    have hstep := hattempt s
    rw [hrun] at hstep
    exact hstep
  | case3 s _ s' =>
    rename_i hrun ih
    have hstep := hattempt s
    rw [hrun] at hstep
    revert ih
    cases advance s' with
    | ok found s'' => exact fun ih => hstep.trans ih
    | error e s'' => exact fun ih => ⟨hstep.trans ih.1, ih.2⟩
  | case4 s _ e s' =>
    rename_i hrun
    have hstep := hattempt s
    rw [hrun] at hstep
    exact hstep

theorem settings_terminate (s : Scanner) : s.terminate.buffer.settings = s.buffer.settings := by
  show (s.buffer.cover s.window.stop).2.settings = s.buffer.settings
  unfold Buffer.cover
  cases s.buffer.settings.terminator with
  | none => rfl
  | some terminator =>
    dsimp only
    split
    · exact Buffer.settings_poke s.buffer s.window.stop terminator
    · rfl

theorem settings_unterminate (s : Scanner) : s.unterminate.buffer.settings = s.buffer.settings := by
  unfold unterminate
  cases s.covered with
  | none => rfl
  | some covered =>
    show (s.buffer.uncover covered).settings = s.buffer.settings
    unfold Buffer.uncover
    split
    · exact Buffer.settings_poke s.buffer covered.offset covered.byte
    · rfl

theorem settings_of_advance {s s' : Scanner} {found : Option Rule}
    (h : s.advance = .ok found s') : s'.buffer.settings = s.buffer.settings := by
  have hnarrows := advance_frugal s
  rw [h] at hnarrows
  exact hnarrows.settings_eq

/-- With memory for its stream a scanner advances without a failure to allocate. -/
theorem advance_withinMemory {s : Scanner} {count : Nat}
    (hsuffices : s.buffer.settings.Suffices count) (hstream : s.buffer.stream.length ≤ count) :
    WithinMemory s.advance := by
  intro n s' h
  have hfrugal := advance_frugal s
  rw [h] at hfrugal
  obtain ⟨hnarrows, hstarved⟩ := hfrugal
  refine (hstarved n rfl).not_suffices ?_ (hnarrows.settings_eq ▸ hsuffices)
  calc s'.buffer.filled ≤ s'.buffer.stream.length := s'.buffer.filled_le_stream
    _ ≤ s.buffer.stream.length := hnarrows.length_le
    _ ≤ count := hstream

end Scanner

end Munch
