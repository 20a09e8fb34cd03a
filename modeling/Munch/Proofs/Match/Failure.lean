-- SUMMARY: A match attempt that fails half way: it has passed the bytes it had read, and they are still held.
import Munch.Match.Longest
import Munch.Proofs.Buffer.Room
import Munch.Proofs.Buffer.Steady

/-! # Failed attempts

A source that fails, or memory that runs out, ends an attempt where it is. The search for the longest
match and the search for trailing context both leave at the read that failed, without going back to
the start of the attempt. -/

namespace Munch

open Buffer

/-- A lookup changes nothing, and only a fault of the tables makes it fail. -/
theorem ends.liftFault_of {σ α : Type} {r : Except TableFault α} {Q : α → σ → Prop}
    {E : ScanError → σ → Prop} {s : σ} (hok : ∀ a, r = .ok a → Q a s)
    (hfault : ∀ fault, E (.malformed fault) s) : ends (Munch.liftFault r) Q E s := by
  cases r with
  | ok a => exact hok a rfl
  | error fault => exact hfault fault

/-- A failure in an attempt from the offset `start`. The cursor is not before the start; and if the
tables are not at fault, and the source is asked for blocks, no byte that is held is ahead. -/
structure Buffer.Stranded (start : Nat) (e : ScanError) (b : Buffer) : Prop where
  start_le : start ≤ b.cursor
  ahead_eq : ¬ e.IsFault → b.settings.interactive = false → b.ahead = []

namespace Buffer

theorem Stranded.fault {start : Nat} {b : Buffer} (h : start ≤ b.cursor) (fault : TableFault) :
    Stranded start (.malformed fault) b :=
  ⟨h, fun hfault => absurd ⟨fault, rfl⟩ hfault⟩

/-! ## Reads -/

/-- A read of the source that fails delivers nothing. -/
theorem fetch_fails (count : Nat) (b : Buffer) :
    ends (fetch count) (fun _ _ => True) (fun _ b' => b'.ahead = b.ahead) b := by
  refine .of_result (fun _ _ _ => trivial) fun e b' h => ?_
  unfold fetch at h
  dsimp only at h
  split at h
  · cases h
  · rename_i text hout
    obtain ⟨-, rfl⟩ := EStateM.Result.error.inj h
    simp [receive, append, Fetch.delivered, hout, Except.toOption]

theorem refillBlock_fails (b : Buffer) :
    ends refillBlock (fun _ _ => True) (fun _ b' => b'.ahead = b.ahead) b := by
  refine .bind (.get (.bind ((reserve_ends _ b).mono (fun _ b₁ h => .bind ?_) fun e b' h => ?_)))
  · obtain ⟨capacity, rfl⟩ := h.eq
    exact (fetch_fails _ _).mono (fun _ _ _ => .pure trivial) fun _ _ => id
  · rw [h.2]

/-- A read that fails has found no byte ahead; what a line had delivered before is ahead then, a block
that fails delivers nothing. -/
theorem readByte_strands (b : Buffer) :
    ends readByte (fun _ b' => b.cursor ≤ b'.cursor) (Stranded b.cursor) b := by
  have honward : ends readByte (fun _ b' => b.cursor ≤ b'.cursor) (fun _ b' => b.cursor ≤ b'.cursor) b :=
    .of_across readByte_onward b
  refine .of_result (fun _ _ h => honward.ok h) fun e b' h => ⟨honward.error h, fun _ hblock => ?_⟩
  have hsettings : b'.settings = b.settings := (final_of_error h ▸ readByte_extends b).settings_eq
  by_cases hahead : b.ahead = []
  · rw [readByte_of_nil hahead, bind_eq_error_iff] at h
    rcases h with h | ⟨_, b₁, -, h⟩
    · rw [refill_eq, ← hsettings, hblock] at h
      rw [(refillBlock_fails b).error h, hahead]
    · exact absurd h (pass_ne_error e b₁ b')
  · rw [readByte_of_ahead hahead] at h
    exact absurd h (pass_ne_error e b b')

/-- Machines are fed onward from the start of the attempt, whatever they do. -/
theorem feed_strands {μ : Type} (live : μ → Bool) (step : μ → UInt8 → Nat → Except TableFault μ)
    (machine : μ) {start : Nat} {b : Buffer} (h : start ≤ b.cursor) :
    ends (feed live step machine) (fun _ b' => b.cursor ≤ b'.cursor) (Stranded start) b := by
  unfold ends
  have hread := readByte_strands
  fun_induction feed live step machine b with
  | case1 m b _ hl byte b' hrun m' hs ih =>
    have hle := (hread b).ok hrun
    have hrest := ih (Nat.le_trans h hle)
    revert hrest
    cases feed live step m' b' with
    | ok m'' b'' => exact Nat.le_trans hle
    | error e b'' => exact id
  | case2 m b _ hl byte b' hrun fault hs =>
    exact .fault (Nat.le_trans h ((hread b).ok hrun)) fault
  | case3 m b _ hl b' hrun => exact (hread b).ok hrun
  | case4 m b _ hl e b' hrun =>
    have hstranded := (hread b).error hrun
    exact ⟨Nat.le_trans h hstranded.start_le, hstranded.ahead_eq⟩
  | case5 m b _ hl => exact Nat.le_refl _

theorem le_cursor_seek {start : Nat} {b : Buffer} (h : start ≤ b.cursor) :
    start ≤ (b.seek start).cursor := by
  rw [cursor_seek]
  exact Nat.le_min.2 ⟨Nat.le_refl _, Nat.le_trans h b.cursor_le_filled⟩

end Buffer

/-! ## Attempts -/

namespace Tables

variable (t : Tables) {start : Nat} {b : Buffer}

theorem bestSplit_strands (entry : State) (rule : Rule) (trailing : State) (h : start ≤ b.cursor) :
    ends (t.bestSplit entry rule trailing start) (fun _ b' => start ≤ b'.cursor) (Stranded start)
      b := by
  have hseek := le_cursor_seek h
  refine .bind (.modify (.bind ?_))
  refine (feed_strands _ _ _ hseek).mono (fun _ b' hle => ?_) fun _ _ => id
  exact .bind (.modify (.pure (le_cursor_seek (Nat.le_trans hseek hle))))

theorem consider_strands (entry : State) (stop : Nat) (sel : Selection) (rule : Rule)
    (h : start ≤ b.cursor) :
    ends (t.consider start entry stop sel rule) (fun _ b' => start ≤ b'.cursor) (Stranded start)
      b := by
  refine .bind (.liftFault_of (fun trailing _ => ?_) (.fault h))
  cases trailing with
  | none => exact .pure h
  | some trailing =>
    dsimp only
    split
    · exact .pure h
    · exact .bind ((t.bestSplit_strands entry rule trailing h).mono (fun _ _ h' => .pure h')
        fun _ _ => id)

theorem chooseWinner_strands (tracks : List Track) (h : start ≤ b.cursor) :
    ends (t.chooseWinner start tracks) (fun _ b' => start ≤ b'.cursor) (Stranded start) b := by
  refine .foldlM h fun track _ best b₁ h₁ => .bind ?_
  refine (ends.foldlM (Q := fun _ b' => start ≤ b'.cursor) h₁ fun point _ sel b₂ h₂ => ?_).mono
    (fun _ _ h' => .pure h') fun _ _ => id
  refine .bind (.liftFault_of (fun rules _ => ?_) (.fault h₂))
  exact .foldlM h₂ fun rule _ sel b₃ h₃ => t.consider_strands track.entry point.stop sel rule h₃

/-- An attempt that fails leaves the cursor where the read failed. It does not go back to its
start. -/
theorem longestMatch_strands (sc : StartCondition) (atLineStart : Bool) (b : Buffer) :
    ends (t.longestMatch sc atLineStart) (fun _ _ => True) (Stranded b.cursor) b := by
  have hstart := Nat.le_refl b.cursor
  refine .bind (.liftFault_of (fun tracks _ => ?_) (.fault hstart))
  refine .bind (.get (.bind ((feed_strands _ _ _ hstart).mono (fun tracks b₁ h₁ => ?_)
    fun _ _ => id)))
  refine .bind (.get ?_)
  split
  · exact .pure trivial
  · rename_i hmoved
    refine .bind (.modify (.bind ?_))
    -- Some byte was read, so that stepping back over one does not reach behind the start.
    have hback : b.cursor ≤ (if tracks.any Track.alive then b₁ else b₁.unread).cursor := by
      split
      · exact h₁
      · rw [cursor_unread]
        omega
    refine (t.chooseWinner_strands tracks hback).mono (fun winner b₂ _ => ?_) fun _ _ => id
    cases winner with
    | none => exact .bind (.modify (.pure trivial))
    | some winner => exact .bind (.modify (.pure trivial))

end Tables

end Munch
