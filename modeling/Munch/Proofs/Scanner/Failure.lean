-- SUMMARY: A scan that fails in a search has passed the bytes that the search had read; the next scan begins behind them.
import Munch.Proofs.Match.Failure
import Munch.Proofs.Scanner.Coherent
import Munch.Proofs.Scanner.Lexer

/-! # Failed scans

A scan may be taken up again after an error. If the source failed, or the buffer could not grow, in
the search for a match, the scanner is left where the search was. The bytes that the search had read
belong to no match and are not written, but the next attempt begins behind them. -/

namespace Munch

open Scanner

/-! ## Attempts that fail -/

/-- A search from `s` has failed behind the bytes `lost`. They have been passed and are still held
behind the cursor, and nothing else has changed. If the tables are not at fault, and the source is
asked for blocks, they are all the bytes that were held or read. -/
structure Scanner.Strands (s : Scanner) (e : ScanError) (lost : List UInt8) (s' : Scanner) :
    Prop where
  eq : ∃ buffer, s' = { s with buffer }
  passed_eq : s'.buffer.passed.toList = s.buffer.passed.toList ++ lost
  pending_eq : s.buffer.pending = lost ++ s'.buffer.pending
  drained : ¬ e.IsFault → s.buffer.settings.interactive = false →
    s'.buffer.pending = s'.buffer.source.bytes

namespace Scanner

variable {s s' : Scanner} {e : ScanError}

/-- Going back to where the search began would bring the lost bytes back. -/
theorem Strands.pending_seek {lost : List UInt8} (h : s.Strands e lost s') :
    (s'.buffer.seek s.buffer.cursor).pending = s.buffer.pending := by
  have hcursor : s.buffer.cursor = s.buffer.passed.toList.length := Array.length_toList.symm
  have hle : s.buffer.cursor ≤ s'.buffer.cursor := by
    have hlength := congrArg List.length h.passed_eq
    rw [List.length_append, Array.length_toList, ← hcursor] at hlength
    exact Nat.le.intro hlength.symm
  rw [(seek_back hle).2.1, h.passed_eq, hcursor, List.drop_left, h.pending_eq]

/-- What a search leaves that fails in the buffer. -/
theorem Strands.of_buffer {buffer : Buffer} (hextends : s.buffer.Extends buffer)
    (hstranded : buffer.Stranded s.buffer.cursor e) :
    s.Strands e (s.buffer.pending.take (buffer.cursor - s.buffer.cursor)) { s with buffer } := by
  have hcursor : s.buffer.cursor + (buffer.cursor - s.buffer.cursor) = buffer.cursor :=
    Nat.add_sub_cancel' hstranded.start_le
  have hpending : s.buffer.pending.drop (buffer.cursor - s.buffer.cursor) = buffer.pending := by
    rw [s.buffer.pending_eq_drop, List.drop_drop, hcursor, ← hextends.stream_eq,
      ← buffer.pending_eq_drop]
  refine ⟨⟨buffer, rfl⟩, ?_, ?_, fun hfault hblock => ?_⟩
  · show buffer.passed.toList = _
    rw [buffer.passed_eq_take, hextends.stream_eq, s.buffer.passed_eq_take, s.buffer.pending_eq_drop,
      ← List.take_add, hcursor]
  · show s.buffer.pending = _ ++ buffer.pending
    rw [← hpending, List.take_append_drop]
  · show buffer.pending = buffer.source.bytes
    rw [Buffer.pending, hstranded.ahead_eq hfault (hextends.settings_eq ▸ hblock), List.nil_append]

/-- Making room leaves the pending input alone, and fails only in writing. -/
theorem prepare_pending (s : Scanner) :
    ends prepare (fun _ s' => s'.buffer.pending = s.buffer.pending)
      (fun e s' => flush s = .error e s') s := by
  refine .bind (.get (.whenThen ?_))
  split
  · refine .of_result (fun _ s₁ h => .modify ?_) fun _ _ => id
    obtain ⟨output, rfl⟩ := (flush_ends s).ok h
    exact (trim_spec s.buffer _).2.2.1
  · exact .pure (.modify (trim_spec s.buffer _).2.2.1)

/-- An output without a limit takes everything. -/
theorem limit_of_flush (h : flush s = .error e s') : s'.output.limit ≠ none := by
  intro hlimit
  have hwrites : ∀ bytes output output', Sink.write bytes output = .error e output' →
      output'.limit ≠ none := by
    intro bytes output output' hwrite hnone
    unfold Sink.write at hwrite
    dsimp only at hwrite
    split at hwrite
    · cases hwrite
    · rename_i hfits
      obtain ⟨-, rfl⟩ := EStateM.Result.error.inj hwrite
      have hroom : output.room bytes.length = bytes.length := by
        rw [Sink.room, show output.limit = none from hnone, Option.elim_none]
      exact hfits hroom
  unfold flush write at h
  split at h
  · cases h
  · split at h
    · cases h
    · rename_i hwrite
      obtain ⟨rfl, rfl⟩ := EStateM.Result.error.inj h
      exact hwrites _ _ _ hwrite hlimit

/-- A byte that is ahead is skipped, unless the run before it cannot be written. -/
theorem skipByte_fails (hahead : s.buffer.ahead ≠ []) :
    ends skipByte (fun _ _ => True) (fun e s' => ∃ s₁, flush s₁ = .error e s') s := by
  obtain ⟨byte, rest, hcons⟩ := List.exists_cons_of_ne_nil hahead
  refine .bind (.get (.bind (.onBuffer (.of_ok (Buffer.readByte_of_cons hcons) ?_))))
  refine .bind (.bind (.get ?_))
  split
  · exact .pure (.modify trivial)
  · exact .bind (.of_result (fun _ _ _ => .modify (.modify trivial)) fun _ _ h => ⟨_, h⟩)

/-- An attempt fails in writing unmatched bytes, or else in the search. -/
theorem attempt_fails (s : Scanner) :
    ends attempt (fun _ _ => True) (fun e s' => (∃ s₁, flush s₁ = .error e s') ∨
      ∃ s₁ lost, prepare s = .ok () s₁ ∧ s₁.buffer.pending = s.buffer.pending ∧
        s₁.Strands e lost s') s := by
  refine .bind (.of_result (fun _ s₁ hprepare => ?_) fun e s' h => .inl ⟨s, (prepare_pending s).error h⟩)
  have hpending := (prepare_pending s).ok hprepare
  refine .bind (.get (.bind (.onBuffer (.of_result (fun outcome buffer hrun => ?_)
    fun e buffer hrun => ?_))))
  · have hflush (step : Step) (f : Scanner → Scanner) :
        ends (do flush; modify f; return step) (fun _ _ => True)
          (fun e s' => (∃ s₁, flush s₁ = .error e s') ∨ ∃ s₁ lost, prepare s = .ok () s₁ ∧
            s₁.buffer.pending = s.buffer.pending ∧ s₁.Strands e lost s') { s₁ with buffer } :=
      .bind (.of_result (fun _ _ _ => .bind (.modify (.pure trivial))) fun _ _ h => .inl ⟨_, h⟩)
    cases outcome with
    | accepted rule length => exact hflush (.matched rule) _
    | endOfInput => exact hflush .ended _
    | noMatch =>
      refine .bind (.modify (.bind ((skipByte_fails ?_).mono (fun _ _ _ => .pure trivial)
        fun _ _ => .inl)))
      exact (Tables.longestMatch_noMatch hrun).2
  · refine .inr ⟨s₁, _, hprepare, hpending, Strands.of_buffer ?_ ?_⟩
    · exact final_of_error hrun ▸ Tables.longestMatch_extends _ _ _ s₁.buffer
    · exact (s₁.tables.longestMatch_strands _ _ s₁.buffer).error hrun

end Scanner

/-! ## Scans that fail -/

/-- A scan in the first state comes to begin an attempt in the second one. -/
inductive Hooks.Reaches {σ : Type} (hooks : Hooks σ) : Scanner × σ → Scanner × σ → Prop where
  | here {st : Scanner × σ} : Reaches hooks st st
  | skipped {s s₁ : Scanner} {x : σ} {st : Scanner × σ} : attempt s = .ok .skipped s₁ →
      Reaches hooks (s₁, x) st → Reaches hooks (s, x) st
  | matched {s s₁ : Scanner} {x : σ} {rule : Rule} {st₁ st : Scanner × σ} :
      attempt s = .ok (.matched rule) s₁ → hooks.runAction rule (s₁, x) = .ok .resume st₁ →
      Reaches hooks st₁ st → Reaches hooks (s, x) st
  | ended {s s₁ : Scanner} {x : σ} {st₁ st : Scanner × σ} : attempt s = .ok .ended s₁ →
      hooks.onEnd (s₁, x) = .ok false st₁ → Reaches hooks st₁ st → Reaches hooks (s, x) st

/-- A scan that has begun an attempt in `st` fails in `st'`, but not in the search for a match. -/
inductive Hooks.FailsBeside {σ : Type} (hooks : Hooks σ) (st : Scanner × σ) (e : ScanError)
    (st' : Scanner × σ) : Prop where
  /-- The action of a match failed. -/
  | action {rule : Rule} {s₁ : Scanner} : attempt st.1 = .ok (.matched rule) s₁ →
      hooks.runAction rule (s₁, st.2) = .error e st' → FailsBeside hooks st e st'
  /-- The hook at the end of the input failed. -/
  | hook {s₁ : Scanner} : attempt st.1 = .ok .ended s₁ → hooks.onEnd (s₁, st.2) = .error e st' →
      FailsBeside hooks st e st'
  /-- The output did not take all unmatched bytes. -/
  | output {s₁ : Scanner} : flush s₁ = .error e st'.1 → st'.1.output.limit ≠ none →
      st'.2 = st.2 → FailsBeside hooks st e st'

namespace Hooks

variable {σ : Type} {hooks : Hooks σ} {s : Scanner} {x : σ} {st' : Scanner × σ} {e : ScanError}

/-- A round begins attempts until one does not skip. -/
theorem reaches_advance (hooks : Hooks σ) (s : Scanner) (x : σ) :
    ends advance
      (fun found s' => ∃ s₁, (∀ st, hooks.Reaches (s₁, x) st → hooks.Reaches (s, x) st) ∧
        attempt s₁ = .ok (found.elim .ended .matched) s')
      (fun e s' => ∃ s₁, hooks.Reaches (s, x) (s₁, x) ∧ attempt s₁ = .error e s') s := by
  unfold ends
  fun_induction advance s with
  | case1 s _ rule s' hrun => exact ⟨s, fun _ => id, hrun⟩
  | case2 s _ s' hrun => exact ⟨s, fun _ => id, hrun⟩
  | case3 s _ s' hrun ih =>
    revert ih
    cases advance s' with
    | ok found s'' =>
      rintro ⟨s₁, hreaches, h⟩
      exact ⟨s₁, fun st h' => .skipped hrun (hreaches st h'), h⟩
    | error e s'' =>
      rintro ⟨s₁, hreaches, h⟩
      exact ⟨s₁, .skipped hrun hreaches, h⟩
  | case4 s _ e s' hrun => exact ⟨s, .here, hrun⟩

theorem handle_fails (events : Nat) (h : hooks.handle events (s, x) = .error e st') :
    ∃ st, hooks.Reaches (s, x) st ∧ (hooks.FailsBeside st e st' ∨ ∃ s₁ lost,
      prepare st.1 = .ok () s₁ ∧ s₁.buffer.pending = st.1.buffer.pending ∧
        s₁.Strands e lost st'.1 ∧ st'.2 = st.2) := by
  induction events generalizing s x with
  | zero => cases h
  | succ events ih =>
    have hround := reaches_advance hooks s x
    cases hadvance : advance s with
    | error e' s' =>
      rw [handle_of_error hadvance] at h
      obtain ⟨rfl, rfl⟩ := EStateM.Result.error.inj h
      obtain ⟨s₁, hreaches, hattempt⟩ := hround.error hadvance
      refine ⟨_, hreaches, ?_⟩
      rcases (attempt_fails s₁).error hattempt with ⟨s₂, hflush⟩ | ⟨s₂, lost, hprepare, hpending, hlost⟩
      · exact .inl (.output hflush (limit_of_flush hflush) rfl)
      · exact .inr ⟨s₂, lost, hprepare, hpending, hlost, rfl⟩
    | ok found s' =>
      obtain ⟨s₁, hreaches, hattempt⟩ := hround.ok hadvance
      cases found with
      | some rule =>
        rw [handle_of_match hadvance] at h
        cases haction : hooks.runAction rule (s', x) with
        | error e' st₁ =>
          rw [haction] at h
          obtain ⟨rfl, rfl⟩ := EStateM.Result.error.inj h
          exact ⟨_, hreaches _ .here, .inl (.action hattempt haction)⟩
        | ok flow st₁ =>
          rw [haction] at h
          cases flow with
          | yield value => cases h
          | resume =>
            obtain ⟨st, hst, hfails⟩ := ih h
            exact ⟨st, hreaches _ (.matched hattempt haction hst), hfails⟩
      | none =>
        simp only [handle, bind_eq_error_iff] at h
        rcases h with h | ⟨_, _, h, hrest⟩
        · simp only [onScanner, hadvance] at h
          cases h
        · simp only [onScanner, hadvance] at h
          obtain ⟨rfl, rfl⟩ := EStateM.Result.ok.inj h
          rcases bind_eq_error_iff.1 hrest with hhook | ⟨ended, st₁, hhook, hrest⟩
          · exact ⟨_, hreaches _ .here, .inl (.hook hattempt hhook)⟩
          · cases ended with
            | true => cases hrest
            | false =>
              obtain ⟨st, hst, hfails⟩ := ih hrest
              exact ⟨st, hreaches _ (.ended hattempt hhook hst), hfails⟩

end Hooks

/-- A scan that fails, with any hooks, over any source and any tables, has begun an attempt. If not the
action, the hook or the output has failed then, it was the search, and it stays where it failed. The
bytes that it had read are gone from the pending input, though they are still held and moving the cursor
back would bring them back. So the attempt can be repeated from the same byte if and only if the search
had not read any. -/
theorem Hooks.scan_fails {σ : Type} {hooks : Hooks σ} {s : Scanner} {x : σ} {st' : Scanner × σ}
    {e : ScanError} (events : Nat) (h : hooks.scan events (s, x) = .error e st') :
    ∃ st, hooks.Reaches (s.unterminate, x) st ∧ (hooks.FailsBeside st e st' ∨ ∃ s₁ lost,
      prepare st.1 = .ok () s₁ ∧ s₁.Strands e lost st'.1 ∧ st'.2 = st.2 ∧
      st.1.buffer.pending = lost ++ st'.1.buffer.pending ∧
      (st'.1.buffer.seek s₁.buffer.cursor).pending = st.1.buffer.pending ∧
      (st'.1.buffer.pending = st.1.buffer.pending ↔ lost = [])) := by
  obtain ⟨st, hreaches, hfails⟩ := handle_fails events h
  refine ⟨st, hreaches, hfails.imp_right ?_⟩
  rintro ⟨s₁, lost, hprepare, hpending, hlost, hmemory⟩
  have hsplit := hpending ▸ hlost.pending_eq
  refine ⟨s₁, lost, hprepare, hlost, hmemory, hsplit, hpending ▸ hlost.pending_seek, ?_⟩
  rw [hsplit]
  exact List.self_eq_append_left

/-- Tables of a single rule, which takes all bytes there are. -/
def Tables.anyRun : Tables where
  classOf := Array.replicate 256 0
  base := #[0, 1]
  check := #[0, 1]
  next := #[1, 1]
  fallback := #[-1, -1]
  accept := #[0, 1]

/-- A source that fails behind the first byte. -/
def Source.failsOnce : Source :=
  ⟨[.data [97], .failure "disk on fire", .data [98]]⟩

/-- The search had read one byte. -/
theorem Hooks.scan_fails_anyRun : ∃ s s',
    ({} : ScannerOptions).build Tables.anyRun .failsOnce {} = .ok s ∧
    (observe fun tokens token => tokens ++ [token]).scan 1 (s, []) =
      .error (.io "disk on fire") (s', []) ∧
    ∃ byte, s.buffer.pending = byte :: s'.buffer.pending := by
  have hrun : (match ({} : ScannerOptions).build Tables.anyRun .failsOnce {} with
      | .ok s => match (observe fun tokens token => tokens ++ [token]).scan 1 (s, []) with
        | .error e st => match attempt s.unterminate with
          | .error _ _ => decide (e = .io "disk on fire" ∧ st.2 = [] ∧ st.1.output.limit = none ∧
              s.covered = none ∧ s.buffer.pending.length = 1 + st.1.buffer.pending.length)
          | .ok _ _ => false
        | .ok _ _ => false
      | .error _ => false) = true := by decide +kernel
  split at hrun
  · rename_i s hbuild
    split at hrun
    · rename_i e st hscan
      obtain ⟨s', tokens⟩ := st
      split at hrun
      · rename_i e' s₁ hattempt
        obtain ⟨rfl, rfl, hlimit, hcovered, hlength⟩ := of_decide_eq_true hrun
        refine ⟨s, s', hbuild, hscan, ?_⟩
        obtain ⟨st, hreaches, hfails⟩ := scan_fails 1 hscan
        cases hreaches with
        | here =>
          rcases hfails with hbeside | ⟨_, lost, -, -, -, hpending, -⟩
          · cases hbeside with
            | action hmatch => cases hattempt.symm.trans hmatch
            | hook hend => cases hattempt.symm.trans hend
            | output _ hfull => exact absurd hlimit hfull
          · rw [unterminate_of_none hcovered] at hpending
            dsimp only at hpending
            have hlost : lost.length = 1 := by
              rw [hpending, List.length_append] at hlength
              exact Nat.add_right_cancel hlength
            obtain ⟨byte, rfl⟩ := List.length_eq_one_iff.1 hlost
            exact ⟨byte, hpending⟩
        | skipped hskip => cases hattempt.symm.trans hskip
        | matched hmatch => cases hattempt.symm.trans hmatch
        | ended hend => cases hattempt.symm.trans hend
      · exact Bool.noConfusion hrun
    · exact Bool.noConfusion hrun
  · exact Bool.noConfusion hrun

/-- A byte that was neither matched nor written nor read by an action is skipped: the failed search had
read it, and the next scan matches only what comes behind. -/
theorem Hooks.scan_after_failure_anyRun : ∃ s s₁ s₂,
    ({} : ScannerOptions).build Tables.anyRun .failsOnce {} = .ok s ∧ s.pending = [97, 98] ∧
    (observe fun tokens token => tokens ++ [token]).scan 1 (s, []) =
      .error (.io "disk on fire") (s₁, []) ∧ s₁.pending = [98] ∧
    (observe fun tokens token => tokens ++ [token]).scan 2 (s₁, []) =
      .ok .exhausted (s₂, [⟨1, [98], 1⟩]) ∧ s₂.output.written = #[] := by
  have hrun : (match ({} : ScannerOptions).build Tables.anyRun .failsOnce {} with
      | .ok s => match (observe fun tokens token => tokens ++ [token]).scan 1 (s, []) with
        | .error e st₁ => match (observe fun tokens token => tokens ++ [token]).scan 2 st₁ with
          | .ok ending st₂ => decide (e = .io "disk on fire" ∧ st₁.2 = [] ∧ ending = .exhausted ∧
              st₂.2 = [⟨1, [98], 1⟩] ∧ s.pending = [97, 98] ∧ st₁.1.pending = [98] ∧
              st₂.1.output.written = #[])
          | .error _ _ => false
        | .ok _ _ => false
      | .error _ => false) = true := by decide +kernel
  split at hrun
  · rename_i s hbuild
    split at hrun
    · rename_i e st₁ hfailed
      obtain ⟨s₁, tokens₁⟩ := st₁
      split at hrun
      · rename_i ending st₂ hscan
        obtain ⟨s₂, tokens₂⟩ := st₂
        obtain ⟨rfl, rfl, rfl, rfl, hpending, hpending₁, houtput⟩ := of_decide_eq_true hrun
        exact ⟨s, s₁, s₂, hbuild, hpending, hfailed, hpending₁, hscan, houtput⟩
      · exact Bool.noConfusion hrun
    · exact Bool.noConfusion hrun
  · exact Bool.noConfusion hrun

end Munch
