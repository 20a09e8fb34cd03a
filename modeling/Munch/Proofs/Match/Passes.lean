-- SUMMARY: The passes over the input that an attempt makes, each with the buffers that it reads from.
import Munch.Proofs.Scanner.Carried

/-! # Passes

An attempt reads the input from its start on, as far as the tracks live, and then again from its start
for each track and rule whose trailing context it looks for. `Tables.passes` lists these passes, and in
each of them the buffers from which a byte is read, in order. Nothing else in an attempt can fail but
the reads of its passes and lookups in the tables. -/

namespace Munch

/-! ## Traces of folds -/

/-- What is seen in the steps of a fold, up to one that fails. -/
def foldTrace {ε σ α β γ : Type} (step : β → α → EStateM ε σ β) (see : β → α → σ → List γ) :
    List α → β → σ → List γ
  | [], _, _ => []
  | a :: as, b, s =>
    see b a s ++ match step b a s with
      | .ok b s => foldTrace step see as b s
      | .error _ _ => []

section foldTrace

variable {ε σ α β γ : Type} {step : β → α → EStateM ε σ β} {see : β → α → σ → List γ}

/-- What holds of all that one step sees, and of what is seen later, holds of the trace. -/
theorem forall_mem_foldTrace {R : σ → σ → Prop} {P : σ → γ → Prop}
    (hstep : ∀ b a, Across R (step b a)) (hsee : ∀ b a s, ∀ x ∈ see b a s, P s x)
    (hlater : ∀ {s s' x}, R s s' → P s' x → P s x) (as : List α) (b : β) (s : σ) :
    ∀ x ∈ foldTrace step see as b s, P s x := by
  induction as generalizing b s with
  | nil => exact fun x hmem => nomatch hmem
  | cons a as ih =>
    intro x hmem
    have hacross := hstep b a s
    rw [foldTrace, List.mem_append] at hmem
    rcases hmem with hmem | hmem
    · exact hsee b a s x hmem
    · split at hmem
      · rename_i b' s' hrun
        exact hlater (final_of_ok hrun ▸ hacross) (ih b' s' x hmem)
      · cases hmem

/-- If the failure of each step has been seen there, the failure of the fold is in the trace. -/
theorem exists_mem_foldTrace {Q : γ → ε → σ → Prop} {p : ε → Prop}
    (hfails : ∀ {b a s e s'}, step b a s = .error e s' → p e ∨ ∃ x ∈ see b a s, Q x e s')
    {as : List α} {b : β} {s s' : σ} {e : ε} (h : as.foldlM step b s = .error e s') :
    p e ∨ ∃ x ∈ foldTrace step see as b s, Q x e s' := by
  induction as generalizing b s with
  | nil => cases h
  | cons a as ih =>
    rw [List.foldlM_cons, bind_eq_error_iff] at h
    rcases h with h | ⟨b', s₁, hrun, h⟩
    · exact (hfails h).imp_right fun ⟨x, hmem, hx⟩ => ⟨x, List.mem_append_left _ hmem, hx⟩
    · refine (ih h).imp_right fun ⟨x, hmem, hx⟩ => ⟨x, ?_, hx⟩
      rw [foldTrace, hrun]
      exact List.mem_append_right _ hmem

end foldTrace

/-! ## Single passes -/

namespace Buffer

variable {μ : Type} (live : μ → Bool) (step : μ → UInt8 → Nat → Except TableFault μ)

/-- The buffers from which a machine is fed, one for each read. -/
def feedReads (machine : μ) : Buffer → List Buffer
  | b =>
    if live machine then
      match _h : readByte b with
      | .ok (some byte) b' =>
        match step machine byte b'.cursor with
        | .ok machine => b :: feedReads machine b'
        | .error _ => [b]
      | .ok none _ => [b]
      | .error _ _ => [b]
    else
      []
  termination_by b => b.remaining
  decreasing_by exact Nat.lt_of_succ_le (Nat.le_of_eq (remaining_of_readByte _h))

/-- Feeding a machine fails in a step, which is a lookup, or in one of the reads. -/
theorem feed_fails {machine : μ} {b b' : Buffer} {e : ScanError}
    (h : feed live step machine b = .error e b') :
    e.IsFault ∨ ∃ b₁ ∈ feedReads live step machine b, readByte b₁ = .error e b' := by
  fun_induction feedReads live step machine b with
  | case1 m b _ hl byte b₁ hrun m' hs ih =>
    rw [feed, if_pos hl, hrun] at h
    simp only [hs] at h
    rcases ih h with hfault | ⟨b₂, hmem, hread⟩
    · exact .inl hfault
    · exact .inr ⟨b₂, List.mem_cons_of_mem b hmem, hread⟩
  | case2 m b _ hl byte b₁ hrun fault hs =>
    rw [feed, if_pos hl, hrun] at h
    simp only [hs] at h
    exact .inl ⟨fault, (EStateM.Result.error.inj h).1.symm⟩
  | case3 m b _ hl b₁ hrun =>
    rw [feed, if_pos hl, hrun] at h
    cases h
  | case4 m b _ hl e₁ b₁ hrun =>
    rw [feed, if_pos hl, hrun] at h
    obtain ⟨rfl, rfl⟩ := EStateM.Result.error.inj h
    exact .inr ⟨b, List.mem_singleton_self b, hrun⟩
  | case5 m b hl =>
    rw [feed, if_neg hl] at h
    cases h

/-- A pass from an offset on. Each of its buffers comes from the buffer before the pass, and the cursor
of none is further from the offset than there are reads. -/
def IsPass (R : Buffer → Buffer → Prop) (start : Nat) (b : Buffer) (pass : List Buffer) : Prop :=
  ∀ b₁ ∈ pass, R b b₁ ∧ b₁.cursor < start + pass.length

variable (R : Buffer → Buffer → Prop) [Carried R]

theorem feedReads_isPass (machine : μ) (b : Buffer) :
    IsPass R b.cursor b (feedReads live step machine b) := by
  have hread := readByte_carried R
  have hsingle (b : Buffer) : IsPass R b.cursor b [b] := by
    intro b₁ hmem
    obtain rfl := List.mem_singleton.1 hmem
    exact ⟨History.refl _, Nat.lt_succ_self _⟩
  fun_induction feedReads live step machine b with
  | case1 m b _ hl byte b₁ hrun m' hs ih =>
    have hcursor : b₁.cursor = b.cursor + 1 := by
      rw [cursor, passed_of_readByte hrun, Array.size_push]
      rfl
    intro b₂ hmem
    rw [List.length_cons]
    rcases List.mem_cons.1 hmem with rfl | hmem
    · exact ⟨History.refl _, by omega⟩
    · obtain ⟨hcarried, hlt⟩ := ih b₂ hmem
      exact ⟨History.trans (final_of_ok hrun ▸ hread b) hcarried, by omega⟩
  | case2 m b _ hl byte b₁ hrun fault hs => exact hsingle b
  | case3 m b _ hl b₁ hrun => exact hsingle b
  | case4 m b _ hl e b₁ hrun => exact hsingle b
  | case5 m b hl => exact List.forall_mem_nil _

variable {R}

/-- A pass may be told from where the buffer came from, and from a later offset. -/
theorem IsPass.mono {start start' : Nat} {b b' : Buffer} {pass : List Buffer}
    (h : IsPass R start' b' pass) (hcarried : R b b') (hle : start' ≤ start) : IsPass R start b pass :=
  fun b₁ hmem => ⟨History.trans hcarried (h b₁ hmem).1,
    Nat.lt_of_lt_of_le (h b₁ hmem).2 (Nat.add_le_add_right hle _)⟩

end Buffer

/-! ## The passes of an attempt -/

namespace Tables

open Buffer

variable (t : Tables) (start : Nat)

/-- The pass made to take in a rule: it looks for the trailing context, unless that was done before. -/
def considerPasses (entry : State) (sel : Selection) (rule : Rule) (b : Buffer) : List (List Buffer) :=
  match t.trailingStart? rule with
  | .ok (some trailing) =>
    match sel.splits.lookup rule with
    | some _ => []
    | none => [feedReads (fun search => search.primary.isSome || !search.runs.isEmpty)
        (t.stepSplits rule trailing) { primary := some entry } (b.seek start)]
  | _ => []

/-- The passes made to take in all rules accepted at one point of a track. -/
def pointPasses (entry : State) (sel : Selection) (point : Acceptance) (b : Buffer) :
    List (List Buffer) :=
  match t.rulesAt point.state with
  | .ok rules =>
    foldTrace (t.consider start entry point.stop) (t.considerPasses start entry) rules sel b
  | .error _ => []

/-- The passes made to take in all candidates of a track. -/
def trackPasses (best : Option Candidate) (track : Track) (b : Buffer) : List (List Buffer) :=
  foldTrace (t.considerPoint start track.entry) (t.pointPasses start track.entry) track.accepts
    { best } b

/-- The passes of an attempt at the cursor: the search for matches, and those for trailing context. -/
def passes (sc : StartCondition) (atLineStart : Bool) (b : Buffer) : List (List Buffer) :=
  match t.startTracks sc atLineStart with
  | .ok tracks =>
    feedReads (·.any Track.alive) t.stepTracks tracks b ::
      match feed (·.any Track.alive) t.stepTracks tracks b with
      | .ok tracks b' =>
        if b'.cursor = b.cursor then []
        else foldTrace (t.considerTrack b.cursor) (t.trackPasses b.cursor) tracks none
          (final (leaveLastByte tracks) b')
      | .error _ _ => []
  | .error _ => []

/-! ## Where an attempt fails -/

variable {t start}

/-- A computation whose passes are listed fails in a lookup or in one of their reads. -/
def FailsIn (passes : List (List Buffer)) (e : ScanError) (b : Buffer) : Prop :=
  e.IsFault ∨ ∃ pass ∈ passes, ∃ b₁ ∈ pass, readByte b₁ = .error e b

variable {b b' : Buffer} {e : ScanError}

theorem liftFault_fails {α : Type} {r : Except TableFault α}
    (h : (liftFault r : BufferM α) b = .error e b') : e.IsFault := by
  cases r with
  | ok a => cases h
  | error fault => exact ⟨fault, (EStateM.Result.error.inj h).1.symm⟩

theorem consider_fails {entry : State} {stop : Nat} {sel : Selection} {rule : Rule}
    (h : t.consider start entry stop sel rule b = .error e b') :
    FailsIn (t.considerPasses start entry sel rule b) e b' := by
  rcases bind_eq_error_iff.1 h with h | ⟨trailing, _, hlift, h⟩
  · exact .inl (liftFault_fails h)
  obtain ⟨hstart, rfl⟩ := liftFault_eq_ok_iff.1 hlift
  cases trailing with
  | none => cases h
  | some trailing =>
    cases hnew : sel.splits.lookup rule with
    | some split =>
      simp only [hnew] at h
      cases h
    | none =>
      simp only [hnew] at h
      rcases bind_eq_error_iff.1 h with h | ⟨_, _, _, h⟩
      · -- Only feeding can fail here; both seeks succeed.
        rw [bestSplit, bind_of_ok (modify_apply _ _)] at h
        rcases bind_eq_error_iff.1 h with h | ⟨_, _, _, h⟩
        · refine (feed_fails _ _ h).imp_right fun hread => ⟨_, ?_, hread⟩
          rw [considerPasses, hstart]
          simp only [hnew]
          exact List.mem_singleton_self _
        · cases h
      · cases h

theorem considerPoint_fails {entry : State} {sel : Selection} {point : Acceptance}
    (h : t.considerPoint start entry sel point b = .error e b') :
    FailsIn (t.pointPasses start entry sel point b) e b' := by
  rcases bind_eq_error_iff.1 h with h | ⟨rules, _, hlift, h⟩
  · exact .inl (liftFault_fails h)
  obtain ⟨hrules, rfl⟩ := liftFault_eq_ok_iff.1 hlift
  rw [pointPasses, hrules]
  exact exists_mem_foldTrace consider_fails h

theorem considerTrack_fails {best : Option Candidate} {track : Track}
    (h : t.considerTrack start best track b = .error e b') :
    FailsIn (t.trackPasses start best track b) e b' := by
  rcases bind_eq_error_iff.1 h with h | ⟨_, _, _, h⟩
  · exact exists_mem_foldTrace considerPoint_fails h
  · cases h

/-- An attempt fails in a lookup, or in a read of one of its passes. -/
theorem longestMatch_fails {sc : StartCondition} {atLineStart : Bool}
    (h : t.longestMatch sc atLineStart b = .error e b') :
    FailsIn (t.passes sc atLineStart b) e b' := by
  rcases bind_eq_error_iff.1 h with h | ⟨tracks, _, hlift, h⟩
  · exact .inl (liftFault_fails h)
  obtain ⟨hstart, rfl⟩ := liftFault_eq_ok_iff.1 hlift
  rw [bind_of_ok (get_apply _)] at h
  rw [FailsIn, passes, hstart]
  rcases bind_eq_error_iff.1 h with h | ⟨tracks', b₁, hfeed, h⟩
  · exact (feed_fails _ _ h).imp_right fun hread => ⟨_, List.mem_cons_self, hread⟩
  rw [bind_of_ok (get_apply _)] at h
  split at h
  · cases h
  · rename_i hmoved
    rw [leaveLastByte, bind_of_ok (modify_apply _ _)] at h
    rcases bind_eq_error_iff.1 h with h | ⟨winner, b₃, _, h⟩
    · refine (exists_mem_foldTrace considerTrack_fails h).imp_right fun ⟨reads, hmem, hread⟩ => ?_
      refine ⟨reads, List.mem_cons_of_mem _ ?_, hread⟩
      simp only [hfeed, if_neg hmoved]
      exact hmem
    · cases winner <;> cases h

/-! ## How far the passes go -/

variable (R : Buffer → Buffer → Prop) [Carried R]

theorem considerPasses_isPass (entry : State) (sel : Selection) (rule : Rule) (b : Buffer) :
    ∀ pass ∈ t.considerPasses start entry sel rule b, IsPass R start b pass := by
  intro pass hmem
  unfold considerPasses at hmem
  split at hmem
  · split at hmem
    · cases hmem
    · obtain rfl := List.mem_singleton.1 hmem
      refine (feedReads_isPass _ _ R _ _).mono (seek_carried R b start) ?_
      rw [cursor_seek]
      exact Nat.min_le_left _ _
  · cases hmem

theorem pointPasses_isPass (entry : State) (sel : Selection) (point : Acceptance) (b : Buffer) :
    ∀ pass ∈ t.pointPasses start entry sel point b, IsPass R start b pass := by
  unfold pointPasses
  split
  · exact forall_mem_foldTrace (fun sel rule => t.consider_carried R start entry point.stop sel rule)
      (considerPasses_isPass R entry) (fun hcarried h => h.mono hcarried (Nat.le_refl start)) _ sel b
  · exact fun pass hmem => nomatch hmem

theorem trackPasses_isPass (best : Option Candidate) (track : Track) (b : Buffer) :
    ∀ pass ∈ t.trackPasses start best track b, IsPass R start b pass :=
  forall_mem_foldTrace (fun sel point => t.considerPoint_carried R start track.entry sel point)
    (pointPasses_isPass R track.entry) (fun hcarried h => h.mono hcarried (Nat.le_refl start)) _ _ b

/-- All passes of an attempt begin at the cursor, or not behind it. -/
theorem passes_isPass (sc : StartCondition) (atLineStart : Bool) (b : Buffer) :
    ∀ pass ∈ t.passes sc atLineStart b, IsPass R b.cursor b pass := by
  intro pass hmem
  unfold passes at hmem
  split at hmem
  · rename_i tracks _
    rcases List.mem_cons.1 hmem with rfl | hmem
    · exact feedReads_isPass _ _ R tracks b
    · split at hmem
      · rename_i tracks' b₁ hfeed
        split at hmem
        · cases hmem
        · refine (forall_mem_foldTrace (fun best track => t.considerTrack_carried R b.cursor best track)
            (trackPasses_isPass R) (fun hcarried h => h.mono hcarried (Nat.le_refl b.cursor)) _ none _
            pass hmem).mono ?_ (Nat.le_refl b.cursor)
          refine History.trans (final_of_ok hfeed ▸ feed_across (readByte_carried R) _ _ _ b) ?_
          show R b₁ (if tracks'.any Track.alive then b₁ else b₁.unread)
          split
          · exact History.refl b₁
          · exact unread_carried R b₁
      · cases hmem
  · cases hmem

end Tables

end Munch
