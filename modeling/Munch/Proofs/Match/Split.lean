-- SUMMARY: The search for trailing context finds the best of all splits into head and context.
import Munch.Proofs.Buffer.Steady
import Munch.Proofs.Match.Preference
import Munch.Proofs.Tables.Run

/-! # Splits

A split of some bytes ends the head of a rule where the primary automaton accepts the rule, and the
context behind it where the trailing automaton accepts. The search advances all trailing runs
together; which runs are live and which splits were recorded is determined by the bytes read. -/

namespace Munch

namespace Tables

/-- A rule is among those accepted behind the first `head` bytes. -/
def IsHead (t : Tables) (entry : State) (rule : Rule) (w : List UInt8) (head : Nat) : Prop :=
  0 < head ∧ head ≤ w.length ∧ ∃ s, t.run? entry (w.take head) = some s ∧ rule ∈ t.rulesOf s

/-- A head followed by its context, by the numbers of bytes up to their ends. -/
def IsSplit (t : Tables) (entry : State) (rule : Rule) (trailing : State) (w : List UInt8)
    (head extent : Nat) : Prop :=
  t.IsHead entry rule w head ∧ head ≤ extent ∧ extent ≤ w.length ∧
    ∃ s, t.run? trailing ((w.take extent).drop head) = some s ∧ t.ruleOf s ≠ 0

/-! ## One more byte -/

theorem IsHead.le {t : Tables} {entry : State} {rule : Rule} {w : List UInt8} {head : Nat}
    (h : t.IsHead entry rule w head) : head ≤ w.length :=
  h.2.1

theorem isHead_append {t : Tables} {entry : State} {rule : Rule} {u v : List UInt8} {head : Nat}
    (hle : head ≤ u.length) : t.IsHead entry rule (u ++ v) head ↔ t.IsHead entry rule u head := by
  unfold IsHead
  rw [List.take_append_of_le_length hle, List.length_append]
  constructor
  · rintro ⟨hpos, -, hs⟩
    exact ⟨hpos, hle, hs⟩
  · rintro ⟨hpos, -, hs⟩
    exact ⟨hpos, Nat.le_trans hle (Nat.le_add_right _ _), hs⟩

theorem isSplit_append {t : Tables} {entry trailing : State} {rule : Rule} {u v : List UInt8}
    {head extent : Nat} (hle : extent ≤ u.length) :
    t.IsSplit entry rule trailing (u ++ v) head extent ↔
      t.IsSplit entry rule trailing u head extent := by
  unfold IsSplit
  rw [List.take_append_of_le_length hle]
  constructor
  · rintro ⟨hhead, hhe, -, hs⟩
    exact ⟨(isHead_append (Nat.le_trans hhe hle)).1 hhead, hhe, hle, hs⟩
  · rintro ⟨hhead, hhe, -, hs⟩
    refine ⟨(isHead_append (Nat.le_trans hhe hle)).2 hhead, hhe, ?_, hs⟩
    rw [List.length_append]
    exact Nat.le_trans hle (Nat.le_add_right _ _)

theorem isHead_concat {t : Tables} {entry : State} {rule : Rule} {u : List UInt8} {x : UInt8}
    {head : Nat} : t.IsHead entry rule (u ++ [x]) head ↔ t.IsHead entry rule u head ∨
      head = u.length + 1 ∧ ∃ s, t.run? entry (u ++ [x]) = some s ∧ rule ∈ t.rulesOf s := by
  have hlength : (u ++ [x]).length = u.length + 1 := List.length_append
  constructor
  · intro h
    rcases Nat.lt_or_ge u.length head with hlt | hle
    · have heq : head = u.length + 1 := Nat.le_antisymm (hlength ▸ h.le) hlt
      obtain ⟨-, -, s, hs, hrule⟩ := h
      rw [heq, ← hlength, List.take_length] at hs
      exact .inr ⟨heq, s, hs, hrule⟩
    · exact .inl ((isHead_append hle).1 h)
  · rintro (h | ⟨rfl, s, hs, hrule⟩)
    · exact (isHead_append h.le).2 h
    · refine ⟨Nat.succ_pos _, Nat.le_of_eq hlength.symm, s, ?_, hrule⟩
      rw [← hlength, List.take_length]
      exact hs

theorem isSplit_concat {t : Tables} {entry trailing : State} {rule : Rule} {u : List UInt8}
    {x : UInt8} {head extent : Nat} : t.IsSplit entry rule trailing (u ++ [x]) head extent ↔
      t.IsSplit entry rule trailing u head extent ∨
        extent = u.length + 1 ∧ t.IsHead entry rule (u ++ [x]) head ∧
          ∃ s, t.run? trailing ((u ++ [x]).drop head) = some s ∧ t.ruleOf s ≠ 0 := by
  have hlength : (u ++ [x]).length = u.length + 1 := List.length_append
  constructor
  · intro h
    rcases Nat.lt_or_ge u.length extent with hlt | hle
    · obtain ⟨hhead, -, hext, hs⟩ := h
      have heq : extent = u.length + 1 := Nat.le_antisymm (hlength ▸ hext) hlt
      rw [heq, ← hlength, List.take_length] at hs
      exact .inr ⟨heq, hhead, hs⟩
    · exact .inl ((isSplit_append hle).1 h)
  · rintro (h | ⟨rfl, hhead, hs⟩)
    · exact (isSplit_append h.2.2.1).2 h
    · refine ⟨hhead, hlength ▸ hhead.le, Nat.le_of_eq hlength.symm, ?_⟩
      rw [← hlength, List.take_length]
      exact hs

/-! ## Trailing runs -/

theorem mem_closeGap {r : TrailingRun} {runs : List TrailingRun} :
    r ∈ closeGap runs ↔ r ∈ runs := by
  unfold closeGap
  cases h : runs.getLast? with
  | none =>
    rw [List.getLast?_eq_none_iff.1 h]
    exact Iff.rfl
  | some last =>
    obtain ⟨before, rfl⟩ := List.getLast?_eq_some_iff.1 h
    rw [List.dropLast_concat, List.mem_append, List.mem_append, or_comm]
    rfl

/-- A split is recorded if the trailing run behind its head accepts. -/
theorem isBest_record {t : Tables} {P : Split → Prop} {best : Option Split}
    (h : IsBest Split.betterThan P best) (s : State) (new : Split) :
    IsBest Split.betterThan (fun split => P split ∨ t.ruleOf s ≠ 0 ∧ split = new)
      (if t.ruleOf s != 0 then Split.best best new else best) := by
  by_cases hrule : t.ruleOf s = 0
  · rw [hrule]
    refine h.congr fun split => ⟨.inl, fun h => h.elim id fun h => absurd rfl h.1⟩
  · rw [if_pos (bne_iff_ne.2 hrule)]
    refine (h.offer Split.preference new).congr fun split => or_congr_right ?_
    exact ⟨fun h => ⟨hrule, h⟩, fun h => h.2⟩

/-- All runs advance, the dead ones go, and splits are recorded for those that accept. -/
theorem advanceRuns_spec {t : Tables} (ht : t.Sound) {byte : UInt8} {c : ByteClass}
    (hc : t.byteClass byte = .ok c) (stop : Nat) :
    ∀ (n : Nat) (runs : List TrailingRun) (best : Option Split), runs.length = n →
      (∀ r ∈ runs, r.state < t.stateCount) →
      ∃ runs' best', t.advanceRuns c stop runs best = .ok (runs', best') ∧
        (∀ r, r ∈ runs' ↔
          ∃ r₀ ∈ runs, r₀.headEnd = r.headEnd ∧ t.step? r₀.state byte = some r.state) ∧
        ∀ P, IsBest Split.betterThan P best → IsBest Split.betterThan
          (fun x => P x ∨ ∃ r ∈ runs', t.ruleOf r.state ≠ 0 ∧ x = ⟨r.headEnd, stop⟩) best' := by
  intro n
  induction n with
  | zero =>
    intro runs best hn _
    obtain rfl := List.length_eq_zero_iff.1 hn
    refine ⟨[], best, by rw [advanceRuns], fun r => ?_, fun P hP => hP.congr fun x => ?_⟩
    · constructor
      · intro h
        cases h
      · rintro ⟨r₀, hmem, -⟩
        cases hmem
    · constructor
      · exact .inl
      · rintro (hx | ⟨r₀, hmem, -⟩)
        · exact hx
        · cases hmem
  | succ n ih =>
    intro runs best hn hruns
    obtain ⟨run, rest, rfl⟩ := List.exists_cons_of_length_eq_add_one hn
    have hrest : rest.length = n := Nat.succ.inj hn
    have hstate : run.state < t.stateCount := hruns run List.mem_cons_self
    have hstep := ht.step?_eq hc hstate
    cases hs : t.step? run.state byte with
    | none =>
      obtain ⟨runs', best', hok, hmem, hbest⟩ := ih (closeGap rest) best
        ((length_closeGap rest).trans hrest)
        fun r hr => hruns r (List.mem_cons_of_mem _ (mem_closeGap.1 hr))
      refine ⟨runs', best', ?_, fun r => (hmem r).trans ?_, hbest⟩
      · rw [advanceRuns, hstep, hs]
        exact hok
      · constructor
        · rintro ⟨r₀, hr₀, h⟩
          exact ⟨r₀, List.mem_cons_of_mem _ (mem_closeGap.1 hr₀), h⟩
        · rintro ⟨r₀, hr₀, hend, hr⟩
          rcases List.mem_cons.1 hr₀ with rfl | hr₀
          · cases hs.symm.trans hr
          · exact ⟨r₀, mem_closeGap.2 hr₀, hend, hr⟩
    | some s =>
      have haccepts := ht.accepts_eq (ht.step?_lt hstate hs)
      obtain ⟨runs', best', hok, hmem, hbest⟩ := ih rest
        (if t.ruleOf s != 0 then Split.best best ⟨run.headEnd, stop⟩ else best) hrest
        fun r hr => hruns r (List.mem_cons_of_mem _ hr)
      refine ⟨{ run with state := s } :: runs', best', ?_, fun r => ?_, fun P hP => ?_⟩
      · rw [advanceRuns, hstep, hs]
        simp only [ok_bind, haccepts, hok]
        rfl
      · rw [List.mem_cons, hmem]
        constructor
        · rintro (rfl | ⟨r₀, hr₀, h⟩)
          · exact ⟨run, List.mem_cons_self, rfl, hs⟩
          · exact ⟨r₀, List.mem_cons_of_mem _ hr₀, h⟩
        · rintro ⟨r₀, hr₀, hend, hr⟩
          rcases List.mem_cons.1 hr₀ with rfl | hr₀
          · left
            rw [hend, Option.some.inj (hs.symm.trans hr)]
          · exact .inr ⟨r₀, hr₀, hend, hr⟩
      · refine (hbest _ (isBest_record hP s ⟨run.headEnd, stop⟩)).congr fun x => ?_
        simp only [List.mem_cons, exists_eq_or_imp, or_assoc]

/-! ## The search -/

/-- What a search has found after some bytes, in an attempt from the offset `start`. -/
structure SearchInv (t : Tables) (entry : State) (rule : Rule) (trailing : State) (start : Nat)
    (u : List UInt8) (search : SplitSearch) : Prop where
  primary_eq : search.primary = t.run? entry u
  mem_runs : ∀ r, r ∈ search.runs ↔ ∃ head, t.IsHead entry rule u head ∧
    r.headEnd = start + head ∧ t.run? trailing (u.drop head) = some r.state
  best : IsBest Split.betterThan (fun split => ∃ head extent,
    t.IsSplit entry rule trailing u head extent ∧ split = ⟨start + head, start + extent⟩) search.best

section Search

variable {t : Tables} {entry trailing : State} {rule : Rule} {start : Nat}

theorem SearchInv.init : t.SearchInv entry rule trailing start [] { primary := some entry } where
  primary_eq := rfl
  mem_runs r := by
    refine ⟨fun h => (nomatch h), ?_⟩
    rintro ⟨head, hhead, -⟩
    exact absurd hhead.1 (Nat.not_lt.2 hhead.le)
  best := by
    rintro split ⟨head, extent, hsplit, -⟩
    exact absurd hsplit.1.1 (Nat.not_lt.2 hsplit.1.le)

/-- The runs determine the new splits: those behind a live run that accepts. -/
theorem SearchInv.concat {u : List UInt8} {x : UInt8} {search search' : SplitSearch}
    (h : t.SearchInv entry rule trailing start u search)
    (hprimary : search'.primary = t.run? entry (u ++ [x]))
    (hruns : ∀ r, r ∈ search'.runs ↔ ∃ head, t.IsHead entry rule (u ++ [x]) head ∧
      r.headEnd = start + head ∧ t.run? trailing ((u ++ [x]).drop head) = some r.state)
    (hbest : ∀ P, IsBest Split.betterThan P search.best → IsBest Split.betterThan
      (fun split => P split ∨ ∃ r ∈ search'.runs, t.ruleOf r.state ≠ 0 ∧
        split = ⟨r.headEnd, start + (u.length + 1)⟩) search'.best) :
    t.SearchInv entry rule trailing start (u ++ [x]) search' := by
  refine ⟨hprimary, hruns, (hbest _ h.best).congr fun split => ?_⟩
  constructor
  · rintro (⟨head, extent, hsplit, rfl⟩ | ⟨r, hr, hrule, rfl⟩)
    · exact ⟨head, extent, isSplit_concat.2 (.inl hsplit), rfl⟩
    · obtain ⟨head, hhead, hend, hrun⟩ := (hruns r).1 hr
      refine ⟨head, u.length + 1, isSplit_concat.2 (.inr ⟨rfl, hhead, r.state, hrun, hrule⟩), ?_⟩
      rw [hend]
  · rintro ⟨head, extent, hsplit, rfl⟩
    rcases isSplit_concat.1 hsplit with hsplit | ⟨rfl, hhead, s, hs, hrule⟩
    · exact .inl ⟨head, extent, hsplit, rfl⟩
    · exact .inr ⟨⟨start + head, s⟩, (hruns _).2 ⟨head, hhead, rfl, hs⟩, hrule, rfl⟩

theorem stepSplits_spec (ht : t.Sound) (hentry : entry < t.stateCount)
    (htrailing : trailing < t.stateCount) {u : List UInt8} {x : UInt8} {search : SplitSearch}
    (h : t.SearchInv entry rule trailing start u search) :
    ∃ search', t.stepSplits rule trailing search x (start + (u.length + 1)) = .ok search' ∧
      t.SearchInv entry rule trailing start (u ++ [x]) search' := by
  obtain ⟨c, hc, -⟩ := ht.byteClass x
  have hstates : ∀ r ∈ search.runs, r.state < t.stateCount := by
    intro r hr
    obtain ⟨head, -, -, hrun⟩ := (h.mem_runs r).1 hr
    exact ht.run?_lt htrailing hrun
  obtain ⟨runs, best, hadvance, hmem, hbest⟩ :=
    advanceRuns_spec ht hc (start + (u.length + 1)) _ search.runs search.best rfl hstates
  have hprimary : t.transition? search.primary c = .ok (t.run? entry (u ++ [x])) := by
    rw [h.primary_eq, run?_concat]
    cases hs : t.run? entry u with
    | none => rfl
    | some s => exact ht.step?_eq hc (ht.run?_lt hentry hs)
  -- A run has survived the byte if it survived the bytes before and then steps on.
  have hsurvive : ∀ r, r ∈ runs ↔ ∃ head, t.IsHead entry rule u head ∧
      r.headEnd = start + head ∧ t.run? trailing ((u ++ [x]).drop head) = some r.state := by
    intro r
    rw [hmem]
    constructor
    · rintro ⟨r₀, hr₀, hend, hstep⟩
      obtain ⟨head, hhead, hend₀, hrun⟩ := (h.mem_runs r₀).1 hr₀
      refine ⟨head, hhead, hend ▸ hend₀, ?_⟩
      rw [List.drop_append_of_le_length hhead.le, run?_concat, hrun]
      exact hstep
    · rintro ⟨head, hhead, hend, hrun⟩
      rw [List.drop_append_of_le_length hhead.le, run?_concat] at hrun
      obtain ⟨s, hs, hstep⟩ := Option.bind_eq_some_iff.1 hrun
      exact ⟨⟨start + head, s⟩, (h.mem_runs _).2 ⟨head, hhead, rfl, hs⟩, hend.symm, hstep⟩
  unfold stepSplits
  simp only [hc, hadvance, hprimary, ok_bind]
  cases hs : t.run? entry (u ++ [x]) with
  | none =>
    refine ⟨_, rfl, h.concat hs.symm (fun r => (hsurvive r).trans ?_) hbest⟩
    simp only [isHead_concat, hs, reduceCtorEq, false_and, exists_false, and_false, or_false]
  | some s =>
    simp only [ht.rulesAt_eq (ht.run?_lt hentry hs), ok_bind]
    by_cases hrule : rule ∈ t.rulesOf s
    · rw [if_pos hrule]
      simp only [startRun, ht.accepts_eq htrailing, ok_bind]
      have hnew : t.run? trailing ((u ++ [x]).drop (u.length + 1)) = some trailing := by
        rw [List.drop_of_length_le (by simp)]
        rfl
      refine ⟨_, rfl, h.concat hs.symm (fun r => ?_) fun P hP => ?_⟩
      · rw [List.mem_append, hsurvive, List.mem_singleton]
        constructor
        · rintro (⟨head, hhead, hr⟩ | rfl)
          · exact ⟨head, isHead_concat.2 (.inl hhead), hr⟩
          · exact ⟨u.length + 1, isHead_concat.2 (.inr ⟨rfl, s, hs, hrule⟩), rfl, hnew⟩
        · rintro ⟨head, hhead, hend, hrun⟩
          rcases isHead_concat.1 hhead with hhead | ⟨rfl, -⟩
          · exact .inl ⟨head, hhead, hend, hrun⟩
          · right
            rw [hnew] at hrun
            obtain ⟨headEnd, state⟩ := r
            exact TrailingRun.mk.injEq .. ▸ ⟨hend, (Option.some.inj hrun).symm⟩
      · refine (isBest_record (hbest P hP) trailing _).congr fun x => ?_
        simp only [List.mem_append, List.mem_singleton, or_and_right, exists_or, exists_eq_left,
          or_assoc]
    · rw [if_neg hrule]
      refine ⟨_, rfl, h.concat hs.symm (fun r => (hsurvive r).trans ?_) hbest⟩
      simp only [isHead_concat, hs, Option.some.injEq, exists_eq_left', hrule, and_false, or_false]

/-- When no run is live any more, further bytes add no split. -/
theorem SearchInv.finish {u v : List UInt8} {search : SplitSearch}
    (h : t.SearchInv entry rule trailing start u search)
    (hlive : (search.primary.isSome || !search.runs.isEmpty) = true → v = []) :
    IsBest Split.betterThan (fun split => ∃ head extent,
      t.IsSplit entry rule trailing (u ++ v) head extent ∧ split = ⟨start + head, start + extent⟩)
      search.best := by
  refine h.best.congr fun split => ?_
  constructor
  · rintro ⟨head, extent, hsplit, rfl⟩
    exact ⟨head, extent, (isSplit_append hsplit.2.2.1).2 hsplit, rfl⟩
  · rintro ⟨head, extent, hsplit, rfl⟩
    rcases Nat.lt_or_ge u.length extent with hlt | hle
    · exfalso
      obtain ⟨⟨hpos, hhead, s, hs, hrule⟩, hhe, hext, s', hs', -⟩ := hsplit
      have hv : v ≠ [] := by
        rintro rfl
        rw [List.append_nil] at hext
        exact Nat.not_lt.2 hext hlt
      refine hv (hlive ?_)
      rw [Bool.or_eq_true, Bool.not_eq_true', List.isEmpty_eq_false_iff, h.primary_eq]
      rcases Nat.lt_or_ge u.length head with hlt' | hle'
      · -- The head ends behind the bytes read, so the primary run is live.
        left
        rw [List.take_append, List.take_of_length_le (Nat.le_of_lt hlt'), run?_append] at hs
        obtain ⟨s₀, hs₀, -⟩ := Option.bind_eq_some_iff.1 hs
        rw [hs₀]
        rfl
      · -- The context ends behind them, so a trailing run is.
        right
        rw [List.take_append, List.take_of_length_le (Nat.le_of_lt hlt),
          List.drop_append_of_le_length hle', run?_append] at hs'
        obtain ⟨s₀, hs₀, -⟩ := Option.bind_eq_some_iff.1 hs'
        have hhead' := (isHead_append hle').1 ⟨hpos, hhead, s, hs, hrule⟩
        exact List.ne_nil_of_mem ((h.mem_runs ⟨start + head, s₀⟩).2 ⟨head, hhead', rfl, hs₀⟩)
    · exact ⟨head, extent, (isSplit_append hle).1 hsplit, rfl⟩

/-- The search returns the best split of what follows `start`, and the cursor to `start`. -/
theorem bestSplit_wp (ht : t.Sound) (hentry : entry < t.stateCount)
    (htrailing : trailing < t.stateCount) {b : Buffer} (hb : b.Steady) (hstart : start ≤ b.filled) :
    wp (t.bestSplit entry rule trailing start) (fun best b' => b.Reached start b' ∧
      IsBest Split.betterThan (fun split => ∃ head extent,
        t.IsSplit entry rule trailing (b.stream.drop start) head extent ∧
          split = ⟨start + head, start + extent⟩) best ∧
      ∀ split ∈ best, split.extentEnd ≤ b'.filled) b := by
  have hseek : b.Reached start (b.seek start) := (Buffer.Reached.refl hb).seek hstart
  refine .bind (.modify (.bind ?_))
  refine (Buffer.feed_wp hseek.steady (t.SearchInv entry rule trailing start)
    (fun u x v search _ hinv _ => ?_) SearchInv.init).mono ?_
  · rw [hseek.cursor_eq]
    exact stepSplits_spec ht hentry htrailing hinv
  · rintro search b' ⟨u, v, hw, hinv, hlive, hreached⟩
    rw [hseek.cursor_eq] at hreached
    have hcursor : start + u.length ≤ b'.filled := hreached.cursor_eq ▸ b'.cursor_le_filled
    have hb' : b.Reached start (b'.seek start) :=
      (hseek.trans hreached).seek (Nat.le_trans (Nat.le_add_right _ _) hcursor)
    refine .bind (.modify (.pure ⟨hb', ?_, ?_⟩))
    · rw [← hseek.pending_eq, hw]
      exact hinv.finish hlive
    · intro split hsplit
      obtain ⟨head, extent, hsplit', rfl⟩ := hinv.best.mem hsplit
      rw [Buffer.filled_seek]
      exact Nat.le_trans (Nat.add_le_add_left hsplit'.2.2.1 start) hcursor

end Search

end Tables

end Munch
