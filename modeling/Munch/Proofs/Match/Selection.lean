-- SUMMARY: Lexemes at the front of some bytes, and the selection that offers all of them and keeps the best.
import Munch.Proofs.Match.Split

/-! # Selection

A lexeme is a rule, the length of its head and the extent of head and context together. The tracks of
an attempt offer lexemes wherever they pass an accepting state. The loops over tracks, accepting
states and rules keep the best of what was offered, although they look for the context of a rule
only once per track. -/

namespace Munch

/-- A rule that matches, by the length of its head and the extent it competes with. -/
structure Lexeme where
  rule : Rule
  head : Nat
  extent : Nat
  deriving DecidableEq, Repr

namespace Lexeme

/-- The same as a candidate of an attempt that began at an offset. -/
def shift (start : Nat) (x : Lexeme) : Candidate :=
  ⟨x.rule, start + x.head, start + x.extent⟩

/-- The longer extent wins, then the smaller rule, then the longer head. -/
def Precedes (x y : Lexeme) : Prop :=
  y.extent < x.extent ∨ x.extent = y.extent ∧
    (x.rule < y.rule ∨ x.rule = y.rule ∧ y.head < x.head)

theorem preferredTo_shift (start : Nat) {x y : Lexeme} :
    (x.shift start).preferredTo (y.shift start) = true ↔ x.Precedes y := by
  simp only [Candidate.preferredTo, Bool.or_eq_true, Bool.and_eq_true, decide_eq_true_eq, beq_iff_eq]
  simp only [shift, Precedes, Nat.add_lt_add_iff_left, Nat.add_right_inj]

theorem shift_injective {start : Nat} {x y : Lexeme} (h : x.shift start = y.shift start) : x = y := by
  obtain ⟨rule, head, extent⟩ := x
  obtain ⟨rule', head', extent'⟩ := y
  simp only [shift, Candidate.mk.injEq] at h
  obtain ⟨rfl, hhead, hextent⟩ := h
  rw [Nat.add_left_cancel hhead, Nat.add_left_cancel hextent]

/-- Of two different lexemes one precedes the other. -/
theorem eq_of_not_precedes {x y : Lexeme} (hxy : ¬ x.Precedes y) (hyx : ¬ y.Precedes x) : x = y := by
  rw [← preferredTo_shift 0, Bool.not_eq_true] at hxy hyx
  exact shift_injective (Candidate.preference.total _ _ hxy hyx)

end Lexeme

namespace Tables

/-- An accepting state is passed behind `head` bytes that accepts a rule. -/
def IsPoint (t : Tables) (entry : State) (w : List UInt8) (rule : Rule) (head : Nat) : Prop :=
  0 < head ∧ head ≤ w.length ∧
    ∃ s, t.run? entry (w.take head) = some s ∧ t.ruleOf s ≠ 0 ∧ rule ∈ t.rulesOf s

/-- What a rule accepted behind `head` bytes contributes: that head, or if the rule has trailing
context every split of it. -/
def Contributes (t : Tables) (entry : State) (w : List UInt8) (head : Nat) (x : Lexeme) : Prop :=
  match t.contextStart? x.rule with
  | none => x.head = head ∧ x.extent = head
  | some q => t.IsSplit entry x.rule q w x.head x.extent

/-- The lexemes that a track from an entry state comes across. -/
def Offers (t : Tables) (entry : State) (w : List UInt8) (x : Lexeme) : Prop :=
  ∃ head, t.IsPoint entry w x.rule head ∧ t.Contributes entry w head x

section Selection

variable {t : Tables} {entry : State} {start : Nat} {b b' : Buffer} {P : Candidate → Prop}
  {sel : Selection}

/-- What a selection keeps: the best of the candidates offered so far, and for each rule with
trailing context that came up its best split. -/
structure SelectionInv (t : Tables) (entry : State) (start : Nat) (b : Buffer)
    (P : Candidate → Prop) (sel : Selection) (b' : Buffer) : Prop where
  reached : ∃ n, b.Reached n b'
  best : IsBest Candidate.preferredTo P sel.best
  held : ∀ c ∈ sel.best, c.headEnd ≤ b'.filled
  splits : ∀ rule split, (rule, split) ∈ sel.splits → ∃ q, t.contextStart? rule = some q ∧
    IsBest Split.betterThan (fun split => ∃ head extent,
      t.IsSplit entry rule q (b.stream.drop start) head extent ∧
        split = ⟨start + head, start + extent⟩) split ∧
    ∀ x ∈ split, x.extentEnd ≤ b'.filled

namespace SelectionInv

theorem congr {Q : Candidate → Prop} (h : t.SelectionInv entry start b P sel b')
    (hPQ : ∀ c, P c ↔ Q c) : t.SelectionInv entry start b Q sel b' :=
  ⟨h.reached, h.best.congr hPQ, h.held, h.splits⟩

/-- Looking for the context of one more rule. -/
theorem addSplit (h : t.SelectionInv entry start b P sel b') {b'' : Buffer}
    (hb : b'.Reached start b'') {rule : Rule} {q : State} (hq : t.contextStart? rule = some q)
    {split : Option Split} (hsplit : IsBest Split.betterThan (fun split => ∃ head extent,
      t.IsSplit entry rule q (b.stream.drop start) head extent ∧
        split = ⟨start + head, start + extent⟩) split)
    (hheld : ∀ x ∈ split, x.extentEnd ≤ b''.filled) :
    t.SelectionInv entry start b P { sel with splits := (rule, split) :: sel.splits } b'' := by
  obtain ⟨n, hreached⟩ := h.reached
  refine ⟨⟨start, hreached.trans hb⟩, h.best, fun c hc => Nat.le_trans (h.held c hc) hb.filled_le, ?_⟩
  intro rule' split' hmem
  rcases List.mem_cons.1 hmem with heq | hmem
  · obtain ⟨rfl, rfl⟩ := Prod.mk.inj heq
    exact ⟨q, hq, hsplit, hheld⟩
  · obtain ⟨q', hq', hbest, hle⟩ := h.splits rule' split' hmem
    exact ⟨q', hq', hbest, fun x hx => Nat.le_trans (hle x hx) hb.filled_le⟩

theorem offer (h : t.SelectionInv entry start b P sel b') (new : Candidate)
    (hnew : new.headEnd ≤ b'.filled) :
    t.SelectionInv entry start b (fun c => P c ∨ c = new) (sel.offer new) b' := by
  have hbest := h.best.offer Candidate.preference new
  unfold Selection.offer
  split
  · rename_i hall
    rw [if_pos hall] at hbest
    refine ⟨h.reached, hbest, fun c hc => ?_, h.splits⟩
    cases hc
    exact hnew
  · rename_i hall
    rw [if_neg hall] at hbest
    exact ⟨h.reached, hbest, h.held, h.splits⟩

/-- The best split of a rule stands for all its splits. -/
theorem offerSplit (h : t.SelectionInv entry start b P sel b') {S : Split → Prop}
    {split : Option Split} (hsplit : IsBest Split.betterThan S split)
    (hheld : ∀ x ∈ split, x.headEnd ≤ b'.filled) (rule : Rule) :
    t.SelectionInv entry start b
      (fun c => P c ∨ ∃ x, S x ∧ c = ⟨rule, x.headEnd, x.extentEnd⟩)
      (sel.offerSplit rule split) b' := by
  cases split with
  | none =>
    refine h.congr fun c => ⟨.inl, ?_⟩
    rintro (hc | ⟨x, hx, -⟩)
    · exact hc
    · exact absurd hx (hsplit x)
  | some x =>
    have hoffer := h.offer ⟨rule, x.headEnd, x.extentEnd⟩ (hheld x rfl)
    refine ⟨hoffer.reached, ?_, hoffer.held, hoffer.splits⟩
    refine (hoffer.best.absorb Candidate.preference
      (Q := fun c => ∃ x, S x ∧ c = ⟨rule, x.headEnd, x.extentEnd⟩) ?_).congr fun c => ?_
    · rintro c ⟨y, hy, rfl⟩
      refine ⟨_, .inr rfl, ?_⟩
      have hyx := hsplit.2 y hy
      simp only [Split.betterThan, Bool.or_eq_false_iff, Bool.and_eq_false_iff,
        decide_eq_false_iff_not, beq_eq_false_iff_ne] at hyx
      simp only [Candidate.preferredTo, Bool.or_eq_false_iff, Bool.and_eq_false_iff,
        decide_eq_false_iff_not, beq_eq_false_iff_ne, ne_eq, not_true_eq_false, false_or]
      exact ⟨hyx.1, hyx.2.imp_right fun h => ⟨Nat.lt_irrefl rule, h⟩⟩
    · constructor
      · rintro ((hc | rfl) | hc)
        · exact .inl hc
        · exact .inr ⟨x, hsplit.1, rfl⟩
        · exact .inr hc
      · rintro (hc | hc)
        · exact .inl (.inl hc)
        · exact .inr hc

end SelectionInv

/-! ## The loops -/

/-- Considering a rule adds what it contributes. -/
theorem consider_wp (ht : t.Sound) (hentry : entry < t.stateCount) {head : Nat}
    (hhead : start + head ≤ b.filled) (rule : Rule)
    (h : t.SelectionInv entry start b P sel b') :
    wp (t.consider start entry (start + head) sel rule)
      (t.SelectionInv entry start b fun c => P c ∨ ∃ x : Lexeme, x.rule = rule ∧
        t.Contributes entry (b.stream.drop start) head x ∧ c = x.shift start) b' := by
  obtain ⟨n, hreached⟩ := h.reached
  refine .bind (.liftFault (ht.trailingStart?_eq rule) ?_)
  cases hq : t.contextStart? rule with
  | none =>
    refine .pure ((h.offer _ (Nat.le_trans hhead hreached.filled_le)).congr fun c => ?_)
    refine or_congr_right ?_
    constructor
    · rintro rfl
      refine ⟨⟨rule, head, head⟩, rfl, ?_, rfl⟩
      simp only [Contributes, hq, and_self]
    · rintro ⟨⟨rule', head', extent'⟩, rfl, hx, rfl⟩
      simp only [Contributes, hq] at hx
      obtain ⟨rfl, rfl⟩ := hx
      rfl
  | some q =>
    -- All splits of the rule, as lexemes.
    have hall : ∀ c : Candidate, (∃ split : Split, (∃ head extent,
        t.IsSplit entry rule q (b.stream.drop start) head extent ∧
          split = ⟨start + head, start + extent⟩) ∧ c = ⟨rule, split.headEnd, split.extentEnd⟩) ↔
        ∃ x : Lexeme, x.rule = rule ∧ t.Contributes entry (b.stream.drop start) head x ∧
          c = x.shift start := by
      intro c
      constructor
      · rintro ⟨_, ⟨head', extent', hsplit, rfl⟩, rfl⟩
        refine ⟨⟨rule, head', extent'⟩, rfl, ?_, rfl⟩
        simp only [Contributes, hq]
        exact hsplit
      · rintro ⟨⟨rule', head', extent'⟩, rfl, hx, rfl⟩
        simp only [Contributes, hq] at hx
        exact ⟨_, ⟨head', extent', hx, rfl⟩, rfl⟩
    have hheadEnd : ∀ {split : Option Split} {b'' : Buffer}, IsBest Split.betterThan
        (fun split => ∃ head extent, t.IsSplit entry rule q (b.stream.drop start) head extent ∧
          split = ⟨start + head, start + extent⟩) split →
        (∀ x ∈ split, x.extentEnd ≤ b''.filled) → ∀ x ∈ split, x.headEnd ≤ b''.filled := by
      intro split b'' hbest hheld x hx
      obtain ⟨head', extent', hsplit, rfl⟩ := hbest.mem hx
      exact Nat.le_trans (Nat.add_le_add_left hsplit.2.1 start) (hheld _ hx)
    dsimp only
    cases hlookup : sel.splits.lookup rule with
    | some split =>
      obtain ⟨l₁, l₂, hsplits, -⟩ := List.lookup_eq_some_iff.1 hlookup
      obtain ⟨q', hq', hbest, hheld⟩ :=
        h.splits rule split (hsplits ▸ List.mem_append_right _ List.mem_cons_self)
      obtain rfl := Option.some.inj (hq.symm.trans hq')
      exact .pure ((h.offerSplit hbest (hheadEnd hbest hheld) rule).congr
        fun c => or_congr_right (hall c))
    | none =>
      have hstart : start ≤ b'.filled :=
        Nat.le_trans (Nat.le_trans (Nat.le_add_right _ _) hhead) hreached.filled_le
      refine .bind ((bestSplit_wp ht hentry (ht.contextStart?_lt hq) hreached.steady hstart).mono ?_)
      rintro split b'' ⟨hb'', hbest, hheld⟩
      rw [hreached.toExtends.stream_eq] at hbest
      exact .pure (((h.addSplit hb'' hq hbest hheld).offerSplit hbest (hheadEnd hbest hheld) rule).congr
        fun c => or_congr_right (hall c))

/-- Considering an accepting state adds what its rules contribute. -/
theorem considerPoint_wp (ht : t.Sound) (hentry : entry < t.stateCount) {head : Nat}
    (hhead : start + head ≤ b.filled) {s : State} (hs : s < t.stateCount)
    (h : t.SelectionInv entry start b P sel b') :
    wp (t.considerPoint start entry sel ⟨start + head, s⟩)
      (t.SelectionInv entry start b fun c => P c ∨ ∃ x : Lexeme, x.rule ∈ t.rulesOf s ∧
        t.Contributes entry (b.stream.drop start) head x ∧ c = x.shift start) b' := by
  refine .bind (.liftFault (ht.rulesAt_eq hs) ?_)
  refine .foldlM (fun seen => t.SelectionInv entry start b fun c => P c ∨
    ∃ x : Lexeme, x.rule ∈ seen ∧ t.Contributes entry (b.stream.drop start) head x ∧
      c = x.shift start) (h.congr fun c => ?_) ?_
  · simp only [List.not_mem_nil, false_and, exists_false, or_false]
  · intro seen rule rest sel b' _ h
    refine (consider_wp ht hentry hhead rule h).mono fun sel b' h => h.congr fun c => ?_
    simp only [List.mem_append, List.mem_singleton, or_and_right, exists_or, or_assoc]

/-- What the accepting states of a track say about the bytes that were read. -/
structure TrackInv (t : Tables) (start : Nat) (u : List UInt8) (track : Track) : Prop where
  entry_lt : track.entry < t.stateCount
  current_eq : track.current = t.run? track.entry u
  mem_accepts : ∀ a, a ∈ track.accepts ↔ ∃ head, 0 < head ∧ head ≤ u.length ∧
    a.stop = start + head ∧ t.run? track.entry (u.take head) = some a.state ∧
      t.ruleOf a.state ≠ 0

/-- Considering a track adds all lexemes it offers. -/
theorem considerTrack_wp (ht : t.Sound) {u : List UInt8} {track : Track}
    (htrack : t.TrackInv start u track) (hu : start + u.length ≤ b.filled)
    (hpoints : ∀ rule head, t.IsPoint track.entry u rule head ↔
      t.IsPoint track.entry (b.stream.drop start) rule head)
    {best : Option Candidate} (hreached : ∃ n, b.Reached n b')
    (hbest : IsBest Candidate.preferredTo P best) (hheld : ∀ c ∈ best, c.headEnd ≤ b'.filled) :
    wp (t.considerTrack start best track) (fun best b' => (∃ n, b.Reached n b') ∧
      IsBest Candidate.preferredTo (fun c => P c ∨ ∃ x : Lexeme,
        t.Offers track.entry (b.stream.drop start) x ∧ c = x.shift start) best ∧
      ∀ c ∈ best, c.headEnd ≤ b'.filled) b' := by
  have hinit : t.SelectionInv track.entry start b P { best } b' :=
    ⟨hreached, hbest, hheld, fun _ _ hmem => nomatch hmem⟩
  refine .bind ((wp.foldlM (fun seen => t.SelectionInv track.entry start b fun c => P c ∨
    ∃ a ∈ seen, ∃ x : Lexeme, x.rule ∈ t.rulesOf a.state ∧
      t.Contributes track.entry (b.stream.drop start) (a.stop - start) x ∧ c = x.shift start)
    (hinit.congr fun c => ?_) ?_).mono ?_)
  · simp only [List.not_mem_nil, false_and, exists_false, or_false]
  · rintro seen ⟨stop, s⟩ rest sel b' haccepts h
    have hmem : (⟨stop, s⟩ : Acceptance) ∈ track.accepts := haccepts ▸ by simp
    obtain ⟨head, -, hle, rfl, hrun, -⟩ := (htrack.mem_accepts _).1 hmem
    have hhead : start + head ≤ b.filled := Nat.le_trans (Nat.add_le_add_left hle _) hu
    have hs : s < t.stateCount := ht.run?_lt htrack.entry_lt hrun
    refine (considerPoint_wp ht htrack.entry_lt hhead hs h).mono fun sel b' h => h.congr fun c => ?_
    simp only [List.mem_append, List.mem_singleton, or_and_right, exists_or, exists_eq_left,
      Nat.add_sub_cancel_left, or_assoc]
  · intro sel b' h
    refine .pure ⟨h.reached, h.best.congr fun c => or_congr_right ?_, h.held⟩
    constructor
    · rintro ⟨a, ha, x, hx, hcontr, rfl⟩
      obtain ⟨head, hpos, hle, hstop, hrun, hrule⟩ := (htrack.mem_accepts a).1 ha
      rw [hstop, Nat.add_sub_cancel_left] at hcontr
      exact ⟨x, ⟨head, (hpoints _ _).1 ⟨hpos, hle, a.state, hrun, hrule, hx⟩, hcontr⟩, rfl⟩
    · rintro ⟨x, ⟨head, hpoint, hcontr⟩, rfl⟩
      obtain ⟨hpos, hle, s, hrun, hrule, hx⟩ := (hpoints _ _).2 hpoint
      refine ⟨⟨start + head, s⟩, (htrack.mem_accepts _).2 ⟨head, hpos, hle, rfl, hrun, hrule⟩,
        x, hx, ?_, rfl⟩
      rw [Nat.add_sub_cancel_left]
      exact hcontr

/-- The winner is the best lexeme that some track offers. -/
theorem chooseWinner_wp (ht : t.Sound) {u : List UInt8} {tracks : List Track}
    (htracks : ∀ track ∈ tracks, t.TrackInv start u track) (hu : start + u.length ≤ b.filled)
    (hpoints : ∀ track ∈ tracks, ∀ rule head, t.IsPoint track.entry u rule head ↔
      t.IsPoint track.entry (b.stream.drop start) rule head) (hreached : ∃ n, b.Reached n b') :
    wp (t.chooseWinner start tracks) (fun best b' => (∃ n, b.Reached n b') ∧
      IsBest Candidate.preferredTo (fun c => ∃ x : Lexeme,
        (∃ track ∈ tracks, t.Offers track.entry (b.stream.drop start) x) ∧ c = x.shift start) best ∧
      ∀ c ∈ best, c.headEnd ≤ b'.filled) b' := by
  refine .foldlM (fun (seen : List Track) (best : Option Candidate) b' => (∃ n, b.Reached n b') ∧
    IsBest Candidate.preferredTo (fun c => ∃ x : Lexeme,
      (∃ track ∈ seen, t.Offers track.entry (b.stream.drop start) x) ∧ c = x.shift start) best ∧
    ∀ c ∈ best, c.headEnd ≤ b'.filled) ⟨hreached, ?_, fun c hc => nomatch hc⟩ ?_
  · rintro c ⟨x, ⟨track, hmem, -⟩, -⟩
    cases hmem
  · rintro seen track rest best b' hsplit ⟨hreached, hbest, hheld⟩
    have hmem : track ∈ tracks := hsplit ▸ by simp
    apply (considerTrack_wp ht (htracks track hmem) hu (hpoints track hmem) hreached hbest
      hheld).mono
    rintro best b' ⟨hreached, hbest, hheld⟩
    refine ⟨hreached, hbest.congr fun c => ?_, hheld⟩
    simp only [List.mem_append, List.mem_singleton, or_and_right, exists_or, exists_eq_left]

end Selection

end Tables

end Munch
