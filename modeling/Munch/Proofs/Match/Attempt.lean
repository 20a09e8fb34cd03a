-- SUMMARY: What a match attempt decides, as a relation on the pending bytes that leaves no choice.
import Munch.Proofs.Match.Selection

/-! # Attempts

The outcome of an attempt depends on the tables, the start condition, the beginning of a line and the
pending bytes only. `Tables.Decides` says which outcome it is, for all sound tables; neither the
offset at which the attempt begins nor the way the bytes reach the buffer has a part in it. -/

namespace Munch

/-- The number of bytes that an attempt passes. -/
def Attempt.passes : Attempt → Nat
  | .accepted _ length => length
  | .noMatch => 0
  | .endOfInput => 0

namespace Tables

/-- The lexemes that the active entry states offer. -/
def Offered (t : Tables) (sc : StartCondition) (atLineStart : Bool) (w : List UInt8)
    (x : Lexeme) : Prop :=
  ∃ entry ∈ entries sc atLineStart, t.Offers entry w x

/-- The outcome of an attempt on some pending bytes. -/
def Decides (t : Tables) (sc : StartCondition) (atLineStart : Bool) (w : List UInt8) :
    Attempt → Prop
  | .accepted rule length => ∃ x : Lexeme, x.rule = rule ∧ x.head = length ∧
      t.Offered sc atLineStart w x ∧
      ∀ y, t.Offered sc atLineStart w y → ¬ y.Precedes x
  | .noMatch => w ≠ [] ∧ ∀ x, ¬ t.Offered sc atLineStart w x
  | .endOfInput => w = []

theorem Offered.head_pos {t : Tables} {sc : StartCondition} {atLineStart : Bool} {w : List UInt8}
    {x : Lexeme} (h : t.Offered sc atLineStart w x) : 0 < x.head ∧ x.head ≤ w.length := by
  obtain ⟨entry, -, head, hpoint, hcontr⟩ := h
  unfold Contributes at hcontr
  cases hq : t.contextStart? x.rule with
  | none =>
    rw [hq] at hcontr
    exact hcontr.1 ▸ ⟨hpoint.1, hpoint.2.1⟩
  | some q =>
    rw [hq] at hcontr
    exact ⟨hcontr.1.1, hcontr.1.le⟩

namespace Decides

variable {t : Tables} {sc : StartCondition} {atLineStart : Bool} {w : List UInt8}

/-- There is at most one outcome. -/
theorem unique {o o' : Attempt} (h : t.Decides sc atLineStart w o)
    (h' : t.Decides sc atLineStart w o') : o = o' := by
  have hnil : ∀ x : Lexeme, t.Offered sc atLineStart w x → w ≠ [] := by
    rintro x hx rfl
    exact absurd hx.head_pos.2 (Nat.not_le.2 hx.head_pos.1)
  cases o with
  | endOfInput =>
    cases o' with
    | endOfInput => rfl
    | noMatch => exact absurd h h'.1
    | accepted rule length =>
      obtain ⟨x, -, -, hx, -⟩ := h'
      exact absurd h (hnil x hx)
  | noMatch =>
    cases o' with
    | endOfInput => exact absurd h' h.1
    | noMatch => rfl
    | accepted rule length =>
      obtain ⟨x, -, -, hx, -⟩ := h'
      exact absurd hx (h.2 x)
  | accepted rule length =>
    obtain ⟨x, rfl, rfl, hx, hbest⟩ := h
    cases o' with
    | endOfInput => exact absurd h' (hnil x hx)
    | noMatch => exact absurd hx (h'.2 x)
    | accepted rule' length' =>
      obtain ⟨y, rfl, rfl, hy, hbest'⟩ := h'
      rw [Lexeme.eq_of_not_precedes (hbest' x hx) (hbest y hy)]

theorem passes_le {o : Attempt} (h : t.Decides sc atLineStart w o) : o.passes ≤ w.length := by
  cases o with
  | accepted rule length =>
    obtain ⟨x, -, rfl, hx, -⟩ := h
    exact hx.head_pos.2
  | noMatch => exact Nat.zero_le _
  | endOfInput => exact Nat.zero_le _

end Decides

/-! ## Tracks -/

section Tracks

variable {t : Tables} {start : Nat} {u : List UInt8} {x : UInt8}

theorem TrackInv.ofEntry {entry : State} (h : entry < t.stateCount) :
    t.TrackInv start [] (Track.start entry) where
  entry_lt := h
  current_eq := rfl
  mem_accepts a := by
    refine ⟨fun h => (nomatch h), ?_⟩
    rintro ⟨head, hpos, hle, -⟩
    exact absurd hpos (Nat.not_lt.2 hle)

/-- A run that ends in an accepting state has passed one more such state. -/
theorem TrackInv.step (ht : t.Sound) {c : ByteClass} (hc : t.byteClass x = .ok c) {track : Track}
    (h : t.TrackInv start u track) :
    ∃ track', Track.step t c (start + (u.length + 1)) track = .ok track' ∧
      track'.entry = track.entry ∧ t.TrackInv start (u ++ [x]) track' := by
  have hlength : (u ++ [x]).length = u.length + 1 := List.length_append
  have hcurrent : t.transition? track.current c = .ok (t.run? track.entry (u ++ [x])) := by
    rw [h.current_eq, run?_concat]
    cases hs : t.run? track.entry u with
    | none => rfl
    | some s => exact ht.step?_eq hc (ht.run?_lt h.entry_lt hs)
  -- The states passed before the last byte.
  have hbefore : ∀ a : Acceptance, (∃ head, 0 < head ∧ head ≤ u.length ∧ a.stop = start + head ∧
      t.run? track.entry ((u ++ [x]).take head) = some a.state ∧ t.ruleOf a.state ≠ 0) ↔
      a ∈ track.accepts := by
    intro a
    rw [h.mem_accepts]
    refine exists_congr fun head => and_congr_right fun _ => and_congr_right fun hle => ?_
    rw [List.take_append_of_le_length hle]
  have hsplit : ∀ a : Acceptance,
      (∃ head, 0 < head ∧ head ≤ (u ++ [x]).length ∧ a.stop = start + head ∧
        t.run? track.entry ((u ++ [x]).take head) = some a.state ∧ t.ruleOf a.state ≠ 0) ↔
      (a.stop = start + (u.length + 1) ∧ t.run? track.entry (u ++ [x]) = some a.state ∧
        t.ruleOf a.state ≠ 0) ∨ a ∈ track.accepts := by
    intro a
    rw [← hbefore, hlength]
    constructor
    · rintro ⟨head, hpos, hle, hstop, hrun, hrule⟩
      rcases Nat.lt_or_ge u.length head with hlt | hle'
      · obtain rfl : head = u.length + 1 := Nat.le_antisymm hle hlt
        rw [← hlength, List.take_length] at hrun
        exact .inl ⟨hstop, hrun, hrule⟩
      · exact .inr ⟨head, hpos, hle', hstop, hrun, hrule⟩
    · rintro (⟨hstop, hrun, hrule⟩ | ⟨head, hpos, hle, hrest⟩)
      · refine ⟨u.length + 1, Nat.succ_pos _, Nat.le_refl _, hstop, ?_, hrule⟩
        rw [← hlength, List.take_length]
        exact hrun
      · exact ⟨head, hpos, Nat.le_succ_of_le hle, hrest⟩
  unfold Track.step
  simp only [hcurrent, ok_bind]
  cases hs : t.run? track.entry (u ++ [x]) with
  | none =>
    refine ⟨_, rfl, rfl, h.entry_lt, hs.symm, fun a => ?_⟩
    rw [hsplit a, hs]
    simp only [reduceCtorEq, false_and, and_false, false_or]
  | some s =>
    simp only [ht.accepts_eq (ht.run?_lt h.entry_lt hs), ok_bind]
    refine ⟨_, rfl, rfl, h.entry_lt, hs.symm, fun a => ?_⟩
    rw [hsplit a, hs]
    by_cases hrule : t.ruleOf s = 0
    · simp only [hrule, bne_self_eq_false, Bool.false_eq_true, if_false]
      refine ⟨.inr, fun hor => hor.elim (fun hnew => ?_) id⟩
      exact absurd hrule (Option.some.inj hnew.2.1 ▸ hnew.2.2)
    · rw [if_pos (bne_iff_ne.2 hrule), List.mem_cons]
      refine or_congr_left ?_
      constructor
      · rintro rfl
        exact ⟨rfl, rfl, hrule⟩
      · obtain ⟨stop, state⟩ := a
        rintro ⟨rfl, hstate, -⟩
        rw [Option.some.inj hstate]

theorem stepTracks_spec (ht : t.Sound) {tracks : List Track}
    (h : ∀ track ∈ tracks, t.TrackInv start u track) :
    ∃ tracks', t.stepTracks tracks x (start + (u.length + 1)) = .ok tracks' ∧
      tracks'.map (·.entry) = tracks.map (·.entry) ∧
      ∀ track ∈ tracks', t.TrackInv start (u ++ [x]) track := by
  obtain ⟨c, hc, -⟩ := ht.byteClass x
  unfold stepTracks
  rw [hc, ok_bind]
  induction tracks with
  | nil => exact ⟨[], rfl, rfl, fun _ h => nomatch h⟩
  | cons track rest ih =>
    obtain ⟨track', hstep, hentry, hinv⟩ := (h track List.mem_cons_self).step ht hc
    obtain ⟨rest', hrest, hentries, hinvs⟩ :=
      ih fun track' hmem => h track' (List.mem_cons_of_mem _ hmem)
    refine ⟨track' :: rest', ?_, ?_, fun track₀ hmem => ?_⟩
    · rw [List.mapM_cons, hstep, ok_bind, hrest]
      rfl
    · rw [List.map_cons, List.map_cons, hentry, hentries]
    · rcases List.mem_cons.1 hmem with rfl | hmem
      · exact hinv
      · exact hinvs track₀ hmem

/-- Further bytes add no accepting state to a track that has died. -/
theorem TrackInv.isPoint_append {v : List UInt8} {track : Track} (h : t.TrackInv start u track)
    (hlive : track.alive = true → v = []) (rule : Rule) (head : Nat) :
    t.IsPoint track.entry u rule head ↔ t.IsPoint track.entry (u ++ v) rule head := by
  unfold IsPoint
  rw [List.length_append]
  constructor
  · rintro ⟨hpos, hle, hs⟩
    rw [List.take_append_of_le_length hle]
    exact ⟨hpos, Nat.le_trans hle (Nat.le_add_right _ _), hs⟩
  · rintro ⟨hpos, hle, s, hs, hrule⟩
    rcases Nat.lt_or_ge u.length head with hlt | hle'
    · exfalso
      have hv : v ≠ [] := by
        rintro rfl
        exact Nat.not_lt.2 hle hlt
      rw [List.take_append, List.take_of_length_le (Nat.le_of_lt hlt), run?_append] at hs
      obtain ⟨s₀, hs₀, -⟩ := Option.bind_eq_some_iff.1 hs
      refine hv (hlive ?_)
      rw [Track.alive, h.current_eq, hs₀]
      rfl
    · rw [List.take_append_of_le_length hle'] at hs
      exact ⟨hpos, hle', s, hs, hrule⟩

end Tracks

/-! ## The outcome -/

section Outcome

variable {t : Tables} {sc : StartCondition} {atLineStart : Bool} {b : Buffer}

theorem startTracks_spec (atLineStart : Bool) (start : Nat) (hstate : sc.state.toNat < t.stateCount)
    (hbol : sc.bolState.toNat < t.stateCount) :
    ∃ tracks, t.startTracks sc atLineStart = .ok tracks ∧
      tracks.map (·.entry) = entries sc atLineStart ∧
      (∀ track ∈ tracks, t.TrackInv start [] track) ∧ tracks.any Track.alive = true := by
  have hstart : t.startTracks sc atLineStart =
      .ok (Track.start sc.state.toNat ::
        if atLineStart && sc.hasOwnBol then [Track.start sc.bolState.toNat] else []) := by
    simp only [startTracks, entryStates, checkState, hstate, hbol, if_true]
    rfl
  refine ⟨_, hstart, ?_, ?_, rfl⟩
  · unfold entries
    split <;> rfl
  · intro track hmem
    rcases List.mem_cons.1 hmem with rfl | hmem
    · exact .ofEntry hstate
    · split at hmem
      · obtain rfl := List.mem_singleton.1 hmem
        exact .ofEntry hbol
      · cases hmem

theorem leaveLastByte_wp {tracks : List Track} (hb : b.Steady) :
    wp (leaveLastByte tracks) (fun _ b' => ∃ n, b.Reached n b') b := by
  refine .modify ?_
  split
  · exact ⟨b.cursor, .refl hb⟩
  · refine ⟨b.unread.cursor, Buffer.unread_extends b, ⟨?_, ?_⟩, rfl⟩
    · unfold Buffer.unread
      split
      · exact hb.source
      · exact hb.source
    · rw [(Buffer.unread_extends b).settings_eq]
      exact hb.block

/-- The winner of an attempt decides it. -/
theorem decides_of_isBest {w : List UInt8} {start : Nat} (hw : w ≠ []) {winner : Option Candidate}
    (h : IsBest Candidate.preferredTo
      (fun c => ∃ x : Lexeme, t.Offered sc atLineStart w x ∧ c = x.shift start) winner) :
    t.Decides sc atLineStart w
      (winner.elim .noMatch fun c => .accepted c.rule (c.headEnd - start)) := by
  cases winner with
  | none => exact ⟨hw, fun x hx => h _ ⟨x, hx, rfl⟩⟩
  | some c =>
    obtain ⟨⟨x, hx, rfl⟩, hbest⟩ := h
    refine ⟨x, rfl, (Nat.add_sub_cancel_left start x.head).symm, hx, fun y hy => ?_⟩
    rw [← Lexeme.preferredTo_shift start, hbest _ ⟨y, hy, rfl⟩]
    exact Bool.false_ne_true

/-- Settling ends with the outcome that the winner stands for. -/
theorem settle_wp {b' : Buffer} {n : Nat} (hb' : b.Reached n b') (hw : b.pending ≠ [])
    {winner : Option Candidate} (hheld : ∀ c ∈ winner, c.headEnd ≤ b'.filled)
    (hbest : IsBest Candidate.preferredTo
      (fun c => ∃ x : Lexeme, t.Offered sc atLineStart b.pending x ∧ c = x.shift b.cursor) winner) :
    wp (settle b.cursor winner) (fun outcome b' => t.Decides sc atLineStart b.pending outcome ∧
      b.Reached (b.cursor + outcome.passes) b') b' := by
  have hdecides := decides_of_isBest hw hbest
  cases winner with
  | none =>
    refine .bind (.modify (.pure ⟨hdecides, hb'.seek ?_⟩))
    exact Nat.le_trans b.cursor_le_filled hb'.filled_le
  | some c =>
    refine .bind (.modify (.pure ⟨hdecides, ?_⟩))
    obtain ⟨⟨x, -, rfl⟩, -⟩ := hbest
    have hpasses : b.cursor + ((x.shift b.cursor).headEnd - b.cursor) =
        (x.shift b.cursor).headEnd :=
      Nat.add_sub_cancel' (Nat.le_add_right _ _)
    exact hpasses.symm ▸ hb'.seek (hheld _ rfl)

/-- An attempt has the outcome that the pending bytes decide, and leaves the cursor behind the match,
or where it was. -/
theorem longestMatch_wp (ht : t.Sound) (hstate : sc.state.toNat < t.stateCount)
    (hbol : sc.bolState.toNat < t.stateCount) (hb : b.Steady) :
    wp (t.longestMatch sc atLineStart) (fun outcome b' =>
      t.Decides sc atLineStart b.pending outcome ∧ b.Reached (b.cursor + outcome.passes) b') b := by
  obtain ⟨tracks, hstart, hentries, hinv, halive⟩ :=
    startTracks_spec atLineStart b.cursor hstate hbol
  refine .bind (.liftFault hstart (.bind (.get (.bind ?_))))
  refine (Buffer.feed_wp hb (fun u tracks => tracks.map (·.entry) = entries sc atLineStart ∧
    (∀ track ∈ tracks, t.TrackInv b.cursor u track) ∧ (u = [] → tracks.any Track.alive = true))
    (fun u x v tracks _ hinv _ => ?_) ⟨hentries, hinv, fun _ => halive⟩).mono ?_
  · obtain ⟨tracks', hok, hentries', hinv'⟩ := stepTracks_spec ht hinv.2.1
    exact ⟨tracks', hok, hentries'.trans hinv.1, hinv', fun h => absurd h (by simp)⟩
  · rintro tracks b₁ ⟨u, v, hw, ⟨hentries, hinv, hempty⟩, hlive, hb₁⟩
    refine .bind (.get ?_)
    have hcursor : b₁.cursor = b.cursor ↔ u = [] := by
      rw [hb₁.cursor_eq, Nat.add_eq_left, List.length_eq_zero_iff]
    by_cases hu : u = []
    · rw [if_pos (hcursor.2 hu)]
      subst hu
      refine .pure ⟨?_, hb₁⟩
      rw [hw, hlive (hempty rfl)]
      rfl
    · rw [if_neg (mt hcursor.1 hu)]
      refine .bind ((leaveLastByte_wp hb₁.steady).mono fun _ b₂ ⟨n, hleave⟩ => .bind ?_)
      have hb₂ := hb₁.trans hleave
      have hrest : b₂.stream.drop b.cursor = b.pending := by
        rw [hb₂.toExtends.stream_eq, ← Buffer.pending_eq_drop]
      have hheld : b.cursor + u.length ≤ b₂.filled :=
        Nat.le_trans (hb₁.cursor_eq ▸ b₁.cursor_le_filled) hleave.filled_le
      refine (chooseWinner_wp ht hinv hheld (fun track hmem rule head => ?_)
        ⟨_, .refl hb₂.steady⟩).mono ?_
      · rw [hrest, hw]
        refine (hinv track hmem).isPoint_append (fun halive => hlive ?_) rule head
        exact List.any_eq_true.2 ⟨track, hmem, halive⟩
      · rintro winner b₃ ⟨⟨m, hb₃⟩, hbest, hwinner⟩
        refine settle_wp (hb₂.trans hb₃) ?_ hwinner (hbest.congr fun c => ?_)
        · rw [hw]
          exact List.append_ne_nil_of_left_ne_nil hu v
        · refine exists_congr fun x => and_congr_left fun _ => ?_
          rw [hrest, Offered, ← hentries]
          simp only [List.mem_map, exists_exists_and_eq_and]

end Outcome

end Tables

end Munch
