-- SUMMARY: Match attempts over any source: where they leave the cursor, and that sound tables cause no error.
import Munch.Proofs.Buffer.Room
import Munch.Proofs.Match.Attempt

/-! # Bounds of an attempt

A source may fail in the middle of an attempt, and memory may run out. The attempt then leaves the
cursor somewhere behind its start, and the error is not one of the tables. If it succeeds the cursor
stands exactly behind the bytes that the match passes. -/

namespace Munch

open Buffer

/-- The later buffer has only read on and moved, and its cursor is not before that of the earlier. -/
structure Buffer.Probed (b b' : Buffer) : Prop where
  toExtends : Extends b b'
  roomy : b'.Roomy
  cursor_le : b.cursor ≤ b'.cursor

/-- An offset that an attempt may end at: not before its start, and not behind the held bytes. -/
def Buffer.Reaches (b b' : Buffer) (offset : Nat) : Prop :=
  b.cursor ≤ offset ∧ offset ≤ b'.filled

namespace Buffer

variable {b b' b'' : Buffer}

theorem Probed.refl (hb : b.Roomy) : Probed b b :=
  ⟨.refl b, hb, Nat.le_refl _⟩

theorem Probed.trans (h : Probed b b') (h' : Probed b' b'') : Probed b b'' :=
  ⟨h.toExtends.trans h'.toExtends, h'.roomy, Nat.le_trans h.cursor_le h'.cursor_le⟩

/-- Moving to an offset that an attempt may end at. -/
theorem Probed.seek (h : Probed b b') {offset : Nat} (hoffset : Reaches b b' offset) :
    Probed b (b'.seek offset) ∧ (b'.seek offset).cursor = offset := by
  have hcursor : (b'.seek offset).cursor = offset := by
    rw [cursor_seek, Nat.min_eq_left hoffset.2]
  exact ⟨⟨h.toExtends.trans (seek_extends b' offset), seek_roomy h.roomy offset,
    hcursor.symm ▸ hoffset.1⟩, hcursor⟩

/-- An attempt may always end at its start. -/
theorem Probed.reaches_cursor (h : Probed b b') : Reaches b b' b.cursor :=
  ⟨Nat.le_refl _, Nat.le_trans b.cursor_le_filled h.toExtends.filled_le⟩

theorem Reaches.mono {offset : Nat} (h : Reaches b b' offset) (hfilled : b'.filled ≤ b''.filled) :
    Reaches b b'' offset :=
  ⟨h.1, Nat.le_trans h.2 hfilled⟩

theorem readByte_probed (hb : b.Roomy) :
    ends readByte (fun byte b' => Probed b b' ∧ b'.cursor = b.cursor + byte.toList.length)
      (fun e b' => Probed b b' ∧ ¬ e.IsFault) b := by
  refine ((readByte_ends hb).and (.of_across readByte_extends b)).mono (fun _ b' h => ?_)
    fun _ b' h => ?_
  · exact ⟨⟨h.2, h.1.1, h.1.2 ▸ Nat.le_add_right _ _⟩, h.1.2⟩
  · exact ⟨⟨h.2, h.1.1, Nat.le_of_eq h.1.2.2.symm⟩, h.1.2.1⟩

/-- A machine whose steps succeed on whatever it was fed stops behind the bytes it was fed. -/
theorem feed_ends {μ : Type} {live : μ → Bool} {step : μ → UInt8 → Nat → Except TableFault μ}
    (hb : b.Roomy) (I : List UInt8 → μ → Prop)
    (hstep : ∀ u x m, I u m →
      ∃ m', step m x (b.cursor + (u.length + 1)) = .ok m' ∧ I (u ++ [x]) m')
    {m : μ} (h : I [] m) :
    ends (feed live step m)
      (fun m' b' => Probed b b' ∧ ∃ u, I u m' ∧ b'.cursor = b.cursor + u.length)
      (fun e b' => Probed b b' ∧ ¬ e.IsFault) b := by
  suffices hgen : ∀ b' u, I u m → Probed b b' → b'.cursor = b.cursor + u.length →
      ends (feed live step m)
        (fun m' b' => Probed b b' ∧ ∃ u, I u m' ∧ b'.cursor = b.cursor + u.length)
        (fun e b' => Probed b b' ∧ ¬ e.IsFault) b' from hgen b [] h (.refl hb) rfl
  clear h
  intro b' u hI hb' hcursor
  unfold ends
  fun_induction feed live step m b' generalizing u with
  | case1 m b₁ _ hl byte b₂ hread m' hm ih =>
    have hstepped := (readByte_probed hb'.roomy).ok hread
    have hcursor' : b₂.cursor = b.cursor + (u.length + 1) := by
      rw [hstepped.2, hcursor]
      rfl
    obtain ⟨m'', hm', hI'⟩ := hstep u byte m hI
    obtain rfl : m' = m'' := Except.ok.inj (hm.symm.trans (hcursor' ▸ hm'))
    exact ih (u ++ [byte]) hI' (hb'.trans hstepped.1) (by simpa using hcursor')
  | case2 m b₁ _ hl byte b₂ hread fault hm =>
    have hstepped := (readByte_probed hb'.roomy).ok hread
    have hcursor' : b₂.cursor = b.cursor + (u.length + 1) := by
      rw [hstepped.2, hcursor]
      rfl
    obtain ⟨m', hm', -⟩ := hstep u byte m hI
    cases hm.symm.trans (hcursor' ▸ hm')
  | case3 m b₁ _ hl b₂ hread =>
    have hstepped := (readByte_probed hb'.roomy).ok hread
    exact ⟨hb'.trans hstepped.1, u, hI, hstepped.2.trans hcursor⟩
  | case4 m b₁ _ hl e b₂ hread =>
    have hstepped := (readByte_probed hb'.roomy).error hread
    exact ⟨hb'.trans hstepped.1, hstepped.2⟩
  | case5 m b₁ _ hl => exact ⟨hb', u, hI, hcursor⟩

end Buffer

namespace Tables

variable {t : Tables} {entry trailing : State} {rule : Rule} {b b' : Buffer}

/-! ## Splits -/

/-- The search for splits finds heads that end within what was read. -/
theorem bestSplit_ends (ht : t.Sound) (hentry : entry < t.stateCount)
    (htrailing : trailing < t.stateCount) (hb' : Probed b b') :
    ends (t.bestSplit entry rule trailing b.cursor)
      (fun split b'' => (Probed b b'' ∧ b'.filled ≤ b''.filled) ∧
        ∀ x ∈ split, Reaches b b'' x.headEnd)
      (fun e b'' => Probed b b'' ∧ ¬ e.IsFault) b' := by
  obtain ⟨hseek, hcursor⟩ := hb'.seek hb'.reaches_cursor
  refine .bind (.modify (.bind ?_))
  refine (feed_ends hseek.roomy (t.SearchInv entry rule trailing b.cursor)
    (fun u x search hinv => ?_) SearchInv.init).mono (fun search b'' h => ?_) fun e b'' h => ?_
  · rw [hcursor]
    exact stepSplits_spec ht hentry htrailing hinv
  · obtain ⟨hfed, u, hinv, hu⟩ := h
    have hb'' := hseek.trans hfed
    refine .bind (.modify (.pure ⟨⟨(hb''.seek hb''.reaches_cursor).1, ?_⟩, fun x hx => ?_⟩))
    · rw [filled_seek, ← filled_seek b' b.cursor]
      exact hfed.toExtends.filled_le
    · obtain ⟨head, extent, hsplit, rfl⟩ := hinv.best.mem hx
      refine ⟨Nat.le_add_right _ _, ?_⟩
      have hhead : head ≤ u.length := Nat.le_trans hsplit.2.1 hsplit.2.2.1
      have hfilled := b''.cursor_le_filled
      show b.cursor + head ≤ (b''.seek b.cursor).filled
      rw [filled_seek]
      omega
  · exact ⟨hseek.trans h.1, h.2⟩

/-! ## Candidates -/

/-- All candidates of a selection end within what the attempt has read. -/
structure Bounded (b : Buffer) (sel : Selection) (b' : Buffer) : Prop where
  probed : Probed b b'
  best : ∀ c ∈ sel.best, Reaches b b' c.headEnd
  splits : ∀ rule split, (rule, split) ∈ sel.splits → ∀ x ∈ split, Reaches b b' x.headEnd

namespace Bounded

variable {sel : Selection}

theorem offer (h : Bounded b sel b') {new : Candidate} (hnew : Reaches b b' new.headEnd) :
    Bounded b (sel.offer new) b' := by
  unfold Selection.offer
  split
  · refine ⟨h.probed, fun c hc => ?_, h.splits⟩
    cases hc
    exact hnew
  · exact h

theorem offerSplit (h : Bounded b sel b') {split : Option Split}
    (hsplit : ∀ x ∈ split, Reaches b b' x.headEnd) (rule : Rule) :
    Bounded b (sel.offerSplit rule split) b' := by
  cases split with
  | none => exact h
  | some x => exact h.offer (hsplit x rfl)

theorem addSplit (h : Bounded b sel b') {b'' : Buffer} (hb : Probed b b'')
    (hfilled : b'.filled ≤ b''.filled) {split : Option Split}
    (hsplit : ∀ x ∈ split, Reaches b b'' x.headEnd) (rule : Rule) :
    Bounded b { sel with splits := (rule, split) :: sel.splits } b'' := by
  refine ⟨hb, fun c hc => (h.best c hc).mono hfilled, ?_⟩
  intro rule' split' hmem x hx
  rcases List.mem_cons.1 hmem with heq | hmem
  · obtain ⟨rfl, rfl⟩ := Prod.mk.inj heq
    exact hsplit x hx
  · exact (h.splits rule' split' hmem x hx).mono hfilled

end Bounded

theorem consider_ends (ht : t.Sound) (hentry : entry < t.stateCount) {stop : Nat}
    {sel : Selection} (hsel : Bounded b sel b') (hstop : Reaches b b' stop) (rule : Rule) :
    ends (t.consider b.cursor entry stop sel rule)
      (fun sel b'' => Bounded b sel b'' ∧ b'.filled ≤ b''.filled)
      (fun e b'' => Probed b b'' ∧ ¬ e.IsFault) b' := by
  refine .bind (.liftFault (ht.trailingStart?_eq rule) ?_)
  cases hq : t.contextStart? rule with
  | none => exact .pure ⟨hsel.offer hstop, Nat.le_refl _⟩
  | some q =>
    dsimp only
    cases hlookup : sel.splits.lookup rule with
    | some split =>
      obtain ⟨l₁, l₂, hsplits, -⟩ := List.lookup_eq_some_iff.1 hlookup
      have hmem : (rule, split) ∈ sel.splits := by simp [hsplits]
      exact .pure ⟨hsel.offerSplit (hsel.splits rule split hmem) rule, Nat.le_refl _⟩
    | none =>
      refine .bind ((bestSplit_ends ht hentry (ht.contextStart?_lt hq) hsel.probed).mono ?_ ?_)
      · intro split b'' h
        refine .pure ⟨?_, h.1.2⟩
        exact (hsel.addSplit h.1.1 h.1.2 h.2 rule).offerSplit h.2 rule
      · exact fun _ _ => id

theorem considerPoint_ends (ht : t.Sound) (hentry : entry < t.stateCount) {point : Acceptance}
    (hstate : point.state < t.stateCount) {sel : Selection} (hsel : Bounded b sel b')
    (hstop : Reaches b b' point.stop) :
    ends (t.considerPoint b.cursor entry sel point)
      (fun sel b'' => Bounded b sel b'' ∧ b'.filled ≤ b''.filled)
      (fun e b'' => Probed b b'' ∧ ¬ e.IsFault) b' := by
  refine .bind (.liftFault (ht.rulesAt_eq hstate) ?_)
  refine .foldlM ⟨hsel, Nat.le_refl _⟩ fun rule _ sel b'' h => ?_
  refine (consider_ends ht hentry h.1 (hstop.mono h.2) rule).mono (fun _ _ h' => ?_) fun _ _ => id
  exact ⟨h'.1, Nat.le_trans h.2 h'.2⟩

/-- Whatever the tracks have accepted, the winner ends within what they have read. -/
theorem chooseWinner_ends (ht : t.Sound) {u : List UInt8} {tracks : List Track}
    (htracks : ∀ track ∈ tracks, t.TrackInv b.cursor u track) (hb' : Probed b b')
    (hu : b.cursor + u.length ≤ b'.filled) :
    ends (t.chooseWinner b.cursor tracks)
      (fun best b'' => Probed b b'' ∧ ∀ c ∈ best, Reaches b b'' c.headEnd)
      (fun e b'' => Probed b b'' ∧ ¬ e.IsFault) b' := by
  have hfold : ends (t.chooseWinner b.cursor tracks)
      (fun best b'' => (Probed b b'' ∧ ∀ c ∈ best, Reaches b b'' c.headEnd) ∧
        b'.filled ≤ b''.filled)
      (fun e b'' => Probed b b'' ∧ ¬ e.IsFault) b' := by
    refine .foldlM ⟨⟨hb', fun _ h => nomatch h⟩, Nat.le_refl _⟩ fun track hmem best b₁ h => ?_
    have hinv := htracks track hmem
    have hinit : Bounded b { best } b₁ := ⟨h.1.1, h.1.2, fun _ _ h => nomatch h⟩
    refine .bind ((ends.foldlM (Q := fun sel b'' => Bounded b sel b'' ∧ b'.filled ≤ b''.filled)
      ⟨hinit, h.2⟩ fun point hpoint sel b₂ h₂ => ?_).mono (fun sel b'' h' => ?_) fun _ _ => id)
    · obtain ⟨head, -, hle, hstop, hrun, -⟩ := (hinv.mem_accepts point).1 hpoint
      have hreaches : Reaches b b₂ point.stop := by
        refine ⟨hstop ▸ Nat.le_add_right _ _, ?_⟩
        have hfilled := h₂.2
        omega
      refine (considerPoint_ends ht hinv.entry_lt (ht.run?_lt hinv.entry_lt hrun) h₂.1
        hreaches).mono (fun _ _ h' => ?_) fun _ _ => id
      exact ⟨h'.1, Nat.le_trans h₂.2 h'.2⟩
    · exact .pure ⟨⟨h'.1.probed, h'.1.best⟩, h'.2⟩
  exact hfold.mono (fun _ _ h => h.1) fun _ _ => id

/-! ## Attempts -/

theorem settle_ends (hb' : Probed b b') {winner : Option Candidate}
    (hwinner : ∀ c ∈ winner, Reaches b b' c.headEnd) {E : ScanError → Buffer → Prop} :
    ends (settle b.cursor winner)
      (fun outcome b'' => Probed b b'' ∧ b''.cursor = b.cursor + outcome.passes) E b' := by
  cases winner with
  | none => exact .bind (.modify (.pure (hb'.seek hb'.reaches_cursor)))
  | some c =>
    obtain ⟨hseek, hcursor⟩ := hb'.seek (hwinner c rfl)
    refine .bind (.modify (.pure ⟨hseek, hcursor.trans ?_⟩))
    exact (Nat.add_sub_cancel' (hwinner c rfl).1).symm

/-- Over any source, an attempt leaves the cursor behind the bytes it passes. If it fails the tables
are not at fault. -/
theorem longestMatch_ends (ht : t.Sound) {sc : StartCondition} (hb : b.Roomy)
    (hstate : sc.state.toNat < t.stateCount) (hbol : sc.bolState.toNat < t.stateCount)
    (atLineStart : Bool) :
    ends (t.longestMatch sc atLineStart)
      (fun outcome b' => Probed b b' ∧ b'.cursor = b.cursor + outcome.passes)
      (fun e b' => Probed b b' ∧ ¬ e.IsFault) b := by
  obtain ⟨tracks, hstart, -, hinv, -⟩ := startTracks_spec atLineStart b.cursor hstate hbol
  refine .bind (.liftFault hstart (.bind (.get (.bind ?_))))
  refine (feed_ends hb (fun u tracks => ∀ track ∈ tracks, t.TrackInv b.cursor u track)
    (fun u x tracks hinv => ?_) hinv).mono (fun tracks b₁ h => ?_) fun _ _ => id
  · obtain ⟨tracks', hok, -, hinv'⟩ := stepTracks_spec ht hinv
    exact ⟨tracks', hok, hinv'⟩
  · obtain ⟨hb₁, u, hinv, hu⟩ := h
    refine .bind (.get ?_)
    by_cases hstay : b₁.cursor = b.cursor
    · rw [if_pos hstay]
      exact .pure ⟨hb₁, hstay⟩
    · rw [if_neg hstay]
      refine .bind (.modify (.bind ?_))
      -- Stepping back over the last byte does not reach behind the start: some byte was read.
      have hleave : Probed b (if tracks.any Track.alive then b₁ else b₁.unread) ∧
          b₁.filled ≤ (if tracks.any Track.alive then b₁ else b₁.unread).filled := by
        split
        · exact ⟨hb₁, Nat.le_refl _⟩
        · refine ⟨⟨hb₁.toExtends.trans (unread_extends b₁), unread_roomy hb₁.roomy, ?_⟩, ?_⟩
          · have hle := hb₁.cursor_le
            rw [cursor_unread]
            omega
          · exact Nat.le_of_eq (filled_unread b₁).symm
      have hheld := b₁.cursor_le_filled
      refine (chooseWinner_ends ht hinv hleave.1 (by omega)).mono (fun winner b₃ h => ?_) fun _ _ => id
      exact settle_ends h.1 h.2

end Tables

end Munch
