-- SUMMARY: A scanner that has come to the end of a steady source: it has written all, and every further attempt comes to the end again.
import Munch.Proofs.Buffer.Drained
import Munch.Proofs.Match.Attempt
import Munch.Proofs.Scanner.Beside
import Munch.Proofs.Scanner.Carried

/-! # Drained scanners

An attempt that meets the end of a steady source has read no byte. It leaves a scanner that has nothing
to read and nothing to write, and such a scanner can only meet the end again. -/

namespace Munch

open Buffer

/-! ## Attempts at the end -/

namespace Tables

section EndOfInput

/-- A live machine that leaves the cursor where it was has met the end of the input. -/
theorem readByte_of_feed {μ : Type} (live : μ → Bool)
    {step : μ → UInt8 → Nat → Except TableFault μ} {m m' : μ} {b b' : Buffer}
    (hlive : live m = true) (h : feed live step m b = .ok m' b') (hcursor : b'.cursor = b.cursor) :
    readByte b = .ok none b' := by
  rw [feed_eq, if_pos hlive, bind_eq_ok_iff] at h
  obtain ⟨byte, b₁, hread, h⟩ := h
  cases byte with
  | none =>
    obtain ⟨-, rfl⟩ := EStateM.Result.ok.inj h
    exact hread
  | some byte =>
    have hpassed : b₁.cursor = b.cursor + 1 := by
      rw [cursor, passed_of_readByte hread, Array.size_push]
      rfl
    dsimp only at h
    split at h
    · have honward : b₁.cursor ≤ b'.cursor := final_of_ok h ▸ feed_onward live step _ b₁
      omega
    · cases h

variable {t : Tables} {sc : StartCondition} {atLineStart : Bool} {tracks : List Track}
  {b b' : Buffer}

/-- An attempt that comes to the end of the input has read no byte. -/
theorem readByte_of_endOfInput (hstart : t.startTracks sc atLineStart = .ok tracks)
    (halive : tracks.any Track.alive = true)
    (h : t.longestMatch sc atLineStart b = .ok .endOfInput b') : readByte b = .ok none b' := by
  simp only [longestMatch, hstart, bind_eq_ok_iff, get_apply, liftFault_eq_ok_iff,
    EStateM.Result.ok.injEq] at h
  obtain ⟨_, _, ⟨htracks, rfl⟩, _, _, ⟨rfl, rfl⟩, tracks', b₁, hfeed, _, _, ⟨rfl, rfl⟩, h⟩ := h
  obtain rfl := Except.ok.inj htracks
  split at h
  · rename_i hcursor
    obtain ⟨-, rfl⟩ := EStateM.Result.ok.inj h
    exact readByte_of_feed (fun tracks : List Track => tracks.any Track.alive) halive hfeed hcursor
  · simp only [bind_eq_ok_iff] at h
    obtain ⟨_, _, -, winner, _, -, h⟩ := h
    cases winner <;> simp only [settle, bind_eq_ok_iff, pure_apply, EStateM.Result.ok.injEq,
      reduceCtorEq, false_and, and_false, exists_false] at h

/-- If no byte can be read, an attempt comes to the end of the input. -/
theorem longestMatch_of_end (hstart : t.startTracks sc atLineStart = .ok tracks)
    (halive : tracks.any Track.alive = true) (h : readByte b = .ok none b')
    (hcursor : b'.cursor = b.cursor) : t.longestMatch sc atLineStart b = .ok .endOfInput b' := by
  have hfeed : feed (·.any Track.alive) t.stepTracks tracks b = .ok tracks b' := by
    rw [feed_eq, if_pos halive]
    exact bind_of_ok h
  have hlift : (liftFault (t.startTracks sc atLineStart) : BufferM (List Track)) b = .ok tracks b :=
    liftFault_eq_ok_iff.2 ⟨hstart, rfl⟩
  unfold longestMatch
  rw [bind_of_ok hlift, bind_of_ok (get_apply b), bind_of_ok hfeed, bind_of_ok (get_apply b'),
    if_pos hcursor]
  rfl

end EndOfInput

end Tables

/-! ## Spent scanners -/

namespace Scanner

variable {t : Tables} {settings : BufferSettings} {s s' s'' : Scanner}

/-- Nothing is left to read, and nothing to write. -/
structure Spent (s : Scanner) : Prop where
  covered_eq : s.covered = none
  unmatched_eq : s.unmatched = none
  dry : s.buffer.Dry

/-- What the end of the input leaves alone. -/
structure SameEnd (s s' : Scanner) : Prop where
  output_eq : s'.output = s.output
  line_eq : s'.line = s.line
  startCondition_eq : s'.startCondition = s.startCondition

instance : History SameEnd :=
  ⟨fun _ => ⟨rfl, rfl, rfl⟩, fun h h' => ⟨h'.output_eq.trans h.output_eq, h'.line_eq.trans h.line_eq,
    h'.startCondition_eq.trans h.startCondition_eq⟩⟩

/-- An attempt that comes to the end has made room, met the end of the input, and written all. -/
theorem attempt_eq_ended (hs : s.Coherent t settings) (hcovered : s.covered = none)
    (h : attempt s = .ok .ended s') : ∃ s₁ b output, prepare s = .ok () s₁ ∧
      s₁.Prepared t settings ∧ Buffer.readByte s₁.buffer = .ok none b ∧
      s' = { s₁ with buffer := b, output, unmatched := none, keepText := false } := by
  simp only [attempt, bind_eq_ok_iff, get_apply, EStateM.Result.ok.injEq, onBuffer_eq_ok_iff] at h
  obtain ⟨_, s₁, hprepare, _, _, ⟨rfl, rfl⟩, outcome, _, ⟨b, hmatch, rfl⟩, h⟩ := h
  have hprepared := ((prepare_ends hs hcovered).ok hprepare).2
  have h₁ := hprepared.1
  cases outcome with
  | accepted rule length =>
    simp only [bind_eq_ok_iff, pure_apply, EStateM.Result.ok.injEq, reduceCtorEq, false_and,
      and_false, exists_false] at h
  | noMatch =>
    simp only [bind_eq_ok_iff, pure_apply, EStateM.Result.ok.injEq, reduceCtorEq, false_and,
      and_false, exists_false] at h
  | endOfInput =>
    simp only [bind_eq_ok_iff, modify_apply, pure_apply, EStateM.Result.ok.injEq] at h
    obtain ⟨_, s₂, hflush, _, _, ⟨-, rfl⟩, -, rfl⟩ := h
    obtain ⟨output, rfl⟩ := (flush_ends _).ok hflush
    obtain ⟨tracks, hstart, -, -, halive⟩ := Tables.startTracks_spec s₁.buffer.atLineStart 0
      (h₁.tables_eq.symm ▸ h₁.state_lt) (h₁.tables_eq.symm ▸ h₁.bolState_lt)
    exact ⟨s₁, b, output, hprepare, hprepared, Tables.readByte_of_endOfInput hstart halive hmatch, rfl⟩

/-- An attempt that comes to the end leaves a spent scanner. -/
theorem spent_of_attempt (hs : s.Coherent t settings) (hcovered : s.covered = none)
    (hsteady : s.buffer.source.steady = true) (h : attempt s = .ok .ended s') : s'.Spent := by
  obtain ⟨s₁, b, output, hprepare, ⟨h₁, hcovered₁, -⟩, hread, rfl⟩ := attempt_eq_ended hs hcovered h
  have hsteady₁ : s₁.buffer.source.steady = true :=
    final_of_ok hprepare ▸ prepare_carried StaysSteady s hsteady
  exact ⟨hcovered₁, rfl, Buffer.dry_of_readByte ⟨hsteady₁, h₁.roomy.block_pos⟩ hread⟩

/-- So does advancing to the end. -/
theorem spent_of_advance (ht : t.Sound) (hs : s.Coherent t settings) (hcovered : s.covered = none)
    (hsteady : s.buffer.source.steady = true) (h : advance s = .ok none s') : s'.Spent := by
  fun_induction advance s with
  | case1 s _ rule s₁ hrun => cases h
  | case2 s _ s₁ hrun =>
    obtain rfl := (EStateM.Result.ok.inj h).2
    exact spent_of_attempt hs hcovered hsteady hrun
  | case3 s _ s₁ hrun ih =>
    have hleads := ((attempt_ends ht hs hcovered).ok hrun).1
    exact ih hleads.coherent (hleads.covered hcovered)
      (final_of_ok hrun ▸ attempt_carried StaysSteady s hsteady) h
  | case4 s _ e s₁ hrun => cases h

/-- A spent scanner can only come to the end again. -/
theorem Spent.advance (h : s.Spent) (hs : s.Coherent t settings) :
    ∃ s', advance s = .ok none s' ∧ s'.Spent ∧ SameEnd s s' := by
  obtain ⟨b, hread, hdry, hcursor⟩ := (h.dry.trim s.keepFrom).readByte
  have hprepare : prepare s = .ok () s.trim := by
    simp only [prepare, Bind.bind, EStateM.bind, get_apply, h.unmatched_eq]
    rfl
  have hunmatched : s.trim.unmatched = none := by
    simp only [Scanner.trim, h.unmatched_eq, Option.map_none]
  obtain ⟨tracks, hstart, -, -, halive⟩ := Tables.startTracks_spec s.trim.buffer.atLineStart 0
    (hs.tables_eq.symm ▸ hs.state_lt) (hs.tables_eq.symm ▸ hs.bolState_lt)
  have hmatch := Tables.longestMatch_of_end hstart halive hread hcursor
  have hattempt : attempt s = .ok .ended { s.trim with buffer := b, keepText := false } := by
    unfold attempt
    rw [bind_of_ok hprepare, bind_of_ok (get_apply _),
      bind_of_ok (onBuffer_eq_ok_iff.2 ⟨b, hmatch, rfl⟩)]
    simp only [flush, Bind.bind, EStateM.bind, hunmatched]
    rfl
  refine ⟨{ s.trim with buffer := b, keepText := false }, ?_, ⟨h.covered_eq, hunmatched, hdry⟩,
    ⟨rfl, rfl, rfl⟩⟩
  rw [advance_eq, bind_of_ok hattempt]
  rfl

end Scanner

end Munch
