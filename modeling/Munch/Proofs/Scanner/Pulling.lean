-- SUMMARY: Scans that actions stop, resume and nest in each other: they see the matches of the plain scan, and write the same.
import Munch.Proofs.Match.MaximalMunch
import Munch.Proofs.Scanner.Drained
import Munch.Proofs.Scanner.Intact
import Munch.Proofs.Scanner.Scan
import Munch.Proofs.Scanner.Script

/-! # Pulling matches

An action that has edited its match can let the scan go on, stop it and leave it to the caller to scan
again, or scan on by itself before it ends. All that one match leaves for the next is kept in the
scanner, so it does not matter which loop comes to the next match. The plain scan, in which each action
lets the scan go on, is the measure: every other way of pulling follows it event by event, and may only
ask for more behind the end of the input. -/

namespace Munch

open Scanner

/-! ## Ways of pulling -/

/-- What an action does once it has edited its match. -/
inductive Pull where
  /-- Ends. -/
  | finish (result : ActionResult)
  /-- Scans on for some events and goes on as that scan has ended. -/
  | nest (events : Nat) (next : ScanEnd → Pull)

/-- Pulls matches from inside an action. -/
def Pull.run {σ : Type} (scan : Nat → SessionM σ ScanEnd) : Pull → SessionM σ ActionResult
  | .finish result => pure result
  | .nest events next => do
    let ended ← scan events
    (next ended).run scan

/-- Scans again and again, once for each number of events, until the input has ended. -/
def Hooks.drive {σ : Type} (hooks : Hooks σ) : (calls : List Nat) → SessionM σ ScanEnd
  | [] => return .suspended
  | events :: calls => do
    match ← hooks.scan events with
    | .exhausted => return .exhausted
    | _ => hooks.drive calls

namespace Script

variable {σ : Type}

/-- Hooks that edit each match by a script and then let the scan go on, whatever the script returns. -/
def plainly (script : Rule → Sight → σ → Script σ) : Hooks (Journal σ) where
  onMatch rule := do
    let _ ← (hooks script).onMatch rule
    return .resume

/-- Hooks that edit each match by a script and then pull as the choice says. -/
def choosing (script : Rule → Sight → σ → Script σ) (choose : Scanner × Journal σ → Pull)
    (scan : Nat → SessionM (Journal σ) ScanEnd) : Hooks (Journal σ) where
  onMatch rule := do
    let _ ← (hooks script).onMatch rule
    (choose (← get)).run scan

/-- Scans whose actions may scan in turn, down to a depth at which no match is handled any more. -/
def nested (script : Rule → Sight → σ → Script σ) (choose : Scanner × Journal σ → Pull) :
    (depth : Nat) → Nat → SessionM (Journal σ) ScanEnd
  | 0 => fun _ => (plainly script).scan 0
  | depth + 1 => (choosing script choose (nested script choose depth)).scan

/-- Hooks that edit each match by a script and then pull as the choice says, with scans nested down to
some depth. -/
def pulling (script : Rule → Sight → σ → Script σ) (choose : Scanner × Journal σ → Pull)
    (depth : Nat) : Hooks (Journal σ) :=
  choosing script choose (nested script choose depth)

end Script

/-! ## Scans in parts -/

namespace Hooks

variable {σ : Type} {hooks : Hooks σ} {st st' st'' : Scanner × σ} {k i : Nat}

/-- The events of a scan can be handled in two parts. -/
theorem handle_add (k i : Nat) : hooks.handle (k + i) = (do
    match ← hooks.handle k with
    | .suspended => hooks.handle i
    | ended => return ended) := by
  induction k with
  | zero =>
    rw [Nat.zero_add]
    rfl
  | succ k ih =>
    rw [Nat.succ_add, handle, handle, bind_assoc]
    refine congrArg _ (funext fun found => ?_)
    cases found with
    | none =>
      dsimp only
      rw [bind_assoc]
      refine congrArg _ (funext fun ended => ?_)
      cases ended with
      | false => exact ih
      | true => rfl
    | some rule =>
      dsimp only
      rw [bind_assoc]
      refine congrArg _ (funext fun flow => ?_)
      cases flow with
      | resume => exact ih
      | yield value => rfl

/-- A scan that did not use up its events goes no further with more of them. -/
theorem handle_mono {found : ScanEnd} (h : hooks.handle k st = .ok found st')
    (hfound : found ≠ .suspended) (hle : k ≤ i) : hooks.handle i st = .ok found st' := by
  obtain ⟨j, rfl⟩ := Nat.exists_eq_add_of_le hle
  rw [handle_add, bind_of_ok h]
  cases found with
  | suspended => exact absurd rfl hfound
  | exhausted => rfl
  | token value => rfl

/-- A scan that has failed goes no further with more events. -/
theorem handle_error_mono {e : ScanError} (h : hooks.handle k st = .error e st') (hle : k ≤ i) :
    hooks.handle i st = .error e st' := by
  obtain ⟨j, rfl⟩ := Nat.exists_eq_add_of_le hle
  rw [handle_add]
  exact bind_eq_error_iff.2 (.inl h)

/-- A scan that has used up its events goes on from where it was. -/
theorem handle_of_suspended (h : hooks.handle k st = .ok .suspended st') (i : Nat) :
    hooks.handle (k + i) st = hooks.handle i st' := by
  rw [handle_add, bind_of_ok h]

end Hooks

/-! ## Scanners between two events -/

namespace Scanner

variable {t : Tables} {settings : BufferSettings} {s : Scanner}

/-- The scanner is coherent and reads a steady source. -/
structure Fit (t : Tables) (settings : BufferSettings) (s : Scanner) : Prop where
  coherent : s.Coherent t settings
  steady : s.buffer.source.steady = true

/-- Besides, no terminator stands. -/
structure Ready (t : Tables) (settings : BufferSettings) (s : Scanner) : Prop
    extends Fit t settings s where
  covered_eq : s.covered = none

theorem Fit.unterminate (h : s.Fit t settings) : s.unterminate.Ready t settings :=
  ⟨⟨h.coherent.unterminate.coherent, unterminate_carried Buffer.StaysSteady s h.steady⟩,
    covered_unterminate s⟩

theorem Ready.unterminate_eq (h : s.Ready t settings) : s.unterminate = s :=
  unterminate_of_none h.covered_eq

/-- Advancing ends behind a match, or with nothing left to read. -/
theorem Ready.advance (ht : t.Sound) (h : s.Ready t settings) :
    ends advance (fun found s' => s'.Ready t settings ∧ match found with
        | some _ => s'.terminate.Fit t settings
        | none => s'.Spent)
      (fun _ s' => s'.covered = none) s := by
  have hends := advance_ends ht h.coherent h.covered_eq
  refine .of_result (fun found s' hrun => ?_) fun e s' hrun => ?_
  · obtain ⟨hleads, hmatch⟩ := hends.ok hrun
    have hsteady : s'.buffer.source.steady = true :=
      final_of_ok hrun ▸ advance_carried Buffer.StaysSteady s h.steady
    have hcovered := hleads.covered h.covered_eq
    refine ⟨⟨⟨hleads.coherent, hsteady⟩, hcovered⟩, ?_⟩
    cases found with
    | none => exact spent_of_advance ht h.coherent h.covered_eq h.steady hrun
    | some rule =>
      exact ⟨(hleads.coherent.terminate hcovered (hmatch rfl)).1,
        terminate_carried Buffer.StaysSteady s' hsteady⟩
  · exact (hends.error hrun).1.covered h.covered_eq

end Scanner

namespace Script

variable {σ : Type} {t : Tables} {settings : BufferSettings} {s : Scanner}

/-- What an operation leaves, its step leaves. -/
theorem step_ends {P : Scanner → Prop} {edit : Edit}
    (h : ends edit.perform (fun _ => P) (fun _ => P) s) (journal : Journal σ) :
    ends (step edit) (fun _ st => P st.1) (fun _ st => P st.1) (s, journal) := by
  cases hperform : edit.perform s with
  | ok byte s' => exact .of_ok (step_of_ok hperform) (h.ok hperform)
  | error e s' =>
    by_cases he : ∃ n, e = .allocation n
    · obtain ⟨n, rfl⟩ := he
      exact .of_error (step_of_allocation hperform) (h.error hperform)
    · exact .of_ok (step_of_error hperform fun n hn => he ⟨n, hn⟩) (h.error hperform)

/-- A script leaves the scanner fit, whether it succeeds or fails. -/
theorem run_fit (script : Script σ) (hs : s.Fit t settings) (journal : Journal σ) :
    ends script.run (fun _ st => st.1.Fit t settings) (fun _ st => st.1.Fit t settings)
      (s, journal) := by
  induction script generalizing s journal with
  | finish result memory => exact .of_ok rfl hs
  | fail e memory => exact .of_error rfl hs
  | perform edit keeps next ih =>
    have hperform : ends edit.perform (fun _ s' => s'.Fit t settings) (fun _ s' => s'.Fit t settings) s :=
      ((edit.perform_upholds hs.coherent).and
        (.of_across (edit.perform_carried Buffer.StaysSteady (.inl keeps)) s)).mono
        (fun _ _ h => ⟨h.1.coherent, h.2 hs.steady⟩) fun _ _ h => ⟨h.1.coherent, h.2 hs.steady⟩
    refine .bind ((step_ends hperform journal).mono (fun answer st hst => ?_) fun _ _ => id)
    exact ih answer.1 answer.2 hst st.2

end Script

/-! ## Following the plain scan -/

namespace Hooks

variable {σ : Type} {plain : Hooks σ} {t : Tables} {settings : BufferSettings}
  {st st' st'' : Scanner × σ} {least more : Nat} {ended ended' : Prop}

/-- The plain scan comes from the first state to the second one in so many events, or more. -/
def Along (plain : Hooks σ) (least : Nat) (st st' : Scanner × σ) : Prop :=
  ∃ k, least ≤ k ∧ plain.handle k st = .ok .suspended st'

/-- The plain scan comes from the first state to the end of the input, and the second state differs from
its last one at most by what was read and dropped there. -/
structure AtEnd (plain : Hooks σ) (st st' : Scanner × σ) : Prop where
  spent : st'.1.Spent
  reached : ∃ k s₀, plain.handle k st = .ok .exhausted (s₀, st'.2) ∧ s₀.SameEnd st'.1

/-- What was pulled from the first state on has led to the second one, which the plain scan comes to as
well. If all input was pulled then that is at its end. -/
structure Follows (plain : Hooks σ) (t : Tables) (settings : BufferSettings) (least : Nat)
    (ended : Prop) (st st' : Scanner × σ) : Prop where
  ready : st'.1.Ready t settings
  place : plain.AtEnd st st' ∨ ¬ ended ∧ plain.Along least st st'

/-- The plain scan fails as what was pulled does. -/
def Fails (plain : Hooks σ) (st : Scanner × σ) (e : ScanError) (st' : Scanner × σ) : Prop :=
  st'.1.covered = none ∧ ∃ k, plain.handle k st = .error e st'

theorem Follows.refl (h : st.1.Ready t settings) : Follows plain t settings 0 False st st :=
  ⟨h, .inr ⟨id, 0, Nat.le_refl 0, rfl⟩⟩

/-- At the end of the input, a plain scan for one more event comes to the end again. -/
theorem handle_of_spent (hend : plain.onEnd = pure true) (hs : st.1.Coherent t settings)
    (hspent : st.1.Spent) (k : Nat) :
    ∃ s₀, plain.handle (k + 1) st = .ok .exhausted (s₀, st.2) ∧ st.1.SameEnd s₀ := by
  obtain ⟨s₀, hrun, -, hsame⟩ := hspent.advance hs
  exact ⟨s₀, handle_of_end hrun hend k, hsame⟩

namespace Follows

/-- What was pulled in two parts follows the plain scan from the first state on. -/
theorem trans (hend : plain.onEnd = pure true) (h : Follows plain t settings least ended st st')
    (h' : Follows plain t settings more ended' st' st'') :
    Follows plain t settings (least + more) ended' st st'' := by
  refine ⟨h'.ready, ?_⟩
  rcases h.place with ⟨hspent, k, s₀, hk, hsame⟩ | ⟨-, k, hle, hk⟩
  · -- Behind the end there is nothing to follow: the plain scan only comes to the end again.
    have hagain := handle_of_spent hend h.ready.coherent hspent
    rcases h'.place with ⟨hspent', i, s₁, hi, hsame'⟩ | ⟨-, i, -, hi⟩
    · cases i with
      | zero => cases hi
      | succ i =>
        obtain ⟨s₂, hi', hsame''⟩ := hagain i
        rw [hi'] at hi
        obtain ⟨rfl, hx⟩ := Prod.ext_iff.1 (EStateM.Result.ok.inj hi).2
        dsimp only at hx hsame''
        exact .inl ⟨hspent', k, s₀, hx ▸ hk, History.trans (History.trans hsame hsame'') hsame'⟩
    · cases i with
      | zero =>
        obtain ⟨-, rfl⟩ := EStateM.Result.ok.inj hi
        exact .inl ⟨hspent, k, s₀, hk, hsame⟩
      | succ i =>
        obtain ⟨s₂, hi', -⟩ := hagain i
        cases hi'.symm.trans hi
  · rcases h'.place with ⟨hspent', i, s₁, hi, hsame'⟩ | ⟨hopen, i, hle', hi⟩
    · exact .inl ⟨hspent', k + i, s₁, (handle_of_suspended hk i).trans hi, hsame'⟩
    · exact .inr ⟨hopen, k + i, Nat.add_le_add hle hle', (handle_of_suspended hk i).trans hi⟩

/-- A failure behind what was pulled is one of the plain scan. -/
theorem fails (hend : plain.onEnd = pure true) (h : Follows plain t settings least ended st st')
    {e : ScanError} (h' : plain.Fails st' e st'') : plain.Fails st e st'' := by
  obtain ⟨hcovered, i, hi⟩ := h'
  refine ⟨hcovered, ?_⟩
  rcases h.place with ⟨hspent, -⟩ | ⟨-, k, -, hk⟩
  · cases i with
    | zero => cases hi
    | succ i =>
      obtain ⟨s₀, hi', -⟩ := handle_of_spent hend h.ready.coherent hspent i
      cases hi'.symm.trans hi
  · exact ⟨k + i, (handle_of_suspended hk i).trans hi⟩

end Follows

/-- Less is known of how far it has come. -/
theorem Follows.le {fewer : Nat} (h : Follows plain t settings least ended st st')
    (hle : fewer ≤ least) : Follows plain t settings fewer ended st st' :=
  ⟨h.ready, h.place.imp_right fun ⟨hopen, k, hk, hrun⟩ => ⟨hopen, k, Nat.le_trans hle hk, hrun⟩⟩

/-- A scan that has come to the end. -/
theorem Follows.atEnd (h : Follows plain t settings least ended st st') (hended : ended) :
    plain.AtEnd st st' :=
  h.place.resolve_right fun hopen => hopen.1 hended

/-- Whatever is pulled from the second state on, it follows the plain scan from the first one on. -/
def Pulls {α : Type} (plain : Hooks σ) (t : Tables) (settings : BufferSettings) (least : Nat)
    (ended : α → Prop) (m : SessionM σ α) (st st' : Scanner × σ) : Prop :=
  ends m (fun a => Follows plain t settings least (ended a) st) (plain.Fails st) st'

end Hooks

/-! ## Pulling from actions -/

/-- A state without the terminator. -/
def bare {σ : Type} : Scanner × σ → Scanner × σ :=
  Prod.map Scanner.unterminate id

theorem bare_of_none {σ : Type} {st : Scanner × σ} (h : st.1.covered = none) : bare st = st :=
  Prod.ext (unterminate_of_none h) rfl

section Pulling

open Hooks

variable {σ : Type} {t : Tables} {settings : BufferSettings}
  {script : Rule → Sight → σ → Script σ} {choose : Scanner × Journal σ → Pull}
  {scan : Nat → SessionM (Journal σ) ScanEnd} {s s' : Scanner} {journal : Journal σ}

/-- Scans of this kind follow the plain one, also from within an action. -/
def FollowsPlain (t : Tables) (settings : BufferSettings) (script : Rule → Sight → σ → Script σ)
    (scan : Nat → SessionM (Journal σ) ScanEnd) : Prop :=
  ∀ events st, st.1.Fit t settings →
    Pulls (Script.plainly script) t settings 0 (· = .exhausted) (scan events) (bare st) st

/-- What an action pulls follows the plain scan, if the scans it starts do. -/
theorem Pull.run_follows (hscan : FollowsPlain t settings script scan) (pull : Pull)
    {st : Scanner × Journal σ} (hst : st.1.Fit t settings) :
    ends (pull.run scan)
      (fun _ st' => Follows (Script.plainly script) t settings 0 False (bare st) (bare st'))
      (fun e st' => (Script.plainly script).Fails (bare st) e (bare st')) st := by
  induction pull generalizing st with
  | finish result => exact .pure (.refl hst.unterminate)
  | nest events next ih =>
    refine .bind ((hscan events st hst).mono (fun found st₁ h₁ => ?_) fun e st₁ h₁ => ?_)
    · have hbare : bare st₁ = st₁ := bare_of_none h₁.ready.covered_eq
      have hrest := ih found h₁.ready.toFit
      rw [hbare] at hrest
      exact hrest.mono (fun _ st' h' => (h₁.trans rfl h').le (Nat.zero_le _))
        fun _ st' h' => h₁.fails rfl h'
    · rw [bare_of_none h₁.1]
      exact h₁

/-- What an action ends with, with the terminator taken away. -/
theorem Hooks.runAction_ends {hooks : Hooks σ} {rule : Rule} {x : σ}
    {Q : ActionResult → Scanner × σ → Prop} {E : ScanError → Scanner × σ → Prop}
    (h : ends (hooks.onMatch rule) (fun flow st => Q flow (bare st)) (fun e st => E e (bare st))
      (s.terminate, x)) : ends (hooks.runAction rule) Q E (s, x) := by
  unfold ends at h ⊢
  rw [runAction_eq]
  cases hrun : hooks.onMatch rule (s.terminate, x) with
  | ok flow st =>
    rw [hrun] at h
    exact h
  | error e st =>
    rw [hrun] at h
    exact h

/-- An action that pulls comes at least behind its match, as the plain scan does. -/
theorem Script.runAction_follows (hscan : FollowsPlain t settings script scan) {rule : Rule}
    (hadvance : advance s = .ok (some rule) s') (hfit : s'.terminate.Fit t settings) :
    Pulls (plainly script) t settings 1 (fun _ => False)
      ((choosing script choose scan).runAction rule) (s, journal) (s', journal) := by
  have hplain : (plainly script).handle 1 (s, journal) = _ := Hooks.handle_of_match hadvance 0
  rw [Hooks.runAction_eq] at hplain
  have hedits : ends ((hooks script).onMatch rule) (fun _ st => st.1.Fit t settings)
      (fun _ st => st.1.Fit t settings) (s'.terminate, journal) := run_fit _ hfit _
  refine Hooks.runAction_ends (.bind (.of_result (fun result st hrun => ?_) fun e st hrun => ?_))
  · have hresume : (plainly script).onMatch rule (s'.terminate, journal) = .ok .resume st :=
      bind_of_ok hrun
    rw [hresume] at hplain
    have hst : st.1.Fit t settings := hedits.ok hrun
    have hbehind : Follows (plainly script) t settings 1 False (s, journal) (bare st) :=
      ⟨hst.unterminate, .inr ⟨id, 1, Nat.le_refl 1, hplain⟩⟩
    refine .bind (.get (((choose st).run_follows hscan hst).mono (fun _ st' h' => ?_)
      fun _ st' h' => hbehind.fails rfl h'))
    exact hbehind.trans rfl h'
  · have hfail : (plainly script).onMatch rule (s'.terminate, journal) = .error e st :=
      bind_eq_error_iff.2 (.inl hrun)
    rw [hfail] at hplain
    exact ⟨covered_unterminate st.1, 1, hplain⟩

/-- So does a scan of which each action may pull. -/
theorem Script.handle_follows (ht : t.Sound) (hscan : FollowsPlain t settings script scan)
    (events : Nat) {st : Scanner × Journal σ} (hst : st.1.Ready t settings) :
    Pulls (plainly script) t settings (min events 1) (· = .exhausted)
      ((choosing script choose scan).handle events) st st := by
  induction events generalizing st with
  | zero => exact .pure ⟨hst, .inr ⟨nofun, 0, Nat.le_refl 0, rfl⟩⟩
  | succ events ih =>
    obtain ⟨s, journal⟩ := st
    have hone : min (events + 1) 1 = 1 := Nat.min_eq_right (Nat.succ_pos events)
    rw [hone]
    have hadvance := hst.advance ht
    refine .bind (.onScanner (.of_result (fun found s' hrun => ?_) fun e s' hrun => ?_))
    · obtain ⟨hready, hfound⟩ := hadvance.ok hrun
      cases found with
      | none =>
        have hend : (plainly script).handle 1 (s, journal) = _ := Hooks.handle_of_end hrun rfl 0
        exact .bind (.pure (.pure ⟨hready, .inl ⟨hfound, 1, s', hend, History.refl s'⟩⟩))
      | some rule =>
        refine .bind ((runAction_follows hscan hrun hfound).mono (fun flow st' h' => ?_) fun _ _ => id)
        cases flow with
        | yield value => exact .pure ⟨h'.ready, h'.place.imp_right fun h => ⟨nofun, h.2⟩⟩
        | resume =>
          exact (ih h'.ready).mono (fun _ st'' h'' => (h'.trans rfl h'').le (Nat.le_add_right _ _))
            fun _ _ h'' => h'.fails rfl h''
    · exact ⟨hadvance.error hrun, 1, Hooks.handle_of_error hrun 0⟩

theorem Script.scan_follows (ht : t.Sound) (hscan : FollowsPlain t settings script scan)
    (events : Nat) {st : Scanner × Journal σ} (hst : st.1.Fit t settings) :
    Pulls (plainly script) t settings (min events 1) (· = .exhausted)
      ((choosing script choose scan).scan events) (bare st) st :=
  .bind (.onScanner (.modify (handle_follows ht hscan events hst.unterminate)))

/-- However deep scans are nested, they follow the plain one. -/
theorem Script.nested_follows (ht : t.Sound) (depth : Nat) :
    FollowsPlain t settings script (nested script choose depth) := by
  induction depth with
  | zero =>
    exact fun events st hst =>
      .bind (.onScanner (.modify (.pure ⟨hst.unterminate, .inr ⟨nofun, 0, Nat.le_refl 0, rfl⟩⟩)))
  | succ depth ih =>
    exact fun events st hst => (scan_follows ht ih events hst).mono
      (fun _ _ h => h.le (Nat.zero_le _)) fun _ _ => id

variable {depth : Nat}

theorem Script.pulling_follows (ht : t.Sound) (events : Nat) {st : Scanner × Journal σ}
    (hst : st.1.Ready t settings) :
    Pulls (plainly script) t settings (min events 1) (· = .exhausted)
      ((pulling script choose depth).scan events) st st := by
  have h : Pulls (plainly script) t settings (min events 1) (· = .exhausted)
      ((pulling script choose depth).scan events) (bare st) st :=
    scan_follows ht (nested_follows ht depth) events hst.toFit
  rwa [bare_of_none hst.covered_eq] at h

/-! ## Pulling from outside -/

/-- So does a caller who scans again and again. -/
theorem Script.drive_follows (ht : t.Sound) (calls : List Nat) {st : Scanner × Journal σ}
    (hst : st.1.Ready t settings) :
    Pulls (plainly script) t settings 0 (· = .exhausted)
      ((pulling script choose depth).drive calls) st st := by
  induction calls generalizing st with
  | nil => exact .pure ⟨hst, .inr ⟨nofun, 0, Nat.le_refl 0, rfl⟩⟩
  | cons events calls ih =>
    refine .bind ((pulling_follows ht events hst).mono (fun found st₁ h₁ => ?_) fun _ _ => id)
    have hrest := (ih h₁.ready).mono (fun _ _ h' => (h₁.trans rfl h').le (Nat.zero_le _))
      fun _ _ h' => h₁.fails rfl h'
    cases found with
    | exhausted => exact .pure ⟨h₁.ready, .inl (h₁.atEnd rfl)⟩
    | suspended => exact hrest
    | token value => exact hrest

/-- If the plain scan comes to the end, each scan comes nearer to it. -/
theorem Script.scan_advances (ht : t.Sound) {events : Nat} (hevents : 0 < events)
    {st st₀ : Scanner × Journal σ} (hst : st.1.Ready t settings) {k : Nat}
    (hplain : (plainly script).handle k st = .ok .exhausted st₀) :
    ∃ found st₁, (pulling script choose depth).scan events st = .ok found st₁ ∧
      st₁.1.Ready t settings ∧
      (st₁.1.Spent ∨ ∃ j < k, (plainly script).handle j st₁ = .ok .exhausted st₀) := by
  have hfollows : Pulls (plainly script) t settings (min events 1) (· = .exhausted)
      ((pulling script choose depth).scan events) st st := pulling_follows ht events hst
  rw [Nat.min_eq_right hevents] at hfollows
  cases hscan : (pulling script choose depth).scan events st with
  | error e st₁ =>
    obtain ⟨-, i, hi⟩ := hfollows.error hscan
    have hmore := Hooks.handle_error_mono hi (Nat.le_max_left i k)
    have hend := Hooks.handle_mono hplain nofun (Nat.le_max_right i k)
    cases hmore.symm.trans hend
  | ok found st₁ =>
    have h₁ := hfollows.ok hscan
    refine ⟨found, st₁, rfl, h₁.ready, ?_⟩
    rcases h₁.place with hend | ⟨-, i, hpos, hi⟩
    · exact .inl hend.spent
    · by_cases hki : k ≤ i
      · cases (Hooks.handle_mono hplain nofun hki).symm.trans hi
      · obtain ⟨j, rfl⟩ := Nat.exists_eq_add_of_le (Nat.le_of_not_le hki)
        exact .inr ⟨j, Nat.lt_add_of_pos_left hpos, (Hooks.handle_of_suspended hi j).symm.trans hplain⟩

/-- Who scans often enough comes to the end, if the plain scan does. -/
theorem Script.drive_exhausts (ht : t.Sound) {calls : List Nat} (hpos : ∀ events ∈ calls, 0 < events)
    {st : Scanner × Journal σ} (hst : st.1.Ready t settings) {k : Nat} (hk : k < calls.length)
    (hplain : st.1.Spent ∨ ∃ st₀, (plainly script).handle k st = .ok .exhausted st₀) :
    ∃ st', (pulling script choose depth).drive calls st = .ok .exhausted st' := by
  induction calls generalizing st k with
  | nil => exact absurd hk (Nat.not_lt_zero k)
  | cons events calls ih =>
    have hevents : 0 < events := hpos events List.mem_cons_self
    rcases hplain with hspent | ⟨st₀, hplain⟩
    · obtain ⟨i, rfl⟩ := Nat.exists_eq_add_one.2 hevents
      have hend : ∃ s₀, (pulling script choose depth).handle (i + 1) st = .ok .exhausted (s₀, st.2) ∧
        st.1.SameEnd s₀ := Hooks.handle_of_spent rfl hst.coherent hspent i
      obtain ⟨s₀, hend, -⟩ := hend
      refine ⟨(s₀, st.2), ?_⟩
      rw [Hooks.drive, bind_of_ok ((Hooks.scan_eq_handle hst.unterminate_eq _).trans hend)]
      rfl
    · obtain ⟨found, st₁, hscan, hready, hnear⟩ : ∃ found st₁,
          (pulling script choose depth).scan events st = .ok found st₁ ∧ _ :=
        scan_advances ht hevents hst hplain
      have hk₁ : k ≤ calls.length := Nat.le_of_lt_succ hk
      have hrest : ∃ st', (pulling script choose depth).drive calls st₁ = .ok .exhausted st' := by
        have hcalls := fun events hmem => hpos events (List.mem_cons_of_mem _ hmem)
        rcases hnear with hspent | ⟨j, hj, hplain⟩
        · have hne : k ≠ 0 := by
            rintro rfl
            cases hplain
          exact ih hcalls hready (Nat.lt_of_lt_of_le (Nat.pos_of_ne_zero hne) hk₁) (.inl hspent)
        · exact ih hcalls hready (Nat.lt_of_lt_of_le hj hk₁) (.inr ⟨st₀, hplain⟩)
      rw [Hooks.drive, bind_of_ok hscan]
      cases found with
      | exhausted => exact ⟨st₁, rfl⟩
      | suspended => exact hrest
      | token value => exact hrest

/-- Every way of pulling matches sees what the plain scan sees. An action may end the scan at each match,
for the caller to scan again, or scan on by itself, with scans nested to any depth, or do neither. What
was reported and answered up to then is what the plain scan reports, and once the input is exhausted so
is all that was written. Who scans often enough comes to the end if the plain scan does. -/
theorem Script.pulling_sees_plain {o : ScannerOptions} {source : Source} {output : Sink}
    (hbuild : o.build t source output = .ok s) (hsteady : source.steady = true)
    (script : Rule → Sight → σ → Script σ) (choose : Scanner × Journal σ → Pull) (depth : Nat)
    (calls : List Nat) (memory : σ) :
    ends ((pulling script choose depth).drive calls)
      (fun found st => (∃ k s₀, (plainly script).scan k (s, { memory }) = .ok .exhausted (s₀, st.2) ∧
          s₀.SameEnd st.1) ∨
        found ≠ .exhausted ∧ ∃ k, (plainly script).scan k (s, { memory }) = .ok .suspended st)
      (fun e st => ∃ k, (plainly script).scan k (s, { memory }) = .error e st) (s, { memory }) ∧
    ∀ k s₀ journal, (plainly script).scan k (s, { memory }) = .ok .exhausted (s₀, journal) →
      k < calls.length → (∀ events ∈ calls, 0 < events) →
        ∃ s', (pulling script choose depth).drive calls (s, { memory }) =
          .ok .exhausted (s', journal) ∧ s₀.SameEnd s' := by
  obtain ⟨ht, hcoherent, hcovered⟩ := ScannerOptions.build_coherent hbuild
  have hsource : s.buffer.source = source := by
    obtain ⟨-, sc, capacity, -, -, -, -, rfl⟩ := ScannerOptions.of_build hbuild
    rfl
  have hready : s.Ready t o.bufferSettings := ⟨⟨hcoherent, hsource.symm ▸ hsteady⟩, hcovered⟩
  have hscan (k : Nat) : (plainly script).scan k (s, { memory }) =
      (plainly script).handle k (s, { memory }) := Hooks.scan_eq_handle hready.unterminate_eq k
  have hfollows : Pulls (plainly script) t o.bufferSettings 0 (· = .exhausted)
      ((pulling script choose depth).drive calls) (s, { memory }) (s, { memory }) :=
    drive_follows ht calls hready
  simp only [hscan]
  refine ⟨hfollows.mono (fun found st h => ?_) fun e st h => h.2, fun k s₀ journal hplain hk hpos => ?_⟩
  · exact h.place.imp (fun hend => hend.reached) fun ⟨hopen, k, _, hk⟩ => ⟨hopen, k, hk⟩
  · obtain ⟨⟨s', journal'⟩, hdrive⟩ := drive_exhausts ht hpos hready hk (.inr ⟨_, hplain⟩)
    obtain ⟨i, s₁, hi, hsame⟩ := ((hfollows.ok hdrive).atEnd rfl).reached
    -- Both runs of the plain scan come to the same end.
    have hmax := Hooks.handle_mono hplain nofun (Nat.le_max_left k i)
    have hmax' := Hooks.handle_mono hi nofun (Nat.le_max_right k i)
    obtain ⟨rfl, rfl⟩ := Prod.mk.inj (EStateM.Result.ok.inj (hmax.symm.trans hmax')).2
    exact ⟨s', hdrive, hsame⟩

/-- A script that echoes each match. -/
def echoing : Rule → Sight → Unit → Script Unit := fun _ _ memory =>
  .perform .echo trivial fun _ _ => .finish .resume memory

/-- An action that scans on by itself for one event and then hands a value to its caller. -/
def pullOne : Scanner × Journal Unit → Pull := fun _ => .nest 1 fun _ => .finish (.yield 7)

theorem Script.pulling_sees_plain_oneByte : ∃ s s' journal,
    ({} : ScannerOptions).build Tables.oneByte (.ofBytes [97, 98]) {} = .ok s ∧
    (pulling echoing pullOne 2).drive [1, 1, 1, 1] (s, { memory := () }) =
      .ok .exhausted (s', journal) ∧
    s'.output.written = #[97, 98] ∧ journal.log.length = 4 := by
  have hrun : (match ({} : ScannerOptions).build Tables.oneByte (.ofBytes [97, 98]) {} with
      | .ok s => match (plainly echoing).scan 3 (s, { memory := () }) with
        | .ok .exhausted (s₀, journal) =>
          decide (s₀.output.written = #[97, 98] ∧ journal.log.length = 4)
        | _ => false
      | .error _ => false) = true := by decide +kernel
  split at hrun
  · rename_i s hbuild
    split at hrun
    · rename_i s₀ journal hplain
      obtain ⟨hwritten, hlog⟩ := of_decide_eq_true hrun
      obtain ⟨s', hdrive, hsame⟩ := (pulling_sees_plain hbuild rfl echoing pullOne 2 [1, 1, 1, 1] ()).2
        3 s₀ journal hplain (by decide) (by decide)
      exact ⟨s, s', journal, hbuild, hdrive, hsame.output_eq ▸ hwritten, hlog⟩
    · exact Bool.noConfusion hrun
  · exact Bool.noConfusion hrun

end Pulling

end Munch
