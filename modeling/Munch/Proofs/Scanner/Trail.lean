-- SUMMARY: Every note of a session follows the one before by a step of the scanner that the event names.
import Munch.Proofs.Scanner.Consumption

/-! # Trails

Between two notes of a diary lies what the event of the later one says: an operation, some attempts that
skip and one that does not, or nothing but a terminator taken away. So a fact about all states that a
session comes to can be proved note by note. -/

namespace Munch

/-- A run has ended with a result and left a state. -/
def Ended {ε σ α : Type} (run : EStateM.Result ε σ α) : Except ε α → σ → Prop
  | .ok a, s => run = .ok a s
  | .error e, s => run = .error e s

/-- What holds at both endings of a computation holds where it has ended. -/
theorem ends.ended {ε σ α : Type} {m : EStateM ε σ α} {Q : α → σ → Prop} {E : ε → σ → Prop}
    {s s' : σ} {result : Except ε α} (h : ends m Q E s) (hrun : Ended (m s) result s') :
    match (motive := Except ε α → Prop) result with
    | .ok a => Q a s'
    | .error e => E e s' := by
  cases result with
  | ok a => exact h.ok hrun
  | error e => exact h.error hrun

/-- From one scanner to a later one by attempts that skip a byte each. -/
inductive Scanner.Skips : Scanner → Scanner → Prop where
  | here {s : Scanner} : Skips s s
  | skip {s s₁ s' : Scanner} : attempt s = .ok .skipped s₁ → Skips s₁ s' → Skips s s'

/-- Advancing skips bytes up to an attempt that does not. -/
theorem Scanner.advance_skips (s : Scanner) :
    ends advance
      (fun found s' => ∃ s₁, s.Skips s₁ ∧ attempt s₁ = .ok (found.elim .ended .matched) s')
      (fun e s' => ∃ s₁, s.Skips s₁ ∧ attempt s₁ = .error e s') s := by
  unfold ends
  fun_induction advance s with
  | case1 s _ rule s' hrun => exact ⟨s, .here, hrun⟩
  | case2 s _ s' hrun => exact ⟨s, .here, hrun⟩
  | case3 s _ s' hrun ih =>
    revert ih
    cases advance s' with
    | ok found s'' =>
      rintro ⟨s₁, hskips, h⟩
      exact ⟨s₁, .skip hrun hskips, h⟩
    | error e s'' =>
      rintro ⟨s₁, hskips, h⟩
      exact ⟨s₁, .skip hrun hskips, h⟩
  | case4 s _ e s' hrun => exact ⟨s, .here, hrun⟩

/-! ## Notes behind each other -/

namespace Note

/-- The number of actions that are running behind a note. -/
def level (note : Note) : Nat :=
  match note.event with
  | .left _ => note.running - 1
  | _ => note.running

/-- The scanner at which an attempt begins behind a note, if some bytes are skipped before. -/
def Attempts (note : Note) (s : Scanner) : Prop :=
  note.scanner.unterminate.Skips s

/-- A note follows the one before it, by what its event says. -/
def Follows (note before : Note) : Prop :=
  match note.event with
  | .built => False
  | .performed edit result => note.running = before.level ∧
      Ended (edit.perform before.scanner) result note.scanner
  | .altered => note.running = before.level ∧
      ∃ output, note.scanner = { before.scanner with output }
  | .entered rule => note.running = before.level + 1 ∧ ∃ s s', before.Attempts s ∧
      Scanner.attempt s = .ok (.matched rule) s' ∧ note.scanner = s'.terminate
  | .left _ => note.running = before.level ∧ note.scanner = before.scanner
  | .asked => note.running = before.level ∧ ∃ s, before.Attempts s ∧
      Scanner.attempt s = .ok .ended note.scanner
  | .answered _ => note.running = before.level ∧ note.scanner = before.scanner
  | .scanned result => note.running = before.level ∧
      (note.scanner = before.scanner.unterminate ∨ ∃ e s, result = .error e ∧ before.Attempts s ∧
        Scanner.attempt s = .error e note.scanner)

end Note

/-- A scanner that has not done anything. -/
structure Scanner.Unused (s : Scanner) : Prop where
  passed_eq : s.buffer.passed.toList = []
  window_eq : s.window = {}
  keepText_eq : s.keepText = false
  line_eq : s.line = 1

/-- Notes, the latest first, that begin with a scanner just built and follow each other. -/
inductive Linked : List Note → Prop where
  | built {s : Scanner} : s.Unused → Linked [⟨.built, 0, s⟩]
  | next {note before : Note} {earlier : List Note} :
      note.Follows before → Linked (before :: earlier) → Linked (note :: before :: earlier)

/-- The notes are linked up to the last one. -/
def Trail (last : Note) (notes : List Note) : Prop :=
  (∃ earlier, notes = last :: earlier) ∧ Linked notes

theorem Trail.cons {last note : Note} {notes : List Note} (h : Trail last notes)
    (hfollows : note.Follows last) : Trail note (note :: notes) := by
  obtain ⟨⟨earlier, rfl⟩, hlinked⟩ := h
  exact ⟨⟨_, rfl⟩, .next hfollows hlinked⟩

/-- What was noted before was linked as well. -/
theorem Linked.of_suffix {notes : List Note} {note : Note} {earlier : List Note} (h : Linked notes)
    (hsuffix : note :: earlier <:+ notes) : Linked (note :: earlier) := by
  induction h with
  | built hunused =>
    rcases List.suffix_cons_iff.1 hsuffix with heq | hnil
    · exact heq ▸ .built hunused
    · cases List.suffix_nil.1 hnil
  | next hfollows hlinked ih =>
    rcases List.suffix_cons_iff.1 hsuffix with heq | hsuffix
    · exact heq ▸ .next hfollows hlinked
    · exact ih hsuffix

/-! ## Sessions -/

section Trail

variable {σ α β : Type} {t : Tables} {settings : BufferSettings}
  {st st' : Scanner × Diary σ} {last : Note}

/-- The latest note tells of the scanner as it is. -/
def Settled (st : Scanner × Diary σ) : Prop :=
  ∃ last, Trail last st.2.notes ∧ st.1 = last.scanner ∧ st.2.running = last.level

/-- An event that follows the latest note is entered, and tells of the scanner as it is. -/
theorem Trail.enter (st : Scanner × Diary σ) (h : Trail last st.2.notes) {event : Event}
    (hfollows : Note.Follows ⟨event, st.2.running, st.1⟩ last)
    (hstays : ∀ result, event ≠ .left result) : Settled (Diary.enter event st) := by
  refine ⟨_, h.cons hfollows, rfl, ?_⟩
  cases event with
  | left result => exact absurd rfl (hstays result)
  | _ => rfl

/-- A computation leaves a session intact and its diary complete. -/
def Records (t : Tables) (settings : BufferSettings) (m : SessionM (Diary σ) α) : Prop :=
  ∀ st, Intact t settings st → Resting st → Settled st →
    ends m (fun _ st' => Passes t settings st st' ∧ Settled st')
      (fun _ st' => Passes t settings st st' ∧ Settled st') st

theorem Records.bind {m : SessionM (Diary σ) α} {f : α → SessionM (Diary σ) β}
    (hm : Records t settings m) (hf : ∀ a, Records t settings (f a)) :
    Records t settings (m >>= f) :=
  fun st h hrest hsettled => .bind ((hm st h hrest hsettled).mono
    (fun a st' h' => (hf a st' h'.1.intact (h'.1.resting hrest) h'.2).mono
      (fun _ _ h'' => ⟨h'.1.trans h''.1, h''.2⟩) fun _ _ h'' => ⟨h'.1.trans h''.1, h''.2⟩)
    fun _ _ => id)

theorem Records.perform (edit : Edit) :
    Records t settings (Diary.noted (σ := σ) (.performed edit) (onScanner edit.perform)) := by
  rintro ⟨s, d⟩ h hrest ⟨last, htrail, rfl, hlevel⟩
  refine (Keeps.perform edit _ h hrest).and (.noted (.onScanner (.of_result ?_ ?_)))
  · exact fun a s' hrun => htrail.enter (s', d) ⟨hlevel, hrun⟩ fun _ h => nomatch h
  · exact fun e s' hrun => htrail.enter (s', d) ⟨hlevel, hrun⟩ fun _ h => nomatch h

theorem Records.altered (change : Sink → Sink) :
    Records t settings (Diary.altered (σ := σ) change) := by
  rintro ⟨s, d⟩ h hrest ⟨last, htrail, rfl, hlevel⟩
  refine (Keeps.altered change _ h hrest).and (.bind (.onScanner (.modify (.modify ?_))))
  exact htrail.enter ({ last.scanner with output := change last.scanner.output }, d)
    ⟨hlevel, _, rfl⟩ fun _ h => nomatch h

theorem again_settled {E : ScanError → Scanner × Diary σ → Prop} {result : Except ScanError α}
    {Q : Scanner × Diary σ → Prop} (h : Q st) (hE : ∀ e, Q st → E e st) :
    ends (Diary.again result) (fun _ => Q) E st := by
  cases result with
  | ok a => exact .pure h
  | error e => exact .throw (hE e h)

/-! ## Actions and hooks -/

/-- An action and its notes, behind a match. -/
theorem Records.action {m : SessionM (Diary σ) ActionResult} (hm : Records t settings m)
    {rule : Rule} (h : Intact t settings st) (hmatch : st.1.BehindMatch)
    (htrail : Trail last st.2.notes)
    (hentered : Note.Follows ⟨.entered rule, st.2.running + 1, st.1⟩ last) :
    ends (Diary.action rule m) (fun _ => Settled) (fun _ => Settled) st := by
  refine .bind (.modify (.bind (.modify (.bind (.noted ?_)))))
  have hsettled : Settled (Diary.begun rule st) :=
    Trail.enter (st.1, { st.2 with running := st.2.running + 1 }) htrail hentered
      fun _ h => nomatch h
  have hleft (result : Except ScanError ActionResult) {st' : Scanner × Diary σ}
      (h' : Settled st') :
      ends (do Diary.count (· - 1); Diary.again result) (fun _ => Settled) (fun _ => Settled)
        (Diary.enter (.left result) st') := by
    obtain ⟨last', htrail', hscanner, hlevel⟩ := h'
    refine .bind (.modify (again_settled ?_ fun _ => id))
    have hfollows : Note.Follows ⟨.left result, st'.2.running, st'.1⟩ last' := ⟨hlevel, hscanner⟩
    exact ⟨_, htrail'.cons hfollows, rfl, rfl⟩
  exact (hm _ (h.begun hmatch rule) (fun h => nomatch h) hsettled).mono
    (fun a _ h' => hleft (.ok a) h'.2) fun e _ h' => hleft (.error e) h'.2

/-- A hook at the end of the input and its notes. -/
theorem Records.hook {m : SessionM (Diary σ) Bool} (hm : Records t settings m)
    (h : Intact t settings st) (hcovered : st.1.covered = none) (htrail : Trail last st.2.notes)
    (hasked : Note.Follows ⟨.asked, st.2.running, st.1⟩ last) :
    ends (Diary.hook m) (fun _ => Settled) (fun _ => Settled) st := by
  have hintact := (h.enter .asked (fun _ => hcovered) (fun _ h => nomatch h) fun _ h => nomatch h).intact
  refine .bind (.modify (.bind (.noted ?_)))
  have hanswered (result : Except ScanError Bool) {st' : Scanner × Diary σ} (h' : Settled st') :
      ends (Diary.again result) (fun _ => Settled) (fun _ => Settled)
        (Diary.enter (.answered result) st') := by
    obtain ⟨last', htrail', hscanner, hlevel⟩ := h'
    exact again_settled (htrail'.enter _ ⟨hlevel, hscanner⟩ fun _ h => nomatch h) fun _ => id
  exact (hm _ hintact (fun _ => hcovered) (htrail.enter _ hasked fun _ h => nomatch h)).mono
    (fun a _ h' => hanswered (.ok a) h'.2) fun e _ h' => hanswered (.error e) h'.2

/-! ## Scans -/

/-- Between two attempts of a scan the latest note tells of the scanner, but for a terminator. -/
def Pausing (st : Scanner × Diary σ) : Prop :=
  ∃ last, Trail last st.2.notes ∧ st.1 = last.scanner.unterminate ∧ st.2.running = last.level

theorem Settled.pausing (h : Settled st) (hcovered : st.1.covered = none) : Pausing st := by
  obtain ⟨last, htrail, hscanner, hlevel⟩ := h
  refine ⟨last, htrail, ?_, hlevel⟩
  rw [← hscanner, Scanner.unterminate_of_none hcovered]

theorem Pausing.covered_eq (h : Pausing st) : st.1.covered = none := by
  obtain ⟨last, -, hscanner, -⟩ := h
  rw [hscanner]
  exact Scanner.covered_unterminate _

/-- A scan pauses behind the latest note, or an attempt behind it has failed. -/
def PausesOrFails (e : ScanError) (st : Scanner × Diary σ) : Prop :=
  Pausing st ∨ ∃ last s, Trail last st.2.notes ∧ st.2.running = last.level ∧ last.Attempts s ∧
    Scanner.attempt s = .error e st.1

/-- What runs at the events of a scan records what it does. -/
structure RecordsHooks (t : Tables) (settings : BufferSettings) (hooks : Hooks (Diary σ)) : Prop
    extends Minded t settings hooks where
  entered : ∀ {rule last} st, Intact t settings st → st.1.BehindMatch → Trail last st.2.notes →
    Note.Follows ⟨.entered rule, st.2.running + 1, st.1⟩ last →
      ends (hooks.onMatch rule) (fun _ => Settled) (fun _ => Settled) st
  asked : ∀ {st last}, Intact t settings st → st.1.covered = none → Trail last st.2.notes →
    Note.Follows ⟨.asked, st.2.running, st.1⟩ last →
      ends hooks.onEnd (fun _ => Settled) (fun _ => Settled) st

/-- An action leaves the scan pausing, whatever its outcome. -/
theorem RecordsHooks.runAction {hooks : Hooks (Diary σ)} (hhooks : RecordsHooks t settings hooks)
    {rule : Rule} (h : Intact t settings st) (hcovered : st.1.covered = none)
    (hmatch : st.1.BehindMatch) (htrail : Trail last st.2.notes)
    (hentered : Note.Follows ⟨.entered rule, st.2.running + 1, st.1.terminate⟩ last) :
    ends (hooks.runAction rule) (fun _ => Pausing) (fun _ => Pausing) st := by
  obtain ⟨s, d⟩ := st
  obtain ⟨hterminated, hmatch'⟩ := h.terminate hcovered hmatch
  have hrun := hhooks.entered (s.terminate, d) hterminated hmatch' htrail hentered
  have hpausing {st' : Scanner × Diary σ} (h' : Settled st') :
      Pausing (st'.1.unterminate, st'.2) := by
    obtain ⟨last', htrail', hscanner, hlevel⟩ := h'
    exact ⟨last', htrail', congrArg Scanner.unterminate hscanner, hlevel⟩
  unfold ends at hrun ⊢
  rw [Hooks.runAction_eq]
  revert hrun
  cases hooks.onMatch rule (s.terminate, d) with
  | ok flow st' => exact hpausing
  | error e st' => exact hpausing

/-- Advancing makes no note, and comes from the latest one by an attempt that does not skip. -/
theorem advance_trails (ht : t.Sound) (h : Intact t settings st) (hpausing : Pausing st) :
    ends (onScanner Scanner.advance)
      (fun found st' => Passes t settings st st' ∧ (found.isSome = true → st'.1.BehindMatch) ∧
        ∃ last s, Trail last st'.2.notes ∧ st'.2.running = last.level ∧ last.Attempts s ∧
          Scanner.attempt s = .ok (found.elim .ended .matched) st'.1)
      (fun e st' => ∃ last s, Trail last st'.2.notes ∧ st'.2.running = last.level ∧
        last.Attempts s ∧ Scanner.attempt s = .error e st'.1) st := by
  have hpasses := advance_passes ht h hpausing.covered_eq
  obtain ⟨s, d⟩ := st
  obtain ⟨last, htrail, rfl, hlevel⟩ := hpausing
  refine (hpasses.and (.onScanner (Scanner.advance_skips _ |>.mono
    (fun found s' h' => ?_) fun e s' h' => ?_))).mono
    (fun found st' h' => ⟨h'.1.1, h'.1.2, h'.2⟩) fun e st' h' => h'.2
  · obtain ⟨s₁, hskips, hattempt⟩ := h'
    exact ⟨last, s₁, htrail, hlevel, hskips, hattempt⟩
  · obtain ⟨s₁, hskips, hattempt⟩ := h'
    exact ⟨last, s₁, htrail, hlevel, hskips, hattempt⟩

theorem RecordsHooks.handle (ht : t.Sound) {hooks : Hooks (Diary σ)}
    (hhooks : RecordsHooks t settings hooks) (events : Nat) (h : Intact t settings st)
    (hpausing : Pausing st) :
    ends (hooks.handle events) (fun _ => Pausing) PausesOrFails st := by
  induction events generalizing st with
  | zero => exact .pure hpausing
  | succ events ih =>
    have hcovered := hpausing.covered_eq
    refine .bind ((advance_trails ht h hpausing).mono (fun found st₁ h₁ => ?_) fun e st₁ h₁ => .inr h₁)
    obtain ⟨hpasses, hmatch, last, s, htrail, hlevel, hattempts, hattempt⟩ := h₁
    have hcovered₁ := hpasses.covered hcovered
    cases found with
    | some rule =>
      have hentered : Note.Follows ⟨.entered rule, st₁.2.running + 1, st₁.1.terminate⟩ last :=
        ⟨congrArg (· + 1) hlevel, s, st₁.1, hattempts, hattempt, rfl⟩
      refine .bind (((runAction_ends hhooks.toMinded hpasses.intact hcovered₁ (hmatch rfl)).and
        (hhooks.runAction hpasses.intact hcovered₁ (hmatch rfl) htrail hentered)).mono
          (fun flow st₂ h₂ => ?_) fun e st₂ h₂ => .inl h₂.2)
      cases flow with
      | yield value => exact .pure h₂.2
      | resume => exact ih h₂.1.1.intact h₂.2
    | none =>
      have hasked : Note.Follows ⟨.asked, st₁.2.running, st₁.1⟩ last :=
        ⟨hlevel, s, hattempts, hattempt⟩
      refine .bind (((hhooks.onEnd _ hpasses.intact hcovered₁).and
        (hhooks.asked hpasses.intact hcovered₁ htrail hasked)).mono
          (fun ended st₂ h₂ => ?_) fun e st₂ h₂ => .inl (h₂.2.pausing (h₂.1.1.covered hcovered₁)))
      have hpausing₂ := h₂.2.pausing (h₂.1.covered hcovered₁)
      cases ended with
      | true => exact .pure hpausing₂
      | false => exact ih h₂.1.intact hpausing₂

theorem Records.scan (ht : t.Sound) {hooks : Hooks (Diary σ)} (hhooks : RecordsHooks t settings hooks)
    (events : Nat) : Records t settings (Diary.noted .scanned (hooks.scan events)) := by
  rintro ⟨s, d⟩ h hrest ⟨last, htrail, rfl, hlevel⟩
  refine (Keeps.scan ht hhooks.toMinded events _ h hrest).and (.noted (.bind (.onScanner (.modify ?_))))
  have hintact := (h.leads h.coherent.unterminate).intact
  refine (hhooks.handle ht events hintact ⟨last, htrail, rfl, hlevel⟩).mono (fun a st' h' => ?_)
    fun e st' h' => ?_
  · obtain ⟨last', htrail', hscanner, hlevel'⟩ := h'
    exact htrail'.enter _ ⟨hlevel', .inl hscanner⟩ fun _ h => nomatch h
  · rcases h' with ⟨last', htrail', hscanner, hlevel'⟩ | ⟨last', s', htrail', hlevel', hattempts, hattempt⟩
    · exact htrail'.enter _ ⟨hlevel', .inl hscanner⟩ fun _ h => nomatch h
    · exact htrail'.enter _ ⟨hlevel', .inr ⟨e, s', rfl, hattempts, hattempt⟩⟩ fun _ h => nomatch h

/-! ## Sessions -/

/-- The actions and the hook of a scan record what they do. -/
theorem RecordsHooks.diary {onMatch : Rule → SessionM (Diary σ) ActionResult}
    {onEnd : SessionM (Diary σ) Bool} (hkeepsMatch : ∀ rule, Keeps t settings (onMatch rule))
    (hkeepsEnd : Keeps t settings onEnd) (hmatch : ∀ rule, Records t settings (onMatch rule))
    (hend : Records t settings onEnd) : RecordsHooks t settings (Diary.hooks onMatch onEnd) where
  toMinded := .diary hkeepsMatch hkeepsEnd
  entered {rule _} _ h hbehind htrail hentered := (hmatch rule).action h hbehind htrail hentered
  asked h hcovered htrail hasked := hend.hook h hcovered htrail hasked

/-- Every session records what it does, step by step. -/
theorem Session.run_records (ht : t.Sound) (session : Session σ α) :
    Records t settings session.run := by
  induction session with
  | finish result => exact fun st h _ hsettled => .pure ⟨h.refl, hsettled⟩
  | fail e => exact fun st h _ hsettled => .throw ⟨h.refl, hsettled⟩
  | look next ih => exact fun st h hrest hsettled => .bind (.get (ih _ _ st h hrest hsettled))
  | remember memory next ih =>
    refine .bind (fun st h hrest hsettled => .modify ?_) fun _ => ih
    exact ⟨⟨⟨h.coherent, h.notes, h.capacity⟩, rfl, id⟩, hsettled⟩
  | perform edit next ih => exact .bind (.perform edit) ih
  | alter change next ih => exact .bind (.altered change) fun _ => ih
  | scan events onMatch onEnd next ihMatch ihEnd ihNext =>
    exact .bind (.scan ht (.diary (fun rule => (onMatch rule).run_keeps ht) (onEnd.run_keeps ht)
      ihMatch ihEnd) events) ihNext

end Trail

/-- A scanner that was built has not done anything. -/
theorem ScannerOptions.build_unused {o : ScannerOptions} {t : Tables} {source : Source}
    {output : Sink} {s : Scanner} (h : o.build t source output = .ok s) : s.Unused := by
  obtain ⟨-, sc, capacity, -, -, -, -, rfl⟩ := of_build h
  exact ⟨rfl, rfl, rfl, rfl⟩

/-- The notes of a session on a new scanner are linked. -/
theorem Session.linked {o : ScannerOptions} {t : Tables} {source : Source} {output : Sink}
    {s : Scanner} (h : o.build t source output = .ok s) {σ α : Type} (session : Session σ α)
    (memory : σ) : Linked (session.notes memory s) := by
  obtain ⟨ht, -, hcovered⟩ := ScannerOptions.build_coherent h
  have hstart : Trail ⟨.built, 0, s⟩ (Diary.start memory s).notes :=
    ⟨⟨[], rfl⟩, .built (ScannerOptions.build_unused h)⟩
  have hrun := session.run_records ht _ (Intact.start h memory) (fun _ => hcovered)
    ⟨_, hstart, rfl, rfl⟩
  have hfinal : Settled (final session.run (s, Diary.start memory s)) :=
    (hrun.mono (fun _ _ h' => h'.2) fun _ _ h' => h'.2).final
  obtain ⟨last, ⟨-, hlinked⟩, -⟩ := hfinal
  exact hlinked

end Munch
