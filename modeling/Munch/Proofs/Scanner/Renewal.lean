-- SUMMARY: Sessions on two scanners with different pasts in front of the same input run alike.
import Munch.Proofs.Buffer.Akin
import Munch.Proofs.Scanner.BesideEdit
import Munch.Proofs.Scanner.Intact
import Munch.Proofs.Scanner.Scan
import Munch.Proofs.Scanner.Since

/-! # Renewal

One session runs on two scanners that are side by side over akin buffers, which put no terminators, and
sees only what has come since it began. As long as no line runs out it does the same on both. The rule
of the last match may differ at first; as soon as a match was entered it is the same. -/

namespace Munch

variable {t : Tables} {settings : BufferSettings} {head : Headstart}

/-- An action was entered. -/
def Matched (notes : List Note) : Prop :=
  ∃ note ∈ notes, ∃ rule, note.event = .entered rule

/-- The same has happened, note by note, to two scanners side by side. -/
inductive AllBeside (head : Headstart) : List Note → List Note → Prop where
  | nil : AllBeside head [] []
  | cons {note note' : Note} {notes notes' : List Note} : note'.event = note.event →
      note'.running = note.running →
      note.scanner.Beside Buffer.Akin head (Matched (note :: notes)) note'.scanner →
      AllBeside head notes notes' → AllBeside head (note :: notes) (note' :: notes')

/-- Two sessions that have run alike so far. -/
structure Renewed {σ : Type} (head : Headstart) (st st' : Scanner × Diary σ) : Prop where
  scanner : st.1.Beside Buffer.Akin head (Matched st.2.notes) st'.1
  memory_eq : st'.2.memory = st.2.memory
  running_eq : st'.2.running = st.2.running
  notes : AllBeside head st.2.notes st'.2.notes

/-- The latest note is of the scanner as it is. -/
def Current {σ : Type} (st : Scanner × Diary σ) : Prop :=
  ∃ note earlier, st.2.notes = note :: earlier ∧ note.scanner = st.1

section Renewal

variable {σ α β : Type} {st st' : Scanner × Diary σ}

namespace Renewed

theorem setScanner {s s' : Scanner} (h : Renewed head st st')
    (hs : s.Beside Buffer.Akin head (Matched st.2.notes) s') :
    Renewed head (s, st.2) (s', st'.2) :=
  ⟨hs, h.memory_eq, h.running_eq, h.notes⟩

theorem count (h : Renewed head st st') (f : Nat → Nat) :
    Renewed head (st.1, { st.2 with running := f st.2.running })
      (st'.1, { st'.2 with running := f st'.2.running }) :=
  ⟨h.scanner, h.memory_eq, congrArg f h.running_eq, h.notes⟩

theorem enter (h : Renewed head st st') (event : Event)
    (hrule : ∀ rule, event = .entered rule → st'.1.rule = st.1.rule) :
    Renewed head (Diary.enter event st) (Diary.enter event st') := by
  have hscanner : st.1.Beside Buffer.Akin head
      (Matched (⟨event, st.2.running, st.1⟩ :: st.2.notes)) st'.1 := by
    refine { h.scanner with rule_eq := ?_ }
    rintro ⟨note, hmem, rule, hevent⟩
    rcases List.mem_cons.1 hmem with rfl | hmem
    · exact hrule rule hevent
    · exact h.scanner.rule_eq ⟨note, hmem, rule, hevent⟩
  exact ⟨hscanner, h.memory_eq, h.running_eq, .cons rfl h.running_eq hscanner h.notes⟩

theorem onScanner (h : Renewed head st st') {m : ScannerM α}
    (hm : Parallel (Scanner.Beside Buffer.Akin head (Matched st.2.notes)) (m st.1) (m st'.1)) :
    Parallel (Renewed head) (Munch.onScanner m st) (Munch.onScanner m st') := by
  unfold Munch.onScanner
  dsimp only
  revert hm
  cases m st.1 <;> cases m st'.1 <;> rintro ⟨⟩
  · exact .ok (h.setScanner ‹_›)
  · exact .error (h.setScanner ‹_›)

end Renewed

theorem current_enter (event : Event) (st : Scanner × Diary σ) : Current (Diary.enter event st) :=
  ⟨_, _, rfl, rfl⟩

/-! ## Rules -/

/-- The second computation runs as the first one, if no line runs out in it. -/
def Tandem (head : Headstart) (m m' : SessionM (Diary σ) α) (st st' : Scanner × Diary σ) : Prop :=
  Unclamped m' st' → Parallel (Renewed head) (m st) (m' st')

theorem Tandem.bind {m m' : SessionM (Diary σ) α} {f f' : α → SessionM (Diary σ) β}
    (hm : Tandem head m m' st st') (hgrows : ∀ a, Across (Chronicle Anyhow) (f' a))
    (hf : ∀ a t t', m st = .ok a t → m' st' = .ok a t' → Renewed head t t' →
      Tandem head (f a) (f' a) t t') :
    Tandem head (m >>= f) (m' >>= f') st st' :=
  fun h => (hm (h.left hgrows)).bind_runs (fun _ _ => id) fun a t t' hrun hrun' ht =>
    hf a t t' hrun hrun' ht (h.right hrun')

/-- A note is made of how the computations have ended. -/
theorem Tandem.noted {m m' : SessionM (Diary σ) α} (event : Except ScanError α → Event)
    (hm : Tandem head m m' st st') (hevent : ∀ result rule, event result ≠ .entered rule) :
    Tandem head (Diary.noted event m) (Diary.noted event m') st st' := by
  intro h
  have hrun : Unclamped m' st' := by
    refine h.of_chronicle ?_
    unfold final Diary.noted Diary.caught
    simp only [Bind.bind, EStateM.bind]
    cases m' st' <;> exact enter_chronicle Anyhow _ _
  have hcaught : Parallel (Renewed head) (Diary.caught m st) (Diary.caught m' st') := by
    have hparallel := hm hrun
    unfold Diary.caught
    revert hparallel
    cases m st <;> cases m' st' <;> rintro ⟨⟩
    · exact .ok ‹_›
    · exact .ok ‹_›
  exact hcaught.bind (fun _ _ => id) fun result _ _ _ h =>
    .ok (h.enter (event result) fun rule hrule => absurd hrule (hevent result rule))

theorem current_noted {m : SessionM (Diary σ) α} {event : Except ScanError α → Event}
    {result : Except ScanError α} (h : Diary.noted event m st = .ok result st') : Current st' := by
  obtain ⟨_, st₁, -, h⟩ := bind_eq_ok_iff.1 h
  obtain ⟨-, rfl⟩ := EStateM.Result.ok.inj h
  exact current_enter _ st₁

/-- From an intact session on whose latest note is current, both computations run alike. -/
def Renews (t : Tables) (settings : BufferSettings) (head : Headstart)
    (m m' : SessionM (Diary σ) α) : Prop :=
  ∀ st st', Intact t settings st' → Current st' → Renewed head st st' → Tandem head m m' st st'

theorem Renewed.resting (h : Renewed head st st') : Resting st' :=
  fun _ => h.scanner.covered_eq.2

theorem Renews.bind {m m' : SessionM (Diary σ) α} {f f' : α → SessionM (Diary σ) β}
    (hm : Renews t settings head m m') (hkeeps : Keeps t settings m')
    (hcurrent : ∀ st a st', m' st = .ok a st' → Current st')
    (hgrows : ∀ a, Across (Chronicle Anyhow) (f' a))
    (hf : ∀ a, Renews t settings head (f a) (f' a)) :
    Renews t settings head (m >>= f) (m' >>= f') := by
  intro st st' hintact hlatest h
  refine (hm st st' hintact hlatest h).bind hgrows fun a t t' _ hrun' ht => ?_
  exact hf a t t' ((hkeeps st' hintact h.resting).ok hrun').intact (hcurrent st' a t' hrun') ht

/-! ## Operations -/

/-- An operation that is not noted to take the line to its lowest has not done so. -/
theorem counts_of_unclamped {edit : Edit} (hlatest : Current st)
    (h : Unclamped (Diary.noted (.performed edit) (onScanner edit.perform)) st) :
    edit.Counts st.1 := by
  obtain ⟨s, d⟩ := st
  obtain ⟨before, earlier, hnotes, rfl⟩ := hlatest
  intro hkeeps given hgiven
  refine Nat.lt_of_not_le fun hle => h ?_
  have hfinal : ∃ result, (final (Diary.noted (.performed edit) (onScanner edit.perform))
      (before.scanner, d)).2.notes =
        ⟨.performed edit result, d.running, final edit.perform before.scanner⟩ :: d.notes := by
    unfold final Diary.noted Diary.caught onScanner
    simp only [Bind.bind, EStateM.bind]
    cases edit.perform before.scanner with
    | ok result s' => exact ⟨.ok result, rfl⟩
    | error e s' => exact ⟨.error e, rfl⟩
  obtain ⟨result, hfinal⟩ := hfinal
  rw [hfinal, show d.notes = before :: earlier from hnotes]
  exact ⟨_, before, earlier, List.suffix_refl _, edit, result, rfl, hkeeps, given, hgiven, hle⟩

theorem Renews.perform (edit : Edit) :
    Renews t settings head (Diary.noted (σ := σ) (.performed edit) (onScanner edit.perform))
      (Diary.noted (.performed edit) (onScanner edit.perform)) := by
  intro st st' hintact hlatest h hclamped
  have hcounts := counts_of_unclamped hlatest hclamped
  have hrun : Tandem head (onScanner edit.perform) (onScanner edit.perform) st st' := fun _ =>
    h.onScanner (edit.perform_beside hintact.coherent h.scanner hcounts)
  exact hrun.noted _ (fun _ _ => Event.noConfusion) hclamped

theorem Renews.altered (change : Sink → Sink) :
    Renews t settings head
      (Diary.altered (σ := σ) (·.changeSince head.written.size change))
      (Diary.altered (·.changeSince 0 change)) :=
  fun _ _ _ _ h _ => .ok (.enter (h.setScanner
    (h.scanner.setOutput (h.scanner.output.changeSince change))) .altered fun _ => Event.noConfusion)

/-! ## Actions and hooks -/

theorem again_renewed (result : Except ScanError α) :
    InStep (Renewed head) (Diary.again result : SessionM (Diary σ) α) := by
  cases result with
  | ok a => exact .pure a
  | error e => exact .throw e

/-- What runs at the events of a scan runs alike on both sides. -/
structure RenewsHooks (t : Tables) (settings : BufferSettings) (head : Headstart)
    (hooks hooks' : Hooks (Diary σ)) : Prop where
  onMatch : ∀ rule st st', Intact t settings st' → st'.1.BehindMatch →
    st'.1.rule = st.1.rule → Renewed head st st' →
    Tandem head (hooks.onMatch rule) (hooks'.onMatch rule) st st'
  onEnd : ∀ st st', Intact t settings st' → Renewed head st st' →
    Tandem head hooks.onEnd hooks'.onEnd st st'
  onMatch_grows : ∀ rule, Across (Chronicle Anyhow) (hooks'.onMatch rule)
  onEnd_grows : Across (Chronicle Anyhow) hooks'.onEnd

theorem Renews.action {m m' : SessionM (Diary σ) ActionResult} (hm : Renews t settings head m m')
    (rule : Rule) (hintact : Intact t settings st') (hmatch : st'.1.BehindMatch)
    (hrule : st'.1.rule = st.1.rule) (h : Renewed head st st') :
    Tandem head (Diary.action rule m) (Diary.action rule m') st st' := by
  have hbegun : Renewed head (Diary.begun rule st) (Diary.begun rule st') :=
    (h.count (· + 1)).enter (.entered rule) fun _ _ => hrule
  have hnoted := (hm _ _ (hintact.begun hmatch rule) (current_enter _ _) hbegun).noted .left
    fun _ _ => Event.noConfusion
  have hgrows (result : Except ScanError ActionResult) : Across (Chronicle (σ := σ) Anyhow)
      (do Diary.count (· - 1); Diary.again result) :=
    .bind (.modify fun st => .of_same (History.refl st.1) rfl) fun _ => again_chronicle result
  exact hnoted.bind hgrows fun result _ _ _ _ ht _ => again_renewed result _ _ (ht.count (· - 1))

theorem Renews.hook {m m' : SessionM (Diary σ) Bool} (hm : Renews t settings head m m')
    (hintact : Intact t settings st') (h : Renewed head st st') :
    Tandem head (Diary.hook m) (Diary.hook m') st st' := by
  have hasked := hintact.enter .asked h.resting (fun _ => Event.noConfusion)
    fun _ => Event.noConfusion
  have hnoted := (hm _ _ hasked.intact (current_enter _ _)
    (h.enter .asked fun _ => Event.noConfusion)).noted .answered fun _ _ => Event.noConfusion
  exact hnoted.bind (fun result => again_chronicle result) fun result _ _ _ _ ht _ =>
    again_renewed result _ _ ht

theorem RenewsHooks.diary {onMatch onMatch' : Rule → SessionM (Diary σ) ActionResult}
    {onEnd onEnd' : SessionM (Diary σ) Bool}
    (hmatch : ∀ rule, Renews t settings head (onMatch rule) (onMatch' rule))
    (hend : Renews t settings head onEnd onEnd')
    (hmatchGrows : ∀ rule, Across (Chronicle Anyhow) (onMatch' rule))
    (hendGrows : Across (Chronicle Anyhow) onEnd') :
    RenewsHooks t settings head (Diary.hooks onMatch onEnd) (Diary.hooks onMatch' onEnd') :=
  ⟨fun rule _ _ hintact hbehind hrule h => (hmatch rule).action rule hintact hbehind hrule h,
    fun _ _ hintact h => hend.hook hintact h,
    fun rule => action_chronicle (hmatchGrows rule) rule, hook_chronicle hendGrows⟩

/-! ## Scans -/

/-- Without terminators there is nothing to put behind a match and nothing to take away. -/
theorem Scanner.Beside.terminate_eq {ruled : Prop} {s s' : Scanner}
    (h : s.Beside Buffer.Akin head ruled s') : s.terminate = s ∧ s'.terminate = s' :=
  ⟨terminate_of_none h.buffer.plain h.covered_eq.1,
    terminate_of_none (h.buffer.settings_eq ▸ h.buffer.plain) h.covered_eq.2⟩

theorem runAction_tandem {hooks hooks' : Hooks (Diary σ)}
    (hhooks : RenewsHooks t settings head hooks hooks') {rule : Rule} (hintact : Intact t settings st') (hmatch : st'.1.BehindMatch)
    (hrule : st'.1.rule = st.1.rule) (h : Renewed head st st') :
    Tandem head (hooks.runAction rule) (hooks'.runAction rule) st st' := by
  obtain ⟨s, d⟩ := st
  obtain ⟨s', d'⟩ := st'
  obtain ⟨hleft, hright⟩ := h.scanner.terminate_eq
  have haction := hhooks.onMatch rule _ _ hintact hmatch hrule h
  unfold Tandem Unclamped at haction ⊢
  dsimp only at hleft hright
  rw [final_eq_of_onFinal (Hooks.runAction_eq rule s' d'), Hooks.runAction_eq, Hooks.runAction_eq,
    hleft, hright]
  intro hclamped
  refine (haction hclamped).onFinal fun st₁ st₁' h₁ => ?_
  obtain ⟨hleft₁, hright₁⟩ := h₁.scanner.covered_eq
  exact h₁.setScanner (by
    rw [Scanner.unterminate_of_none hleft₁, Scanner.unterminate_of_none hright₁]
    exact h₁.scanner)

theorem rule_of_match {rule : Rule} (h : onScanner Scanner.advance st = .ok (some rule) st') :
    st'.1.rule = rule := by
  obtain ⟨s, d⟩ := st
  unfold onScanner at h
  dsimp only at h
  cases hrun : s.advance with
  | error e s' =>
    rw [hrun] at h
    cases h
  | ok found s' =>
    rw [hrun] at h
    obtain ⟨rfl, rfl⟩ := EStateM.Result.ok.inj h
    exact (Scanner.advance_rule s).ok hrun rule rfl

theorem handle_tandem (ht : t.Sound) {hooks hooks' : Hooks (Diary σ)}
    (hminded : Minded t settings hooks') (hhooks : RenewsHooks t settings head hooks hooks')
    (events : Nat) (hintact : Intact t settings st') (h : Renewed head st st') :
    Tandem head (hooks.handle events) (hooks'.handle events) st st' := by
  induction events generalizing st st' with
  | zero => exact fun _ => .ok h
  | succ events ih =>
    have hgrows := handle_chronicle hhooks.onMatch_grows hhooks.onEnd_grows events
    intro hclamped
    refine (h.onScanner (Scanner.Beside.advance_inStep _ _ h.scanner)).bind_runs (fun _ _ => id)
      fun found st₁ st₁' hrun hrun' h₁ => ?_
    obtain ⟨hpasses, hmatch⟩ := (advance_passes ht hintact h.scanner.covered_eq.2).ok hrun'
    have hrest := hclamped.right hrun'
    have hcovered := h₁.scanner.covered_eq.2
    cases found with
    | some rule =>
      have hrule : st₁'.1.rule = st₁.1.rule := (rule_of_match hrun').trans (rule_of_match hrun).symm
      refine (runAction_tandem hhooks hpasses.intact (hmatch rfl) hrule h₁).bind (fun flow => ?_)
        (fun flow st₂ st₂' _ hrun₂ h₂ => ?_) hrest
      · cases flow with
        | yield value => exact .pure _
        | resume => exact hgrows
      · have hpasses₂ := ((runAction_ends hminded hpasses.intact hcovered (hmatch rfl)).ok hrun₂).1
        cases flow with
        | yield value => exact fun _ => .ok h₂
        | resume => exact ih hpasses₂.intact h₂
    | none =>
      refine (hhooks.onEnd st₁ st₁' hpasses.intact h₁).bind (fun ended => ?_)
        (fun ended st₂ st₂' _ hrun₂ h₂ => ?_) hrest
      · cases ended with
        | true => exact .pure _
        | false => exact hgrows
      · have hpasses₂ := (hminded.onEnd st₁' hpasses.intact hcovered).ok hrun₂
        cases ended with
        | true => exact fun _ => .ok h₂
        | false => exact ih hpasses₂.intact h₂

theorem Renews.scan (ht : t.Sound) {hooks hooks' : Hooks (Diary σ)}
    (hminded : Minded t settings hooks') (hhooks : RenewsHooks t settings head hooks hooks')
    (events : Nat) :
    Renews t settings head (Diary.noted .scanned (hooks.scan events))
      (Diary.noted .scanned (hooks'.scan events)) := by
  intro st st' hintact _ h
  have hbare : Tandem head (hooks.scan events) (hooks'.scan events) st st' := by
    obtain ⟨hleft, hright⟩ := h.scanner.covered_eq
    unfold Tandem Unclamped final
    rw [Hooks.scan_eq_handle (Scanner.unterminate_of_none hleft),
      Hooks.scan_eq_handle (Scanner.unterminate_of_none hright)]
    exact handle_tandem ht hminded hhooks events hintact h
  exact hbare.noted _ fun _ _ => Event.noConfusion

/-! ## Sessions -/

/-- Without the headstart, both scanners show the same. -/
theorem Scanner.Beside.view_since_eq {ruled : Prop} {s s' : Scanner}
    (h : s.Beside Buffer.Akin head ruled s') : s'.view.since {} = s.view.since head := by
  have hline : s'.line - 0 = s.line - head.lines := by
    rw [h.line_eq, Nat.add_sub_cancel_left, Nat.sub_zero]
  have houtput : s'.output.since 0 = s.output.since head.written.size :=
    (Sink.since_zero _).trans h.output.since_eq.symm
  unfold View.since Scanner.view
  simp only [List.size_toArray, List.length_nil, h.text_eq, h.window_eq, h.startCondition_eq, hline,
    houtput]

/-- A session that sees only what has come since the headstart runs alike on both sides. -/
theorem Session.run_renews (ht : t.Sound) (session : Session σ α) :
    Renews t settings head (session.since head).run (session.since {}).run := by
  induction session with
  | finish result => exact fun _ _ _ _ h _ => .ok h
  | fail e => exact fun _ _ _ _ h _ => .error h
  | look next ih =>
    intro st st' hintact hlatest h
    have hnext := ih (st.1.view.since head) st.2.memory st st' hintact hlatest h
    have hright : ((Session.look next).since {}).run st' =
        ((next (st.1.view.since head) st.2.memory).since {}).run st' := by
      rw [← h.scanner.view_since_eq, ← h.memory_eq]
      rfl
    unfold Tandem Unclamped final at hnext ⊢
    rw [hright]
    exact hnext
  | remember memory next ih =>
    intro st st' hintact hlatest h
    exact ih _ _ ⟨hintact.coherent, hintact.notes, hintact.capacity⟩ hlatest
      ⟨h.scanner, rfl, h.running_eq, h.notes⟩
  | perform edit next ih =>
    exact .bind (.perform edit) (.perform edit) (fun _ _ _ => current_noted)
      (fun result => Session.run_chronicle _) ih
  | alter change next ih =>
    refine .bind (.altered change) (.altered _) (fun st _ st' hrun => ?_)
      (fun _ => Session.run_chronicle _) fun _ => ih
    obtain ⟨-, rfl⟩ := EStateM.Result.ok.inj hrun
    exact current_enter _ _
  | scan events onMatch onEnd next ihMatch ihEnd ihNext =>
    have hminded : Minded t settings (Diary.hooks (fun rule => ((onMatch rule).since {}).run)
        (onEnd.since {}).run) :=
      .diary (fun rule => Session.run_keeps ht _) (Session.run_keeps ht _)
    have hhooks := RenewsHooks.diary ihMatch ihEnd (fun rule => Session.run_chronicle _)
      (Session.run_chronicle _)
    exact .bind (.scan ht hminded hhooks events) (.scan ht hminded events) (fun _ _ _ => current_noted)
      (fun result => Session.run_chronicle _) ihNext

end Renewal

end Munch
