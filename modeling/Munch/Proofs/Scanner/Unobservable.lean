-- SUMMARY: No session can tell whether terminators are put behind matches.
import Mathlib.Data.List.Forall2
import Munch.Proofs.Scanner.Counterpart
import Munch.Proofs.Scanner.Intact

/-! # Terminators cannot be observed

One session runs on two scanners, and one of them never puts terminators. Whatever the session does and
wherever it fails, it sees the same on both, so it goes on in the same way. -/

namespace Munch

variable {t : Tables} {settings : BufferSettings}

/-- The second note was made of the counterpart of the first one's scanner. -/
structure Note.Counterpart (note note' : Note) : Prop where
  event_eq : note'.event = note.event
  running_eq : note'.running = note.running
  scanner : note.scanner.Counterpart note'.scanner

/-- Two sessions, the second of them without terminators, that have run alike so far. -/
structure Alongside {σ : Type} (st st' : Scanner × Diary σ) : Prop where
  scanner : st.1.Counterpart st'.1
  memory_eq : st'.2.memory = st.2.memory
  running_eq : st'.2.running = st.2.running
  notes : List.Forall₂ Note.Counterpart st.2.notes st'.2.notes

section Blind

variable {σ α : Type} {st st' : Scanner × Diary σ}

theorem Alongside.enter (h : Alongside st st') (event : Event) :
    Alongside (Diary.enter event st) (Diary.enter event st') :=
  ⟨h.scanner, h.memory_eq, h.running_eq, .cons ⟨rfl, h.running_eq, h.scanner⟩ h.notes⟩

theorem Alongside.count (h : Alongside st st') (f : Nat → Nat) :
    Alongside (st.1, { st.2 with running := f st.2.running })
      (st'.1, { st'.2 with running := f st'.2.running }) :=
  ⟨h.scanner, h.memory_eq, congrArg f h.running_eq, h.notes⟩

theorem Alongside.setScanner (h : Alongside st st') {s s' : Scanner} (hs : s.Counterpart s') :
    Alongside (s, st.2) (s', st'.2) :=
  ⟨hs, h.memory_eq, h.running_eq, h.notes⟩

theorem Alongside.onScanner (h : Alongside st st') {m : ScannerM α} {R : Scanner → Scanner → Prop}
    (hm : Parallel R (m st.1) (m st'.1)) (hR : ∀ s s', R s s' → s.Counterpart s') :
    Parallel Alongside (Munch.onScanner m st) (Munch.onScanner m st') := by
  unfold Munch.onScanner
  dsimp only
  revert hm
  cases m st.1 <;> cases m st'.1 <;> rintro ⟨hs⟩
  · exact .ok (h.setScanner (hR _ _ ‹_›))
  · exact .error (h.setScanner (hR _ _ ‹_›))

theorem noted_parallel {m : SessionM (Diary σ) α} (event : Except ScanError α → Event)
    (h : Parallel Alongside (m st) (m st')) :
    Parallel Alongside (Diary.noted event m st) (Diary.noted event m st') := by
  have hcaught : Parallel Alongside (Diary.caught m st) (Diary.caught m st') := by
    unfold Diary.caught
    revert h
    cases m st <;> cases m st' <;> rintro ⟨h⟩
    · exact .ok ‹_›
    · exact .ok ‹_›
  exact hcaught.bind (fun _ _ => id) fun result _ _ _ h => .ok (h.enter (event result))

/-- The computation does the same with and without terminators, from an intact session on. -/
def Blind (t : Tables) (settings : BufferSettings) (m : SessionM (Diary σ) α) : Prop :=
  ∀ st st', Intact t settings st → Resting st → Alongside st st' → Parallel Alongside (m st) (m st')

theorem Blind.bind {β : Type} {m : SessionM (Diary σ) α} {f : α → SessionM (Diary σ) β}
    (hm : Blind t settings m) (hkeeps : Keeps t settings m) (hf : ∀ a, Blind t settings (f a)) :
    Blind t settings (m >>= f) := by
  intro st st' hintact hrest h
  refine (hm st st' hintact hrest h).bind (fun _ _ => id) fun a st₁ st₁' hrun h₁ => ?_
  have hpasses := (hkeeps st hintact hrest).ok hrun
  exact hf a st₁ st₁' hpasses.intact (hpasses.resting hrest) h₁

/-! ## Operations -/

theorem Blind.perform (edit : Edit) :
    Blind t settings (Diary.noted (σ := σ) (.performed edit) (onScanner edit.perform)) :=
  fun _ _ hintact _ h =>
    noted_parallel _ (h.onScanner (edit.perform_parallel hintact.coherent h.scanner) fun _ _ => id)

theorem Blind.altered (change : Sink → Sink) :
    Blind t settings (Diary.altered (σ := σ) change) := by
  intro st st' _ _ h
  refine .ok (Alongside.enter (h.setScanner ?_) .altered)
  obtain ⟨buffer, hbuffer, heq⟩ := h.scanner
  rw [heq]
  exact ⟨buffer, hbuffer, rfl⟩

/-- What a user looks at is the same with and without terminators. -/
theorem Scanner.Counterpart.view_eq {s s' : Scanner} (h : s.Counterpart s')
    (hs : s.Coherent t settings) : s'.view = s.view := by
  have htext := h.text_eq hs
  obtain ⟨ahead, stale, hlength, heq⟩ := h.eq hs
  have hcapacity : s'.buffer.capacity = s.buffer.capacity := by rw [heq]
  have hcursor : s'.buffer.cursor = s.buffer.cursor := by
    simp only [heq, Buffer.cursor]
  have hfilled : s'.buffer.filled = s.buffer.filled := by
    simp only [heq, Buffer.filled, hlength]
  have hdescribe : s'.buffer.describe = s.buffer.describe := by
    unfold Buffer.describe
    simp only [hcapacity, hfilled, hcursor]
  have hrest : s'.window = s.window ∧ s'.rule = s.rule ∧ s'.line = s.line ∧
      s'.startCondition = s.startCondition ∧ s'.output = s.output := by
    rw [heq]
    exact ⟨rfl, rfl, rfl, rfl, rfl⟩
  obtain ⟨hwindow, hrule, hline, hsc, houtput⟩ := hrest
  unfold Scanner.view Scanner.describe
  simp only [htext, hcapacity, hdescribe, hwindow, hrule, hline, hsc, houtput]

/-! ## Actions and hooks -/

/-- From an intact session at a certain place on, what runs there does the same with and without
terminators. -/
structure BlindHooks (t : Tables) (settings : BufferSettings) (hooks : Hooks (Diary σ)) : Prop where
  onMatch : ∀ rule st st', Intact t settings st → st.1.BehindMatch → Alongside st st' →
    Parallel Alongside (hooks.onMatch rule st) (hooks.onMatch rule st')
  onEnd : ∀ st st', Intact t settings st → st.1.covered = none → Alongside st st' →
    Parallel Alongside (hooks.onEnd st) (hooks.onEnd st')

theorem again_inStep (result : Except ScanError α) :
    InStep Alongside (Diary.again result : SessionM (Diary σ) α) := by
  cases result with
  | ok a => exact .pure a
  | error e => exact .throw e

theorem Blind.action {m : SessionM (Diary σ) ActionResult} (hm : Blind t settings m) (rule : Rule)
    (hintact : Intact t settings st) (hmatch : st.1.BehindMatch) (h : Alongside st st') :
    Parallel Alongside (Diary.action rule m st) (Diary.action rule m st') := by
  have hrun := hm (Diary.begun rule st) (Diary.begun rule st') (hintact.begun hmatch rule)
    (fun h => nomatch h) ((h.count (· + 1)).enter (.entered rule))
  refine (noted_parallel .left hrun).bind (fun _ _ => id) fun result _ _ _ h' => ?_
  exact again_inStep result _ _ (h'.count (· - 1))

theorem Blind.hook {m : SessionM (Diary σ) Bool} (hm : Blind t settings m)
    (hintact : Intact t settings st) (hcovered : st.1.covered = none) (h : Alongside st st') :
    Parallel Alongside (Diary.hook m st) (Diary.hook m st') := by
  have hasked := hintact.enter .asked (fun _ => hcovered) (fun _ h => nomatch h)
    fun _ h => nomatch h
  have hrun := hm _ _ hasked.intact (fun _ => hcovered) (h.enter .asked)
  exact (noted_parallel .answered hrun).bind (fun _ _ => id) fun result _ _ _ h' =>
    again_inStep result _ _ h'

/-! ## Scans -/

/-- The terminator stands on one side while the action runs, and on none behind it. -/
theorem runAction_parallel {hooks : Hooks (Diary σ)} (hhooks : BlindHooks t settings hooks)
    {rule : Rule} (hintact : Intact t settings st) (hcovered : st.1.covered = none)
    (hmatch : st.1.BehindMatch) (h : Alongside st st') :
    Parallel Alongside (hooks.runAction rule st) (hooks.runAction rule st') := by
  obtain ⟨s, d⟩ := st
  obtain ⟨s', d'⟩ := st'
  have htwin : s.Twin s' := h.scanner.twin hcovered
  obtain ⟨hterminated, hmatch'⟩ := hintact.terminate hcovered hmatch
  have hbegin : Alongside (s.terminate, d) (s'.terminate, d') :=
    htwin.terminate_right.symm ▸ h.setScanner (htwin.terminate hmatch.1)
  rw [Hooks.runAction_eq, Hooks.runAction_eq]
  refine (hhooks.onMatch rule _ _ hterminated hmatch' hbegin).onFinal fun st₁ st₁' h₁ => ?_
  exact h₁.setScanner h₁.scanner.unterminate.counterpart

theorem BlindHooks.diary {onMatch : Rule → SessionM (Diary σ) ActionResult}
    {onEnd : SessionM (Diary σ) Bool} (hmatch : ∀ rule, Blind t settings (onMatch rule))
    (hend : Blind t settings onEnd) : BlindHooks t settings (Diary.hooks onMatch onEnd) :=
  ⟨fun rule _ _ hintact hbehind h => (hmatch rule).action rule hintact hbehind h,
    fun _ _ hintact hcovered h => hend.hook hintact hcovered h⟩

theorem handle_parallel (ht : t.Sound) {hooks : Hooks (Diary σ)} (hminded : Minded t settings hooks)
    (hhooks : BlindHooks t settings hooks) (events : Nat) (hintact : Intact t settings st)
    (hcovered : st.1.covered = none) (h : Alongside st st') :
    Parallel Alongside (hooks.handle events st) (hooks.handle events st') := by
  induction events generalizing st st' with
  | zero => exact .ok h
  | succ events ih =>
    have hadvance := Scanner.Twin.inStep Scanner.Beside.advance_inStep _ _ (h.scanner.twin hcovered)
    refine (h.onScanner hadvance fun _ _ => Scanner.Twin.counterpart).bind (fun _ _ => id)
      fun found st₁ st₁' hrun h₁ => ?_
    obtain ⟨hpasses, hmatch⟩ := (advance_passes ht hintact hcovered).ok hrun
    have hcovered₁ := hpasses.covered hcovered
    cases found with
    | some rule =>
      refine (runAction_parallel hhooks hpasses.intact hcovered₁ (hmatch rfl) h₁).bind
        (fun _ _ => id) fun flow st₂ st₂' hrun h₂ => ?_
      obtain ⟨hpasses₂, hcovered₂⟩ :=
        (runAction_ends hminded hpasses.intact hcovered₁ (hmatch rfl)).ok hrun
      cases flow with
      | yield value => exact .ok h₂
      | resume => exact ih hpasses₂.intact hcovered₂ h₂
    | none =>
      refine (hhooks.onEnd st₁ st₁' hpasses.intact hcovered₁ h₁).bind (fun _ _ => id)
        fun ended st₂ st₂' hrun h₂ => ?_
      have hpasses₂ := (hminded.onEnd st₁ hpasses.intact hcovered₁).ok hrun
      cases ended with
      | true => exact .ok h₂
      | false => exact ih hpasses₂.intact (hpasses₂.covered hcovered₁) h₂

theorem Blind.scan (ht : t.Sound) {hooks : Hooks (Diary σ)} (hminded : Minded t settings hooks)
    (hhooks : BlindHooks t settings hooks) (events : Nat) :
    Blind t settings (Diary.noted .scanned (hooks.scan events)) := by
  intro st st' hintact _ h
  have hbare := hintact.leads hintact.coherent.unterminate
  have hscanner := h.scanner.unterminate.counterpart
  exact noted_parallel _ (handle_parallel ht hminded hhooks events hbare.intact
    (Scanner.covered_unterminate st.1) (h.setScanner hscanner))

/-! ## Sessions -/

/-- A session is blind, step by step. -/
theorem Session.run_blind (ht : t.Sound) (session : Session σ α) :
    Blind t settings session.run := by
  induction session with
  | finish result => exact fun _ _ _ _ h => .ok h
  | fail e => exact fun _ _ _ _ h => .error h
  | look next ih =>
    intro st st' hintact hrest h
    have hview := h.scanner.view_eq hintact.coherent
    have hnext := ih st.1.view st.2.memory st st' hintact hrest h
    show Parallel Alongside ((next st.1.view st.2.memory).run st)
      ((next st'.1.view st'.2.memory).run st')
    rw [hview, h.memory_eq]
    exact hnext
  | remember memory next ih =>
    intro st st' hintact hrest h
    exact ih _ _ ⟨hintact.coherent, hintact.notes, hintact.capacity⟩ hrest
      ⟨h.scanner, rfl, h.running_eq, h.notes⟩
  | perform edit next ih => exact .bind (.perform edit) (.perform edit) ih
  | alter change next ih => exact .bind (.altered change) (.altered change) fun _ => ih
  | scan events onMatch onEnd next ihMatch ihEnd ihNext =>
    have hminded : Minded t settings (Diary.hooks (fun rule => (onMatch rule).run) onEnd.run) :=
      .diary (fun rule => (onMatch rule).run_keeps ht) (onEnd.run_keeps ht)
    exact .bind (.scan ht hminded (.diary ihMatch ihEnd) events) (.scan ht hminded events) ihNext

end Blind

/-! ## New scanners -/

namespace ScannerOptions

/-- The options with no terminator to put behind a match. -/
def plain (o : ScannerOptions) : ScannerOptions :=
  { o with terminator := none }

/-- Building fails alike with and without terminators, and else it gives the same scanner. -/
theorem build_plain (o : ScannerOptions) (t : Tables) (source : Source) (output : Sink) :
    o.plain.build t source output = (o.build t source output).map Scanner.plain := by
  have hsc : o.plain.startCondition t = o.startCondition t := rfl
  have hcreate := Scanner.create_plain t source output o.bufferSettings
  unfold build
  rw [hsc]
  cases t.validate with
  | error fault => rfl
  | ok u =>
    cases o.startCondition t with
    | error e => rfl
    | ok sc => exact hcreate sc

end ScannerOptions

/-! ## Sessions on new scanners -/

/-- What a user sees at two notes is the same, and so are the bytes that are held while no action is
running. In the second scanner no byte is ever covered. -/
structure Note.SeenAlike (note note' : Note) : Prop where
  event_eq : note'.event = note.event
  running_eq : note'.running = note.running
  view_eq : note'.scanner.view = note.scanner.view
  pending_eq : note'.scanner.pending = note.scanner.pending
  covered_eq : note'.scanner.covered = none
  resting : note.running = 0 → note.scanner.covered = none ∧
    note'.scanner.buffer.contents = note.scanner.buffer.contents

/-- All that has happened in two sessions is the same for their user. -/
structure SeenAlike {σ : Type} (st st' : Scanner × Diary σ) : Prop where
  memory_eq : st'.2.memory = st.2.memory
  notes : List.Forall₂ Note.SeenAlike st.2.notes st'.2.notes

theorem Note.Counterpart.seenAlike {note note' : Note} {earlier : List Note}
    (h : note.Counterpart note') (hproper : note.Proper t settings earlier) :
    note.SeenAlike note' := by
  refine ⟨h.event_eq, h.running_eq, h.scanner.view_eq hproper.coherent, h.scanner.pending_eq,
    h.scanner.covered_eq, fun hrunning => ?_⟩
  have hcovered := hproper.covered hrunning
  obtain ⟨-, buffer, hbuffer, heq⟩ := h.scanner.twin hcovered
  rw [heq]
  exact ⟨hcovered, hbuffer.same.contents_eq⟩

theorem Alongside.seenAlike {σ : Type} {st st' : Scanner × Diary σ} (h : Alongside st st')
    (hnotes : AllProper t settings st.2.notes) : SeenAlike st st' := by
  refine ⟨h.memory_eq, ?_⟩
  have hall : ∀ note ∈ st.2.notes, ∃ earlier, note.Proper t settings earlier := by
    intro note hmem
    obtain ⟨later, earlier, heq⟩ := List.append_of_mem hmem
    exact ⟨earlier, hnotes note earlier ⟨later, heq.symm⟩⟩
  refine ((List.forall₂_and_left _ _).2 ⟨hall, h.notes⟩).imp fun note note' hboth => ?_
  obtain ⟨⟨earlier, hproper⟩, hcounterpart⟩ := hboth
  exact hcounterpart.seenAlike hproper

/-- The terminator cannot be observed. Over all tables, with any options, source and output, building a
scanner fails alike with and without terminators; and if it succeeds, every session ends with the same
value or error on both scanners, having seen the same at every step: the matches with their texts and
lines, the results and errors of operations, actions, hooks and scans, the capacity and the output.
While no action is running both hold the same bytes. -/
theorem Session.terminator_unobservable (o : ScannerOptions) (t : Tables) (source : Source)
    (output : Sink) :
    (∃ e, o.build t source output = .error e ∧ o.plain.build t source output = .error e) ∨
      ∃ s s', o.build t source output = .ok s ∧ o.plain.build t source output = .ok s' ∧
        ∀ {σ α : Type} (session : Session σ α) (memory : σ), Parallel SeenAlike
          (session.run (s, Diary.start memory s)) (session.run (s', Diary.start memory s')) := by
  rw [o.build_plain]
  cases hbuild : o.build t source output with
  | error e => exact .inl ⟨e, rfl, rfl⟩
  | ok s =>
    refine .inr ⟨s, s.plain, rfl, rfl, fun session memory => ?_⟩
    obtain ⟨ht, -, hcovered⟩ := ScannerOptions.build_coherent hbuild
    have hcounterpart := (Scanner.Twin.of_plain hcovered).counterpart
    have hintact := Intact.start hbuild memory
    have hbegin : Alongside (s, Diary.start memory s) (s.plain, Diary.start memory s.plain) :=
      ⟨hcounterpart, rfl, rfl, .cons ⟨rfl, rfl, hcounterpart⟩ .nil⟩
    have hrun := session.run_blind ht _ _ hintact (fun _ => hcovered) hbegin
    have hkeeps := session.run_keeps ht _ hintact fun _ => hcovered
    refine (hrun.and_ends hkeeps).mono fun st st' h => ?_
    exact h.2.seenAlike h.1.intact.notes

end Munch
