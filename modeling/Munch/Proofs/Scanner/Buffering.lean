-- SUMMARY: Scans of the same bytes cannot be told apart, however their buffers cut, keep and drop the bytes.
import Munch.Proofs.Match.MaximalMunch
import Munch.Proofs.Scanner.Scan

/-! # Buffering

Two scanners over the same bytes that rest on one tape stay on one tape: advancing leads to the same
match, and every operation of a script has the same result. So a scan leaves the same journal,
whatever the size of the blocks, the capacity and the chunks of the source. -/

namespace Munch

/-! ## Tapes in a journal -/

/-- The text that the next match would keep has some bytes. -/
def Tape.keepsSome (tape : Tape) : Bool :=
  tape.keepText && tape.textStart < tape.behind.length

/-- Operations do not change what the text begins with. -/
theorem Tape.prefixed_perform (tape : Tape) (t : Tables) (edit : Edit) (keeps : edit.KeepsSource) :
    (tape.perform t edit keeps).2.prefixed = tape.prefixed := by
  have hbegin : ∀ sc, (tape.tryBegin t sc).2.prefixed = tape.prefixed := by
    intro sc
    unfold Tape.tryBegin
    split <;> rfl
  cases edit with
  | input =>
    simp only [Tape.perform, Tape.input]
    split <;> rfl
  | unput byte => rfl
  | unputAll bytes =>
    simp only [Tape.perform]
    apply List.foldlRecOn (motive := fun tape' : Tape => tape'.prefixed = tape.prefixed)
    · rfl
    · intro tape' h byte _
      exact h
  | less n =>
    simp only [Tape.perform]
    split <;> rfl
  | more => rfl
  | echo => rfl
  | begin sc => exact hbegin sc
  | beginNamed name =>
    simp only [Tape.perform]
    split
    · exact hbegin _
    · rfl
  | write bytes => rfl
  | restart source => exact keeps.elim

namespace Scanner.InAction

variable {σ : Type} {t : Tables} {tape : Tape} {dropped : Nat} {s : Scanner}

theorem leave_eq (h : s.InAction t tape dropped) (journal : Journal σ) (memory : σ) :
    journal.leave memory s = { journal with
      memory
      keptAt := if tape.keepsSome then some tape.output.length else none } := by
  have hcursor : s.buffer.cursor + dropped = tape.behind.length := by
    have hcursor : s.unterminate.buffer.cursor = s.buffer.cursor :=
      congrArg Array.size h.unterminate_passed
    rw [← hcursor]
    exact h.atMatch.cursor_add
  have hstart : s.window.start + dropped = tape.textStart :=
    unterminate_window s ▸ h.atMatch.start_eq
  have hkeep : s.keepText = tape.keepText := unterminate_keepText s ▸ h.atMatch.keepText_eq
  have hsome : (s.keepText && decide (s.window.start < s.buffer.cursor)) = tape.keepsSome := by
    unfold Tape.keepsSome
    rw [hkeep, ← hcursor, ← hstart]
    simp only [Nat.add_lt_add_iff_right]
  unfold Journal.leave
  rw [hsome, h.written_eq, List.size_toArray]

theorem enter_eq (h : s.InAction t tape dropped) (journal : Journal σ) (rule : Rule) :
    journal.enter rule s = { journal with
      log := .reported rule tape.sight :: journal.log
      prefixed := journal.keptAt == some tape.output.length } := by
  unfold Journal.enter
  rw [h.sight_eq, h.written_eq, List.size_toArray]

end Scanner.InAction

/-! ## Single operations -/

section Operations

variable {σ : Type} {t : Tables} {tape : Tape} {dropped : Nat} {s : Scanner}

/-- What an operation of a script answers, and where it leaves scanner and journal. -/
theorem Script.step_wp (h : s.InAction t tape dropped) (edit : Edit) (keeps : edit.KeepsSource)
    (hless : edit = .less 0 → tape.prefixed = false) (journal : Journal σ) :
    wp (step edit) (fun answer st =>
        answer = ((tape.perform t edit keeps).1, (tape.perform t edit keeps).2.sight) ∧
        st.1.InAction t (tape.perform t edit keeps).2 dropped ∧
        st.2 = journal.note edit (tape.perform t edit keeps).1) (s, journal) := by
  have hmirrors := Scanner.perform_mirrors h edit keeps hless
  cases hperform : edit.perform s with
  | ok byte s' =>
    rw [hperform] at hmirrors
    obtain ⟨hresult, hin⟩ := hmirrors
    apply wp.of_ok (step_of_ok hperform)
    rw [hresult]
    exact ⟨Prod.ext rfl hin.sight_eq, hin, rfl⟩
  | error e s' =>
    rw [hperform] at hmirrors
    by_cases he : ∃ n, e = .allocation n
    · obtain ⟨n, rfl⟩ := he
      unfold wp
      rw [step_of_allocation hperform]
      exact ⟨n, rfl⟩
    · obtain ⟨hresult, hin⟩ := hmirrors.resolve_left he
      apply wp.of_ok (step_of_error hperform fun n hn => he ⟨n, hn⟩)
      rw [hresult]
      exact ⟨Prod.ext rfl hin.sight_eq, hin, rfl⟩

end Operations

/-! ## Pairs of runs -/

section Pairs

variable {σ α : Type}

/-- Two runs that end the same way with the same journal, and with related scanners. -/
inductive SameOutcome (R : Journal σ → Scanner → Scanner → Prop) :
    EStateM.Result ScanError (Scanner × Journal σ) α →
      EStateM.Result ScanError (Scanner × Journal σ) α → Prop where
  | ok {a : α} {s₁ s₂ : Scanner} {journal : Journal σ} :
      R journal s₁ s₂ → SameOutcome R (.ok a (s₁, journal)) (.ok a (s₂, journal))
  | error {e : ScanError} {s₁ s₂ : Scanner} {journal : Journal σ} :
      R journal s₁ s₂ → SameOutcome R (.error e (s₁, journal)) (.error e (s₂, journal))

/-- The journal knows whether there are bytes to keep. -/
def Journal.Watches (journal : Journal σ) (tape : Tape) : Prop :=
  tape.keepsSome = true → journal.keptAt = some tape.output.length

/-- Both scanners rest on one tape. -/
def BothRest (t : Tables) (journal : Journal σ) (s₁ s₂ : Scanner) : Prop :=
  ∃ tape, s₁.Rests t tape ∧ s₂.Rests t tape ∧ journal.Watches tape

/-- Both scanners are at the end of an action on one tape. -/
def BothLeave (t : Tables) (journal : Journal σ) (s₁ s₂ : Scanner) : Prop :=
  ∃ tape dropped₁ dropped₂, s₁.InAction t tape dropped₁ ∧ s₂.InAction t tape dropped₂ ∧
    journal.Watches tape

variable {t : Tables} {tape : Tape} {s₁ s₂ : Scanner} {dropped₁ dropped₂ : Nat}
  {journal : Journal σ}

/-! ## Actions -/

theorem BothLeave.of_inAction (h₁ : s₁.InAction t tape dropped₁) (h₂ : s₂.InAction t tape dropped₂)
    (memory : σ) : ∃ journal', journal.leave memory s₁ = journal' ∧
      journal.leave memory s₂ = journal' ∧ BothLeave t journal' s₁ s₂ := by
  refine ⟨_, h₁.leave_eq journal memory, h₂.leave_eq journal memory, tape, dropped₁, dropped₂, h₁,
    h₂, ?_⟩
  intro hkeeps
  exact if_pos hkeeps

/-- A script that never cuts a kept prefix away cannot tell two scanners on one tape apart. -/
theorem Script.run_alike (script : Script σ) (h₁ : s₁.InAction t tape dropped₁)
    (h₂ : s₂.InAction t tape dropped₂) (hprefixed : tape.prefixed = true → journal.prefixed = true)
    (hgrows₁ : WithinMemory (script.run (s₁, journal)))
    (hgrows₂ : WithinMemory (script.run (s₂, journal)))
    (hcuts : ¬ (final script.run (s₁, journal)).2.CutsPrefix) :
    SameOutcome (BothLeave t) (script.run (s₁, journal)) (script.run (s₂, journal)) := by
  induction script generalizing tape s₁ s₂ journal with
  | finish result memory =>
    obtain ⟨journal', hleave₁, hleave₂, hboth⟩ := BothLeave.of_inAction h₁ h₂ memory
    unfold run
    dsimp only
    rw [hleave₁, hleave₂]
    exact .ok hboth
  | fail e memory =>
    obtain ⟨journal', hleave₁, hleave₂, hboth⟩ := BothLeave.of_inAction h₁ h₂ memory
    unfold run
    dsimp only
    rw [hleave₁, hleave₂]
    exact .error hboth
  | perform edit keeps next ih =>
    have hless : edit = .less 0 → tape.prefixed = false := by
      intro hedit
      apply Bool.eq_false_iff.2
      intro hkept
      -- the journal would have an entry of the cut, and entries stay
      obtain ⟨answer, st, hstep, hnote⟩ := (step_notes edit s₁ journal).elim hgrows₁.of_bind
      apply hcuts
      refine ⟨.performed edit journal.prefixed answer.1, ?_, ?_⟩
      rotate_left
      · rw [hedit]
        exact hprefixed hkept
      have hfinal : final (perform edit keeps next).run (s₁, journal) =
          final (next answer.1 answer.2).run st := by
        unfold final
        rw [run, bind_of_ok hstep]
      rw [hfinal]
      apply run_grows
      rw [hnote]
      exact List.mem_cons_self
    obtain ⟨answer₁, ⟨s₁', journal₁⟩, hstep₁, hanswer₁, hin₁, hjournal₁⟩ :=
      (step_wp h₁ edit keeps hless journal).elim hgrows₁.of_bind
    obtain ⟨answer₂, ⟨s₂', journal₂⟩, hstep₂, hanswer₂, hin₂, hjournal₂⟩ :=
      (step_wp h₂ edit keeps hless journal).elim hgrows₂.of_bind
    obtain rfl : answer₁ = answer₂ := hanswer₁.trans hanswer₂.symm
    obtain rfl : journal₁ = journal₂ := hjournal₁.trans hjournal₂.symm
    have hrun₁ : (perform edit keeps next).run (s₁, journal) =
      (next answer₁.1 answer₁.2).run (s₁', journal₁) := bind_of_ok hstep₁
    have hrun₂ : (perform edit keeps next).run (s₂, journal) =
      (next answer₁.1 answer₁.2).run (s₂', journal₁) := bind_of_ok hstep₂
    unfold final at hcuts
    rw [hrun₁] at hgrows₁ hcuts
    rw [hrun₂] at hgrows₂
    rw [hrun₁, hrun₂]
    apply ih _ _ hin₁ hin₂ _ hgrows₁ hgrows₂ hcuts
    rw [Tape.prefixed_perform]
    intro hkept
    rw [show journal₁ = _ from hjournal₁]
    exact hprefixed hkept

/-- With the terminators taken away both scanners rest. -/
theorem SameOutcome.unterminate {r₁ r₂ : EStateM.Result ScanError (Scanner × Journal σ) α}
    (h : SameOutcome (BothLeave t) r₁ r₂) :
    SameOutcome (BothRest t) (onFinal (Prod.map Scanner.unterminate id) r₁)
      (onFinal (Prod.map Scanner.unterminate id) r₂) := by
  cases h with
  | ok hboth =>
    obtain ⟨tape, dropped₁, dropped₂, h₁, h₂, hwatch⟩ := hboth
    exact .ok ⟨tape, h₁.rests, h₂.rests, hwatch⟩
  | error hboth =>
    obtain ⟨tape, dropped₁, dropped₂, h₁, h₂, hwatch⟩ := hboth
    exact .error ⟨tape, h₁.rests, h₂.rests, hwatch⟩

variable {script : Rule → Sight → σ → Script σ}

/-- What an action runs on a scanner that stands on the tape. -/
theorem Script.onMatch_eq {s : Scanner} {dropped : Nat} (h : s.InAction t tape dropped)
    (rule : Rule) (journal : Journal σ) : (hooks script).onMatch rule (s, journal) =
      (script rule tape.sight journal.memory).run (s, { journal with
        log := .reported rule tape.sight :: journal.log
        prefixed := journal.keptAt == some tape.output.length }) := by
  unfold hooks
  dsimp only
  rw [h.sight_eq, h.enter_eq]

theorem Script.runAction_alike {rule : Rule} (h₁ : s₁.terminate.InAction t tape dropped₁)
    (h₂ : s₂.terminate.InAction t tape dropped₂)
    (hwatch : tape.prefixed = true → journal.keptAt = some tape.output.length)
    (hgrows₁ : WithinMemory ((hooks script).runAction rule (s₁, journal)))
    (hgrows₂ : WithinMemory ((hooks script).runAction rule (s₂, journal)))
    (hcuts : ¬ (final ((hooks script).runAction rule) (s₁, journal)).2.CutsPrefix) :
    SameOutcome (BothRest t) ((hooks script).runAction rule (s₁, journal))
      ((hooks script).runAction rule (s₂, journal)) := by
  rw [final_eq_of_onFinal (Hooks.runAction_eq rule s₁ journal)] at hcuts
  unfold final at hcuts
  rw [Hooks.runAction_eq, onMatch_eq h₁] at hgrows₁ ⊢
  rw [Hooks.runAction_eq, onMatch_eq h₂] at hgrows₂ ⊢
  rw [onMatch_eq h₁] at hcuts
  apply SameOutcome.unterminate
  apply run_alike _ h₁ h₂ _ hgrows₁.of_onFinal hgrows₂.of_onFinal hcuts
  intro hprefixed
  exact beq_iff_eq.2 (hwatch hprefixed)

/-! ## Rounds -/

/-- After advancing there is something to keep only if there was before, and nothing was written. -/
theorem Journal.Watches.keptAt_eq {tape' : Tape} {rule : Rule} (hwatch : journal.Watches tape)
    (h : tape.Advances t (some rule) tape') (hprefixed : tape'.prefixed = true) :
    journal.keptAt = some tape'.output.length := by
  obtain ⟨hkeep, hlt, houtput⟩ := h.of_prefixed hprefixed
  rw [houtput]
  apply hwatch
  unfold Tape.keepsSome
  rw [hkeep, decide_eq_true hlt]
  rfl

theorem Journal.CutsPrefix.of_grows {st st' : Scanner × Journal σ} (h : st.2.CutsPrefix)
    (hgrows : Script.Grows st st') : st'.2.CutsPrefix := by
  obtain ⟨entry, hmem, hcut⟩ := h
  exact ⟨entry, hgrows entry hmem, hcut⟩

/-- The journal of a round is part of the journal of the rounds from it on. -/
theorem Script.handle_grows_of_match {s s' : Scanner} {rule : Rule}
    (h : s.advance = .ok (some rule) s') (events : Nat) (journal : Journal σ) :
    Grows (final ((hooks script).runAction rule) (s', journal))
      (final ((hooks script).handle (events + 1)) (s, journal)) := by
  intro entry hmem
  unfold final at hmem ⊢
  rw [Hooks.handle_of_match h]
  revert hmem
  cases (hooks script).runAction rule (s', journal) with
  | error e st => exact id
  | ok flow st =>
    cases flow with
    | yield value => exact id
    | resume => exact handle_grows script events st entry

theorem Script.handle_alike (ht : t.Sound) (events : Nat) (hrest : BothRest t journal s₁ s₂)
    (hgrows₁ : WithinMemory ((hooks script).handle events (s₁, journal)))
    (hgrows₂ : WithinMemory ((hooks script).handle events (s₂, journal)))
    (hcuts : ¬ (final ((hooks script).handle events) (s₁, journal)).2.CutsPrefix) :
    SameOutcome (BothRest t) ((hooks script).handle events (s₁, journal))
      ((hooks script).handle events (s₂, journal)) := by
  induction events generalizing s₁ s₂ journal with
  | zero => exact .ok hrest
  | succ events ih =>
    obtain ⟨tape, ⟨⟨dropped₁, hbetween₁⟩, -⟩, ⟨⟨dropped₂, hbetween₂⟩, -⟩, hwatch⟩ := hrest
    obtain ⟨found, s₁', hrun₁, tape', htape₁, hstands₁⟩ :=
      (Scanner.advance_wp ht hbetween₁).elim (Hooks.withinMemory_advance hgrows₁)
    obtain ⟨found₂, s₂', hrun₂, tape₂, htape₂, hstands₂⟩ :=
      (Scanner.advance_wp ht hbetween₂).elim (Hooks.withinMemory_advance hgrows₂)
    obtain ⟨rfl, rfl⟩ := htape₁.unique htape₂
    cases found with
    | none =>
      rw [Hooks.handle_of_end hrun₁ rfl, Hooks.handle_of_end hrun₂ rfl]
      apply SameOutcome.ok
      refine ⟨tape', ⟨hstands₁.1, hstands₁.2⟩, ⟨hstands₂.1, hstands₂.2⟩, fun hkeeps => ?_⟩
      unfold Tape.keepsSome at hkeeps
      rw [htape₁.keepText_eq] at hkeeps
      cases hkeeps
    | some rule =>
      obtain ⟨⟨dropped₁', hmatch₁⟩, hstop₁⟩ := hstands₁
      obtain ⟨⟨dropped₂', hmatch₂⟩, hstop₂⟩ := hstands₂
      have haction : SameOutcome (BothRest t) ((hooks script).runAction rule (s₁', journal))
          ((hooks script).runAction rule (s₂', journal)) := by
        apply runAction_alike (hmatch₁.terminate hstop₁) (hmatch₂.terminate hstop₂)
          (hwatch.keptAt_eq htape₁) (Hooks.withinMemory_runAction hrun₁ hgrows₁)
          (Hooks.withinMemory_runAction hrun₂ hgrows₂)
        intro hcut
        exact hcuts (hcut.of_grows (handle_grows_of_match hrun₁ events journal))
      unfold final at hcuts
      rw [Hooks.handle_of_match hrun₁] at hgrows₁ hcuts ⊢
      rw [Hooks.handle_of_match hrun₂] at hgrows₂ ⊢
      generalize (hooks script).runAction rule (s₁', journal) = r₁ at haction hgrows₁ hcuts ⊢
      generalize (hooks script).runAction rule (s₂', journal) = r₂ at haction hgrows₂ ⊢
      cases haction with
      | error hboth => exact .error hboth
      | @ok flow _ _ _ hboth =>
        cases flow with
        | yield value => exact .ok hboth
        | resume => exact ih hboth hgrows₁ hgrows₂ hcuts

end Pairs

/-! ## Scans -/

/-- What is left of a scan besides its journal. -/
structure Scanner.LeftAlike (s₁ s₂ : Scanner) : Prop where
  output_eq : s₁.output.written = s₂.output.written
  line_eq : s₁.line = s₂.line
  startCondition_eq : s₁.startCondition = s₂.startCondition
  pending_eq : s₁.buffer.pending = s₂.buffer.pending

section Scans

variable {σ : Type} {t : Tables}

theorem BothRest.leftAlike {s₁ s₂ : Scanner} {journal : Journal σ}
    (h : BothRest t journal s₁ s₂) : s₁.LeftAlike s₂ := by
  obtain ⟨tape, hrest₁, hrest₂, -⟩ := h
  obtain ⟨dropped₁, hbetween₁⟩ := hrest₁.between
  obtain ⟨dropped₂, hbetween₂⟩ := hrest₂.between
  constructor
  · apply Array.toList_inj.1
    exact hrest₁.output_eq.trans hrest₂.output_eq.symm
  · exact hbetween₁.line_eq.trans hbetween₂.line_eq.symm
  · exact hbetween₁.startCondition_eq.trans hbetween₂.startCondition_eq.symm
  · exact hbetween₁.pending_eq.trans hbetween₂.pending_eq.symm

theorem SameOutcome.mono {α : Type} {R R' : Journal σ → Scanner → Scanner → Prop}
    {r₁ r₂ : EStateM.Result ScanError (Scanner × Journal σ) α} (h : SameOutcome R r₁ r₂)
    (hR : ∀ journal s₁ s₂, R journal s₁ s₂ → R' journal s₁ s₂) : SameOutcome R' r₁ r₂ := by
  cases h with
  | ok hr => exact .ok (hR _ _ _ hr)
  | error hr => exact .error (hR _ _ _ hr)

/-- Two scanners over the same bytes run a script alike, whatever their buffers do. They report the
same matches, answer the same to every operation, show the same output to every action and end alike,
if only memory suffices and no text that begins with kept bytes is cut to nothing. -/
theorem Script.scan_alike {o₁ o₂ : ScannerOptions} {source₁ source₂ : Source} {output : Sink}
    {s₁ s₂ : Scanner} (hbuild₁ : o₁.build t source₁ output = .ok s₁)
    (hbuild₂ : o₂.build t source₂ output = .ok s₂) (hstart : o₁.startAt = o₂.startAt)
    (hsteady₁ : source₁.steady = true) (hsteady₂ : source₂.steady = true)
    (hbytes : source₁.bytes = source₂.bytes) (hlimit : output.limit = none)
    (script : Rule → Sight → σ → Script σ) (memory : σ) (events : Nat)
    (hgrows₁ : WithinMemory ((hooks script).scan events (s₁, { memory })))
    (hgrows₂ : WithinMemory ((hooks script).scan events (s₂, { memory })))
    (hcuts : ¬ (final ((hooks script).scan events) (s₁, { memory })).2.CutsPrefix) :
    SameOutcome (fun _ => Scanner.LeftAlike) ((hooks script).scan events (s₁, { memory }))
      ((hooks script).scan events (s₂, { memory })) := by
  obtain ⟨ht, -, sc₁, hsc₁, hrest₁⟩ := ScannerOptions.build_rests hbuild₁ hsteady₁ hlimit
  obtain ⟨-, -, sc₂, hsc₂, hrest₂⟩ := ScannerOptions.build_rests hbuild₂ hsteady₂ hlimit
  obtain rfl : sc₁ = sc₂ := by
    apply Except.ok.inj
    rw [← hsc₁, ← hsc₂]
    unfold ScannerOptions.startCondition
    rw [hstart]
  rw [← hbytes] at hrest₂
  have hboth : BothRest t ({ memory } : Journal σ) s₁ s₂ :=
    ⟨_, hrest₁, hrest₂, fun hkeeps => nomatch hkeeps⟩
  unfold final at hcuts
  rw [Hooks.scan_eq_handle hrest₁.unterminate_eq] at hgrows₁ hcuts ⊢
  rw [Hooks.scan_eq_handle hrest₂.unterminate_eq] at hgrows₂ ⊢
  apply (handle_alike ht events hboth hgrows₁ hgrows₂ hcuts).mono
  intro journal s₁ s₂ h
  exact h.leftAlike

end Scans

/-- A script that looks at the byte behind each match. If there is one, the text is kept, and it is
written otherwise. -/
def lookAhead : Rule → Sight → Unit → Script Unit := fun _ _ memory =>
  .perform .input trivial fun answer _ =>
    match answer with
    | .ok (some byte) =>
      .perform (.unput byte) trivial fun _ _ =>
        .perform .more trivial fun _ _ => .finish .resume memory
    | _ => .perform .echo trivial fun _ _ => .finish .resume memory

/-- A scanner for single bytes that reads its source in small blocks. -/
def inBlocks (blockSize : Nat) (source : Source) : Except ScanError Scanner :=
  ({ blockSize, initialCapacity := some 1 } : ScannerOptions).build Tables.oneByte source {}

theorem Script.scan_alike_lookAhead : ∃ s₁ s₂, inBlocks 1 (.ofBytes [97, 10, 98]) = .ok s₁ ∧
    inBlocks 2 ⟨[.data [97], .interruption, .data [10, 98]]⟩ = .ok s₂ ∧
    SameOutcome (fun _ => Scanner.LeftAlike) ((hooks lookAhead).scan 4 (s₁, { memory := () }))
      ((hooks lookAhead).scan 4 (s₂, { memory := () })) := by
  have hrun₁ : (match inBlocks 1 (.ofBytes [97, 10, 98]) with
      | .ok s => match (hooks lookAhead).scan 4 (s, { memory := () }) with
        | .ok _ st => !decide st.2.CutsPrefix
        | .error _ _ => false
      | .error _ => false) = true := by decide +kernel
  have hrun₂ : (match inBlocks 2 ⟨[.data [97], .interruption, .data [10, 98]]⟩ with
      | .ok s => match (hooks lookAhead).scan 4 (s, { memory := () }) with
        | .ok _ _ => true
        | .error _ _ => false
      | .error _ => false) = true := by decide +kernel
  split at hrun₁
  · rename_i s₁ hbuild₁
    split at hrun₂
    · rename_i s₂ hbuild₂
      refine ⟨s₁, s₂, hbuild₁, hbuild₂, ?_⟩
      apply scan_alike hbuild₁ hbuild₂ rfl rfl rfl rfl rfl
      · intro n st hfull
        rw [hfull] at hrun₁
        exact Bool.noConfusion hrun₁
      · intro n st hfull
        rw [hfull] at hrun₂
        exact Bool.noConfusion hrun₂
      · intro hcuts
        unfold final at hcuts
        split at hrun₁
        · rename_i heq
          rw [heq] at hcuts
          rw [decide_eq_true hcuts] at hrun₁
          exact Bool.noConfusion hrun₁
        · exact Bool.noConfusion hrun₁
    · exact Bool.noConfusion hrun₂
  · exact Bool.noConfusion hrun₁

end Munch
