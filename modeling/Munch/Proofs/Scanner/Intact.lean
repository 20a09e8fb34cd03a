-- SUMMARY: Sessions keep their scanner coherent at every step, and sound tables are blamed only by the user.
import Munch.Proofs.Scanner.Session
import Munch.Proofs.Scanner.Upkeep

/-! # Intact sessions

What one operation and one advance keep is kept by a whole session, however its operations, actions,
hooks and nested scans follow each other and wherever one of them fails. -/

namespace Munch

namespace ends

variable {σ α : Type} {E : ScanError → Scanner × σ → Prop}

theorem onScanner {m : ScannerM α} {Q : α → Scanner × σ → Prop} {s : Scanner} {x : σ}
    (h : ends m (fun a s' => Q a (s', x)) (fun e s' => E e (s', x)) s) :
    ends (Munch.onScanner m) Q E (s, x) := by
  unfold ends Munch.onScanner at *
  cases hm : m s <;> simpa [hm] using h

/-- A noted computation does not fail; its outcome is the result. -/
theorem noted {m : SessionM (Diary σ) α} {event : Except ScanError α → Event}
    {Q : Except ScanError α → Scanner × Diary σ → Prop}
    {E : ScanError → Scanner × Diary σ → Prop} {st : Scanner × Diary σ}
    (h : ends m (fun a st' => Q (.ok a) (Diary.enter (event (.ok a)) st'))
      (fun e st' => Q (.error e) (Diary.enter (event (.error e)) st')) st) :
    ends (Diary.noted event m) Q E st := by
  have hcaught : ends (Diary.caught m)
      (fun result st' => Q result (Diary.enter (event result) st')) E st := by
    unfold ends Diary.caught at *
    cases hm : m st <;> simpa [hm] using h
  exact bind (hcaught.mono (fun _ _ h => bind (modify (pure h))) fun _ _ => id)

end ends

/-- The event hands an error to the scan around it. -/
def Event.Hands (e : ScanError) : Event → Prop
  | .left result => result = .error e
  | .answered result => result = .error e
  | _ => False

/-- What a note says is in order, given the notes before it: the scanner is coherent, a terminator
stands only while an action is running, no capacity was taken away, an action begins behind its match,
and a scan that ends with an error of the tables was handed it just before. -/
structure Note.Proper (t : Tables) (settings : BufferSettings) (earlier : List Note)
    (note : Note) : Prop where
  coherent : note.scanner.Coherent t settings
  covered : note.running = 0 → note.scanner.covered = none
  capacity : ∀ before ∈ earlier, before.scanner.buffer.capacity ≤ note.scanner.buffer.capacity
  entered : ∀ rule, note.event = .entered rule → note.scanner.BehindMatch
  scanned : ∀ fault, note.event = .scanned (.error (.malformed fault)) →
    ∃ cause ∈ earlier.head?, cause.event.Hands (.malformed fault)

/-- All notes are in order. -/
def AllProper (t : Tables) (settings : BufferSettings) (notes : List Note) : Prop :=
  ∀ note earlier, note :: earlier <:+ notes → note.Proper t settings earlier

theorem AllProper.cons {t : Tables} {settings : BufferSettings} {note : Note} {notes : List Note}
    (h : AllProper t settings notes) (hnote : note.Proper t settings notes) :
    AllProper t settings (note :: notes) := by
  intro note' earlier hsuffix
  rcases List.suffix_cons_iff.1 hsuffix with heq | hsuffix
  · obtain ⟨rfl, rfl⟩ := List.cons.inj heq
    exact hnote
  · exact h note' earlier hsuffix

/-- A session is intact: its scanner is coherent, and so was every earlier one. -/
structure Intact {σ : Type} (t : Tables) (settings : BufferSettings)
    (st : Scanner × Diary σ) : Prop where
  coherent : st.1.Coherent t settings
  notes : AllProper t settings st.2.notes
  capacity : ∀ note ∈ st.2.notes, note.scanner.buffer.capacity ≤ st.1.buffer.capacity

/-- The session is intact later, with the same actions running, and no terminator has appeared. -/
structure Passes {σ : Type} (t : Tables) (settings : BufferSettings)
    (st st' : Scanner × Diary σ) : Prop where
  intact : Intact t settings st'
  running_eq : st'.2.running = st.2.running
  covered : st.1.covered = none → st'.1.covered = none

/-- A terminator stands only while an action is running. -/
def Resting {σ : Type} (st : Scanner × Diary σ) : Prop :=
  st.2.running = 0 → st.1.covered = none

section Intact

variable {σ α : Type} {t : Tables} {settings : BufferSettings} {s s' : Scanner} {d : Diary σ}
  {st st' st'' : Scanner × Diary σ}

theorem Intact.refl (h : Intact t settings st) : Passes t settings st st :=
  ⟨h, rfl, id⟩

theorem Passes.trans (h : Passes t settings st st') (h' : Passes t settings st' st'') :
    Passes t settings st st'' :=
  ⟨h'.intact, h'.running_eq.trans h.running_eq, h'.covered ∘ h.covered⟩

/-- The scanner goes on coherently. -/
theorem Intact.leads (h : Intact t settings (s, d)) (hs : s.Leads t settings s') :
    Passes t settings (s, d) (s', d) :=
  ⟨⟨hs.coherent, h.notes, fun note hmem => Nat.le_trans (h.capacity note hmem) hs.capacity_le⟩, rfl,
    hs.covered⟩

theorem Passes.resting (h : Passes t settings st st') (hrest : Resting st) : Resting st' :=
  fun hrunning => h.covered (hrest (h.running_eq ▸ hrunning))

/-- A proper event is entered. -/
theorem Intact.enter (h : Intact t settings st) (event : Event) (hrest : Resting st)
    (hentered : ∀ rule, event = .entered rule → st.1.BehindMatch)
    (hscanned : ∀ fault, event = .scanned (.error (.malformed fault)) →
      ∃ cause ∈ st.2.notes.head?, cause.event.Hands (.malformed fault)) :
    Passes t settings st (Diary.enter event st) := by
  refine ⟨⟨h.coherent, h.notes.cons ⟨h.coherent, hrest, h.capacity, hentered, hscanned⟩, ?_⟩,
    rfl, id⟩
  intro note hmem
  rcases List.mem_cons.1 hmem with rfl | hmem
  · exact Nat.le_refl _
  · exact h.capacity note hmem

/-- A computation keeps a session intact, if it begins while no terminator is left behind. -/
def Keeps (t : Tables) (settings : BufferSettings) (m : SessionM (Diary σ) α) : Prop :=
  ∀ st, Intact t settings st → Resting st →
    ends m (fun _ => Passes t settings st) (fun _ => Passes t settings st) st

theorem Keeps.bind {β : Type} {m : SessionM (Diary σ) α} {f : α → SessionM (Diary σ) β}
    (hm : Keeps t settings m) (hf : ∀ a, Keeps t settings (f a)) : Keeps t settings (m >>= f) :=
  fun st h hrest => .bind ((hm st h hrest).mono
    (fun a st' h' => (hf a st' h'.intact (h'.resting hrest)).mono (fun _ _ => h'.trans)
      fun _ _ => h'.trans) fun _ _ => id)

/-! ## Operations -/

theorem Keeps.perform (edit : Edit) :
    Keeps t settings (Diary.noted (σ := σ) (.performed edit) (onScanner edit.perform)) := by
  intro st h hrest
  have hnote (result : Except ScanError (Option UInt8)) {s' : Scanner}
      (hs' : st.1.Leads t settings s') :
      Passes t settings st (Diary.enter (.performed edit result) (s', st.2)) := by
    have hled := h.leads hs'
    exact hled.trans (hled.intact.enter _ (hled.resting hrest) (fun _ h => nomatch h)
      fun _ h => nomatch h)
  exact .noted (.onScanner ((edit.perform_upholds h.coherent).mono
    (fun a _ h' => hnote (.ok a) h') fun e _ h' => hnote (.error e) h'))

theorem Keeps.altered (change : Sink → Sink) :
    Keeps t settings (Diary.altered (σ := σ) change) := by
  intro st h hrest
  have hled := h.leads (h.coherent.setOutput (change st.1.output))
  have hnoted := hled.intact.enter .altered (hled.resting hrest) (fun _ h => nomatch h)
    fun _ h => nomatch h
  exact .bind (.onScanner (.modify (.modify (hled.trans hnoted))))

/-! ## Actions and hooks -/

/-- The latest note hands an error to the scan. -/
def HandedOver (e : ScanError) (st : Scanner × Diary σ) : Prop :=
  ∃ cause ∈ st.2.notes.head?, cause.event.Hands e

/-- What runs at the events of a scan keeps the session intact, and hands over its errors. -/
def Minds (t : Tables) (settings : BufferSettings) (m : SessionM (Diary σ) α)
    (st : Scanner × Diary σ) : Prop :=
  ends m (fun _ => Passes t settings st)
    (fun e st' => Passes t settings st st' ∧ HandedOver e st') st

/-- Ending as noted just before. -/
theorem again_ends {result : Except ScanError α} (h : Passes t settings st st')
    (hnoted : ∀ e, result = .error e → HandedOver e st') :
    ends (Diary.again result) (fun _ => Passes t settings st)
      (fun e st' => Passes t settings st st' ∧ HandedOver e st') st' := by
  cases result with
  | ok a => exact .pure h
  | error e => exact .throw ⟨h, hnoted e rfl⟩

/-- The session as the action of a rule begins. -/
def Diary.begun (rule : Rule) (st : Scanner × Diary σ) : Scanner × Diary σ :=
  Diary.enter (.entered rule) (st.1, { st.2 with running := st.2.running + 1 })

theorem Intact.begun (h : Intact t settings st) (hmatch : st.1.BehindMatch) (rule : Rule) :
    Intact t settings (Diary.begun rule st) := by
  have hcounted : Intact t settings (st.1, { st.2 with running := st.2.running + 1 }) :=
    ⟨h.coherent, h.notes, h.capacity⟩
  exact (hcounted.enter (.entered rule) (fun h => nomatch h) (fun _ _ => hmatch)
    fun _ h => nomatch h).intact

theorem Keeps.action {m : SessionM (Diary σ) ActionResult} (hm : Keeps t settings m) (rule : Rule)
    (h : Intact t settings st) (hmatch : st.1.BehindMatch) :
    Minds t settings (Diary.action rule m) st := by
  refine .bind (.modify (.bind (.modify (.bind (.noted ?_)))))
  have hleft (result : Except ScanError ActionResult) {st' : Scanner × Diary σ}
      (h' : Passes t settings (Diary.begun rule st) st') :
      ends (do Diary.count (· - 1); Diary.again result) (fun _ => Passes t settings st)
        (fun e st' => Passes t settings st st' ∧ HandedOver e st')
        (Diary.enter (.left result) st') := by
    have hrunning : st'.2.running = st.2.running + 1 := h'.running_eq
    have hnoted := h'.intact.enter (.left result) (fun h => by omega) (fun _ h => nomatch h)
      fun _ h => nomatch h
    refine .bind (.modify (again_ends ⟨?_, ?_, h'.covered⟩ fun e he => ⟨_, rfl, he⟩))
    · exact ⟨hnoted.intact.coherent, hnoted.intact.notes, hnoted.intact.capacity⟩
    · show st'.2.running - 1 = st.2.running
      rw [hrunning, Nat.add_sub_cancel]
  exact (hm _ (h.begun hmatch rule) fun h => nomatch h).mono (fun a _ h' => hleft (.ok a) h')
    fun e _ h' => hleft (.error e) h'

theorem Keeps.hook {m : SessionM (Diary σ) Bool} (hm : Keeps t settings m)
    (h : Intact t settings st) (hcovered : st.1.covered = none) :
    Minds t settings (Diary.hook m) st := by
  have hasked := h.enter .asked (fun _ => hcovered) (fun _ h => nomatch h) fun _ h => nomatch h
  refine .bind (.modify (.bind (.noted ?_)))
  have hanswered (result : Except ScanError Bool) {st' : Scanner × Diary σ}
      (h' : Passes t settings (Diary.enter .asked st) st') :
      ends (Diary.again result) (fun _ => Passes t settings st)
        (fun e st' => Passes t settings st st' ∧ HandedOver e st')
        (Diary.enter (.answered result) st') := by
    have hnoted := h'.intact.enter (.answered result) (fun _ => h'.covered hcovered)
      (fun _ h => nomatch h) fun _ h => nomatch h
    exact again_ends ((hasked.trans h').trans hnoted) fun e he => ⟨_, rfl, he⟩
  exact (hm _ hasked.intact fun _ => hcovered).mono (fun a _ h' => hanswered (.ok a) h')
    fun e _ h' => hanswered (.error e) h'

/-! ## Scans -/

/-- What runs at the events of a scan keeps a session intact. -/
structure Minded (t : Tables) (settings : BufferSettings) (hooks : Hooks (Diary σ)) : Prop where
  onMatch : ∀ rule st, Intact t settings st → st.1.BehindMatch →
    Minds t settings (hooks.onMatch rule) st
  onEnd : ∀ st, Intact t settings st → st.1.covered = none → Minds t settings hooks.onEnd st

theorem Minded.diary {onMatch : Rule → SessionM (Diary σ) ActionResult}
    {onEnd : SessionM (Diary σ) Bool} (hmatch : ∀ rule, Keeps t settings (onMatch rule))
    (hend : Keeps t settings onEnd) : Minded t settings (Diary.hooks onMatch onEnd) :=
  ⟨fun rule _ h hbehind => (hmatch rule).action rule h hbehind,
    fun _ h hcovered => hend.hook h hcovered⟩

/-- A scan fails with an error of the tables only if it was handed one. -/
def Blameless (e : ScanError) (st : Scanner × Diary σ) : Prop :=
  e.IsFault → HandedOver e st

/-- The terminator stands while the action begins. -/
theorem Intact.terminate (h : Intact t settings (s, d)) (hcovered : s.covered = none)
    (hmatch : s.BehindMatch) : Intact t settings (s.terminate, d) ∧ s.terminate.BehindMatch := by
  obtain ⟨hcoherent, hcapacity, hmatch'⟩ := h.coherent.terminate hcovered hmatch
  exact ⟨⟨hcoherent, h.notes, fun note hmem => hcapacity ▸ h.capacity note hmem⟩, hmatch'⟩

/-- Advancing keeps a session intact, and tables are not to blame if it fails. -/
theorem advance_passes (ht : t.Sound) (h : Intact t settings st) (hcovered : st.1.covered = none) :
    ends (onScanner Scanner.advance)
      (fun found st' => Passes t settings st st' ∧ (found.isSome = true → st'.1.BehindMatch))
      (fun e st' => Passes t settings st st' ∧ ¬ e.IsFault) st :=
  .onScanner ((Scanner.advance_ends ht h.coherent hcovered).mono
    (fun _ _ h' => ⟨h.leads h'.1, h'.2⟩) fun _ _ h' => ⟨h.leads h'.1, h'.2⟩)

theorem runAction_ends {hooks : Hooks (Diary σ)} (hhooks : Minded t settings hooks) {rule : Rule}
    (h : Intact t settings (s, d)) (hcovered : s.covered = none) (hmatch : s.BehindMatch) :
    ends (hooks.runAction rule)
      (fun _ st' => Passes t settings (s, d) st' ∧ st'.1.covered = none)
      (fun e st' => Passes t settings (s, d) st' ∧ HandedOver e st') (s, d) := by
  obtain ⟨hterminated, hmatch'⟩ := h.terminate hcovered hmatch
  have hrun := hhooks.onMatch rule (s.terminate, d) hterminated hmatch'
  have hbare {st' : Scanner × Diary σ} (h' : Passes t settings (s.terminate, d) st') :
      Passes t settings (s, d) (st'.1.unterminate, st'.2) :=
    ⟨(h'.intact.leads h'.intact.coherent.unterminate).intact, h'.running_eq,
      fun _ => Scanner.covered_unterminate st'.1⟩
  unfold ends
  rw [Hooks.runAction_eq]
  revert hrun
  unfold Minds ends
  cases hooks.onMatch rule (s.terminate, d) with
  | ok flow st' => exact fun h' => ⟨hbare h', Scanner.covered_unterminate st'.1⟩
  | error e st' => exact fun h' => ⟨hbare h'.1, h'.2⟩

theorem handle_ends (ht : t.Sound) {hooks : Hooks (Diary σ)} (hhooks : Minded t settings hooks)
    (events : Nat) (h : Intact t settings st) (hcovered : st.1.covered = none) :
    ends (hooks.handle events) (fun _ => Passes t settings st)
      (fun e st' => Passes t settings st st' ∧ Blameless e st') st := by
  induction events generalizing st with
  | zero => exact .pure h.refl
  | succ events ih =>
    have hrest {st₁ : Scanner × Diary σ} (h₁ : Passes t settings st st₁) :
        ends (hooks.handle events) (fun _ => Passes t settings st)
          (fun e st' => Passes t settings st st' ∧ Blameless e st') st₁ :=
      (ih h₁.intact (h₁.covered hcovered)).mono (fun _ _ => h₁.trans)
        fun _ _ h' => ⟨h₁.trans h'.1, h'.2⟩
    refine .bind ((advance_passes ht h hcovered).mono (fun found st₁ h₁ => ?_)
      fun e st₁ h₁ => ⟨h₁.1, fun he => absurd he h₁.2⟩)
    obtain ⟨h₁, hmatch⟩ := h₁
    cases found with
    | some rule =>
      refine .bind ((runAction_ends hhooks h₁.intact (h₁.covered hcovered) (hmatch rfl)).mono
        (fun flow st₂ h₂ => ?_) fun e st₂ h₂ => ⟨h₁.trans h₂.1, fun _ => h₂.2⟩)
      cases flow with
      | yield value => exact .pure (h₁.trans h₂.1)
      | resume => exact hrest (h₁.trans h₂.1)
    | none =>
      refine .bind ((hhooks.onEnd _ h₁.intact (h₁.covered hcovered)).mono
        (fun ended st₂ h₂ => ?_) fun e st₂ h₂ => ⟨h₁.trans h₂.1, fun _ => h₂.2⟩)
      cases ended with
      | true => exact .pure (h₁.trans h₂)
      | false => exact hrest (h₁.trans h₂)

theorem Keeps.scan (ht : t.Sound) {hooks : Hooks (Diary σ)} (hhooks : Minded t settings hooks)
    (events : Nat) : Keeps t settings (Diary.noted .scanned (hooks.scan events)) := by
  intro st h hrest
  have hbare := h.leads h.coherent.unterminate
  have hnote (result : Except ScanError ScanEnd) {st' : Scanner × Diary σ}
      (h' : Passes t settings st st') (hblameless : ∀ e, result = .error e → Blameless e st') :
      Passes t settings st (Diary.enter (.scanned result) st') :=
    h'.trans (h'.intact.enter _ (h'.resting hrest) (fun _ h => nomatch h)
      fun fault hfault => hblameless _ (Event.scanned.inj hfault) ⟨fault, rfl⟩)
  refine .noted (.bind (.onScanner (.modify ?_)))
  refine (handle_ends ht hhooks events hbare.intact (Scanner.covered_unterminate st.1)).mono
    (fun a st' h' => hnote (.ok a) (hbare.trans h') fun e he => nomatch he)
    fun e st' h' => hnote (.error e) (hbare.trans h'.1) fun e' he => ?_
  cases he
  exact h'.2

/-! ## Sessions -/

/-- Every session keeps its scanner intact, step by step. -/
theorem Session.run_keeps (ht : t.Sound) (session : Session σ α) :
    Keeps t settings session.run := by
  induction session with
  | finish result => exact fun st h _ => .pure h.refl
  | fail e => exact fun st h _ => .throw h.refl
  | look next ih => exact fun st h hrest => .bind (.get (ih _ _ st h hrest))
  | remember memory next ih =>
    refine .bind (fun st h hrest => .modify ?_) fun _ => ih
    exact ⟨⟨h.coherent, h.notes, h.capacity⟩, rfl, id⟩
  | perform edit next ih => exact .bind (.perform edit) ih
  | alter change next ih => exact .bind (.altered change) fun _ => ih
  | scan events onMatch onEnd next ihMatch ihEnd ihNext =>
    exact .bind (.scan ht (.diary ihMatch ihEnd) events) ihNext

end Intact

/-! ## New sessions -/

/-- A session begins intact on every coherent scanner without a terminator. -/
theorem Intact.of_coherent {t : Tables} {settings : BufferSettings} {s : Scanner}
    (h : s.Coherent t settings) (hcovered : s.covered = none) {σ : Type} (memory : σ) :
    Intact t settings (s, Diary.start memory s) := by
  have hbuilt : Note.Proper t settings [] ⟨.built, 0, s⟩ :=
    ⟨h, fun _ => hcovered, (fun _ h => nomatch h), (fun _ h => nomatch h), fun _ h => nomatch h⟩
  have hnil : AllProper t settings [] := by
    intro note earlier hsuffix
    cases List.suffix_nil.1 hsuffix
  refine ⟨h, hnil.cons hbuilt, fun note hmem => ?_⟩
  obtain rfl := List.mem_singleton.1 hmem
  exact Nat.le_refl _

/-- A session on a new scanner begins intact. -/
theorem Intact.start {o : ScannerOptions} {t : Tables} {source : Source} {output : Sink} {s : Scanner}
    (h : o.build t source output = .ok s) {σ : Type} (memory : σ) :
    Intact t o.bufferSettings (s, Diary.start memory s) := by
  obtain ⟨-, hcoherent, hcovered⟩ := ScannerOptions.build_coherent h
  exact .of_coherent hcoherent hcovered memory

end Munch
