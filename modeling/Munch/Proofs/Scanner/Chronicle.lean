-- SUMMARY: Sessions only add notes, and what each step of a scanner keeps links every note to the beginning.
import Munch.Proofs.Scanner.Carried
import Munch.Proofs.Scanner.Script
import Munch.Proofs.Scanner.Session

/-! # Chronicles

The diary of a session is never rewritten: what runs later puts its notes on top. If a relation holds
across each operation, each advance and each terminator then it relates the scanner at the beginning to
the scanner of every note made since. -/

namespace Munch

/-- The relation holds across all that a session does to its scanner. -/
class Scanner.Lasting (R : Scanner → Scanner → Prop) : Prop extends History R where
  perform (edit : Edit) : Across R edit.perform
  advance : Across R Scanner.advance
  terminate (s : Scanner) : R s s.terminate
  unterminate (s : Scanner) : R s s.unterminate
  setOutput (s : Scanner) (output : Sink) : R s { s with output }

/-- What is carried over in a buffer, also to another source, lasts. -/
theorem Scanner.Lasting.of_carried (R : Buffer → Buffer → Prop) [Buffer.Carried R]
    (hswitch : ∀ (b : Buffer) source, R b (b.switchTo source)) : Scanner.Lasting (Carried R) where
  perform edit := edit.perform_carried R (.inr hswitch)
  advance := advance_carried R
  terminate := terminate_carried R
  unterminate := unterminate_carried R
  setOutput _ _ := .of_eq R rfl

/-- The later session has more notes, and its scanner and those of the new notes are related to the
earlier scanner. -/
structure Chronicle {σ : Type} (R : Scanner → Scanner → Prop) (st st' : Scanner × Diary σ) : Prop where
  scanner : R st.1 st'.1
  notes : ∃ new, st'.2.notes = new ++ st.2.notes ∧ ∀ note ∈ new, R st.1 note.scanner

section Chronicle

variable {σ α : Type} (R : Scanner → Scanner → Prop) [Scanner.Lasting R]

/-- No note is made. -/
theorem Chronicle.of_same {R : Scanner → Scanner → Prop} {st st' : Scanner × Diary σ}
    (h : R st.1 st'.1) (hnotes : st'.2.notes = st.2.notes) : Chronicle R st st' :=
  ⟨h, [], hnotes, fun _ hmem => nomatch hmem⟩

instance : History (Chronicle (σ := σ) R) where
  refl st := .of_same (History.refl st.1) rfl
  trans h h' := by
    obtain ⟨new, heq, hnew⟩ := h.notes
    obtain ⟨new', heq', hnew'⟩ := h'.notes
    refine ⟨History.trans h.scanner h'.scanner, new' ++ new, by rw [heq', heq, List.append_assoc], ?_⟩
    intro note hmem
    rcases List.mem_append.1 hmem with hmem | hmem
    · exact History.trans h.scanner (hnew' note hmem)
    · exact hnew note hmem

omit [Scanner.Lasting R] in
theorem onScanner_chronicle {m : ScannerM α} (h : Across R m) :
    Across (Chronicle (σ := σ) R) (onScanner m) := by
  rintro ⟨s, d⟩
  have hm := h s
  unfold final at hm ⊢
  unfold onScanner
  dsimp only
  cases hrun : m s <;> rw [hrun] at hm <;> exact .of_same hm rfl

theorem enter_chronicle (event : Event) (st : Scanner × Diary σ) :
    Chronicle R st (Diary.enter event st) := by
  refine ⟨History.refl st.1, [_], rfl, fun note hmem => ?_⟩
  rw [List.mem_singleton.1 hmem]
  exact History.refl st.1

variable {R}

theorem noted_chronicle {m : SessionM (Diary σ) α} (event : Except ScanError α → Event)
    (h : Across (Chronicle R) m) : Across (Chronicle R) (Diary.noted event m) := by
  have hcaught : Across (Chronicle R) (Diary.caught m) := by
    intro st
    have hm := h st
    unfold final at hm ⊢
    unfold Diary.caught
    cases hrun : m st <;> rw [hrun] at hm <;> exact hm
  exact .bind hcaught fun _ => .bind (.modify fun st => enter_chronicle R _ st) fun _ => .pure _

theorem again_chronicle (result : Except ScanError α) :
    Across (Chronicle (σ := σ) R) (Diary.again result) := by
  intro st
  cases result <;> exact History.refl st

theorem action_chronicle {m : SessionM (Diary σ) ActionResult} (h : Across (Chronicle R) m)
    (rule : Rule) : Across (Chronicle R) (Diary.action rule m) := by
  have hcount (f : Nat → Nat) : Across (Chronicle (σ := σ) R) (Diary.count f) :=
    .modify fun st => .of_same (History.refl st.1) rfl
  exact .bind (hcount _) fun _ => .bind (.modify fun st => enter_chronicle R _ st) fun _ =>
    .bind (noted_chronicle _ h) fun result => .bind (hcount _) fun _ => again_chronicle result

theorem hook_chronicle {m : SessionM (Diary σ) Bool} (h : Across (Chronicle R) m) :
    Across (Chronicle R) (Diary.hook m) :=
  .bind (.modify fun st => enter_chronicle R _ st) fun _ =>
    .bind (noted_chronicle _ h) fun result => again_chronicle result

theorem runAction_chronicle {hooks : Hooks (Diary σ)} {rule : Rule}
    (h : Across (Chronicle R) (hooks.onMatch rule)) :
    Across (Chronicle R) (hooks.runAction rule) := by
  intro st
  have hbegin : Chronicle R st (st.1.terminate, st.2) := .of_same (Scanner.Lasting.terminate st.1) rfl
  have hrun := History.trans hbegin (h (st.1.terminate, st.2))
  rw [final_eq_of_onFinal (Hooks.runAction_eq rule st.1 st.2)]
  exact History.trans hrun (.of_same (Scanner.Lasting.unterminate _) rfl)

theorem handle_chronicle {hooks : Hooks (Diary σ)}
    (hmatch : ∀ rule, Across (Chronicle R) (hooks.onMatch rule))
    (hend : Across (Chronicle R) hooks.onEnd) (events : Nat) :
    Across (Chronicle R) (hooks.handle events) := by
  induction events with
  | zero => exact .pure _
  | succ events ih =>
    refine .bind (onScanner_chronicle R Scanner.Lasting.advance) fun found => ?_
    cases found with
    | some rule =>
      refine .bind (runAction_chronicle (hmatch rule)) fun flow => ?_
      cases flow with
      | yield value => exact .pure _
      | resume => exact ih
    | none =>
      refine .bind hend fun ended => ?_
      cases ended with
      | true => exact .pure _
      | false => exact ih

theorem scan_chronicle {hooks : Hooks (Diary σ)}
    (hmatch : ∀ rule, Across (Chronicle R) (hooks.onMatch rule))
    (hend : Across (Chronicle R) hooks.onEnd) (events : Nat) :
    Across (Chronicle R) (hooks.scan events) :=
  .bind (onScanner_chronicle R (.modify Scanner.Lasting.unterminate)) fun _ =>
    handle_chronicle hmatch hend events

theorem altered_chronicle (change : Sink → Sink) :
    Across (Chronicle (σ := σ) R) (Diary.altered change) :=
  .bind (onScanner_chronicle R (.modify fun s => Scanner.Lasting.setOutput s _)) fun _ =>
    .modify fun st => enter_chronicle R _ st

/-- A session adds to its diary, and every note it makes is related to the scanner at its beginning. -/
theorem Session.run_chronicle (session : Session σ α) : Across (Chronicle R) session.run := by
  induction session with
  | finish result => exact .pure _
  | fail e => exact fun st => History.refl st
  | look next ih => exact .bind .get fun st => ih st.1.view st.2.memory
  | remember memory next ih =>
    exact .bind (.modify fun st => .of_same (History.refl st.1) rfl) fun _ => ih
  | perform edit next ih =>
    exact .bind (noted_chronicle _ (onScanner_chronicle R (Scanner.Lasting.perform edit))) ih
  | alter change next ih => exact .bind (altered_chronicle change) fun _ => ih
  | scan events onMatch onEnd next ihMatch ihEnd ihNext =>
    exact .bind (noted_chronicle _ (scan_chronicle (fun rule => action_chronicle (ihMatch rule) rule)
      (hook_chronicle ihEnd) events)) ihNext

end Chronicle

/-- The first note of a session is the one with which its diary was started. -/
theorem Session.notes_built {σ α : Type} (session : Session σ α) (memory : σ) (s : Scanner) {note : Note}
    {earlier : List Note} (hsuffix : note :: earlier <:+ session.notes memory s) :
    ∃ during, during ++ [⟨.built, 0, s⟩] = note :: earlier := by
  have : Scanner.Lasting fun _ _ => True :=
    { refl := fun _ => trivial, trans := fun _ _ => trivial, perform := fun _ _ => trivial
      advance := fun _ => trivial, terminate := fun _ => trivial, unterminate := fun _ => trivial
      setOutput := fun _ _ => trivial }
  obtain ⟨new, hnotes, -⟩ := (session.run_chronicle (R := fun _ _ => True) (s, Diary.start memory s)).notes
  obtain ⟨later, hlater⟩ := hsuffix
  obtain ⟨during, last, heq⟩ :=
    (List.eq_nil_or_concat (note :: earlier)).resolve_left (List.cons_ne_nil note earlier)
  rw [notes, hnotes, heq, List.concat_eq_append, ← List.append_assoc] at hlater
  obtain ⟨-, hlast⟩ := List.append_inj' hlater rfl
  exact ⟨during, by rw [heq, List.concat_eq_append, hlast]; rfl⟩

end Munch
