-- SUMMARY: Actions as scripts of operations, run with a journal of what they saw and what they were answered.
import Munch.Proofs.WeakestPre
import Munch.Scanner.Edit
import Munch.Scanner.Scan

/-! # Scripts

A script is an action that performs operations one by one. Each operation may depend on the rule, on
everything that the scanner showed so far and on the results of the operations before. A script goes
on with the same source, and may go on after an operation that failed, but not when memory has run
out. The journal of a scan keeps the memory of the script and everything that passed between script
and scanner. -/

namespace Munch

/-- Whether an operation goes on with the same source. -/
def Edit.KeepsSource : Edit → Prop
  | .restart _ => False
  | _ => True

/-- What a scanner shows to an action. -/
structure Sight where
  text : List UInt8
  line : Nat
  startCondition : StartCondition
  output : Array UInt8

/-- What a scanner shows now. -/
def Scanner.sight (s : Scanner) : Sight :=
  ⟨s.text, s.line, s.startCondition, s.output.written⟩

/-- An action, by the operations it performs. -/
inductive Script (σ : Type) where
  /-- Ends with a result and remembers something for the next match. -/
  | finish (result : ActionResult) (memory : σ)
  /-- Gives up. -/
  | fail (error : ScanError) (memory : σ)
  /-- Performs an operation and goes on as its result and the scanner say. -/
  | perform (edit : Edit) (keeps : edit.KeepsSource)
      (next : Except ScanError (Option UInt8) → Sight → Script σ)

/-! ## Journals -/

/-- What passed between script and scanner. -/
inductive JournalEntry where
  /-- A match was reported. -/
  | reported (rule : Rule) (sight : Sight)
  /-- An operation was performed; `prefixed` says whether the text of the match began with bytes that
  were kept from the match before. -/
  | performed (edit : Edit) (prefixed : Bool) (result : Except ScanError (Option UInt8))

/-- A text that began with kept bytes was cut to nothing. -/
def JournalEntry.isCut : JournalEntry → Bool
  | .performed (.less 0) prefixed _ => prefixed
  | _ => false

/-- The state of a script beside its scanner. -/
structure Journal (σ : Type) where
  memory : σ
  /-- The entries, the latest first. -/
  log : List JournalEntry := []
  /-- Whether the text of the present match begins with kept bytes. -/
  prefixed : Bool := false
  /-- How much was written when the last action had ended, if there were bytes to keep then. -/
  keptAt : Option Nat := none

namespace Journal

variable {σ : Type}

/-- Enters a match. Its text begins with kept bytes if the action before left some to keep and no
byte was skipped, that is written, since. -/
def enter (journal : Journal σ) (rule : Rule) (s : Scanner) : Journal σ :=
  { journal with
    log := .reported rule s.sight :: journal.log
    prefixed := journal.keptAt == some s.output.written.size }

/-- Enters an operation with its result. -/
def note (journal : Journal σ) (edit : Edit) (result : Except ScanError (Option UInt8)) :
    Journal σ :=
  { journal with log := .performed edit journal.prefixed result :: journal.log }

/-- Ends an action. There are bytes to keep if the text is kept and the cursor stands behind its
first byte. -/
def leave (journal : Journal σ) (memory : σ) (s : Scanner) : Journal σ :=
  { journal with
    memory
    keptAt := if s.keepText && s.window.start < s.buffer.cursor then some s.output.written.size
      else none }

/-- Whether a text that begins with kept bytes was cut to nothing. -/
def CutsPrefix (journal : Journal σ) : Prop :=
  ∃ entry ∈ journal.log, entry.isCut = true

instance (journal : Journal σ) : Decidable journal.CutsPrefix :=
  inferInstanceAs (Decidable (∃ entry ∈ journal.log, entry.isCut = true))

end Journal

/-! ## Running scripts -/

namespace Script

variable {σ : Type}

/-- Performs one operation and enters it in the journal. -/
def step (edit : Edit) : SessionM (Journal σ) (Except ScanError (Option UInt8) × Sight) :=
  fun (s, journal) =>
    match edit.perform s with
    | .ok byte s => .ok (.ok byte, s.sight) (s, journal.note edit (.ok byte))
    | .error (.allocation n) s => .error (.allocation n) (s, journal)
    | .error e s => .ok (.error e, s.sight) (s, journal.note edit (.error e))

/-- Runs a script. -/
def run : Script σ → SessionM (Journal σ) ActionResult
  | .finish result memory => fun (s, journal) => .ok result (s, journal.leave memory s)
  | .fail e memory => fun (s, journal) => .error e (s, journal.leave memory s)
  | .perform edit _ next => do
    let answer ← step edit
    (next answer.1 answer.2).run

/-- The hooks that run a script at each match. -/
def hooks (script : Rule → Sight → σ → Script σ) : Hooks (Journal σ) where
  onMatch rule := fun (s, journal) =>
    (script rule s.sight journal.memory).run (s, journal.enter rule s)

/-! ## Single operations -/

section Step

variable {edit : Edit} {s s' : Scanner} {journal : Journal σ}

theorem step_of_ok {byte : Option UInt8} (h : edit.perform s = .ok byte s') :
    step edit (s, journal) = .ok (.ok byte, s'.sight) (s', journal.note edit (.ok byte)) := by
  simp only [step, h]

theorem step_of_allocation {n : Nat} (h : edit.perform s = .error (.allocation n) s') :
    step edit (s, journal) = .error (.allocation n) (s', journal) := by
  simp only [step, h]

theorem step_of_error {e : ScanError} (h : edit.perform s = .error e s')
    (he : ∀ n, e ≠ .allocation n) :
    step edit (s, journal) = .ok (.error e, s'.sight) (s', journal.note edit (.error e)) := by
  cases e with
  | allocation n => exact absurd rfl (he n)
  | malformed fault => simp only [step, h]
  | io text => simp only [step, h]
  | unknownStartCondition name => simp only [step, h]
  | lessOutOfRange requested length => simp only [step, h]
  | action text => simp only [step, h]
  | json => simp only [step, h]

/-- Every operation that does not run out of memory is entered. -/
theorem step_notes (edit : Edit) (s : Scanner) (journal : Journal σ) :
    wp (step edit) (fun answer st => st.2 = journal.note edit answer.1) (s, journal) := by
  cases hperform : edit.perform s with
  | ok byte s' => exact .of_ok (step_of_ok hperform) rfl
  | error e s' =>
    by_cases he : ∃ n, e = .allocation n
    · obtain ⟨n, rfl⟩ := he
      unfold wp
      rw [step_of_allocation hperform]
      exact ⟨n, rfl⟩
    · exact .of_ok (step_of_error hperform fun n hn => he ⟨n, hn⟩) rfl

end Step

end Script

/-! ## Actions -/

namespace Hooks

variable {σ : Type} {hooks : Hooks σ}

/-- The outcome of an action is that of its hook, with the terminator taken away. -/
theorem runAction_eq (rule : Rule) (s : Scanner) (x : σ) : hooks.runAction rule (s, x) =
    onFinal (Prod.map Scanner.unterminate id) (hooks.onMatch rule (s.terminate, x)) := by
  unfold runAction
  dsimp only
  cases hooks.onMatch rule (s.terminate, x) with
  | ok flow st => rfl
  | error e st => rfl

end Hooks

/-! ## Journals only grow -/

namespace Script

variable {σ : Type}

/-- Every entry of the earlier journal is in the later one. -/
def Grows (st st' : Scanner × Journal σ) : Prop :=
  ∀ entry ∈ st.2.log, entry ∈ st'.2.log

instance : History (Grows (σ := σ)) :=
  ⟨fun _ _ h => h, fun h h' entry hmem => h' entry (h entry hmem)⟩

theorem step_grows (edit : Edit) : Across Grows (step edit : SessionM (Journal σ) _) := by
  intro st entry hmem
  obtain ⟨s, journal⟩ := st
  cases hperform : edit.perform s with
  | ok byte s' =>
    rw [final_of_ok (step_of_ok hperform)]
    exact List.mem_cons_of_mem _ hmem
  | error e s' =>
    by_cases he : ∃ n, e = .allocation n
    · obtain ⟨n, rfl⟩ := he
      rw [final_of_error (step_of_allocation hperform)]
      exact hmem
    · rw [final_of_ok (step_of_error hperform fun n hn => he ⟨n, hn⟩)]
      exact List.mem_cons_of_mem _ hmem

theorem run_grows (script : Script σ) : Across Grows script.run := by
  induction script with
  | finish result memory => exact fun _ _ h => h
  | fail e memory => exact fun _ _ h => h
  | perform edit keeps next ih => exact .bind (step_grows edit) fun answer => ih answer.1 answer.2

theorem onScanner_grows {α : Type} (m : ScannerM α) :
    Across Grows (onScanner m : SessionM (Journal σ) α) := by
  intro st entry hmem
  obtain ⟨s, journal⟩ := st
  unfold final onScanner
  dsimp only
  cases m s with
  | ok a s' => exact hmem
  | error e s' => exact hmem

theorem runAction_grows (script : Rule → Sight → σ → Script σ) (rule : Rule) :
    Across Grows ((hooks script).runAction rule) := by
  intro st entry hmem
  obtain ⟨s, journal⟩ := st
  rw [final_eq_of_onFinal (Hooks.runAction_eq rule s journal)]
  exact run_grows (script rule s.terminate.sight journal.memory)
    (s.terminate, journal.enter rule s.terminate) entry (List.mem_cons_of_mem _ hmem)

theorem handle_grows (script : Rule → Sight → σ → Script σ) (events : Nat) :
    Across Grows ((hooks script).handle events) := by
  induction events with
  | zero => exact .pure _
  | succ events ih =>
    refine .bind (onScanner_grows _) fun found => ?_
    cases found with
    | none =>
      refine .bind (.pure _) fun ended => ?_
      split
      · exact .pure _
      · exact ih
    | some rule =>
      refine .bind (runAction_grows script rule) fun flow => ?_
      cases flow with
      | resume => exact ih
      | yield value => exact .pure _

end Script

end Munch
