-- SUMMARY: What a scan starts from and what one round of it does, on scanners that rest on a tape.
import Munch.Proofs.Scanner.Build
import Munch.Proofs.Scanner.Edit
import Munch.Scanner.Scan

/-! # Rounds of a scan

Between two events of a scan nothing is unwritten: the scanner rests on its tape. A new scanner rests
on the whole input, and each round begins and ends with a scanner at rest. -/

namespace Munch

/-- The tape before anything was read. -/
def Tape.start (bytes : List UInt8) (sc : StartCondition) (output : List UInt8) : Tape :=
  { pending := bytes, startCondition := sc, output }

/-- What a scanner on the tape shows to an action. -/
def Tape.sight (tape : Tape) : Sight :=
  ⟨tape.text, tape.line, tape.startCondition, tape.output.toArray⟩

namespace Scanner

variable {t : Tables} {tape : Tape} {dropped : Nat} {s : Scanner}

/-- The scanner stands between two events of a scan. -/
structure Rests (t : Tables) (tape : Tape) (s : Scanner) : Prop where
  between : ∃ dropped, s.Between t tape dropped
  unmatched_eq : s.unmatched = none

namespace Rests

theorem output_eq (h : s.Rests t tape) : s.output.written.toList = tape.output := by
  obtain ⟨dropped, hb⟩ := h.between
  obtain ⟨run, hrun, houtput⟩ := hb.run
  rcases hrun with ⟨-, rfl⟩ | ⟨start, hsome, -⟩
  · rw [← houtput, List.append_nil]
  · cases h.unmatched_eq.symm.trans hsome

theorem unterminate_eq (h : s.Rests t tape) : s.unterminate = s := by
  obtain ⟨dropped, hb⟩ := h.between
  exact unterminate_of_none hb.covered_eq

end Rests

namespace InAction

/-- After an action the scanner rests. -/
theorem rests (h : s.InAction t tape dropped) : s.unterminate.Rests t tape :=
  ⟨⟨dropped, h.atMatch.between⟩, h.atMatch.unmatched_eq⟩

theorem written_eq (h : s.InAction t tape dropped) :
    s.output.written = tape.output.toArray := by
  have hlist := h.atMatch.output_eq
  rw [unterminate_output] at hlist
  rw [← hlist]

theorem sight_eq (h : s.InAction t tape dropped) : s.sight = tape.sight := by
  have hline : s.line = tape.line := unterminate_line s ▸ h.atMatch.line_eq
  have hsc : s.startCondition = tape.startCondition :=
    unterminate_startCondition s ▸ h.atMatch.startCondition_eq
  unfold Scanner.sight Tape.sight
  rw [h.text_eq, hline, hsc, h.written_eq]

end InAction

end Scanner

/-! ## New scanners -/

/-- Building checks the tables and begins with the chosen start condition. The new scanner rests on the
whole input. -/
theorem ScannerOptions.build_rests {o : ScannerOptions} {t : Tables} {source : Source}
    {output : Sink} {s : Scanner} (h : o.build t source output = .ok s)
    (hsource : source.steady = true) (hlimit : output.limit = none) :
    t.Sound ∧ s.buffer.settings = o.bufferSettings ∧ ∃ sc, o.startCondition t = .ok sc ∧
      s.Rests t (Tape.start source.bytes sc output.written.toList) := by
  obtain ⟨ht, sc, capacity, hsc, hstate, hbol, hroomy, rfl⟩ := of_build h
  refine ⟨ht, rfl, sc, hsc, ⟨0, ⟨rfl, rfl, ⟨hsource, hroomy.block_pos⟩, rfl, rfl, .inl rfl, hlimit, rfl,
    rfl, rfl, hstate, hbol⟩, ?_, ⟨[], .inl ⟨rfl, rfl⟩, List.append_nil _⟩, ?_⟩, rfl⟩
  · intro hkeep
    cases hkeep
  · intro w hw
    cases hw

/-! ## Rounds -/

namespace Hooks

variable {σ : Type} {hooks : Hooks σ} {s s' : Scanner} {x : σ}

theorem handle_of_match {rule : Rule} (h : s.advance = .ok (some rule) s') (events : Nat) :
    hooks.handle (events + 1) (s, x) = match hooks.runAction rule (s', x) with
      | .ok (.yield value) st => .ok (.token value) st
      | .ok .resume st => hooks.handle events st
      | .error e st => .error e st := by
  simp only [handle, Bind.bind, EStateM.bind, onScanner, h]
  cases hooks.runAction rule (s', x) with
  | ok flow st => cases flow <;> rfl
  | error e st => rfl

theorem handle_of_end (h : s.advance = .ok none s') (hend : hooks.onEnd = pure true)
    (events : Nat) : hooks.handle (events + 1) (s, x) = .ok .exhausted (s', x) := by
  simp only [handle, Bind.bind, EStateM.bind, onScanner, h, hend]
  rfl

theorem handle_of_error {e : ScanError} (h : s.advance = .error e s') (events : Nat) :
    hooks.handle (events + 1) (s, x) = .error e (s', x) := by
  simp only [handle, Bind.bind, EStateM.bind, onScanner, h]

theorem withinMemory_advance {events : Nat} (h : WithinMemory (hooks.handle (events + 1) (s, x))) :
    WithinMemory s.advance := by
  intro n s' hrun
  exact h n _ (handle_of_error hrun events)

theorem withinMemory_runAction {rule : Rule} {events : Nat} (hrun : s.advance = .ok (some rule) s')
    (h : WithinMemory (hooks.handle (events + 1) (s, x))) :
    WithinMemory (hooks.runAction rule (s', x)) := by
  intro n st haction
  apply h n st
  rw [handle_of_match hrun, haction]

theorem scan_eq_handle (h : s.unterminate = s) (events : Nat) :
    hooks.scan events (s, x) = hooks.handle events (s, x) := by
  simp only [scan, Bind.bind, EStateM.bind, onScanner, modify_apply, h]

end Hooks

end Munch
