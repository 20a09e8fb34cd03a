-- SUMMARY: What a scanner that was built consists of.
import Munch.Proofs.Buffer.Room
import Munch.Proofs.Tables.Run
import Munch.Scanner.Build

/-! # New scanners

Building checks the tables, chooses a start condition and reserves an empty buffer; a scanner that was
built has all three. -/

namespace Munch

namespace ScannerOptions

/-- The settings of a buffer already count an empty block as a byte. -/
theorem create_settings (o : ScannerOptions) :
    { o.bufferSettings with blockSize := max o.bufferSettings.blockSize 1 } = o.bufferSettings := by
  simp [bufferSettings]

/-- What building has done if it succeeded: the checks have passed and a buffer was created. -/
theorem parts_of_build {o : ScannerOptions} {t : Tables} {source : Source} {output : Sink} {s : Scanner}
    (h : o.build t source output = .ok s) : t.Sound ∧ ∃ sc entries, o.startCondition t = .ok sc ∧
      t.entryStates sc = .ok entries ∧ Buffer.create o.bufferSettings source = .ok s.buffer ∧
      s = { tables := t, buffer := s.buffer, output, startCondition := sc } := by
  unfold build at h
  cases hvalid : t.validate with
  | error fault =>
    rw [hvalid] at h
    cases h
  | ok u =>
    cases hsc : o.startCondition t with
    | error e =>
      rw [hvalid, hsc] at h
      cases h
    | ok sc =>
      rw [hvalid, hsc] at h
      change Scanner.create t source output o.bufferSettings sc = .ok s at h
      unfold Scanner.create at h
      cases hentries : t.entryStates sc with
      | error fault =>
        rw [hentries] at h
        cases h
      | ok entries =>
        rw [hentries] at h
        cases hbuffer : Buffer.create o.bufferSettings source with
        | error e =>
          rw [hbuffer] at h
          cases h
        | ok b =>
          rw [hbuffer] at h
          obtain rfl := Except.ok.inj h
          exact ⟨Tables.validate_eq_ok_iff.1 hvalid, sc, entries, rfl, hentries, rfl, rfl⟩

/-- A built scanner starts with checked tables, in a start condition that enters at states, over an
empty buffer. -/
theorem of_build {o : ScannerOptions} {t : Tables} {source : Source} {output : Sink} {s : Scanner}
    (h : o.build t source output = .ok s) : t.Sound ∧ ∃ sc capacity,
      o.startCondition t = .ok sc ∧ sc.state.toNat < t.stateCount ∧
      sc.bolState.toNat < t.stateCount ∧ s.buffer.Roomy ∧ s = {
        tables := t
        buffer := { settings := o.bufferSettings, source, capacity }
        output
        startCondition := sc } := by
  obtain ⟨ht, sc, entries, hsc, hentries, hbuffer, heq⟩ := parts_of_build h
  obtain ⟨hstate, hbol⟩ := t.entryStates_lt hentries
  obtain ⟨hroomy, capacity, hcreated⟩ := Buffer.create_roomy hbuffer
  rw [create_settings] at hcreated
  rw [hcreated] at heq
  exact ⟨ht, sc, capacity, hsc, hstate, hbol, hroomy, heq⟩

end ScannerOptions

end Munch
