-- SUMMARY: Scanners with and without terminators find the same matches, as long as none stands.
import Munch.Proofs.Buffer.Twin
import Munch.Proofs.Scanner.Beside

/-! # Twin scanners

Beside a scanner runs another one that never puts terminators. Between actions the two hold the same
bytes, and each step of an attempt does the same on both. -/

namespace Munch

namespace Scanner

variable {s s' : Scanner}

/-- The scanner, set not to put terminators. -/
def plain (s : Scanner) : Scanner :=
  { s with buffer := s.buffer.plain }

theorem create_plain (t : Tables) (source : Source) (output : Sink) (settings : BufferSettings)
    (sc : StartCondition) : create t source output { settings with terminator := none } sc =
      (create t source output settings sc).map plain := by
  simp only [create, Buffer.create_plain]
  cases t.entryStates sc with
  | error fault => rfl
  | ok entries => cases Buffer.create settings source <;> rfl

/-- No terminator stands, and the second scanner is the first one as it is without them. -/
def Twin (s s' : Scanner) : Prop :=
  s.covered = none ∧ ∃ buffer, s.buffer.Twin buffer ∧ s' = { s with buffer }

namespace Twin

theorem of_plain (h : s.covered = none) : s.Twin s.plain :=
  ⟨h, s.buffer.plain, ⟨s.buffer.stale, rfl⟩, rfl⟩

/-- Twins are side by side, and neither has a headstart. -/
theorem iff_beside : s.Twin s' ↔ s.Beside Buffer.Twin {} True s' := by
  constructor
  · rintro ⟨hcovered, buffer, hbuffer, rfl⟩
    exact ⟨hbuffer, ⟨hcovered, hcovered⟩, rfl, rfl, rfl, rfl, rfl, Sink.Ahead.empty_iff.2 rfl,
      (Nat.zero_add _).symm, fun _ => rfl⟩
  · intro h
    obtain ⟨t, buffer, out, sc, window, rule, covered, keep, run, line⟩ := s
    obtain ⟨t', buffer', out', sc', window', rule', covered', keep', run', line'⟩ := s'
    obtain ⟨hbuffer, ⟨rfl, rfl⟩, rfl, rfl, rfl, rfl, rfl, hout, hline, hrule⟩ := h
    obtain rfl := Sink.Ahead.empty_iff.1 hout
    obtain rfl := hrule trivial
    obtain rfl : line = line' := hline.trans (Nat.zero_add line')
    exact ⟨rfl, buffer', hbuffer, rfl⟩

/-- What does the same on scanners side by side does so on twins. -/
theorem inStep {α : Type} {m : ScannerM α} (hm : InStep (Beside Buffer.Twin {} True) m) :
    InStep Twin m :=
  fun s s' h => (hm s s' (iff_beside.1 h)).mono fun _ _ => iff_beside.2

end Twin

end Scanner

end Munch
