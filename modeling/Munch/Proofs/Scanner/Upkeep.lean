-- SUMMARY: Every operation of an action keeps a scanner coherent, and so does every new scanner begin.
import Munch.Proofs.Scanner.Build
import Munch.Proofs.Scanner.Coherent

/-! # Upkeep

An operation that succeeds and one that fails both leave a coherent scanner. A terminator that stands
before an operation may be gone behind it, but never the other way round. -/

namespace Munch

namespace Scanner

variable {t : Tables} {settings : BufferSettings} {s : Scanner}

/-- The computation leads to coherent scanners only, whether it succeeds or fails. -/
def Upholds (t : Tables) (settings : BufferSettings) (s : Scanner) {α : Type} (m : ScannerM α) :
    Prop :=
  ends m (fun _ => Leads t settings s) (fun _ => Leads t settings s) s

/-! ## Input -/

theorem input_upholds (h : s.Coherent t settings) : Upholds t settings s input := by
  have hbare := h.unterminate
  refine .bind (.modify (.bind (.onBuffer ?_)))
  refine (Buffer.readByte_probed hbare.coherent.roomy).mono (fun byte buffer hread => ?_)
    fun e buffer hread => ?_
  · have hread := hbare.trans (hbare.coherent.probed (covered_unterminate s) hread.1)
    refine .whenThen ?_
    split
    · exact .modify (.pure (hread.trans (hread.coherent.setLine (Nat.succ_pos _))))
    · exact .pure (.pure hread)
  · exact hbare.trans (hbare.coherent.probed (covered_unterminate s) hread.1)

/-! ## Pushing back and cutting -/

/-- Putting the terminator back behind a match, if it stood there before. -/
theorem reterminate_ends {s₁ : Scanner} (h : Leads t settings s s₁) (hcovered : s₁.covered = none)
    (hmatch : s.covered.isSome = true → s₁.BehindMatch)
    {E : ScanError → Scanner → Prop} :
    ends (if s.covered.isSome then modify terminate else pure ⟨⟩ : ScannerM PUnit)
      (fun _ => Leads t settings s) E s₁ := by
  split
  · rename_i hsome
    obtain ⟨hcoherent, hcapacity, -⟩ := h.coherent.terminate hcovered (hmatch hsome)
    refine .modify ⟨hcoherent, Nat.le_trans h.capacity_le (Nat.le_of_eq hcapacity.symm), ?_⟩
    intro hnone
    rw [hnone] at hsome
    cases hsome
  · exact .pure h

/-- A terminator stands only behind a match. -/
theorem Coherent.behindMatch (h : s.Coherent t settings) (hcovered : s.covered.isSome = true) :
    s.unterminate.BehindMatch := by
  obtain ⟨c, hc⟩ := Option.isSome_iff_exists.1 hcovered
  obtain ⟨ahead, stale, -, heq⟩ := h.unterminate_eq
  rw [heq]
  exact ⟨(h.covered c hc).2.1.1, (h.covered c hc).2.1.2⟩

theorem unput_upholds (h : s.Coherent t settings) (byte : UInt8) :
    Upholds t settings s (unput byte) := by
  have hbare := h.unterminate
  have hnone := covered_unterminate s
  refine .bind (.get (.bind (.modify (.bind (.onBuffer ?_)))))
  refine (Buffer.insert_ends hbare.coherent.roomy byte).mono (fun _ buffer hinsert => ?_)
    fun e buffer hinsert => ?_
  · obtain ⟨hroomy, hcapacity, capacity, stale, rfl⟩ := hinsert
    have hinsert := hbare.trans (hbare.coherent.setBuffer hnone hroomy rfl hcapacity
      (Nat.add_le_add_left (Nat.le_succ _) _) hbare.coherent.stop_le)
    refine .whenThen ((reterminate_ends hinsert hnone h.behindMatch).mono (fun _ s₁ h₁ => ?_)
      fun _ _ => id)
    split
    · exact .modify (h₁.trans (h₁.coherent.setLine (Nat.le_max_right _ _)))
    · exact .pure h₁
  · rw [hinsert.2]
    exact hbare

theorem unputAll_upholds (h : s.Coherent t settings) (bytes : List UInt8) :
    Upholds t settings s (unputAll bytes) := by
  unfold unputAll
  generalize bytes.reverse = bytes
  have hgen : ∀ s₁, Leads t settings s s₁ →
      ends (bytes.forM unput) (fun _ => Leads t settings s) (fun _ => Leads t settings s) s₁ := by
    induction bytes with
    | nil => exact fun s₁ h₁ => .pure h₁
    | cons byte bytes ih =>
      intro s₁ h₁
      show ends (unput byte >>= fun _ => bytes.forM unput) _ _ s₁
      exact .bind ((unput_upholds h₁.coherent byte).mono (fun _ s₂ h₂ => ih s₂ (h₁.trans h₂))
        fun _ _ h₂ => h₁.trans h₂)
  exact hgen s h.refl

/-- Cutting the text moves the cursor back to its new end. -/
theorem Coherent.cut (h : s.Coherent t settings) (hcovered : s.covered = none) {n : Nat}
    (hn : n ≤ s.window.length) :
    Leads t settings s (s.cut n) ∧ (s.cut n).window.stop = (s.cut n).buffer.cursor := by
  have hstop := h.stop_le
  have hcursor : (s.buffer.seek (s.window.start + n)).cursor = s.window.start + n := by
    have hfilled := s.buffer.cursor_le_filled
    simp only [Window.stop] at hstop
    rw [Buffer.cursor_seek]
    omega
  have hwindow : (s.cut n).window.stop = (s.cut n).buffer.cursor := by
    simp only [Scanner.cut, Window.shorten, Window.stop, hcursor]
    omega
  have hfilled := Buffer.filled_seek s.buffer (s.window.start + n)
  refine ⟨⟨{ h with
    settings_eq := (Buffer.seek_extends _ _).settings_eq.trans h.settings_eq
    roomy := Buffer.seek_roomy h.roomy _
    stop_le := Nat.le_of_eq hwindow
    covered := fun c hc => ?_
    unmatched := fun run hrun => ?_
    line_pos := Nat.le_max_right _ _ }, (Buffer.seek_extends _ _).capacity_le, id⟩, hwindow⟩
  · exact absurd hc (by simp [Scanner.cut, hcovered])
  · show 0 < run.length ∧ run.length ≤ settings.blockSize ∧
      run.stop ≤ (s.buffer.seek (s.window.start + n)).filled
    rw [hfilled]
    exact h.unmatched run hrun

theorem less_upholds (h : s.Coherent t settings) (n : Nat) :
    Upholds t settings s (less n) := by
  by_cases hn : s.window.length < n
  · exact .of_error (less_eq_error hn) h.refl
  · have hbare := h.unterminate
    obtain ⟨hcut, hstop⟩ := hbare.coherent.cut (covered_unterminate s) (n := n) (by
      rw [unterminate_window]
      exact Nat.le_of_not_lt hn)
    exact .congr (less_eq (Nat.le_of_not_lt hn)) (reterminate_ends (hbare.trans hcut)
      (hcut.covered (covered_unterminate s)) fun hsome => ⟨hstop, (h.behindMatch hsome).2⟩)

/-! ## Output, modes and sources -/

theorem write_upholds (h : s.Coherent t settings) (bytes : List UInt8) :
    Upholds t settings s (write bytes) := by
  refine (write_ends bytes s).mono (fun _ s' hs' => ?_) fun e s' hs' => ?_
  · obtain ⟨output, rfl⟩ := hs'
    exact h.setOutput output
  · obtain ⟨⟨output, rfl⟩, -⟩ := hs'
    exact h.setOutput output

theorem begin_upholds (h : s.Coherent t settings) (sc : StartCondition) :
    Upholds t settings s (begin sc) := by
  cases hentries : s.tables.entryStates sc with
  | error fault => exact .of_error (begin_eq_error hentries) h.refl
  | ok entries =>
    have hstates := s.tables.entryStates_lt hentries
    rw [h.tables_eq] at hstates
    refine .bind (.get (.bind (.liftFault hentries (.modify ?_))))
    exact h.setStartCondition hstates.1 hstates.2

theorem beginNamed_upholds (h : s.Coherent t settings) (name : String) :
    Upholds t settings s (beginNamed name) := by
  refine .bind (.get ?_)
  split
  · exact begin_upholds h _
  · exact .throw h.refl

/-- Going on with another source drops everything that names a place in the buffer. -/
theorem Coherent.switchTo (h : s.Coherent t settings) (hcovered : s.covered = none)
    (hrun : s.unmatched = none) (source : Source) : Leads t settings s
      { s with buffer := s.buffer.switchTo source, window := {}, keepText := false } := by
  refine ⟨{ h with
    settings_eq := h.settings_eq
    roomy := Buffer.switchTo_roomy h.roomy source
    stop_le := Nat.le_refl _
    covered := fun c hc => ?_
    unmatched := fun run hmem => ?_ }, Nat.le_refl _, id⟩
  · rw [hcovered] at hc
    cases hc
  · rw [hrun] at hmem
    cases hmem

theorem restart_upholds (h : s.Coherent t settings) (source : Source) :
    Upholds t settings s (restart source) := by
  refine .bind ((flush_ends s).mono (fun _ s₁ hs₁ => ?_) fun e s₁ hs₁ => ?_)
  · obtain ⟨output, rfl⟩ := hs₁
    have hflushed := h.flushed output
    have hbare := hflushed.coherent.unterminate
    refine .bind (.modify (.modify ((hflushed.trans hbare).trans ?_)))
    refine hbare.coherent.switchTo (covered_unterminate _) ?_ source
    rw [Scanner.unterminate_eq]
  · obtain ⟨⟨output, rfl⟩, -⟩ := hs₁
    exact h.flushed output

end Scanner

/-! ## Operations as data -/

section Perform

open Scanner

variable {t : Tables} {settings : BufferSettings} {s : Scanner}

theorem silently_upholds {m : ScannerM Unit} (h : Upholds t settings s m) :
    Upholds t settings s (silently m) :=
  .bind (h.mono (fun _ _ h => .pure h) fun _ _ => id)

/-- Every operation keeps the scanner coherent, whether it succeeds or fails. -/
theorem Edit.perform_upholds (h : s.Coherent t settings) (edit : Edit) :
    Upholds t settings s edit.perform := by
  cases edit with
  | input => exact input_upholds h
  | unput byte => exact silently_upholds (unput_upholds h byte)
  | unputAll bytes => exact silently_upholds (unputAll_upholds h bytes)
  | less n => exact silently_upholds (less_upholds h n)
  | more => exact silently_upholds (.modify (h.setKeepText true))
  | echo => exact silently_upholds (.bind (.get (write_upholds h s.text)))
  | begin sc => exact silently_upholds (begin_upholds h sc)
  | beginNamed name => exact silently_upholds (beginNamed_upholds h name)
  | write bytes => exact silently_upholds (write_upholds h bytes)
  | restart source => exact silently_upholds (restart_upholds h source)

end Perform

/-! ## New scanners -/

/-- A scanner that was built is coherent. -/
theorem ScannerOptions.build_coherent {o : ScannerOptions} {t : Tables} {source : Source}
    {output : Sink} {s : Scanner} (h : o.build t source output = .ok s) :
    t.Sound ∧ s.Coherent t o.bufferSettings ∧ s.covered = none := by
  obtain ⟨ht, sc, capacity, -, hstate, hbol, hroomy, rfl⟩ := of_build h
  exact ⟨ht, ⟨rfl, rfl, hroomy, Nat.le_refl _, (fun _ hc => nomatch hc),
    (fun _ hrun => nomatch hrun), Nat.le_refl _, hstate, hbol⟩, rfl⟩

end Munch
