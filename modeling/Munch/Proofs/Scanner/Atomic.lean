-- SUMMARY: Failed operations are atomic: what a user sees of the scanner, and what it has still to read, stay the same.
import Munch.Proofs.Scanner.PendingInput

/-! # Failed operations

An operation that fails may have taken the terminator away, grown the buffer, moved bytes from the source
into it, written some bytes and dropped the unmatched ones. Nothing of this shows in the text and the
state that a user sees, and the bytes that are still to be read are those from before, wherever they now
stand. -/

namespace Munch

/-- Bytes that were only moved from the source into the buffer are pending as before. -/
theorem Buffer.Extends.of_cursor_eq {b b' : Buffer} (h : b.Extends b') (hcursor : b'.cursor = b.cursor) :
    b'.passed = b.passed ∧ b'.pending = b.pending := by
  constructor
  · rw [← Array.toList_inj, passed_eq_take, h.stream_eq, hcursor, ← passed_eq_take]
  · rw [pending_eq_drop, h.stream_eq, hcursor, ← pending_eq_drop]

namespace Scanner

/-- What a user sees of a scanner, and the input before it, is the same. -/
structure Unchanged (s s' : Scanner) : Prop where
  text_eq : s'.text = s.text
  length_eq : s'.window.length = s.window.length
  rule_eq : s'.rule = s.rule
  line_eq : s'.line = s.line
  startCondition_eq : s'.startCondition = s.startCondition
  keepText_eq : s'.keepText = s.keepText
  pending_eq : s'.pending = s.pending

variable {t : Tables} {settings : BufferSettings} {s s' s'' : Scanner}

namespace Unchanged

theorem refl (s : Scanner) : s.Unchanged s :=
  ⟨rfl, rfl, rfl, rfl, rfl, rfl, rfl⟩

theorem trans (h : s.Unchanged s') (h' : s'.Unchanged s'') : s.Unchanged s'' where
  text_eq := h'.text_eq.trans h.text_eq
  length_eq := h'.length_eq.trans h.length_eq
  rule_eq := h'.rule_eq.trans h.rule_eq
  line_eq := h'.line_eq.trans h.line_eq
  startCondition_eq := h'.startCondition_eq.trans h.startCondition_eq
  keepText_eq := h'.keepText_eq.trans h.keepText_eq
  pending_eq := h'.pending_eq.trans h.pending_eq

/-- What was written, and which unmatched bytes are still to be, is not seen. -/
theorem setOutput (s : Scanner) (output : Sink) (unmatched : Option Window) :
    s.Unchanged { s with output, unmatched } :=
  ⟨rfl, rfl, rfl, rfl, rfl, rfl, rfl⟩

end Unchanged

namespace Coherent

theorem unchanged_unterminate (h : s.Coherent t settings) : s.Unchanged s.unterminate where
  text_eq := h.text_unterminate
  length_eq := by rw [s.unterminate_window]
  rule_eq := by rw [Scanner.unterminate_eq]
  line_eq := s.unterminate_line
  startCondition_eq := s.unterminate_startCondition
  keepText_eq := s.unterminate_keepText
  pending_eq := h.sameInput_unterminate.pending_eq

/-- A buffer that holds more of the same bytes, with the cursor where it was, is not seen. -/
theorem unchanged_buffer (h : s.Coherent t settings) (hcovered : s.covered = none) {buffer : Buffer}
    (hextends : s.buffer.Extends buffer) (hcursor : buffer.cursor = s.buffer.cursor) :
    s.Unchanged { s with buffer } := by
  obtain ⟨hpassed, hpending⟩ := hextends.of_cursor_eq hcursor
  have htext : buffer.slice s.window.start s.window.stop =
      s.buffer.slice s.window.start s.window.stop := by
    rw [slice_of_le h.stop_le, slice_of_le (hcursor.symm ▸ h.stop_le), hpassed]
  have hcovered' : ({ s with buffer } : Scanner).covered = none := hcovered
  refine ⟨htext, rfl, rfl, rfl, rfl, rfl, ?_⟩
  rw [pending_of_uncovered hcovered', pending_of_uncovered hcovered]
  exact hpending

end Coherent

/-! ## Operations -/

/-- If the computation fails, nothing has changed. -/
def Atomic {α : Type} (s : Scanner) (m : ScannerM α) : Prop :=
  ends m (fun _ _ => True) (fun _ s' => s.Unchanged s') s

theorem input_atomic (h : s.Coherent t settings) : s.Atomic input := by
  have hbare := h.unterminate.coherent
  refine .bind (.modify (.bind (.onBuffer (.of_result (fun byte buffer _ => ?_)
    fun e buffer hread => ?_))))
  · refine .whenThen ?_
    split
    · exact .modify (.pure trivial)
    · exact .pure (.pure trivial)
  · -- A refill that fails may have added bytes before.
    have hextends := final_of_error hread ▸ Buffer.readByte_extends s.unterminate.buffer
    have hcursor := ((Buffer.readByte_ends hbare.roomy).error hread).2.2
    exact h.unchanged_unterminate.trans
      (hbare.unchanged_buffer (covered_unterminate s) hextends hcursor)

theorem unput_atomic (h : s.Coherent t settings) (byte : UInt8) : s.Atomic (unput byte) := by
  have hbare := h.unterminate.coherent
  refine .bind (.get (.bind (.modify (.bind (.onBuffer ?_)))))
  refine (Buffer.insert_ends hbare.roomy byte).mono (fun _ buffer _ => ?_) fun e buffer hinsert => ?_
  · have hcount (s₁ : Scanner) :
        ends (if byte = 10 then modify fun s => { s with line := max (s.line - 1) 1 } else pure ⟨⟩ :
          ScannerM PUnit) (fun _ _ => True) (fun _ s' => s.Unchanged s') s₁ := by
      split
      · exact .modify trivial
      · exact .pure trivial
    refine .whenThen ?_
    split
    · exact .modify (hcount _)
    · exact .pure (hcount _)
  · rw [hinsert.2]
    exact h.unchanged_unterminate

theorem less_atomic (h : s.Coherent t settings) (n : Nat) : s.Atomic (less n) := by
  by_cases hn : s.window.length < n
  · exact .of_error (less_eq_error hn) (.refl s)
  · exact (less_ends h (Nat.le_of_not_lt hn)).mono (fun _ _ _ => trivial) fun _ _ => False.elim

theorem write_atomic (bytes : List UInt8) (s : Scanner) : s.Atomic (write bytes) := by
  refine (write_ends bytes s).mono (fun _ _ _ => trivial) fun e s' hs' => ?_
  obtain ⟨⟨output, rfl⟩, -⟩ := hs'
  exact .setOutput s output s.unmatched

theorem begin_atomic (sc : StartCondition) (s : Scanner) : s.Atomic (begin sc) := by
  cases hentries : s.tables.entryStates sc with
  | error fault => exact .of_error (begin_eq_error hentries) (.refl s)
  | ok entries => exact .bind (.get (.bind (.liftFault hentries (.modify trivial))))

theorem beginNamed_atomic (name : String) (s : Scanner) : s.Atomic (beginNamed name) := by
  refine .bind (.get ?_)
  split
  · exact begin_atomic _ s
  · exact .throw (.refl s)

theorem restart_atomic (source : Source) (s : Scanner) : s.Atomic (restart source) := by
  refine .bind ((flush_ends s).mono (fun _ _ _ => .bind (.modify (.modify trivial)))
    fun e s' hs' => ?_)
  obtain ⟨⟨output, rfl⟩, -⟩ := hs'
  exact .setOutput s output none

theorem silently_atomic {m : ScannerM Unit} (h : s.Atomic m) : s.Atomic (silently m) :=
  .bind (h.mono (fun _ _ _ => .pure trivial) fun _ _ => id)

end Scanner

/-- The operation is one call. -/
def Edit.Single : Edit → Prop
  | .unputAll _ => False
  | _ => True

open Scanner

theorem Edit.perform_atomic {t : Tables} {settings : BufferSettings} {s : Scanner}
    (h : s.Coherent t settings) {edit : Edit} (hsingle : edit.Single) : s.Atomic edit.perform := by
  cases edit with
  | input => exact input_atomic h
  | unput byte => exact silently_atomic (unput_atomic h byte)
  | unputAll bytes => exact hsingle.elim
  | less n => exact silently_atomic (less_atomic h n)
  | more => exact silently_atomic (.modify trivial)
  | echo => exact silently_atomic (.bind (.get (write_atomic s.text s)))
  | begin sc => exact silently_atomic (begin_atomic sc s)
  | beginNamed name => exact silently_atomic (beginNamed_atomic name s)
  | write bytes => exact silently_atomic (write_atomic bytes s)
  | restart source => exact silently_atomic (restart_atomic source s)

/-- Failed operations are atomic. In every state that a session comes to, each single operation that
fails leaves the text, its length, the rule, the line, the start condition, the request to keep the text
and the pending input as they were, although bytes may have been read, written or dropped before it
failed. -/
theorem Session.failed_unchanged {o : ScannerOptions} {t : Tables} {source : Source} {output : Sink}
    {s : Scanner} (hbuild : o.build t source output = .ok s) {σ α : Type} (session : Session σ α)
    (memory : σ) {note : Note} (hnote : note ∈ session.notes memory s) {edit : Edit}
    (hsingle : edit.Single) {e : ScanError} {s' : Scanner}
    (hrun : edit.perform note.scanner = .error e s') : note.scanner.Unchanged s' := by
  obtain ⟨later, earlier, hnotes⟩ := List.append_of_mem hnote
  have hproper := session.allProper hbuild memory note earlier ⟨later, hnotes.symm⟩
  exact (edit.perform_atomic hproper.coherent hsingle).error hrun

/-- A line is read up to a failure in the middle of it. The byte before the failure is in the buffer
then and the terminator is gone, but the next byte to be read is still that one. -/
theorem Session.failed_unchanged_oneByte : ∃ s note s',
    ({ interactive := true } : ScannerOptions).build Tables.oneByte
      ⟨[.data [97], .stop, .stop, .data [98], .failure "disk on fire", .data [99]]⟩ {} = .ok s ∧
    note ∈ oneMatch.notes () s ∧ note.scanner.buffer.ahead = [] ∧ note.scanner.covered.isSome = true ∧
    input note.scanner = .error (.io "disk on fire") s' ∧
    s'.buffer.ahead = [98] ∧ s'.covered = none ∧ note.scanner.Unchanged s' := by
  have hrun : (match ({ interactive := true } : ScannerOptions).build Tables.oneByte
        ⟨[.data [97], .stop, .stop, .data [98], .failure "disk on fire", .data [99]]⟩ {} with
      | .ok s => decide (∃ note ∈ oneMatch.notes () s, note.scanner.buffer.ahead = [] ∧
          note.scanner.covered.isSome = true ∧
          (match input note.scanner with
          | .error e s' =>
            decide (e = .io "disk on fire" ∧ s'.buffer.ahead = [98] ∧ s'.covered = none)
          | .ok _ _ => false) = true)
      | .error _ => false) = true := by decide +kernel
  split at hrun
  · rename_i s hbuild
    obtain ⟨note, hmem, hahead, hcovered, hfailed⟩ := of_decide_eq_true hrun
    split at hfailed
    · rename_i e s' hinput
      obtain ⟨rfl, hadded, hbare⟩ := of_decide_eq_true hfailed
      have hperform : Edit.input.perform note.scanner = .error (.io "disk on fire") s' := hinput
      have hunchanged := failed_unchanged hbuild oneMatch () hmem (by trivial) hperform
      exact ⟨s, note, s', hbuild, hmem, hahead, hcovered, hinput, hadded, hbare, hunchanged⟩
    · exact Bool.noConfusion hfailed
  · exact Bool.noConfusion hrun

end Munch
