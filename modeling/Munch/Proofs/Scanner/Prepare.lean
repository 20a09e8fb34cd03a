-- SUMMARY: Making room before an attempt is invisible: input, line start, text and output are as before.
import Munch.Proofs.Scanner.InputEnd
import Munch.Proofs.Scanner.Restart

/-! # Making room

The cursor, the text of the last match and the run of unmatched bytes are places in the buffer, and they
are stored apart. When bytes are dropped before an attempt all of them move by the same distance. A run
may be written out before, and a text that nobody asked to keep may fall off the front; the user of the
scanner sees nothing else. -/

namespace Munch

/-- The same bytes as in a window, in a buffer that has dropped some before them. -/
def Window.Moves (w : Window) (dropped : Nat) (w' : Window) : Prop :=
  w.start = w'.start + dropped ∧ w.length = w'.length

namespace Window

variable {w w' w'' : Window} {m n : Nat}

theorem Moves.trans (h : w.Moves m w') (h' : w'.Moves n w'') : w.Moves (m + n) w'' :=
  ⟨by rw [h.1, h'.1, Nat.add_assoc, Nat.add_comm n], h.2.trans h'.2⟩

theorem Moves.refl (w : Window) : w.Moves 0 w :=
  ⟨rfl, rfl⟩

theorem moves_shift (h : m ≤ w.start) : w.Moves m (w.shift m) := by
  rw [shift, if_pos h]
  exact ⟨(Nat.sub_add_cancel h).symm, rfl⟩

end Window

/-! ## Dropping bytes -/

namespace Buffer

/-- What was a slice is one still, counted from another byte. -/
theorem slice_trim (b : Buffer) (keepFrom start stop : Nat) :
    (b.trim keepFrom).2.slice start stop =
      b.slice (start + (b.trim keepFrom).1) (stop + (b.trim keepFrom).1) := by
  obtain ⟨stale, htrim⟩ := b.trim_eq keepFrom
  obtain ⟨-, hpassed, -⟩ := Scanner.trim_spec b keepFrom
  have hcursor := (b.cursor_trim keepFrom).1
  have hle := (b.trim_le keepFrom).2
  have hahead : (b.trim keepFrom).2.ahead = b.ahead := by rw [htrim]
  have hshift (n : Nat) : n - (b.trim keepFrom).2.cursor = n + (b.trim keepFrom).1 - b.cursor := by
    omega
  unfold slice
  rw [Array.toList_extract, Array.toList_extract, List.extract_eq_take_drop,
    List.extract_eq_take_drop, hpassed, hahead, hshift, hshift, List.drop_drop, Nat.add_comm _ start,
    Nat.add_sub_add_right]

theorem slice_of_moves {b : Buffer} {keepFrom : Nat} {w w' : Window}
    (h : w.Moves (b.trim keepFrom).1 w') :
    (b.trim keepFrom).2.slice w'.start w'.stop = b.slice w.start w.stop := by
  obtain ⟨hstart, hlength⟩ := h
  rw [slice_trim, Window.stop, Window.stop, hstart, hlength, Nat.add_right_comm]

/-- The byte before the cursor is kept, and so is what it says of the line. -/
theorem atLineStart_trim {b : Buffer} {keepFrom : Nat} (h : keepFrom ≤ b.cursor - 1) :
    (b.trim keepFrom).2.atLineStart = b.atLineStart := by
  obtain ⟨hle, hpassed, -⟩ := Scanner.trim_spec b keepFrom
  have hlength : b.passed.toList.length = b.cursor := Array.length_toList
  rw [atLineStart, atLineStart, ← Array.getLast?_toList, ← Array.getLast?_toList, hpassed,
    List.getLast?_drop]
  split
  · have hnil : b.passed.toList = [] := List.length_eq_zero_iff.1 (by omega)
    rw [hnil]
    rfl
  · rfl

end Buffer

namespace Scanner

/-- Between two scanners nothing has changed that the user sees, but some bytes were dropped. -/
structure Unseen (s : Scanner) (dropped : Nat) (s' : Scanner) : Prop where
  pending_eq : s'.pending = s.pending
  atLineStart_eq : s'.buffer.atLineStart = s.buffer.atLineStart
  /-- What was written and what is to be are the same together. -/
  written_eq : s'.output.written.toList ++ s'.unwritten = s.output.written.toList ++ s.unwritten
  text_kept : s.keepText = true → s'.text = s.text
  text_eq : s'.text = s.text ∨ s'.text = []
  cursor_eq : s.buffer.cursor = s'.buffer.cursor + dropped
  window : s.window.Moves dropped s'.window ∨ s'.window = {}
  unmatched_none : s.unmatched = none → s'.unmatched = none
  /-- A run has moved, or it was written out. -/
  unmatched_some : ∀ run, s.unmatched = some run →
    (∃ run', s'.unmatched = some run' ∧ run.Moves dropped run') ∨ s'.unmatched = none
  frame : s' = { s with
    buffer := s'.buffer
    output := { s.output with written := s'.output.written }
    window := s'.window
    unmatched := s'.unmatched }

variable {s s' s'' : Scanner} {m n : Nat}

namespace Unseen

theorem keepText_eq (h : s.Unseen m s') : s'.keepText = s.keepText := by
  rw [h.frame]

/-- Bytes may be dropped in several steps. -/
theorem trans (h : s.Unseen m s') (h' : s'.Unseen n s'') : s.Unseen (m + n) s'' where
  pending_eq := h'.pending_eq.trans h.pending_eq
  atLineStart_eq := h'.atLineStart_eq.trans h.atLineStart_eq
  written_eq := h'.written_eq.trans h.written_eq
  text_kept hkeep := (h'.text_kept (h.keepText_eq.trans hkeep)).trans (h.text_kept hkeep)
  text_eq := by
    rcases h'.text_eq with heq | hnil
    · exact heq ▸ h.text_eq
    · exact .inr hnil
  cursor_eq := by rw [h.cursor_eq, h'.cursor_eq, Nat.add_assoc, Nat.add_comm n]
  window := by
    rcases h'.window with hmoves' | hvoid
    · rcases h.window with hmoves | hvoid
      · exact .inl (hmoves.trans hmoves')
      · -- A void window stays void.
        obtain ⟨hstart, hlength⟩ := hvoid ▸ hmoves'
        have hzero : s''.window.start = 0 := (Nat.add_eq_zero_iff.1 hstart.symm).1
        refine .inr ?_
        cases hwindow : s''.window with
        | mk start length =>
          rw [hwindow] at hzero hlength
          exact congrArg₂ Window.mk hzero hlength.symm
    · exact .inr hvoid
  unmatched_none hnone := h'.unmatched_none (h.unmatched_none hnone)
  unmatched_some run hrun := by
    rcases h.unmatched_some run hrun with ⟨run', hrun', hmoves⟩ | hnone
    · rcases h'.unmatched_some run' hrun' with ⟨run'', hrun'', hmoves'⟩ | hnone
      · exact .inl ⟨run'', hrun'', hmoves.trans hmoves'⟩
      · exact .inr hnone
    · exact .inr (h'.unmatched_none hnone)
  frame := by
    have hframe := h'.frame
    rw [h.frame] at hframe
    exact hframe

end Unseen

/-! ## Writing and dropping -/

theorem flush_eq_ok (hlimit : s.output.limit = none) :
    flush s = .ok () { s.wrote s.unwritten with unmatched := none } := by
  unfold flush unwritten
  cases hrun : s.unmatched with
  | none =>
    have hsame : { s.wrote [] with unmatched := none } = s := by
      simp only [wrote, Array.append_empty, ← hrun]
    exact congrArg (EStateM.Result.ok ()) hsame.symm
  | some run => exact write_eq_ok (s := { s with unmatched := none }) hlimit _

/-- Writing the run only moves it to what was written. -/
theorem flush_unseen (s : Scanner) : s.Unseen 0 { s.wrote s.unwritten with unmatched := none } where
  pending_eq := rfl
  atLineStart_eq := rfl
  written_eq := (List.append_nil _).trans (toList_wrote s s.unwritten)
  text_kept _ := rfl
  text_eq := .inl rfl
  cursor_eq := rfl
  window := .inl (.refl _)
  unmatched_none _ := rfl
  unmatched_some _ _ := .inr rfl
  frame := rfl

theorem trim_unseen (hcovered : s.covered = none) :
    s.Unseen (s.buffer.trim s.keepFrom).1 s.trim := by
  obtain ⟨hcursor, hkept, hruns⟩ := s.keepFrom_le
  obtain ⟨hle, -, hpending, -, -⟩ := trim_spec s.buffer s.keepFrom
  have hrun (run : Window) (hmem : s.unmatched = some run) :
      run.Moves (s.buffer.trim s.keepFrom).1 (run.shift (s.buffer.trim s.keepFrom).1) :=
    Window.moves_shift (Nat.le_trans hle (hruns run hmem))
  have htext (hstart : (s.buffer.trim s.keepFrom).1 ≤ s.window.start) : s.trim.text = s.text :=
    Buffer.slice_of_moves (Window.moves_shift hstart)
  have hvoid (hstart : ¬ (s.buffer.trim s.keepFrom).1 ≤ s.window.start) : s.trim.window = {} :=
    if_neg hstart
  constructor
  case pending_eq =>
    rw [pending_of_uncovered hcovered]
    exact (pending_of_uncovered (s := s.trim) hcovered).trans hpending
  case atLineStart_eq => exact Buffer.atLineStart_trim hcursor
  case written_eq =>
    refine congrArg (s.output.written.toList ++ ·) ?_
    unfold unwritten
    cases hunmatched : s.unmatched with
    | none => simp only [trim, hunmatched, Option.map_none, Option.elim_none]
    | some run =>
      simp only [trim, hunmatched, Option.map_some, Option.elim_some]
      exact Buffer.slice_of_moves (hrun run hunmatched)
  case text_kept =>
    intro hkeep
    exact htext (Nat.le_trans hle (hkept hkeep))
  case text_eq =>
    by_cases hstart : (s.buffer.trim s.keepFrom).1 ≤ s.window.start
    · exact .inl (htext hstart)
    · refine .inr ?_
      rw [text, hvoid hstart]
      simp [Buffer.slice, Window.stop]
  case cursor_eq =>
    rw [Nat.add_comm]
    exact (s.buffer.cursor_trim s.keepFrom).1.symm
  case window =>
    by_cases hstart : (s.buffer.trim s.keepFrom).1 ≤ s.window.start
    · exact .inl (Window.moves_shift hstart)
    · exact .inr (hvoid hstart)
  case unmatched_none =>
    intro hnone
    simp only [trim, hnone, Option.map_none]
  case unmatched_some =>
    intro run hmem
    exact .inl ⟨_, by simp only [trim, hmem, Option.map_some], hrun run hmem⟩
  case frame => rfl

/-- With an output that takes everything, making room succeeds and is not seen. -/
theorem prepare_unseen (hcovered : s.covered = none) (hlimit : s.output.limit = none) :
    ∃ dropped s', prepare s = .ok () s' ∧ s.Unseen dropped s' := by
  by_cases hlong : s.unmatched.any (s.buffer.settings.blockSize ≤ ·.length) = true
  · have hprepare : prepare s = .ok () (trim { s.wrote s.unwritten with unmatched := none }) := by
      rw [prepare, bind_of_ok (get_apply s), if_pos hlong, bind_of_ok (flush_eq_ok hlimit)]
      rfl
    have htrim := trim_unseen (s := { s.wrote s.unwritten with unmatched := none }) hcovered
    exact ⟨_, _, hprepare, s.flush_unseen.trans htrim⟩
  · have hprepare : prepare s = .ok () s.trim := by
      rw [prepare, bind_of_ok (get_apply s), if_neg hlong]
      rfl
    exact ⟨_, _, hprepare, trim_unseen hcovered⟩

end Scanner

/-! ## Scan loops -/

/-- Making room is invisible at every attempt of every scan, behind whatever a session has done, if the
output takes everything. -/
theorem Session.prepare_invisible {o : ScannerOptions} {t : Tables} {source : Source} {output : Sink}
    {s : Scanner} (hbuild : o.build t source output = .ok s) {σ α : Type} (session : Session σ α)
    (memory : σ) {note : Note} {earlier : List Note}
    (hsuffix : note :: earlier <:+ session.notes memory s) {start : Scanner}
    (hattempts : note.Attempts start) (hlimit : start.output.limit = none) :
    ∃ dropped prepared, Scanner.prepare start = .ok () prepared ∧ start.Unseen dropped prepared := by
  obtain ⟨ht, hproper, -⟩ := session.recorded hbuild memory hsuffix
  have hcoherent := (hproper note earlier List.suffix_rfl).coherent
  obtain ⟨-, hcovered, -⟩ := hattempts.moves ht hcoherent
  exact Scanner.prepare_unseen hcovered hlimit

/-- Behind three matches of a byte each, with blocks of one byte. The byte before the text is dropped. -/
theorem Session.prepare_invisible_oneByte : ∃ s note earlier prepared,
    ({ blockSize := 1 } : ScannerOptions).build Tables.oneByte (.ofBytes [120, 97, 98]) {} = .ok s ∧
    note :: earlier <:+ toTheEnd.notes () s ∧
    Scanner.prepare note.scanner.unterminate = .ok () prepared ∧
    note.scanner.unterminate.Unseen 1 prepared ∧ prepared.text = [98] := by
  have hrun : (match ({ blockSize := 1 } : ScannerOptions).build Tables.oneByte
        (.ofBytes [120, 97, 98]) {} with
      | .ok s => match toTheEnd.notes () s with
        | note :: _ => match Scanner.prepare note.scanner.unterminate with
          | .ok _ prepared => decide (note.scanner.unterminate.output.limit = none ∧
              note.scanner.unterminate.buffer.cursor = prepared.buffer.cursor + 1 ∧
              prepared.text = [98])
          | .error _ _ => false
        | [] => false
      | .error _ => false) = true := by decide +kernel
  split at hrun
  · rename_i s hbuild
    split at hrun
    · rename_i note earlier hnotes
      split at hrun
      · rename_i prepared hprepare
        obtain ⟨hlimit, hcursor, htext⟩ := of_decide_eq_true hrun
        have hsuffix : note :: earlier <:+ toTheEnd.notes () s := hnotes ▸ List.suffix_rfl
        obtain ⟨dropped, prepared', hprepare', hunseen⟩ :=
          prepare_invisible hbuild toTheEnd () hsuffix .here hlimit
        obtain ⟨-, rfl⟩ := EStateM.Result.ok.inj (hprepare.symm.trans hprepare')
        obtain rfl : dropped = 1 := Nat.add_left_cancel (hunseen.cursor_eq.symm.trans hcursor)
        exact ⟨s, note, earlier, prepared, hbuild, hsuffix, hprepare, hunseen, htext⟩
      · exact Bool.noConfusion hrun
    · exact Bool.noConfusion hrun
  · exact Bool.noConfusion hrun

end Munch
