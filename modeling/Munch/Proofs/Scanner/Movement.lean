-- SUMMARY: What each operation moves past the cursor or back, and how it counts the newlines of that.
import Munch.Proofs.Scanner.Consumption

/-! # Movements

Whatever a step of a session does, it does one of four things to the input: it consumes bytes, pushes
bytes back, gives consumed bytes back, or goes on with another source. The number of the line follows,
but never falls below 1. -/

namespace Munch

/-- What a step does to the input. -/
inductive Movement where
  /-- Some pending bytes are passed. -/
  | consumed (bytes : List UInt8)
  /-- Some bytes are put in front of the pending ones. -/
  | pushedBack (bytes : List UInt8)
  /-- The last bytes passed are pending again. -/
  | givenBack (bytes : List UInt8)
  /-- The source is left for another one. -/
  | restarted

namespace Movement

/-- A step has moved this much past the cursor or back. It may have dropped some of the first bytes
passed, but not the last one. -/
def Moves (dropped : Nat) (s s' : Scanner) : Movement → Prop
  | consumed bytes => s.pending = bytes ++ s'.pending ∧
      s'.buffer.passed.toList = (s.buffer.passed.toList ++ bytes).drop dropped ∧
      dropped ≤ (s.buffer.passed.toList ++ bytes).length - 1
  | pushedBack bytes => s'.pending = bytes ++ s.pending ∧
      s'.buffer.passed.toList = s.buffer.passed.toList
  | givenBack bytes => s'.pending = bytes ++ s.pending ∧
      s.buffer.passed.toList = s'.buffer.passed.toList ++ bytes
  | restarted => s'.buffer.passed.toList = []

/-- The number of the line after a step. -/
def line (before : Nat) : Movement → Nat
  | consumed bytes => before + newlines bytes
  | pushedBack bytes => max (before - newlines bytes) 1
  | givenBack bytes => max (before - newlines bytes) 1
  | restarted => before

/-- A step that has left the input alone. -/
theorem Moves.nil {s s' : Scanner} (hpassed : s'.buffer.passed.toList = s.buffer.passed.toList)
    (hpending : s'.pending = s.pending) : (consumed []).Moves 0 s s' :=
  ⟨hpending.symm, by rw [hpassed, List.append_nil]; rfl, Nat.zero_le _⟩

end Movement

/-! ## Operations -/

/-- Reading passes the byte that it returns. -/
theorem Buffer.readByte_consumes {b : Buffer} (hb : b.Roomy) :
    ends readByte
      (fun byte b' => b'.passed.toList = b.passed.toList ++ byte.toList ∧
        b.pending = byte.toList ++ b'.pending)
      (fun _ b' => b'.passed.toList = b.passed.toList ∧ b'.pending = b.pending) b := by
  refine .of_result (fun byte b' hread => ?_) fun e b' hread => ?_
  · have hprobed := (readByte_probed hb).ok hread
    obtain ⟨bytes, hpassed, hpending⟩ := hprobed.1.toExtends.consumes hprobed.1.cursor_le
    have hbytes : bytes = byte.toList :=
      List.append_cancel_left (hpassed.symm.trans (Scanner.passed_of_read hread hprobed).1)
    exact ⟨hbytes ▸ hpassed, hbytes ▸ hpending⟩
  · have hcursor := ((readByte_ends hb).error hread).2.2
    have hextends := ((readByte_probed hb).error hread).1.toExtends
    obtain ⟨bytes, hpassed, hpending⟩ := hextends.consumes (Nat.le_of_eq hcursor.symm)
    have hnil : bytes = [] := by
      have hlength := congrArg List.length hpassed
      rw [List.length_append, Array.length_toList, Array.length_toList] at hlength
      simp only [cursor] at hcursor
      exact List.length_eq_zero_iff.1 (by omega)
    subst hnil
    exact ⟨hpassed.trans (List.append_nil _), hpending.symm⟩

/-- What an operation with such an outcome does to the input. -/
def Edit.movement (edit : Edit) (result : Except ScanError (Option UInt8)) (s s' : Scanner) :
    Movement :=
  match edit, result with
  | .input, .ok byte => .consumed byte.toList
  | .unput byte, .ok _ => .pushedBack [byte]
  | .unputAll _, _ => .pushedBack (s'.taken s)
  | .less _, .ok _ => .givenBack (s'.taken s)
  | .restart _, .ok _ => .restarted
  | _, _ => .consumed []

namespace Scanner

variable {t : Tables} {settings : BufferSettings} {s s' : Scanner}

/-- A step does to the input and to the line what the movement says, and drops nothing. -/
def Shifts (s : Scanner) (movement : Movement) (s' : Scanner) : Prop :=
  movement.Moves 0 s s' ∧ s'.line = movement.line s.line

theorem SameInput.shifts (h : s.SameInput s') (hline : s'.line = s.line) :
    s.Shifts (.consumed []) s' :=
  ⟨.nil (congrArg Array.toList h.passed_eq) h.pending_eq, hline⟩

theorem input_shifts (h : s.Coherent t settings) :
    ends input (fun byte s' => s.Shifts (.consumed byte.toList) s')
      (fun _ s' => s.Shifts (.consumed []) s') s := by
  have hsame := h.sameInput_unterminate
  have hnone := covered_unterminate s
  refine .bind (.modify (.bind (.onBuffer ?_)))
  refine (Buffer.readByte_consumes h.unterminate.coherent.roomy).mono (fun byte buffer h' => ?_)
    fun e buffer h' => ?_
  · obtain ⟨hpassed, hpending⟩ := h'
    have hmoves (line : Nat) :
        (Movement.consumed byte.toList).Moves 0 s { s.unterminate with buffer, line } := by
      refine ⟨?_, hpassed.trans (by rw [hsame.passed_eq]; rfl), Nat.zero_le _⟩
      rw [← hsame.pending_eq, pending_of_uncovered hnone, hpending, pending_of_uncovered (by exact hnone)]
    refine .whenThen ?_
    split
    · rename_i hnewline
      refine .modify (.pure ⟨hmoves _, ?_⟩)
      rw [hnewline]
      exact congrArg (· + 1) s.unterminate_line
    · rename_i hother
      refine .pure (.pure ⟨hmoves _, s.unterminate_line.trans ?_⟩)
      cases byte with
      | none => rfl
      | some byte =>
        have hne : byte ≠ 10 := fun heq => hother (congrArg some heq)
        simp [Movement.line, newlines, hne]
  · refine ⟨.nil (h'.1.trans (congrArg _ hsame.passed_eq)) ?_, s.unterminate_line⟩
    rw [pending_of_uncovered (by exact hnone), ← hsame.pending_eq, pending_of_uncovered hnone]
    exact h'.2

theorem unput_shifts (h : s.Coherent t settings) (byte : UInt8) :
    ends (unput byte) (fun _ s' => s.Shifts (.pushedBack [byte]) s')
      (fun _ s' => s.Shifts (.consumed []) s') s :=
  ((unput_ends h byte).and (unput_line h.line_pos byte)).mono
    (fun _ _ h' => ⟨⟨h'.1.2.2, congrArg Array.toList h'.1.1⟩, h'.2⟩) fun _ _ h' => h'.1.shifts h'.2

theorem PutBack.shifts (h : s.PutBack s') : ∃ given, s.Shifts (.pushedBack given) s' := by
  obtain ⟨given, hpending, hline⟩ := h.given
  exact ⟨given, ⟨hpending, congrArg Array.toList h.passed_eq⟩, hline⟩

theorem less_shifts (h : s.Coherent t settings) {n : Nat} (hn : n ≤ s.window.length) :
    ends (less n) (fun _ s' => ∃ given, s.Shifts (.givenBack given) s') (fun _ _ => False) s := by
  have hsame := h.sameInput_unterminate
  have hline : ends (less n) (fun _ s' => s'.line = (s.unterminate.cut n).line) (fun _ _ => False) s := by
    refine .congr (less_eq hn) ?_
    split
    · exact .modify rfl
    · exact .pure rfl
  refine ((less_ends h hn).and hline).mono (fun _ s' h' => ?_) fun _ _ h' => h'.1
  obtain ⟨⟨hpassed, -, hpending⟩, hline⟩ := h'
  refine ⟨_, ⟨hpending, ?_⟩, hline.trans ?_⟩
  · rw [hpassed, List.take_append_drop]
  · have hrest : s.unterminate.buffer.slice (s.unterminate.window.start + n) s.unterminate.buffer.cursor =
        s.buffer.passed.toList.drop (s.window.start + n) := by
      rw [slice_of_le (Nat.le_refl _), hsame.passed_eq, hsame.window_eq]
      refine List.take_of_length_le ?_
      rw [List.length_drop, Array.length_toList]
      exact Nat.le_of_eq (congrArg (·.size - _) hsame.passed_eq.symm)
    show max (s.unterminate.line - newlines (s.unterminate.buffer.slice _ _)) 1 = _
    rw [hrest, s.unterminate_line]
    rfl

theorem restart_shifts (source : Source) (s : Scanner) :
    ends (restart source) (fun _ s' => s.Shifts .restarted s')
      (fun _ s' => s.Shifts (.consumed []) s') s := by
  refine .bind ((flush_ends s).mono (fun _ s₁ h₁ => ?_) fun e s₁ h₁ => ?_)
  · obtain ⟨output, rfl⟩ := h₁
    exact .bind (.modify (.modify ⟨rfl, unterminate_line _⟩))
  · obtain ⟨⟨output, rfl⟩, -⟩ := h₁
    exact ⟨.nil rfl rfl, rfl⟩

end Scanner

open Scanner

variable {t : Tables} {settings : BufferSettings} {s s' : Scanner}

theorem Edit.KeepsInput.shifts {edit : Edit} (h : edit.KeepsInput) (s : Scanner) :
    ends edit.perform (fun _ s' => s.Shifts (.consumed []) s') (fun _ s' => s.Shifts (.consumed []) s')
      s :=
  (h.perform_retouched s).mono (fun _ _ ⟨_, _, heq⟩ => heq ▸ ⟨.nil rfl rfl, rfl⟩)
    fun _ _ ⟨_, _, heq⟩ => heq ▸ ⟨.nil rfl rfl, rfl⟩

/-- Every operation does to the input and to the line what its outcome says. -/
theorem Edit.perform_shifts (h : s.Coherent t settings) (edit : Edit) :
    ends edit.perform (fun result s' => s.Shifts (edit.movement (.ok result) s s') s')
      (fun e s' => s.Shifts (edit.movement (.error e) s s') s') s := by
  have htaken {given : List UInt8} {s' : Scanner} (h' : s'.pending = given ++ s.pending) :
      s'.taken s = given := taken_of_append h'
  have hback {s' : Scanner} (h' : s.PutBack s') : s.Shifts (.pushedBack (s'.taken s)) s' := by
    obtain ⟨given, hshifts⟩ := h'.shifts
    rwa [htaken hshifts.1.1]
  have hall (bytes : List UInt8) : ends (Scanner.unputAll bytes)
      (fun _ s' => s.Shifts (.pushedBack (s'.taken s)) s')
      (fun _ s' => s.Shifts (.pushedBack (s'.taken s)) s') s :=
    (unputAll_ends h bytes).mono (fun _ _ h' => hback h') fun _ _ h' => hback h'
  cases edit with
  | input => exact input_shifts h
  | unput byte =>
    exact .bind ((unput_shifts h byte).mono (fun _ _ h' => .pure h') fun _ _ h' => h')
  | unputAll bytes => exact .bind ((hall bytes).mono (fun _ _ h' => .pure h') fun _ _ h' => h')
  | less n =>
    show ends (silently (Scanner.less n)) _ _ s
    by_cases hn : s.window.length < n
    · exact .bind (.of_error (less_eq_error hn) ⟨.nil rfl rfl, rfl⟩)
    · refine .bind ((less_shifts h (Nat.le_of_not_lt hn)).mono (fun _ s' h' => .pure ?_)
        fun _ _ => False.elim)
      obtain ⟨given, h'⟩ := h'
      show s.Shifts (.givenBack (s'.taken s)) s'
      exact (htaken h'.1.1).symm ▸ h'
  | restart source =>
    exact .bind ((restart_shifts source s).mono (fun _ _ h' => .pure h') fun _ _ h' => h')
  | more => exact KeepsInput.shifts (by trivial) s
  | echo => exact KeepsInput.shifts (by trivial) s
  | begin sc => exact KeepsInput.shifts (by trivial) s
  | beginNamed name => exact KeepsInput.shifts (by trivial) s
  | write bytes => exact KeepsInput.shifts (by trivial) s

end Munch
