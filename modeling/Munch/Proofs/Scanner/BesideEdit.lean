-- SUMMARY: Operations on scanners side by side: the same result on both, as long as the lines do not run out.
import Munch.Proofs.Scanner.Beside
import Munch.Proofs.Scanner.PendingInput

/-! # Operations side by side

While no terminator stands, operations do the same on both of two scanners that are side by side, as
advances do. Only giving input back can make a difference: the number of the line never goes below 1,
and a scanner with a headstart gets there later. -/

namespace Munch

/-- What an operation gives back to the input has fewer newlines than the line is away from 0. -/
def Edit.Counts (edit : Edit) (s : Scanner) : Prop :=
  edit.KeepsSource → ∀ given, (final edit.perform s).pending = given ++ s.pending →
    newlines given < s.line

namespace Scanner

variable {R : Buffer → Buffer → Prop} {head : Headstart} {ruled : Prop} {s s' : Scanner}

/-! ## What is given back -/

/-- The scanner with the newlines of some bytes not counted any more. -/
def uncount (bytes : List UInt8) (s : Scanner) : Scanner :=
  { s with line := max (s.line - newlines bytes) 1 }

theorem uncount_line {bytes : List UInt8} (h : newlines bytes < s.line) :
    (s.uncount bytes).line = s.line - newlines bytes :=
  Nat.max_eq_left (Nat.sub_pos_of_lt h)

/-- Without a terminator a byte is inserted, and its newline not counted any more. -/
theorem unput_eq (hcovered : s.covered = none) (hline : 1 ≤ s.line) (byte : UInt8) :
    unput byte s = match Buffer.insert byte s.buffer with
      | .ok _ buffer => .ok () (uncount [byte] { s with buffer })
      | .error e buffer => .error e { s with buffer } := by
  have hrun : unput byte s = (onBuffer (Buffer.insert byte) >>= fun _ =>
      if byte = 10 then modify fun s => { s with line := max (s.line - 1) 1 } else pure ⟨⟩) s := by
    simp only [unput, Bind.bind, EStateM.bind, get_apply, modify_apply, unterminate_of_none hcovered,
      hcovered, Option.isSome_none, Bool.false_eq_true, if_false]
  rw [hrun]
  simp only [Bind.bind, EStateM.bind, onBuffer]
  cases Buffer.insert byte s.buffer with
  | error e buffer => rfl
  | ok u buffer =>
    dsimp only
    by_cases hnewline : byte = 10
    · subst hnewline
      rfl
    · have hsame : uncount [byte] { s with buffer } = { s with buffer } := by
        simp [uncount, newlines, hnewline, hline]
      rw [hsame, if_neg hnewline]
      rfl

namespace Beside

/-! ## Input, modes and sources -/

theorem bare_inStep : InStep (Beside R head ruled) (modify Scanner.unterminate : ScannerM PUnit) := by
  refine .modify fun s s' h => ?_
  rw [unterminate_of_none h.covered_eq.1, unterminate_of_none h.covered_eq.2]
  exact h

theorem more_inStep : InStep (Beside R head ruled) more :=
  .modify fun _ _ h => { h with keepText_eq := rfl }

theorem begin_inStep (sc : StartCondition) : InStep (Beside R head ruled) (begin sc) := by
  refine .getThen fun s s' h => ?_
  rw [h.tables_eq]
  refine (InStep.liftFault _).bind (fun _ => .modify fun s s' h => ?_) s s' h
  exact { h with startCondition_eq := rfl }

theorem beginNamed_inStep (name : String) : InStep (Beside R head ruled) (beginNamed name) := by
  refine .getThen fun s s' h => ?_
  rw [h.tables_eq]
  cases s.tables.startCondition? name with
  | some sc => exact begin_inStep sc s s' h
  | none => exact .error h

theorem uncount {bytes : List UInt8} (h : s.Beside R head ruled s')
    (hbytes : newlines bytes < s'.line) :
    (s.uncount bytes).Beside R head ruled (s'.uncount bytes) := by
  have hline := h.line_eq
  refine { h with line_eq := ?_ }
  rw [uncount_line hbytes, uncount_line (by omega)]
  omega

variable [Buffer.Congruence R]

theorem pending_eq (h : s.Beside R head ruled s') : s'.pending = s.pending := by
  rw [pending_of_uncovered h.covered_eq.1, pending_of_uncovered h.covered_eq.2, h.same.pending_eq]

theorem input_inStep : InStep (Beside R head ruled) input := by
  refine bare_inStep.bind fun _ => (onBuffer_inStep Buffer.readByte_inStep).bind fun byte => ?_
  dsimp only
  split
  · refine .bind (.modify fun s s' h => ?_) fun _ => .pure _
    have hline := h.line_eq
    exact { h with line_eq := by dsimp only; omega }
  · exact .bind (.pure _) fun _ => .pure _

theorem echo_inStep : InStep (Beside R head ruled) echo := by
  refine .getThen fun s s' h => ?_
  rw [h.text_eq]
  exact write_inStep s.text s s' h

theorem restart_inStep (source : Source) : InStep (Beside R head ruled) (restart source) := by
  refine flush_inStep.bind fun _ => bare_inStep.bind fun _ => .modify fun s s' h => ?_
  exact { h with
    buffer := Buffer.Congruence.switchTo source h.buffer
    window_eq := rfl
    keepText_eq := rfl }

/-! ## Giving back input -/

theorem unput_parallel (h : s.Beside R head ruled s') (hline : 1 ≤ s'.line) {byte : UInt8}
    (hbyte : ∀ s₁, unput byte s' = .ok () s₁ → newlines [byte] < s'.line) :
    Parallel (Beside R head ruled) (unput byte s) (unput byte s') := by
  have hstep := Buffer.insert_inStep byte s.buffer s'.buffer h.buffer
  rw [unput_eq h.covered_eq.1 (by have := h.line_eq; omega)]
  rw [unput_eq h.covered_eq.2 hline] at hbyte ⊢
  revert hstep hbyte
  cases Buffer.insert byte s.buffer <;> cases Buffer.insert byte s'.buffer <;>
    intro hbyte hstep <;> cases hstep
  · exact .ok ((h.setBuffer ‹_›).uncount (hbyte _ rfl))
  · exact .error (h.setBuffer ‹_›)

theorem unputAll_parallel {t : Tables} {settings : BufferSettings} (hs : s'.Coherent t settings)
    (h : s.Beside R head ruled s') (bytes : List UInt8)
    (hbytes : ∀ given, (final (unputAll bytes) s').pending = given ++ s'.pending →
      newlines given < s'.line) :
    Parallel (Beside R head ruled) (unputAll bytes s) (unputAll bytes s') := by
  unfold unputAll at hbytes ⊢
  revert hbytes
  generalize bytes.reverse = bytes
  induction bytes generalizing s s' with
  | nil => exact fun _ => .ok h
  | cons byte bytes ih =>
    intro hbytes
    -- What the later pushes give back stands before the byte of the first one.
    have hrest {s₁ : Scanner} (hrun : unput byte s' = .ok () s₁) (given : List UInt8)
        (hgiven : (final (bytes.forM unput) s₁).pending = given ++ s₁.pending) :
        newlines given + newlines [byte] < s'.line := by
      have hall : newlines (given ++ [byte]) < s'.line := by
        apply hbytes
        show (final (unput byte >>= fun _ => bytes.forM unput) s').pending = _
        rw [final, bind_of_ok hrun, ← final, hgiven, ((unput_ends hs byte).ok hrun).2.2]
        simp
      rwa [newlines, List.count_append] at hall
    have hbyte (s₁ : Scanner) (hrun : unput byte s' = .ok () s₁) : newlines [byte] < s'.line := by
      obtain ⟨given, hgiven, -⟩ :=
        (forM_unput_ends ((unput_upholds hs byte).ok hrun).coherent bytes).final.given
      exact Nat.lt_of_le_of_lt (Nat.le_add_left _ _) (hrest hrun given hgiven)
    show Parallel (Beside R head ruled) ((unput byte >>= fun _ => bytes.forM unput) s)
      ((unput byte >>= fun _ => bytes.forM unput) s')
    refine (h.unput_parallel hs.line_pos hbyte).bind_runs (fun _ _ => id) fun _ s₁ s₁' _ hrun h₁ => ?_
    have hline : s₁'.line = s'.line - newlines [byte] := by
      rw [(unput_line hs.line_pos byte).ok hrun]
      exact Nat.max_eq_left (Nat.sub_pos_of_lt (hbyte s₁' hrun))
    refine ih ((unput_upholds hs byte).ok hrun).coherent h₁ fun given hgiven => ?_
    have hless := hrest hrun given hgiven
    omega

theorem cut (h : s.Beside R head ruled s') {n : Nat}
    (hgiven : newlines (s'.buffer.slice (s'.window.start + n) s'.buffer.cursor) < s'.line) :
    (s.cut n).Beside R head ruled (s'.cut n) := by
  have hline := h.line_eq
  have hcut := (h.setBuffer (Buffer.seek_related h.buffer (s.window.start + n))).uncount hgiven
  unfold Scanner.uncount at hcut
  unfold Scanner.cut
  rw [h.window_eq, h.same.slice_eq, h.same.cursor_eq] at hcut ⊢
  exact { hcut with window_eq := rfl }

/-- Cutting the text takes the newlines of what is given back off the line. -/
theorem less_parallel {t : Tables} {settings : BufferSettings} (hs : s'.Coherent t settings)
    (h : s.Beside R head ruled s') (n : Nat)
    (hgiven : ∀ given, (final (less n) s').pending = given ++ s'.pending → newlines given < s'.line) :
    Parallel (Beside R head ruled) (less n s) (less n s') := by
  by_cases hn : s'.window.length < n
  · rw [less_eq_error hn, less_eq_error (h.window_eq ▸ hn), h.window_eq]
    exact .error h
  · have hle := Nat.le_of_not_lt hn
    obtain ⟨⟨⟩, s₁, hrun, -, -, hpending⟩ := (less_ends hs hle).exists_ok
    have hslice : s'.buffer.slice (s'.window.start + n) s'.buffer.cursor =
        s'.buffer.passed.toList.drop (s'.window.start + n) := by
      rw [slice_of_le (Nat.le_refl _)]
      exact List.take_of_length_le (Nat.le_of_eq List.length_drop)
    have hcut := h.cut (hslice ▸ hgiven _ (final_of_ok hrun ▸ hpending))
    rw [less_eq hle, less_eq (h.window_eq ▸ hle), h.covered_eq.1, h.covered_eq.2,
      unterminate_of_none h.covered_eq.1, unterminate_of_none h.covered_eq.2]
    exact .ok hcut

end Beside

end Scanner

section Perform

open Scanner

variable {R : Buffer → Buffer → Prop} [Buffer.Congruence R] {head : Headstart} {ruled : Prop}
  {t : Tables} {settings : BufferSettings} {s s' : Scanner}

theorem final_silently (m : ScannerM Unit) (s : Scanner) : final (silently m) s = final m s := by
  unfold final silently
  simp only [Bind.bind, EStateM.bind]
  cases m s <;> rfl

/-- Every operation has the same result on both sides, or fails alike, if it does not take the line of
the second scanner to its lowest. -/
theorem Edit.perform_beside (hs : s'.Coherent t settings) (h : s.Beside R head ruled s') (edit : Edit)
    (hcounts : edit.Counts s') :
    Parallel (Beside R head ruled) (edit.perform s) (edit.perform s') := by
  have hgiven {m : ScannerM Unit} (hm : edit.perform = silently m) (hkeeps : edit.KeepsSource)
      (given : List UInt8) (hpending : (final m s').pending = given ++ s'.pending) :
      newlines given < s'.line :=
    hcounts hkeeps given (by rw [hm, final_silently]; exact hpending)
  cases edit with
  | input => exact Beside.input_inStep s s' h
  | unput byte =>
    refine silently_parallel (h.unput_parallel hs.line_pos fun s₁ hrun => hgiven rfl trivial _ ?_)
    rw [final_of_ok hrun]
    exact ((unput_ends hs byte).ok hrun).2.2
  | unputAll bytes => exact silently_parallel (h.unputAll_parallel hs bytes (hgiven rfl trivial))
  | less n => exact silently_parallel (h.less_parallel hs n (hgiven rfl trivial))
  | more => exact silently_parallel (Beside.more_inStep s s' h)
  | echo => exact silently_parallel (Beside.echo_inStep s s' h)
  | begin sc => exact silently_parallel (Beside.begin_inStep sc s s' h)
  | beginNamed name => exact silently_parallel (Beside.beginNamed_inStep name s s' h)
  | write bytes => exact silently_parallel (Beside.write_inStep bytes s s' h)
  | restart source => exact silently_parallel (Beside.restart_inStep source s s' h)

end Perform

end Munch
