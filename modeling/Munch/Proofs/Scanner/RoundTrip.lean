-- SUMMARY: Bytes pushed back and read again leave everything as it was, but for a line number at its lowest.
import Munch.Proofs.Scanner.Echo
import Munch.Proofs.Scanner.PendingInput

/-! # Round trips

What is pushed back is read next, byte by byte and without asking the source, and then the scanner shows
what it has shown before. Only the number of the line may be another: pushing newlines back takes it down
to 1 and not further, but reading them counts each of them. -/

namespace Munch

namespace Scanner

variable {t : Tables} {settings : BufferSettings} {s s₁ : Scanner} {byte : UInt8}
  {read front : List UInt8}

/-- Reads bytes, up to a number of them or to the end of the input. -/
def inputs : Nat → ScannerM (List UInt8)
  | 0 => return []
  | n + 1 => do
    match ← input with
    | some byte => return byte :: (← inputs n)
    | none => return []

/-- But for a terminator, the later scanner has only passed some more bytes, has others in front of those
ahead, and counts another line. -/
def Around (s : Scanner) (read front : List UInt8) (s' : Scanner) : Prop :=
  ∃ capacity stale line, s'.unterminate = { s.unterminate with
    buffer := { s.unterminate.buffer with
      capacity
      passed := s.unterminate.buffer.passed ++ read.toArray
      ahead := front ++ s.unterminate.buffer.ahead
      stale }
    line }

theorem Around.refl (s : Scanner) : s.Around [] [] s :=
  ⟨s.unterminate.buffer.capacity, s.unterminate.buffer.stale, s.unterminate.line,
    by simp only [List.nil_append, Array.append_empty]⟩

theorem Around.of_uncovered (hcovered : s₁.covered = none)
    (h : ∃ capacity stale line, s₁ = { s.unterminate with
      buffer := { s.unterminate.buffer with
        capacity
        passed := s.unterminate.buffer.passed ++ read.toArray
        ahead := front ++ s.unterminate.buffer.ahead
        stale }
      line }) : s.Around read front s₁ := by
  rwa [Around, unterminate_of_none hcovered]

/-- The terminator has nothing to do with the line. -/
theorem unterminate_setLine (s : Scanner) (line : Nat) :
    ({ s with line } : Scanner).unterminate = { s.unterminate with line } := by
  rcases Option.eq_none_or_eq_some s.covered with hcovered | ⟨c, hcovered⟩
  · rw [unterminate_of_none hcovered]
    exact unterminate_of_none hcovered
  · simp only [unterminate, hcovered]

theorem Around.setLine (h : s.Around read front s₁) (line : Nat) :
    s.Around read front { s₁ with line } := by
  obtain ⟨capacity, stale, line', heq⟩ := h
  refine ⟨capacity, stale, line, ?_⟩
  rw [unterminate_setLine, heq]

/-! ## Single bytes -/

/-- Putting the terminator back, if it stood there before, does not matter. -/
theorem Around.reterminate {terminated : Bool} (h : s.Around read front s₁) (hcovered : s₁.covered = none)
    (hstop : terminated = true → s₁.window.stop = s₁.buffer.cursor) {E : ScanError → Scanner → Prop} :
    ends (if terminated then modify terminate else pure ⟨⟩ : ScannerM PUnit)
      (fun _ s' => s.Around read front s') E s₁ := by
  cases terminated with
  | false => exact .pure h
  | true =>
    obtain ⟨capacity, stale, line, heq⟩ := h
    obtain ⟨stale', heq'⟩ := unterminate_terminate hcovered (hstop rfl)
    rw [unterminate_of_none hcovered] at heq
    refine .modify ⟨capacity, stale', line, ?_⟩
    rw [heq', heq]

/-- A byte that is pushed back stands in front of the bytes ahead. -/
theorem unput_around (h : s₁.Coherent t settings) (haround : s.Around read front s₁) (byte : UInt8) :
    ends (unput byte) (fun _ s' => s.Around read (byte :: front) s') (fun _ _ => True) s₁ := by
  obtain ⟨capacity₁, stale₁, line₁, heq⟩ := haround
  refine .bind (.get (.bind (.modify (.bind (.onBuffer ?_)))))
  refine (Buffer.insert_ends h.unterminate.coherent.roomy byte).mono (fun _ buffer hinsert => ?_)
    fun _ _ _ => trivial
  obtain ⟨-, -, capacity, stale, rfl⟩ := hinsert
  have hnone := covered_unterminate s₁
  have hinserted : s.Around read (byte :: front) { s₁.unterminate with
      buffer := { s₁.unterminate.buffer with
        capacity, ahead := byte :: s₁.unterminate.buffer.ahead, stale } } := by
    refine .of_uncovered hnone ⟨capacity, stale, line₁, ?_⟩
    rw [heq]
    rfl
  refine .whenThen ((hinserted.reterminate hnone fun hsome => (h.behindMatch hsome).1).mono
    (fun _ s₂ h₂ => ?_) fun _ _ => id)
  split
  · exact .modify (h₂.setLine _)
  · exact .pure h₂

/-- The next byte ahead is read without asking the source. -/
theorem input_of_ahead {rest : List UInt8} (hahead : s.unterminate.buffer.ahead = byte :: rest) :
    input s = .ok (some byte) { s.unterminate with
      buffer := { s.unterminate.buffer with
        passed := s.unterminate.buffer.passed.push byte
        ahead := rest }
      line := s.line + newlines [byte] } := by
  have hread := Buffer.readByte_of_cons hahead
  unfold input
  rw [bind_of_ok (modify_apply unterminate s), bind_of_ok (onBuffer_eq_ok_iff.2 ⟨_, hread, rfl⟩)]
  by_cases hnewline : byte = 10
  · subst hnewline
    rw [← s.unterminate_line]
    rfl
  · have hline : s.line + newlines [byte] = s.unterminate.line := by
      rw [s.unterminate_line]
      simp [newlines, hnewline]
    simp only [Option.some.injEq, hnewline, if_false, pure_apply, hline]

theorem input_around (h : s.Around read (byte :: front) s₁) : ∃ s',
    input s₁ = .ok (some byte) s' ∧ s.Around (read ++ [byte]) front s' ∧
      s'.line = s₁.line + newlines [byte] := by
  obtain ⟨capacity, stale, line, heq⟩ := h
  have hahead : s₁.unterminate.buffer.ahead = byte :: (front ++ s.unterminate.buffer.ahead) := by
    rw [heq]
    rfl
  refine ⟨_, input_of_ahead hahead, .of_uncovered (covered_unterminate s₁)
    ⟨capacity, stale, s₁.line + newlines [byte], ?_⟩, rfl⟩
  rw [heq]
  simp

/-! ## Strings of bytes -/

/-- Bytes that are pushed back stand in front of the bytes ahead, the last one first. -/
theorem forM_unput_around (h : s₁.Coherent t settings) (haround : s.Around read front s₁)
    (bytes : List UInt8) :
    ends (bytes.forM unput) (fun _ s' => s'.Coherent t settings ∧
      s.Around read (bytes.reverse ++ front) s' ∧ s'.line = max (s₁.line - newlines bytes) 1)
      (fun _ _ => True) s₁ := by
  induction bytes generalizing front s₁ with
  | nil => exact .pure ⟨h, haround, (Nat.max_eq_left h.line_pos).symm⟩
  | cons byte bytes ih =>
    show ends (unput byte >>= fun _ => bytes.forM unput) _ _ s₁
    refine .bind (((unput_upholds h byte).and ((unput_around h haround byte).and
      (unput_line h.line_pos byte))).mono (fun _ s₂ h₂ => ?_) fun _ _ _ => trivial)
    obtain ⟨hleads, haround₂, hline₂⟩ := h₂
    refine (ih hleads.coherent haround₂).mono (fun _ s' h' => ?_) fun _ _ => id
    obtain ⟨hcoherent, haround', hline'⟩ := h'
    refine ⟨hcoherent, by rwa [List.reverse_cons, List.append_assoc], ?_⟩
    rw [hline', hline₂, ← List.singleton_append (l := bytes), newlines_append]
    omega

/-- Bytes ahead are read one by one. -/
theorem inputs_around (h : s₁.Coherent t settings) (bytes : List UInt8)
    (haround : s.Around read (bytes ++ front) s₁) : ∃ s', inputs bytes.length s₁ = .ok bytes s' ∧
      s'.Coherent t settings ∧ s.Around (read ++ bytes) front s' ∧
      s'.line = s₁.line + newlines bytes := by
  induction bytes generalizing read s₁ with
  | nil => exact ⟨s₁, rfl, h, by rwa [List.append_nil], rfl⟩
  | cons byte bytes ih =>
    obtain ⟨s₂, hrun, haround₂, hline₂⟩ := input_around haround
    obtain ⟨s', hrest, hcoherent, haround', hline'⟩ := ih ((input_upholds h).ok hrun).coherent haround₂
    refine ⟨s', ?_, hcoherent, by rwa [List.append_assoc] at haround', ?_⟩
    · show (input >>= fun _ => _) s₁ = _
      rw [bind_of_ok hrun]
      show (inputs bytes.length >>= fun _ => _) s₂ = _
      rw [bind_of_ok hrest]
      rfl
    · rw [hline', hline₂, ← List.singleton_append (l := bytes), newlines_append, Nat.add_assoc]

/-- The scanner shows the same match and the same input as before, and has not asked the source. -/
structure Restored (s s' : Scanner) : Prop where
  text_eq : s'.text = s.text
  length_eq : s'.window.length = s.window.length
  rule_eq : s'.rule = s.rule
  startCondition_eq : s'.startCondition = s.startCondition
  pending_eq : s'.pending = s.pending
  source_eq : s'.buffer.source = s.buffer.source
  reads_eq : s'.buffer.reads = s.buffer.reads

/-- The source has not been asked. -/
theorem Around.source_eq (hs : s.Coherent t settings) (h₁ : s₁.Coherent t settings)
    (h : s.Around read front s₁) :
    s₁.buffer.source = s.buffer.source ∧ s₁.buffer.reads = s.buffer.reads := by
  obtain ⟨capacity, stale, line, heq⟩ := h
  obtain ⟨ahead, stale', -, hbare⟩ := hs.unterminate_eq
  obtain ⟨ahead₁, stale₁, -, hbare₁⟩ := h₁.unterminate_eq
  rw [hbare₁, hbare] at heq
  exact ⟨congrArg (·.buffer.source) heq, congrArg (·.buffer.reads) heq⟩

/-- Bytes that were put in front of those ahead, and then passed, lie behind the text. -/
theorem Around.restored (hs : s.Coherent t settings) (h₁ : s₁.Coherent t settings)
    (h : s.Around read [] s₁) : s.Restored s₁ := by
  obtain ⟨hsource, hreads⟩ := h.source_eq hs h₁
  obtain ⟨capacity, stale, line, heq⟩ := h
  have hwindow : s₁.window = s.window := by
    rw [← unterminate_window s₁, heq, ← unterminate_window s]
  have hpassed : s₁.buffer.passed.toList = s.buffer.passed.toList ++ read := by
    rw [← h₁.sameInput_unterminate.passed_eq, heq, ← hs.sameInput_unterminate.passed_eq]
    simp
  refine ⟨hs.text_append h₁ hwindow hpassed, congrArg Window.length hwindow, ?_, ?_, ?_, hsource, hreads⟩
  · have hrule := congrArg Scanner.rule heq
    rwa [unterminate_eq s₁, unterminate_eq s] at hrule
  · rw [← unterminate_startCondition s₁, heq, ← unterminate_startCondition s]
  · rw [pending_eq s₁, heq, pending_eq s]
    rfl

/-- Bytes that were pushed back are read again. -/
theorem inputs_of_unputAll (hs : s.Coherent t settings) {bytes : List UInt8}
    (hrun : unputAll bytes s = .ok () s₁) : ∃ s₂, inputs bytes.length s₁ = .ok bytes s₂ ∧
      s₁.buffer.reads = s.buffer.reads ∧ s.Restored s₂ ∧
      s₂.line = max s.line (newlines bytes + 1) := by
  obtain ⟨h₁, haround, hline⟩ := (forM_unput_around hs (.refl s) bytes.reverse).ok hrun
  rw [List.reverse_reverse] at haround
  obtain ⟨s₂, hread, h₂, haround₂, hline₂⟩ := inputs_around h₁ bytes haround
  refine ⟨s₂, hread, (haround.source_eq hs h₁).2, haround₂.restored hs h₂, ?_⟩
  rw [hline₂, hline, newlines, newlines, List.count_reverse]
  omega

end Scanner

open Scanner

/-- Pushing back and reading again is a round trip, in every state that a session comes to. If bytes can
be pushed back, the last one first, then reading as many bytes returns them in order and does not ask the
source, and the scanner shows the text, the rule, the start condition and the pending input that it has
shown before. So does the number of the line, if it is above the newlines among the bytes; otherwise it
was taken down to 1, and is one more than these newlines. -/
theorem Session.unput_input {o : ScannerOptions} {t : Tables} {source : Source} {output : Sink}
    {s : Scanner} (hbuild : o.build t source output = .ok s) {σ α : Type} (session : Session σ α)
    (memory : σ) {note : Note} (hnote : note ∈ session.notes memory s) :
    (∀ byte s₁, unput byte note.scanner = .ok () s₁ → ∃ s₂, input s₁ = .ok (some byte) s₂ ∧
      s₁.buffer.reads = note.scanner.buffer.reads ∧ note.scanner.Restored s₂ ∧
      s₂.line = max note.scanner.line (newlines [byte] + 1)) ∧
    ∀ bytes s₁, unputAll bytes note.scanner = .ok () s₁ → ∃ s₂,
      inputs bytes.length s₁ = .ok bytes s₂ ∧
      s₁.buffer.reads = note.scanner.buffer.reads ∧ note.scanner.Restored s₂ ∧
      s₂.line = max note.scanner.line (newlines bytes + 1) := by
  obtain ⟨later, earlier, hnotes⟩ := List.append_of_mem hnote
  have hs := (session.allProper hbuild memory note earlier ⟨later, hnotes.symm⟩).coherent
  refine ⟨fun byte s₁ hrun => ?_, fun bytes s₁ hrun => inputs_of_unputAll hs hrun⟩
  have hall : unputAll [byte] note.scanner = .ok () s₁ := bind_of_ok hrun
  obtain ⟨s₂, hread, hrest⟩ := inputs_of_unputAll hs hall
  refine ⟨s₂, ?_, hrest⟩
  obtain ⟨found, s', hinput, hread⟩ := bind_eq_ok_iff.1 hread
  cases found with
  | none => cases hread
  | some found =>
    obtain ⟨hbyte, rfl⟩ := EStateM.Result.ok.inj hread
    rwa [(List.cons.inj hbyte).1] at hinput

/-- Behind a newline that was matched, a newline and another byte are pushed back and read again: the
line is the second one as before. -/
theorem Session.unput_input_secondLine : ∃ s note s₁ s₂,
    ({} : ScannerOptions).build Tables.oneByte (.ofBytes [10, 97]) {} = .ok s ∧
    note ∈ oneMatch.notes () s ∧ note.scanner.covered = some ⟨1, 97⟩ ∧
    unputAll [10, 98] note.scanner = .ok () s₁ ∧ s₁.line = 1 ∧ inputs 2 s₁ = .ok [10, 98] s₂ ∧
    s₂.pending = [97] ∧ s₂.line = 2 := by
  have hrun : (match ({} : ScannerOptions).build Tables.oneByte (.ofBytes [10, 97]) {} with
      | .ok s => decide (∃ note ∈ oneMatch.notes () s, note.scanner.covered = some ⟨1, 97⟩ ∧
          note.scanner.pending = [97] ∧ note.scanner.line = 2 ∧
          (match unputAll [10, 98] note.scanner with
          | .ok _ s₁ => decide (s₁.line = 1)
          | .error _ _ => false) = true)
      | .error _ => false) = true := by decide +kernel
  split at hrun
  · rename_i s hbuild
    obtain ⟨note, hmem, hcovered, hpending, hline, hunput⟩ := of_decide_eq_true hrun
    split at hunput
    · rename_i _ s₁ hback
      obtain ⟨s₂, hread, -, hrestored, hline₂⟩ := (unput_input hbuild oneMatch () hmem).2 [10, 98] s₁ hback
      rw [hline] at hline₂
      exact ⟨s, note, s₁, s₂, hbuild, hmem, hcovered, hback, of_decide_eq_true hunput, hread,
        hrestored.pending_eq.trans hpending, hline₂⟩
    · exact Bool.noConfusion hunput
  · exact Bool.noConfusion hrun

/-- In the first line a newline that is pushed back and read again is counted: the scanner is in the
second line then. -/
theorem Session.unput_newline_line : ∃ s note s₁ s₂,
    ({} : ScannerOptions).build Tables.oneByte (.ofBytes [97]) {} = .ok s ∧
    note ∈ oneMatch.notes () s ∧ note.event = .entered 1 ∧ note.scanner.line = 1 ∧
    unput 10 note.scanner = .ok () s₁ ∧ input s₁ = .ok (some 10) s₂ ∧ s₂.line = 2 := by
  have hrun : (match ({} : ScannerOptions).build Tables.oneByte (.ofBytes [97]) {} with
      | .ok s => decide (∃ note ∈ oneMatch.notes () s, note.event = .entered 1 ∧ note.scanner.line = 1 ∧
          (match unput 10 note.scanner with
          | .ok _ s₁ => decide (s₁.line = 1 ∧ s₁.unterminate.buffer.ahead = [10])
          | .error _ _ => false) = true)
      | .error _ => false) = true := by decide +kernel
  split at hrun
  · rename_i s hbuild
    obtain ⟨note, hmem, hentered, hline, hunput⟩ := of_decide_eq_true hrun
    split at hunput
    · rename_i _ s₁ hback
      obtain ⟨hline₁, hahead⟩ := of_decide_eq_true hunput
      exact ⟨s, note, s₁, _, hbuild, hmem, hentered, hline, hback, input_of_ahead hahead,
        congrArg (· + 1) hline₁⟩
    · exact Bool.noConfusion hunput
  · exact Bool.noConfusion hrun

end Munch
