-- SUMMARY: Scanners over related buffers, one of which may have a headstart: attempts and advances do the same on both.
import Munch.Proofs.Match.Congruence
import Munch.Scanner.Advance
import Munch.Scanner.Edit

/-! # Scanners side by side

An advance reads the buffer, the tables and the start condition; it never looks at what was written, at
the number of the line or at the rule of the last match. So two scanners that agree on the first and
differ in the second advance alike, and the difference between them stays what it was. -/

namespace Munch

/-- What one scanner has over another: bytes that it wrote and lines that it counted before. -/
structure Headstart where
  written : Array UInt8 := #[]
  lines : Nat := 0

/-! ## Sinks -/

/-- The first sink has taken some bytes before all that the second one has. -/
structure Sink.Ahead (written : Array UInt8) (out out' : Sink) : Prop where
  written_eq : out.written = written ++ out'.written
  limit_eq : out'.limit = out.limit.map (· - written.size)
  stalls_eq : out'.stalls = out.stalls

/-- A sink that is ahead by nothing is the same. -/
theorem Sink.Ahead.empty_iff {out out' : Sink} : Ahead #[] out out' ↔ out' = out := by
  constructor
  · rintro ⟨hwritten, hlimit, hstalls⟩
    obtain ⟨written, limit, stalls⟩ := out'
    rw [Array.empty_append] at hwritten
    obtain rfl : limit = out.limit := hlimit.trans Option.map_id'
    obtain rfl : stalls = out.stalls := hstalls
    obtain rfl : out.written = written := hwritten
    rfl
  · rintro rfl
    exact ⟨Array.empty_append.symm, Option.map_id'.symm, rfl⟩

/-- As much is written to both, and a write fails on both or on none. -/
theorem Sink.Ahead.write {written : Array UInt8} (bytes : List UInt8) :
    ∀ out out', Ahead written out out' →
      Parallel (Ahead written) (Sink.write bytes out) (Sink.write bytes out') := by
  intro out out' h
  have hroom : out'.room bytes.length = out.room bytes.length := by
    unfold room
    rw [h.limit_eq, h.written_eq, Array.size_append]
    cases out.limit with
    | none => rfl
    | some limit => simp only [Option.map_some, Option.elim_some, Nat.sub_sub]
  have htext : out'.fullText = out.fullText := by
    unfold fullText
    rw [h.stalls_eq]
  have hwritten : Ahead written
      { out with written := out.written ++ (bytes.take (out.room bytes.length)).toArray }
      { out' with written := out'.written ++ (bytes.take (out.room bytes.length)).toArray } :=
    ⟨by rw [h.written_eq, Array.append_assoc], h.limit_eq, h.stalls_eq⟩
  unfold Sink.write
  rw [hroom, htext]
  dsimp only
  split
  · exact .ok hwritten
  · exact .error hwritten

namespace Scanner

/-- One round of advancing. -/
theorem advance_eq (s : Scanner) : advance s = (attempt >>= fun step => match step with
    | .matched rule => pure (some rule)
    | .ended => pure none
    | .skipped => advance) s := by
  rw [advance]
  simp only [Bind.bind, EStateM.bind]
  cases attempt s with
  | error e s₁ => rfl
  | ok step s₁ => cases step <;> rfl

theorem attempt_rule (s : Scanner) :
    ends attempt (fun step s' => ∀ rule, step = .matched rule → s'.rule = rule)
      (fun _ _ => True) s := by
  refine .bind (.of_result (fun _ s₁ _ => .bind (.get (.bind (.of_result (fun outcome s₂ _ => ?_)
    fun _ _ _ => trivial)))) fun _ _ _ => trivial)
  cases outcome with
  | accepted rule length =>
    exact .bind (.of_result (fun _ _ _ => .bind (.modify (.pure fun _ h => Step.matched.inj h)))
      fun _ _ _ => trivial)
  | noMatch =>
    exact .bind (.modify (.bind (.of_result (fun _ _ _ => .pure fun _ h => nomatch h)
      fun _ _ _ => trivial)))
  | endOfInput =>
    exact .bind (.of_result (fun _ _ _ => .bind (.modify (.pure fun _ h => nomatch h)))
      fun _ _ _ => trivial)

/-- The rule that an advance returns is that of the match it has set up. -/
theorem advance_rule (s : Scanner) :
    ends advance (fun found s' => ∀ rule, found = some rule → s'.rule = rule)
      (fun _ _ => True) s := by
  have hattempt := attempt_rule
  unfold ends
  fun_induction advance s with
  | case1 s _ rule s' hrun =>
    intro rule' hsome
    exact Option.some.inj hsome ▸ (hattempt s).ok hrun rule rfl
  | case2 s _ s' hrun => exact fun _ hsome => nomatch hsome
  | case3 s _ s' hrun ih => exact ih
  | case4 s _ e s' hrun => trivial

/-- Two scanners over related buffers, with no terminator standing, that differ at most in the headstart
of the first one, and in their rule unless that is known to be the same. -/
structure Beside (R : Buffer → Buffer → Prop) (head : Headstart) (ruled : Prop) (s s' : Scanner) :
    Prop where
  buffer : R s.buffer s'.buffer
  covered_eq : s.covered = none ∧ s'.covered = none
  tables_eq : s'.tables = s.tables
  startCondition_eq : s'.startCondition = s.startCondition
  window_eq : s'.window = s.window
  keepText_eq : s'.keepText = s.keepText
  unmatched_eq : s'.unmatched = s.unmatched
  output : s.output.Ahead head.written s'.output
  line_eq : s.line = head.lines + s'.line
  rule_eq : ruled → s'.rule = s.rule

variable {R : Buffer → Buffer → Prop} {head : Headstart} {ruled : Prop} {s s' : Scanner}

namespace Beside

theorem setOutput {out out' : Sink} (h : s.Beside R head ruled s')
    (hout : out.Ahead head.written out') :
    Beside R head ruled { s with output := out } { s' with output := out' } :=
  { h with output := hout }

theorem setBuffer {buffer buffer' : Buffer} (h : s.Beside R head ruled s')
    (hbuffer : R buffer buffer') :
    Beside R head ruled { s with buffer } { s' with buffer := buffer' } :=
  { h with buffer := hbuffer }

theorem mono {ruled' : Prop} (h : s.Beside R head ruled s') (hruled : ruled' → ruled) :
    s.Beside R head ruled' s' :=
  { h with rule_eq := h.rule_eq ∘ hruled }

theorem lengthenRun (h : s.Beside R head ruled s') (byte : UInt8) :
    (s.lengthenRun byte).Beside R head ruled (s'.lengthenRun byte) :=
  { h with
    unmatched_eq := congrArg (Option.map fun run : Window => run.lengthen 1) h.unmatched_eq
    line_eq := by
      simp only [Scanner.lengthenRun, h.line_eq]
      split <;> rfl }

theorem onBuffer_inStep {α : Type} {m : BufferM α} (hm : InStep R m) :
    InStep (Beside R head ruled) (onBuffer m) := by
  intro s s' h
  have hstep := hm s.buffer s'.buffer h.buffer
  unfold onBuffer
  revert hstep
  cases m s.buffer <;> cases m s'.buffer <;> rintro ⟨⟩
  · exact .ok (h.setBuffer ‹_›)
  · exact .error (h.setBuffer ‹_›)

theorem write_inStep (bytes : List UInt8) : InStep (Beside R head ruled) (write bytes) := by
  intro s s' h
  have hstep := Sink.Ahead.write bytes s.output s'.output h.output
  unfold write
  revert hstep
  cases Sink.write bytes s.output <;> cases Sink.write bytes s'.output <;> rintro ⟨⟩
  · exact .ok (h.setOutput ‹_›)
  · exact .error (h.setOutput ‹_›)

variable [Buffer.Congruence R]

theorem same (h : s.Beside R head ruled s') : s.buffer.Same s'.buffer :=
  Buffer.Congruence.same h.buffer

theorem text_eq (h : s.Beside R head ruled s') : s'.text = s.text := by
  rw [text, text, h.window_eq, h.same.slice_eq]

theorem trim (h : s.Beside R head ruled s') : s.trim.Beside R head ruled s'.trim := by
  have hkeep : s'.keepFrom = s.keepFrom := by
    unfold keepFrom
    rw [h.same.cursor_eq, h.keepText_eq, h.window_eq, h.unmatched_eq]
  obtain ⟨hdropped, htrim⟩ := Buffer.trim_related h.buffer s.keepFrom
  simp only [Scanner.trim, hkeep, hdropped, h.window_eq, h.unmatched_eq]
  exact { h with buffer := htrim, window_eq := rfl, unmatched_eq := rfl }

/-- The same match is set up on both sides, so the rule is known to be the same. -/
theorem setMatch (h : s.Beside R head ruled s') (rule : Rule) (start length : Nat) :
    (s.setMatch rule start length).Beside R head True (s'.setMatch rule start length) :=
  { h with
    window_eq := by
      simp only [Scanner.setMatch, h.keepText_eq, h.window_eq]
    keepText_eq := rfl
    line_eq := by
      simp only [Scanner.setMatch, h.same.slice_eq, h.line_eq, Nat.add_assoc]
    rule_eq := fun _ => rfl }

/-! ## Steps of an attempt -/

theorem flush_inStep : InStep (Beside R head ruled) flush := by
  intro s s' h
  unfold flush
  rw [h.unmatched_eq]
  split
  · exact .ok h
  · rw [h.same.slice_eq]
    exact write_inStep _ _ _ { h with unmatched_eq := rfl }

theorem prepare_inStep : InStep (Beside R head ruled) prepare := by
  refine .getThen fun s s' h => ?_
  rw [h.unmatched_eq, h.same.blockSize_eq]
  have htrim : InStep (Beside R head ruled) (modify Scanner.trim : ScannerM PUnit) :=
    .modify fun _ _ h => h.trim
  split
  · exact flush_inStep.bind (fun _ => htrim) s s' h
  · exact htrim s s' h

theorem openRun_inStep (offset : Nat) : InStep (Beside R head ruled) (openRun offset) := by
  refine .getThen fun s s' h => ?_
  rw [h.unmatched_eq]
  split
  · exact .ok h
  · refine flush_inStep.bind (fun _ => .modify fun s s' h => ?_) s s' h
    exact { h with unmatched_eq := rfl }

theorem skipByte_inStep : InStep (Beside R head ruled) skipByte := by
  refine .getThen fun s s' h => ?_
  rw [h.same.cursor_eq]
  refine (onBuffer_inStep Buffer.readByte_inStep).bind (fun byte => ?_) s s' h
  cases byte with
  | none => exact .pure _
  | some byte => exact (openRun_inStep _).bind fun _ => .modify fun _ _ h => h.lengthenRun byte

theorem attempt_inStep : InStep (Beside R head ruled) attempt := by
  refine prepare_inStep.bind fun _ => .getThen fun s s' h => ?_
  have hkeep : InStep (Beside R head ruled)
      (modify fun s => { s with keepText := false } : ScannerM PUnit) :=
    .modify fun s s' h => { h with keepText_eq := rfl }
  rw [h.tables_eq, h.startCondition_eq, h.same.atLineStart_eq, h.same.cursor_eq]
  refine (onBuffer_inStep (s.tables.longestMatch_inStep _ _)).bind (fun outcome => ?_) s s' h
  cases outcome with
  | accepted rule length =>
    exact flush_inStep.bind fun _ => .bind
      (.modify fun _ _ h => (h.setMatch rule _ length).mono fun _ => trivial) fun _ => .pure _
  | noMatch => exact hkeep.bind fun _ => skipByte_inStep.bind fun _ => .pure _
  | endOfInput => exact flush_inStep.bind fun _ => hkeep.bind fun _ => .pure _

theorem advance_inStep (s s' : Scanner) (h : s.Beside R head ruled s') :
    Parallel (Beside R head ruled) (advance s) (advance s') := by
  rw [advance_eq s, advance_eq s']
  refine (attempt_inStep s s' h).bind (fun _ _ => id) fun step s₁ s₁' hrun h₁ => ?_
  cases step with
  | matched rule => exact .ok h₁
  | ended => exact .ok h₁
  | skipped => exact advance_inStep s₁ s₁' h₁
  termination_by s.buffer.remaining
  decreasing_by exact remaining_of_attempt hrun

end Beside

end Scanner

/-- Without a result, two computations still run in parallel. -/
theorem silently_parallel {R : Scanner → Scanner → Prop} {m : ScannerM Unit} {s s' : Scanner}
    (h : Parallel R (m s) (m s')) : Parallel R (silently m s) (silently m s') :=
  h.bind (fun _ _ => id) fun _ _ _ _ h => .ok h

end Munch
