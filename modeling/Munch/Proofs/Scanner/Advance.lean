-- SUMMARY: Attempts and advancing, on scanners and on their tapes: both do the same, whatever is dropped on the way.
import Munch.Proofs.Scanner.OnTape

/-! # Advancing on tapes

Every step of `Scanner.advance` keeps the scanner on its tape. Dropping bytes changes the number of
dropped ones only; writing an unmatched run changes nothing; reading moves bytes of the tape. -/

namespace Munch

namespace wp

variable {α : Type}

theorem onBuffer {m : BufferM α} {Q : α → Scanner → Prop} {s : Scanner}
    (h : wp m (fun a buffer => Q a { s with buffer }) s.buffer) : wp (Scanner.onBuffer m) Q s := by
  unfold wp Scanner.onBuffer at *
  cases hm : m s.buffer with
  | ok a b =>
    rw [hm] at h
    exact h
  | error e b =>
    rw [hm] at h
    exact h

end wp

namespace Scanner

variable {t : Tables} {tape : Tape} {dropped : Nat} {s : Scanner}

/-! ## Output -/

/-- The scanner after some bytes were written. -/
def wrote (s : Scanner) (bytes : List UInt8) : Scanner :=
  { s with output := { s.output with written := s.output.written ++ bytes.toArray } }

/-- An output without a limit takes everything. -/
theorem write_eq_ok (hlimit : s.output.limit = none) (bytes : List UInt8) :
    write bytes s = .ok () (s.wrote bytes) := by
  have hroom : s.output.room bytes.length = bytes.length := by
    rw [Sink.room, hlimit, Option.elim_none]
  have hok : Sink.write bytes s.output =
      .ok () { s.output with written := s.output.written ++ bytes.toArray } := by
    simp only [Sink.write, hroom, List.take_length, if_true]
  unfold write
  rw [hok]
  rfl

theorem write_wp (hlimit : s.output.limit = none) (bytes : List UInt8) :
    wp (write bytes) (fun _ s' => s' = s.wrote bytes) s :=
  wp.of_ok (write_eq_ok hlimit bytes) rfl

theorem flush_wp (hlimit : s.output.limit = none) {run : List UInt8} (hrun : s.RunOf run) :
    wp flush (fun _ s' => s' = { s.wrote run with unmatched := none }) s := by
  rcases hrun with ⟨hnone, rfl⟩ | ⟨start, hsome, hle, hrun⟩
  · have hok : flush s = .ok () s := by
      unfold flush
      rw [hnone]
    apply wp.of_ok hok
    show s = { s with
      unmatched := none
      output := { s.output with written := s.output.written ++ #[] } }
    rw [Array.append_empty, ← hnone]
  · have hbytes : s.buffer.slice start (start + run.length) = run := by
      rw [slice_of_le hle, Nat.add_sub_cancel_left]
      exact hrun.symm
    have hok : flush s = write run { s with unmatched := none } := by
      unfold flush
      rw [hsome]
      simp only [Window.stop, hbytes]
    have hwrite : wp (write run) (fun _ s' => s' = { s.wrote run with unmatched := none })
        { s with unmatched := none } :=
      write_wp (s := { s with unmatched := none }) hlimit run
    unfold wp at hwrite ⊢
    rw [hok]
    exact hwrite

theorem toList_wrote (s : Scanner) (bytes : List UInt8) :
    (s.wrote bytes).output.written.toList = s.output.written.toList ++ bytes := by
  rw [wrote, Array.toList_append]

/-- Writing the unmatched run leaves the scanner between the same attempts. -/
theorem Between.flush_wp (h : s.Between t tape dropped) :
    wp flush (fun _ s' => s'.Between t tape dropped ∧ s'.unmatched = none) s := by
  obtain ⟨run, hrun, houtput⟩ := h.run
  apply (Scanner.flush_wp h.limit_eq hrun).mono
  intro _ s' hs'
  subst hs'
  refine ⟨⟨⟨h.tables_eq, h.covered_eq, h.steady, h.passed_eq, h.pending_eq, h.look, h.limit_eq,
    h.startCondition_eq, h.keepText_eq, h.line_eq, h.state_lt, h.bolState_lt⟩, h.kept, ?_, ?_⟩, rfl⟩
  · refine ⟨[], .inl ⟨rfl, rfl⟩, ?_⟩
    rw [List.append_nil, ← houtput]
    exact toList_wrote s run
  · intro w hw
    cases hw

/-! ## Dropping bytes -/

theorem keepFrom_le (s : Scanner) : s.keepFrom ≤ s.buffer.cursor - 1 ∧
    (s.keepText = true → s.keepFrom ≤ s.window.start) ∧
      ∀ w ∈ s.unmatched, s.keepFrom ≤ w.start := by
  have hkept : (if s.keepText then min (s.buffer.cursor - 1) s.window.start
      else s.buffer.cursor - 1) ≤ s.buffer.cursor - 1 ∧ (s.keepText = true →
        (if s.keepText then min (s.buffer.cursor - 1) s.window.start
          else s.buffer.cursor - 1) ≤ s.window.start) := by
    split
    · exact ⟨Nat.min_le_left _ _, fun _ => Nat.min_le_right _ _⟩
    · rename_i hkeep
      exact ⟨Nat.le_refl _, fun h => absurd h hkeep⟩
  unfold keepFrom
  cases s.unmatched with
  | none => exact ⟨hkept.1, hkept.2, fun w hw => nomatch hw⟩
  | some run =>
    refine ⟨Nat.le_trans (Nat.min_le_left _ _) hkept.1,
      fun hkeep => Nat.le_trans (Nat.min_le_left _ _) (hkept.2 hkeep), fun w hw => ?_⟩
    obtain rfl := Option.some.inj (Option.mem_def.1 hw)
    exact Nat.min_le_right _ _

theorem trim_spec (b : Buffer) (keepFrom : Nat) : (b.trim keepFrom).1 ≤ keepFrom ∧
    (b.trim keepFrom).2.passed.toList = b.passed.toList.drop (b.trim keepFrom).1 ∧
    (b.trim keepFrom).2.pending = b.pending ∧ (b.trim keepFrom).2.source = b.source ∧
    (b.trim keepFrom).2.settings = b.settings := by
  unfold Buffer.trim
  dsimp only
  split
  · exact ⟨Nat.zero_le _, rfl, rfl, rfl, rfl⟩
  · refine ⟨Nat.min_le_left _ _, ?_, rfl, rfl, rfl⟩
    rw [Array.toList_extract, List.extract_eq_take_drop]
    apply List.take_of_length_le
    apply Nat.le_of_eq
    rw [List.length_drop, Array.length_toList]
    rfl

theorem RunOf.drop {run : List UInt8} (h : s.RunOf run) {n : Nat}
    (hn : ∀ w ∈ s.unmatched, n ≤ w.start) {buffer : Buffer}
    (hpassed : buffer.passed.toList = s.buffer.passed.toList.drop n) (window : Window) :
    RunOf { s with buffer, window, unmatched := s.unmatched.map (·.shift n) } run := by
  rcases h with ⟨hnone, rfl⟩ | ⟨start, hsome, hle, hrun⟩
  · exact .inl ⟨by rw [hnone, Option.map_none], rfl⟩
  · have hstart : n ≤ start := hn _ hsome
    have hcursor : buffer.cursor = s.buffer.cursor - n := by
      rw [Buffer.cursor, ← Array.length_toList, hpassed, List.length_drop, Array.length_toList]
      rfl
    refine .inr ⟨start - n, ?_, ?_, ?_⟩
    · simp only [hsome, Option.map_some, Window.shift, hstart, if_true]
    · show start - n + run.length ≤ buffer.cursor
      rw [hcursor, ← Nat.sub_add_comm hstart]
      exact Nat.sub_le_sub_right hle n
    · show run = (buffer.passed.toList.drop (start - n)).take run.length
      rw [hpassed, List.drop_drop, Nat.add_sub_cancel' hstart]
      exact hrun

/-- Dropping bytes that are not needed any more. -/
theorem Between.trim (h : s.Between t tape dropped) :
    ∃ dropped', s.trim.Between t tape dropped' := by
  obtain ⟨hline, hkeep, hrunStart⟩ := s.keepFrom_le
  obtain ⟨hn, hpassed, hpending, hsource, hsettings⟩ := trim_spec s.buffer s.keepFrom
  have htrim : s.trim = { s with
      buffer := (s.buffer.trim s.keepFrom).2
      window := s.window.shift (s.buffer.trim s.keepFrom).1
      unmatched := s.unmatched.map (·.shift (s.buffer.trim s.keepFrom).1) } := rfl
  rw [htrim]
  generalize (s.buffer.trim s.keepFrom).1 = n at *
  generalize (s.buffer.trim s.keepFrom).2 = buffer at *
  have hcursor := h.cursor_add
  have hn' := Nat.le_trans hn hline
  have hrunStart' : ∀ w ∈ s.unmatched, n ≤ w.start :=
    fun w hw => Nat.le_trans hn (hrunStart w hw)
  refine ⟨dropped + n, ⟨⟨h.tables_eq, h.covered_eq, ⟨?_, ?_⟩, ?_, ?_, ?_, h.limit_eq,
    h.startCondition_eq, h.keepText_eq, h.line_eq, h.state_lt, h.bolState_lt⟩, ?_, ?_, ?_⟩⟩
  · exact hsource ▸ h.steady.source
  · exact hsettings ▸ h.steady.block
  · rw [hpassed, h.passed_eq, List.drop_drop]
  · rw [hpending, h.pending_eq]
  · rcases h.look with hzero | hlt
    · rcases Nat.eq_zero_or_pos n with hzero' | hpos
      · exact .inl (by rw [hzero, hzero'])
      · exact .inr (by omega)
    · exact .inr (by omega)
  · intro hkeepText
    obtain ⟨hstart, hle⟩ := h.kept hkeepText
    have hshift := Nat.le_trans hn (hkeep (h.keepText_eq.trans hkeepText))
    refine ⟨?_, hle⟩
    simp only [Window.shift, hshift, if_true]
    omega
  · obtain ⟨run, hrun, houtput⟩ := h.run
    exact ⟨run, hrun.drop hrunStart' hpassed _, houtput⟩
  · intro w hw
    obtain ⟨w', hw', rfl⟩ := Option.map_eq_some_iff.1 (Option.mem_def.1 hw)
    have hstart := hrunStart' w' hw'
    have hstop := h.runStop w' hw'
    have hlength := congrArg List.length hpassed
    rw [Array.length_toList, List.length_drop, Array.length_toList] at hlength
    simp only [Window.shift, hstart, if_true, Window.stop, Buffer.cursor] at hstop ⊢
    omega

theorem prepare_wp (h : s.Between t tape dropped) :
    wp prepare (fun _ s' => ∃ dropped', s'.Between t tape dropped') s := by
  have htrim : ∀ {s' : Scanner}, s'.Between t tape dropped →
      wp (modify Scanner.trim : ScannerM PUnit)
        (fun _ s' => ∃ dropped', s'.Between t tape dropped') s' :=
    fun h => .modify h.trim
  apply wp.bind
  apply wp.get
  split
  · apply wp.bind
    apply h.flush_wp.mono
    intro _ s' hs'
    exact htrim hs'.1
  · exact htrim h

/-! ## Reading -/

theorem stream_eq (b : Buffer) : b.stream = b.passed.toList ++ b.pending := by
  simp only [Buffer.stream, Buffer.contents, Buffer.pending, List.append_assoc]

/-- Reading moves bytes of the tape behind the cursor. -/
theorem OnTape.reached (h : s.OnTape t tape dropped) {n : Nat} {buffer : Buffer}
    (hbuffer : s.buffer.Reached (s.buffer.cursor + n) buffer) :
    OnTape t { tape with
      behind := tape.behind ++ tape.pending.take n
      pending := tape.pending.drop n } dropped { s with buffer } := by
  have hcursor : s.buffer.cursor = s.buffer.passed.toList.length := Array.length_toList.symm
  refine ⟨h.tables_eq, h.covered_eq, hbuffer.steady, ?_, ?_, ?_, h.limit_eq, h.startCondition_eq,
    h.keepText_eq, h.line_eq, h.state_lt, h.bolState_lt⟩
  · show buffer.passed.toList = (tape.behind ++ tape.pending.take n).drop dropped
    rw [hbuffer.passed_eq, stream_eq, hcursor, List.take_length_add_append, h.passed_eq,
      h.pending_eq, List.drop_append_of_le_length h.dropped_le]
  · show buffer.pending = tape.pending.drop n
    rw [hbuffer.pending_eq, stream_eq, hcursor, List.drop_length_add_append, h.pending_eq]
  · rw [List.length_append]
    exact h.look.imp_right fun hlt => Nat.lt_of_lt_of_le hlt (Nat.le_add_right _ _)

/-- A run stays where it is when bytes are read behind it. -/
theorem RunOf.append {run more : List UInt8} (h : s.RunOf run) {buffer : Buffer}
    (hpassed : buffer.passed.toList = s.buffer.passed.toList ++ more) :
    RunOf { s with buffer } run := by
  rcases h with ⟨hnone, rfl⟩ | ⟨start, hsome, hle, hrun⟩
  · exact .inl ⟨hnone, rfl⟩
  · have hle' : start + run.length ≤ s.buffer.passed.toList.length := Array.length_toList ▸ hle
    refine .inr ⟨start, hsome, ?_, ?_⟩
    · show start + run.length ≤ buffer.cursor
      rw [Buffer.cursor, ← Array.length_toList, hpassed, List.length_append]
      exact Nat.le_trans hle' (Nat.le_add_right _ _)
    · show run = (buffer.passed.toList.drop start).take run.length
      rw [hpassed, List.drop_append_of_le_length (Nat.le_trans (Nat.le_add_right _ _) hle'),
        List.take_append_of_le_length]
      · exact hrun
      · rw [List.length_drop]
        exact Nat.le_sub_of_add_le (Nat.add_comm start _ ▸ hle')

theorem passed_of_reached {b b' : Buffer} {n : Nat} (h : b.Reached (b.cursor + n) b') :
    b'.passed.toList = b.passed.toList ++ b.pending.take n := by
  have hcursor : b.cursor = b.passed.toList.length := Array.length_toList.symm
  rw [h.passed_eq, stream_eq, hcursor, List.take_length_add_append]

/-! ## Skipping a byte -/

theorem openRun_eq {offset : Nat} (hstop : ∀ w ∈ s.unmatched, w.stop = offset) :
    openRun offset s = .ok () { s with unmatched := some (s.unmatched.getD ⟨offset, 0⟩) } := by
  cases hrun : s.unmatched with
  | none =>
    have hflush : flush s = .ok () s := by
      unfold flush
      rw [hrun]
    simp only [openRun, Bind.bind, EStateM.bind, get_apply, hrun, Option.any_none,
      Bool.false_eq_true, if_false, hflush, modify_apply, Option.getD_none]
  | some w =>
    have heq : (w.stop == offset) = true := beq_iff_eq.2 (hstop w hrun)
    simp only [openRun, Bind.bind, EStateM.bind, get_apply, hrun, Option.any_some, heq, if_true,
      pure_apply, Option.getD_some]
    rw [← hrun]

theorem addUnmatched_eq {offset : Nat} (hstop : ∀ w ∈ s.unmatched, w.stop = offset)
    (byte : UInt8) : addUnmatched offset byte s =
      .ok () (lengthenRun byte { s with unmatched := some (s.unmatched.getD ⟨offset, 0⟩) }) := by
  simp only [addUnmatched, Bind.bind, EStateM.bind, openRun_eq hstop, modify_apply]

theorem skipByte_wp (h : s.Between t tape dropped) {byte : UInt8} {rest : List UInt8}
    (hpending : tape.pending = byte :: rest) (hkeep : tape.keepText = false) :
    wp skipByte (fun _ s' => s'.Between t (tape.skip byte) dropped) s := by
  apply wp.bind
  apply wp.get
  apply wp.bind
  apply wp.onBuffer
  apply (Buffer.readByte_wp h.steady).mono
  intro found buffer hread
  obtain ⟨hfound, hreached⟩ := hread
  rw [h.pending_eq, hpending] at hfound
  subst hfound
  have hmore : buffer.passed.toList = s.buffer.passed.toList ++ [byte] := by
    rw [passed_of_reached hreached, h.pending_eq, hpending]
    rfl
  have hcursor : buffer.cursor = s.buffer.cursor + 1 := hreached.cursor_eq
  have honTape := h.reached hreached
  rw [hpending] at honTape
  obtain ⟨run, hrun, houtput⟩ := h.run
  -- The run as it is, or a new one at the cursor.
  obtain ⟨w, hw, hlength, hstop, hbytes⟩ : ∃ w, s.unmatched.getD ⟨s.buffer.cursor, 0⟩ = w ∧
      w.length = run.length ∧ w.start + run.length = s.buffer.cursor ∧
        run = s.buffer.passed.toList.drop w.start := by
    rcases hrun with ⟨hnone, rfl⟩ | ⟨start, hsome, -, hbytes⟩
    · refine ⟨_, rfl, ?_⟩
      rw [hnone]
      refine ⟨rfl, rfl, ?_⟩
      rw [Option.getD_none, Buffer.cursor, ← Array.length_toList, List.drop_length]
    · have hstop : start + run.length = s.buffer.cursor := h.runStop _ hsome
      refine ⟨_, rfl, ?_⟩
      rw [hsome]
      refine ⟨rfl, hstop, ?_⟩
      rw [List.take_of_length_le] at hbytes
      · exact hbytes
      · rw [List.length_drop, Array.length_toList]
        exact Nat.sub_le_of_le_add (Nat.le_of_eq ((Nat.add_comm _ _).trans hstop).symm)
  apply wp.of_ok (addUnmatched_eq (s := { s with buffer }) h.runStop byte)
  rw [hw]
  refine ⟨⟨honTape.tables_eq, honTape.covered_eq, honTape.steady, honTape.passed_eq,
    ?_, honTape.look, honTape.limit_eq, honTape.startCondition_eq, ?_, ?_,
    honTape.state_lt, honTape.bolState_lt⟩, ?_, ?_, ?_⟩
  · rw [Tape.skip, hpending]
    exact honTape.pending_eq
  · exact h.keepText_eq.trans hkeep
  · simp only [lengthenRun, h.line_eq, Tape.skip]
  · intro hkeepText
    cases hkeepText
  · refine ⟨run ++ [byte], .inr ⟨w.start, ?_, ?_, ?_⟩, ?_⟩
    · simp only [lengthenRun, Option.map_some, Window.lengthen, hlength, List.length_append,
        List.length_singleton]
    · show w.start + (run ++ [byte]).length ≤ buffer.cursor
      apply Nat.le_of_eq
      rw [hcursor, List.length_append, List.length_singleton, ← Nat.add_assoc, hstop]
    · show run ++ [byte] = (buffer.passed.toList.drop w.start).take (run ++ [byte]).length
      have hle : w.start ≤ s.buffer.passed.toList.length := by
        rw [Array.length_toList]
        exact Nat.le.intro hstop
      rw [hmore, List.drop_append_of_le_length hle, ← hbytes, List.take_length]
    · show s.output.written.toList ++ (run ++ [byte]) = tape.output ++ [byte]
      rw [← List.append_assoc, houtput]
  · intro w' hw'
    obtain rfl := Option.some.inj (Option.mem_def.1 hw')
    show w.start + (w.length + 1) = buffer.cursor
    rw [hcursor, hlength, ← Nat.add_assoc, hstop]

/-! ## Matches -/

/-- Where the text of the next match begins, as offset of the buffer and of the tape. -/
theorem Between.nextStart (h : s.Between t tape dropped) :
    (if s.keepText then s.window.start else s.buffer.cursor) + dropped = tape.nextStart ∧
      (if s.keepText then s.window.start else s.buffer.cursor) ≤ s.buffer.cursor := by
  have hcursor := h.cursor_add
  unfold Tape.nextStart
  rw [h.keepText_eq]
  split
  · rename_i hkeep
    obtain ⟨hstart, hle⟩ := h.kept hkeep
    exact ⟨hstart, by omega⟩
  · exact ⟨hcursor, Nat.le_refl _⟩

/-- The scanner with its unmatched run written and a match set up behind it. -/
def matchedAt (s : Scanner) (run : List UInt8) (buffer : Buffer) (rule : Rule) (length : Nat) :
    Scanner :=
  setMatch rule s.buffer.cursor length
    { ({ s with buffer } : Scanner).wrote run with unmatched := none }

theorem Between.matchedAt (h : s.Between t tape dropped) {run : List UInt8}
    (houtput : s.output.written.toList ++ run = tape.output) (rule : Rule) {length : Nat}
    (hlength : length ≤ tape.pending.length) {buffer : Buffer}
    (hreached : s.buffer.Reached (s.buffer.cursor + length) buffer) :
    (s.matchedAt run buffer rule length).AtMatch t (tape.accept rule length) dropped ∧
      (s.matchedAt run buffer rule length).window.stop = buffer.cursor := by
  have honTape := h.reached hreached
  have hcursor := h.cursor_add
  obtain ⟨hstart, hle⟩ := h.nextStart
  have hline : newlines (buffer.slice s.buffer.cursor (s.buffer.cursor + length)) =
      newlines (tape.pending.take length) := by
    have hslice := honTape.slice_eq s.buffer.cursor
      (Nat.le_of_eq (hreached.cursor_eq.symm : s.buffer.cursor + length = buffer.cursor))
    refine congrArg newlines (hslice.trans ?_)
    show ((tape.behind ++ tape.pending.take length).drop (s.buffer.cursor + dropped)).take _ = _
    rw [hcursor, List.drop_left, Nat.add_sub_cancel_left, List.take_take, Nat.min_self]
  refine ⟨⟨⟨honTape.tables_eq, honTape.covered_eq, honTape.steady, honTape.passed_eq,
    honTape.pending_eq, honTape.look, honTape.limit_eq, honTape.startCondition_eq, rfl, ?_,
    honTape.state_lt, honTape.bolState_lt⟩, rfl, ?_, rfl, hstart, ?_, ?_, ?_⟩, ?_⟩
  · show s.line + newlines (buffer.slice s.buffer.cursor (s.buffer.cursor + length)) = _
    rw [hline, h.line_eq]
    rfl
  · exact (toList_wrote _ run).trans houtput
  · show s.buffer.cursor + length - (if s.keepText then s.window.start else s.buffer.cursor) =
      tape.behind.length + length - tape.nextStart
    omega
  · show tape.nextStart + (tape.behind.length + length - tape.nextStart) ≤
      (tape.behind ++ tape.pending.take length).length
    rw [List.length_append, List.length_take, Nat.min_eq_left hlength]
    omega
  · intro hprefixed
    have hnot : ¬ tape.nextStart < tape.behind.length := of_decide_eq_false hprefixed
    show dropped = 0 ∨ dropped < tape.nextStart
    exact h.look.imp_right fun hlt => Nat.lt_of_lt_of_le hlt (Nat.le_of_not_lt hnot)
  · show (if s.keepText then s.window.start else s.buffer.cursor) + (s.buffer.cursor + length -
      (if s.keepText then s.window.start else s.buffer.cursor)) = buffer.cursor
    rw [hreached.cursor_eq]
    exact Nat.add_sub_cancel' (Nat.le_trans hle (Nat.le_add_right _ _))

/-! ## Attempts -/

/-- The scanner stands where the tape stands after a step of advancing. -/
def StandsAfter (t : Tables) (tape : Tape) (s : Scanner) : Step → Prop
  | .matched _ => (∃ dropped, s.AtMatch t tape dropped) ∧ s.window.stop = s.buffer.cursor
  | .skipped => ∃ dropped, s.Between t tape dropped
  | .ended => (∃ dropped, s.Between t tape dropped) ∧ s.unmatched = none

/-- A scanner that keeps no text. -/
theorem Between.close (h : s.Between t tape dropped) :
    Between t tape.close dropped { s with keepText := false } :=
  ⟨⟨h.tables_eq, h.covered_eq, h.steady, h.passed_eq, h.pending_eq, h.look, h.limit_eq,
    h.startCondition_eq, rfl, h.line_eq, h.state_lt, h.bolState_lt⟩, (fun hkeep => nomatch hkeep),
    h.run, h.runStop⟩

theorem Between.reachedSelf (h : s.Between t tape dropped) {buffer : Buffer}
    (hreached : s.buffer.Reached s.buffer.cursor buffer) :
    Between t tape dropped { s with buffer } := by
  have honTape := h.reached (n := 0) hreached
  rw [List.take_zero, List.append_nil, List.drop_zero] at honTape
  obtain ⟨run, hrun, houtput⟩ := h.run
  have hpassed : buffer.passed.toList = s.buffer.passed.toList ++ [] := by
    rw [passed_of_reached (n := 0) hreached, List.take_zero]
  refine ⟨honTape, h.kept, ⟨run, hrun.append hpassed, houtput⟩, fun w hw => ?_⟩
  · exact (h.runStop w hw).trans hreached.cursor_eq.symm

/-- An attempt on a sound scanner does to it what it does to its tape. -/
theorem attempt_wp (ht : t.Sound) (h : s.Between t tape dropped) :
    wp attempt (fun step s' => ∃ tape', tape.Attempts t step tape' ∧ s'.StandsAfter t tape' step)
      s := by
  apply wp.bind
  apply (prepare_wp h).mono
  intro _ s₁ hs₁
  clear h
  obtain ⟨dropped, h⟩ := hs₁
  apply wp.bind
  apply wp.get
  apply wp.bind
  apply wp.onBuffer
  have hattempt : wp (t.longestMatch tape.startCondition tape.atLineStart) _ s₁.buffer :=
    Tables.longestMatch_wp ht h.state_lt h.bolState_lt h.steady
  rw [← h.tables_eq, ← h.startCondition_eq, ← h.atLineStart_eq] at hattempt
  apply hattempt.mono
  intro outcome buffer houtcome
  obtain ⟨hdecides, hreached⟩ := houtcome
  rw [h.tables_eq, h.startCondition_eq, h.atLineStart_eq, h.pending_eq] at hdecides
  cases outcome with
  | accepted rule length =>
    obtain ⟨run, hrun, houtput⟩ := h.run
    have hflush : wp flush (fun _ s' => s' = { ({ s₁ with buffer } : Scanner).wrote run with
        unmatched := none }) { s₁ with buffer } :=
      flush_wp (s := { s₁ with buffer }) h.limit_eq (hrun.append (passed_of_reached hreached))
    obtain ⟨hmatch, hstop⟩ := h.matchedAt houtput rule hdecides.passes_le hreached
    apply wp.bind
    apply hflush.mono
    intro _ s₂ hs₂
    subst hs₂
    exact ⟨_, .matched hdecides, ⟨dropped, hmatch⟩, hstop⟩
  | noMatch =>
    have hclose := (h.reachedSelf hreached).close
    obtain ⟨byte, rest, hpending⟩ := List.exists_cons_of_ne_nil hdecides.1
    apply wp.bind
    apply wp.modify
    apply wp.bind
    apply (skipByte_wp hclose hpending rfl).mono
    intro _ s₂ hs₂
    exact ⟨_, .skipped hdecides hpending, dropped, hs₂⟩
  | endOfInput =>
    apply wp.bind
    apply (h.reachedSelf hreached).flush_wp.mono
    intro _ s₂ hs₂
    exact ⟨_, .ended hdecides, ⟨dropped, hs₂.1.close⟩, hs₂.2⟩

/-! ## Advancing -/

/-- Where advancing has found a rule, or the end. -/
def endStep : Option Rule → Step
  | some rule => .matched rule
  | none => .ended

theorem advance_wp (ht : t.Sound) (h : s.Between t tape dropped) :
    wp advance (fun found s' => ∃ tape', tape.Advances t found tape' ∧
      s'.StandsAfter t tape' (endStep found)) s := by
  unfold wp
  fun_induction advance s generalizing tape dropped with
  | case1 s _ rule s' =>
    rename_i hrun
    have hstep := attempt_wp ht h
    rw [wp, hrun] at hstep
    obtain ⟨tape', ha, hs'⟩ := hstep
    exact ⟨tape', .matched ha, hs'⟩
  | case2 s _ s' =>
    rename_i hrun
    have hstep := attempt_wp ht h
    rw [wp, hrun] at hstep
    obtain ⟨tape', ha, hs'⟩ := hstep
    exact ⟨tape', .ended ha, hs'⟩
  | case3 s _ s' =>
    rename_i hrun ih
    have hstep := attempt_wp ht h
    rw [wp, hrun] at hstep
    obtain ⟨tape', ha, dropped', hs'⟩ := hstep
    have hrest := ih hs'
    revert hrest
    cases advance s' with
    | ok found s'' =>
      intro hrest
      obtain ⟨tape'', hadv, hs''⟩ := hrest
      exact ⟨tape'', .skipped ha hadv, hs''⟩
    | error e s'' => exact id
  | case4 s _ e s' =>
    rename_i hrun
    have hstep := attempt_wp ht h
    rw [wp, hrun] at hstep
    exact hstep

end Scanner

end Munch
