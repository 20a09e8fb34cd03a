-- SUMMARY: What an attempt consumes of the pending input, over any source: where the bytes are then, and how they are counted.
import Munch.Proofs.Scanner.Echo
import Munch.Proofs.Scanner.PendingInput

/-! # Consumption

An attempt takes bytes from the front of the pending input, and the scanner has passed them then. Bytes
passed before may be dropped on the way, but never the one before the cursor, nor the text that is kept
for the next match. This holds of every source, and also of an attempt that fails. -/

namespace Munch

/-- Reading on moves bytes from the pending ones to those passed. -/
theorem Buffer.Extends.consumes {b b' : Buffer} (h : b.Extends b') (hle : b.cursor ≤ b'.cursor) :
    ∃ bytes, b'.passed.toList = b.passed.toList ++ bytes ∧ b.pending = bytes ++ b'.pending := by
  have hstream : b'.passed.toList ++ b'.pending = b.passed.toList ++ b.pending := by
    rw [← Scanner.stream_eq, ← Scanner.stream_eq, h.stream_eq]
  rcases List.append_eq_append_iff.1 hstream with ⟨more, hpassed, hpending⟩ | hahead
  · -- The cursor is not before where it was, so nothing has gone back.
    have hlength := congrArg List.length hpassed
    rw [List.length_append, Array.length_toList, Array.length_toList] at hlength
    have hnil : more = [] := by
      refine List.length_eq_zero_iff.1 ?_
      simp only [Buffer.cursor] at hle
      omega
    rw [hnil, List.append_nil] at hpassed
    exact ⟨[], by rw [List.append_nil, hpassed], by rw [hpending, hnil]; rfl⟩
  · exact hahead

namespace Scanner

/-- Some bytes are not pending any more and stand before the cursor, behind what was passed before. The
first bytes of that may be dropped, but not the last one. -/
structure Consumes (s : Scanner) (bytes : List UInt8) (s' : Scanner) : Prop where
  pending_eq : s.pending = bytes ++ s'.pending
  passed_eq : ∃ dropped ≤ s.buffer.cursor - 1,
    s'.buffer.passed.toList = s.buffer.passed.toList.drop dropped ++ bytes

/-- The bytes in front of the pending input that a later scanner has not pending any more. -/
def taken (s s' : Scanner) : List UInt8 :=
  s.pending.take (s.pending.length - s'.pending.length)

section Attempts

variable {t : Tables} {settings : BufferSettings} {s s' s'' : Scanner}

theorem taken_of_append {bytes : List UInt8} (h : s.pending = bytes ++ s'.pending) :
    s.taken s' = bytes := by
  rw [taken, h, List.length_append, Nat.add_sub_cancel, List.take_left]

theorem taken_of_pending_eq (h : s.pending = s'.pending) : s.taken s' = [] :=
  taken_of_append h

/-- Only the buffer matters, while no terminator stands. -/
theorem Consumes.congr {bytes : List UInt8} (h : s.Consumes bytes s')
    (hbuffer : s''.buffer = s'.buffer) (hcovered : s''.covered = s'.covered) :
    s.Consumes bytes s'' := by
  have hpending : s''.pending = s'.pending := by rw [pending, pending, hbuffer, hcovered]
  exact ⟨hpending ▸ h.pending_eq, hbuffer ▸ h.passed_eq⟩

/-- Reading on in the buffer behind a byte that is skipped. -/
theorem Consumes.append {bytes more : List UInt8} (h : s.Consumes bytes s')
    (hpending : s'.pending = more ++ s''.pending)
    (hpassed : s''.buffer.passed.toList = s'.buffer.passed.toList ++ more) :
    s.Consumes (bytes ++ more) s'' := by
  obtain ⟨dropped, hle, hdropped⟩ := h.passed_eq
  refine ⟨by rw [h.pending_eq, hpending, List.append_assoc], dropped, hle, ?_⟩
  rw [hpassed, hdropped, List.append_assoc]

/-! ## Making room -/

/-- Some of the first bytes were dropped, and the window has moved along. -/
structure Trims (s : Scanner) (dropped : Nat) (s' : Scanner) : Prop where
  passed_eq : s'.buffer.passed.toList = s.buffer.passed.toList.drop dropped
  pending_eq : s'.buffer.pending = s.buffer.pending
  dropped_le : dropped ≤ s.buffer.cursor - 1
  kept : s.keepText = true → dropped ≤ s.window.start
  window_eq : s'.window = s.window.shift dropped
  keepText_eq : s'.keepText = s.keepText
  line_eq : s'.line = s.line

theorem trim_trims (s : Scanner) (output : Sink) (unmatched : Option Window) :
    s.Trims (s.buffer.trim (keepFrom { s with output, unmatched })).1
      (trim { s with output, unmatched }) := by
  obtain ⟨hcursor, hkept, -⟩ := keepFrom_le { s with output, unmatched }
  obtain ⟨hle, hpassed, hpending, -, -⟩ :=
    trim_spec s.buffer (keepFrom { s with output, unmatched })
  exact ⟨hpassed, hpending, Nat.le_trans hle hcursor, fun h => Nat.le_trans hle (hkept h), rfl, rfl, rfl⟩

/-- Making room drops bytes, and may write the unmatched run before. If it fails it has only written. -/
theorem prepare_trim (s : Scanner) :
    ends prepare
      (fun _ s' => ∃ output unmatched, (∀ run ∈ unmatched, run ∈ s.unmatched) ∧
        s' = trim { s with output, unmatched })
      (fun _ s' => ∃ output, s' = { s with output, unmatched := none }) s := by
  refine .bind (.get (.whenThen ?_))
  split
  · refine (flush_ends s).mono (fun _ s₁ h => .modify ?_) fun _ _ h => h.1
    obtain ⟨output, rfl⟩ := h
    exact ⟨output, none, (fun _ hrun => nomatch hrun), rfl⟩
  · exact .pure (.modify ⟨s.output, s.unmatched, fun _ => id, rfl⟩)

theorem prepare_trims (s : Scanner) :
    ends prepare (fun _ s' => ∃ dropped, s.Trims dropped s')
      (fun _ s' => ∃ output, s' = { s with output, unmatched := none }) s :=
  s.prepare_trim.mono (fun _ _ ⟨output, unmatched, _, heq⟩ => heq ▸ ⟨_, s.trim_trims output unmatched⟩)
    fun _ _ => id

/-! ## Attempts -/

/-- What the text of a match begins with. -/
def keptPrefix (s : Scanner) : List UInt8 :=
  if s.keepText then s.buffer.passed.toList.drop s.window.start else []

/-- An attempt has ended and consumed some bytes. The newlines among them are counted, and no text is to
be kept any more. The text of a match is what was to be kept, and the bytes behind it. -/
structure Attempted (s : Scanner) (step : Step) (bytes : List UInt8) (s' : Scanner) : Prop
    extends Consumes s bytes s' where
  line_eq : s'.line = s.line + newlines bytes
  keepText_eq : s'.keepText = false
  text_eq : ∀ rule, step = .matched rule → s'.text = s.keptPrefix ++ bytes

/-- A text that ends at the cursor. -/
theorem text_of_stop (hstop : s.window.stop = s.buffer.cursor) :
    s.text = s.buffer.passed.toList.drop s.window.start := by
  have hrest : (s.buffer.passed.toList.drop s.window.start).length ≤
      s.window.stop - s.window.start := by
    rw [List.length_drop, Array.length_toList, hstop]
    exact Nat.le_refl _
  rw [text, slice_of_le (Nat.le_of_eq hstop), List.take_of_length_le hrest]

/-- A search that begins behind dropped bytes. -/
theorem Trims.consumes {dropped : Nat} (h : s.Trims dropped s') (hcovered : s.covered = none)
    (hcovered' : s'.covered = none) {buffer : Buffer} (hextends : s'.buffer.Extends buffer)
    (hle : s'.buffer.cursor ≤ buffer.cursor) :
    ∃ bytes, buffer.passed.toList = s'.buffer.passed.toList ++ bytes ∧
      s.Consumes bytes { s' with buffer } := by
  obtain ⟨bytes, hpassed, hpending⟩ := hextends.consumes hle
  refine ⟨bytes, hpassed, ?_, dropped, h.dropped_le, hpassed.trans (by rw [h.passed_eq])⟩
  rw [pending_of_uncovered hcovered, ← h.pending_eq, hpending]
  exact congrArg (bytes ++ ·) (pending_of_uncovered (s := { s' with buffer }) hcovered').symm

/-- Skipping counts the byte that it takes. -/
theorem skipByte_consumes (hcovered : s.covered = none) (hahead : s.buffer.ahead ≠ []) :
    ends skipByte
      (fun _ s' => ∃ byte, s.pending = [byte] ++ s'.pending ∧
        s'.buffer.passed.toList = s.buffer.passed.toList ++ [byte] ∧
        s'.line = s.line + newlines [byte] ∧ s'.keepText = s.keepText)
      (fun _ s' => ∃ byte, s.pending = [byte] ++ s'.pending ∧
        s'.buffer.passed.toList = s.buffer.passed.toList ++ [byte]) s := by
  obtain ⟨byte, rest, hcons⟩ := List.exists_cons_of_ne_nil hahead
  have hpending (s' : Scanner) (hbuffer : s'.buffer =
      { s.buffer with passed := s.buffer.passed.push byte, ahead := rest })
      (hnone : s'.covered = none) : s.pending = [byte] ++ s'.pending ∧
        s'.buffer.passed.toList = s.buffer.passed.toList ++ [byte] := by
    rw [pending_of_uncovered hcovered, pending_of_uncovered hnone, hbuffer, Buffer.pending, hcons]
    exact ⟨rfl, Array.toList_push⟩
  have hline : (if byte = 10 then s.line + 1 else s.line) = s.line + newlines [byte] := by
    by_cases hnewline : byte = 10 <;> simp [newlines, hnewline]
  refine .bind (.get (.bind (.onBuffer (.of_ok (Buffer.readByte_of_cons hcons) ?_))))
  refine .bind ((openRun_ends _ _).mono (fun _ s₁ h₁ => .modify ?_) fun e s₁ h₁ => ?_)
  · obtain ⟨output, run, -, -, rfl⟩ := h₁
    obtain ⟨hfront, hpassed⟩ := hpending (lengthenRun byte { s with
      buffer := { s.buffer with passed := s.buffer.passed.push byte, ahead := rest }
      output, unmatched := some run }) rfl hcovered
    exact ⟨byte, hfront, hpassed, hline, rfl⟩
  · obtain ⟨⟨output, rfl⟩, -⟩ := h₁
    exact ⟨byte, hpending _ rfl hcovered⟩

/-- The match is set up behind what the search has consumed. -/
theorem Trims.setMatch {dropped length : Nat} {bytes : List UInt8}
    (h : s.Trims dropped s') (hstop : s.window.stop ≤ s.buffer.cursor) (rule : Rule)
    (s₂ : Scanner) (hwindow : s₂.window = s'.window) (hkeep : s₂.keepText = s'.keepText)
    (hline : s₂.line = s'.line) (hpassed : s₂.buffer.passed.toList = s'.buffer.passed.toList ++ bytes)
    (hcursor : s₂.buffer.cursor = s'.buffer.cursor + length)
    (hset : (s₂.setMatch rule s'.buffer.cursor length).window.stop = s₂.buffer.cursor) :
    (s₂.setMatch rule s'.buffer.cursor length).line = s.line + newlines bytes ∧
      (s₂.setMatch rule s'.buffer.cursor length).text = s.keptPrefix ++ bytes := by
  have hlength : s'.buffer.passed.toList.length = s'.buffer.cursor := Array.length_toList
  have hbytes : bytes.length = length := by
    have hsize := congrArg List.length hpassed
    rw [List.length_append, Array.length_toList, hlength] at hsize
    simp only [Buffer.cursor] at hcursor hsize
    omega
  constructor
  · show s₂.line + newlines (s₂.buffer.slice s'.buffer.cursor (s'.buffer.cursor + length)) = _
    rw [slice_of_le (Nat.le_of_eq hcursor.symm), Nat.add_sub_cancel_left, hpassed, ← hlength,
      List.drop_left, ← hbytes, List.take_length, hline, h.line_eq]
  · rw [text_of_stop hset]
    show s₂.buffer.passed.toList.drop
      (if s₂.keepText then s₂.window.start else s'.buffer.cursor) = _
    rw [keptPrefix, hkeep, h.keepText_eq, hpassed]
    split
    · rename_i hkept
      have hle := h.kept hkept
      have hpos : s.window.start ≤ s.buffer.cursor :=
        Nat.le_trans (Nat.le_add_right _ _) hstop
      have hstart : s₂.window.start = s.window.start - dropped := by
        rw [hwindow, h.window_eq, Window.shift, if_pos hle]
      have hheld : s₂.window.start ≤ s'.buffer.passed.toList.length := by
        rw [hstart, h.passed_eq, List.length_drop, Array.length_toList]
        exact Nat.sub_le_sub_right hpos dropped
      rw [List.drop_append_of_le_length hheld, hstart, h.passed_eq, List.drop_drop,
        Nat.add_sub_cancel' hle]
    · rw [← hlength, List.drop_left, List.nil_append]

/-- An attempt on sound tables, over any source, consumes what it matches, the byte it skips, or nothing
at the end of the input. One that fails has consumed what it had read. -/
theorem attempt_consumes (ht : t.Sound) (h : s.Coherent t settings) (hcovered : s.covered = none) :
    ends attempt (fun step s' => ∃ bytes, s.Attempted step bytes s')
      (fun _ s' => ∃ bytes, s.Consumes bytes s') s := by
  refine .bind (((prepare_ends h hcovered).and s.prepare_trims).mono (fun _ s₁ h₁ => ?_)
    fun e s' h' => ?_)
  swap
  · obtain ⟨output, rfl⟩ := h'.2
    refine ⟨[], ?_, 0, Nat.zero_le _, (List.append_nil _).symm⟩
    rw [pending_of_uncovered hcovered, pending_of_uncovered (by exact hcovered)]
    rfl
  obtain ⟨⟨-, hprepared⟩, dropped, htrims⟩ := h₁
  obtain ⟨h₁, hcovered₁, -⟩ := hprepared
  refine .bind (.get (.bind (.onBuffer ?_)))
  have htables := h₁.tables_eq.symm
  refine .of_result (fun outcome buffer hrun => ?_) fun e buffer hrun => ?_
  swap
  · have hprobed := ((Tables.longestMatch_ends (htables ▸ ht) h₁.roomy (htables ▸ h₁.state_lt)
      (htables ▸ h₁.bolState_lt) _).error hrun).1
    obtain ⟨bytes, -, hconsumes⟩ :=
      htrims.consumes hcovered hcovered₁ hprobed.toExtends hprobed.cursor_le
    exact ⟨bytes, hconsumes⟩
  obtain ⟨hprobed, hcursor⟩ := (Tables.longestMatch_ends (htables ▸ ht) h₁.roomy
    (htables ▸ h₁.state_lt) (htables ▸ h₁.bolState_lt) _).ok hrun
  obtain ⟨bytes, hpassed, hconsumes⟩ :=
    htrims.consumes hcovered hcovered₁ hprobed.toExtends hprobed.cursor_le
  -- Without a match the search has consumed nothing.
  have hnothing (hpasses : outcome.passes = 0) : bytes = [] := by
    have hlength := congrArg List.length hpassed
    rw [List.length_append, Array.length_toList, Array.length_toList] at hlength
    simp only [Buffer.cursor] at hcursor
    exact List.length_eq_zero_iff.1 (by omega)
  cases outcome with
  | accepted rule length =>
    refine .bind ((flush_ends _).mono (fun _ s₂ hs₂ => ?_) fun e s₂ hs₂ => ?_)
    · obtain ⟨output, rfl⟩ := hs₂
      have hflushed := ((h₁.probed hcovered₁ hprobed).coherent.flushed output).coherent
      have hstop := (hflushed.setMatch hcovered₁ h₁.stop_le hcursor.symm rule).2
      obtain ⟨hline, htext⟩ := htrims.setMatch h.stop_le rule
        { s₁ with buffer, output, unmatched := none } rfl rfl rfl hpassed hcursor hstop
      exact .bind (.modify (.pure ⟨bytes, hconsumes.congr rfl rfl, hline, rfl, fun _ _ => htext⟩))
    · obtain ⟨⟨output, rfl⟩, -⟩ := hs₂
      exact ⟨bytes, hconsumes.congr rfl rfl⟩
  | noMatch =>
    obtain rfl := hnothing rfl
    have hahead := (Tables.longestMatch_noMatch hrun).2
    refine .bind (.modify (.bind ?_))
    refine (skipByte_consumes (s := { s₁ with buffer, keepText := false }) hcovered₁ hahead).mono
      (fun _ s₂ h₂ => ?_) fun e s₂ h₂ => ?_
    · obtain ⟨byte, hpending, hpassed₂, hline, hkeep⟩ := h₂
      exact .pure ⟨[byte], (hconsumes.congr rfl rfl).append hpending hpassed₂,
        hline.trans (congrArg (· + _) htrims.line_eq), hkeep, fun _ hstep => by cases hstep⟩
    · obtain ⟨byte, hpending, hpassed₂⟩ := h₂
      exact ⟨[byte], (hconsumes.congr rfl rfl).append hpending hpassed₂⟩
  | endOfInput =>
    obtain rfl := hnothing rfl
    refine .bind ((flush_ends _).mono (fun _ s₂ hs₂ => ?_) fun e s₂ hs₂ => ?_)
    · obtain ⟨output, rfl⟩ := hs₂
      exact .bind (.modify (.pure ⟨[], hconsumes.congr rfl rfl, htrims.line_eq, rfl,
        fun _ hstep => by cases hstep⟩))
    · obtain ⟨⟨output, rfl⟩, -⟩ := hs₂
      exact ⟨[], hconsumes.congr rfl rfl⟩

end Attempts

end Scanner

end Munch
