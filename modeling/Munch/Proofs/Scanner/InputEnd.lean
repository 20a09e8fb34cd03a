-- SUMMARY: What an attempt at the end of the input leaves of the text, and of the bytes between the text and the cursor.
import Munch.Proofs.Scanner.Drained
import Munch.Proofs.Scanner.Failure
import Munch.Proofs.Scanner.Frame
import Munch.Proofs.Scanner.Ledger

/-! # The end of the input

An attempt makes room before it finds that no input is left. With nothing ahead it drops all that is not
needed, and the text of the last match with it. There are two exceptions: a text that was asked for, and
a text that is nothing but the byte before the cursor, which is never dropped. Where the text is dropped,
the byte before the cursor stays, though it is not behind any text then. -/

namespace Munch

/-- A window that ends before another one begins moves along with it, or is void. -/
theorem Window.shift_stop_le {w w' : Window} {dropped : Nat} (hdropped : dropped ≤ w'.start)
    (h : w.stop ≤ w'.start) : (w.shift dropped).stop ≤ (w'.shift dropped).start := by
  unfold shift
  rw [if_pos hdropped]
  simp only [stop] at h
  split
  · show w.start - dropped + w.length ≤ w'.start - dropped
    omega
  · exact Nat.zero_le _

namespace Scanner

variable {t : Tables} {settings : BufferSettings} {s s' : Scanner}

/-! ## Unmatched bytes and the text -/

/-- The unmatched bytes lie behind the text of the last match. -/
def Apart (s : Scanner) : Prop :=
  ∀ run ∈ s.unmatched, s.window.stop ≤ run.start

theorem Apart.of_none (h : s.unmatched = none) : s.Apart := by
  intro run hrun
  rw [h] at hrun
  cases hrun

/-- Bytes are dropped in front of both, or the text is gone. -/
theorem Apart.trim (h : s.Apart) : s.trim.Apart := by
  intro run hrun
  obtain ⟨run', hrun', rfl⟩ := Option.map_eq_some_iff.1 hrun
  have hdropped : (s.buffer.trim s.keepFrom).1 ≤ run'.start :=
    Nat.le_trans (s.buffer.trim_le s.keepFrom).1 (s.keepFrom_le.2.2 run' hrun')
  exact Window.shift_stop_le hdropped (h run' hrun')

/-- With nothing ahead and no text to be kept, bytes are dropped up to the end of the text, but for the one
before the cursor. -/
theorem Apart.le_dropped (h : s.Apart) (hkeep : s.keepText = false) (hahead : s.buffer.ahead = []) :
    min (s.buffer.cursor - 1) s.window.stop ≤ (s.buffer.trim s.keepFrom).1 := by
  have hle : min (s.buffer.cursor - 1) s.window.stop ≤ s.keepFrom := by
    unfold keepFrom
    rw [hkeep]
    cases hrun : s.unmatched with
    | none => exact Nat.min_le_left _ _
    | some run =>
      have hstop := h run hrun
      show _ ≤ min (s.buffer.cursor - 1) run.start
      omega
  unfold Buffer.trim
  dsimp only
  split
  · rename_i hnothing
    have hzero : min s.keepFrom s.buffer.cursor = 0 := by simpa [hahead] using hnothing
    show _ ≤ 0
    omega
  · show _ ≤ min s.keepFrom s.buffer.cursor
    omega

/-- Making room keeps the unmatched bytes behind the text. At the end of the input it drops all of the
text that it can. -/
theorem prepare_apart (h : s.Apart) :
    ends prepare
      (fun _ s' => s'.Apart ∧ ∃ dropped, s.Trims dropped s' ∧ (s.keepText = false →
        s'.buffer.ahead = [] → min (s.buffer.cursor - 1) s.window.stop ≤ dropped))
      (fun _ s' => s'.Apart) s := by
  refine s.prepare_trim.mono (fun _ s₁ h₁ => ?_) fun _ s₁ h₁ => ?_
  · obtain ⟨output, unmatched, hmem, rfl⟩ := h₁
    have hflushed : Apart { s with output, unmatched } := fun run hrun => h run (hmem run hrun)
    refine ⟨hflushed.trim, _, s.trim_trims output unmatched, fun hkeep hahead => ?_⟩
    obtain ⟨stale, htrim⟩ := s.buffer.trim_eq (keepFrom { s with output, unmatched })
    exact hflushed.le_dropped hkeep ((congrArg Buffer.ahead htrim).symm.trans hahead)
  · obtain ⟨output, rfl⟩ := h₁
    exact .of_none rfl

/-- The byte that is skipped lies behind the text. -/
theorem skipByte_apart (h : s.Apart) (hstop : s.window.stop ≤ s.buffer.cursor)
    (hahead : s.buffer.ahead ≠ []) :
    ends skipByte (fun _ s' => s'.Apart ∧ s'.window.stop < s'.buffer.cursor)
      (fun _ s' => s'.Apart) s := by
  obtain ⟨byte, rest, hcons⟩ := List.exists_cons_of_ne_nil hahead
  refine .bind (.get (.bind (.onBuffer (.of_ok (Buffer.readByte_of_cons hcons) ?_))))
  refine .bind ((openRun_ends _ _).mono (fun _ s₁ h₁ => .modify ?_) fun e s₁ h₁ => ?_)
  · obtain ⟨output, run, hrun, hold, rfl⟩ := h₁
    refine ⟨fun run' hrun' => ?_, ?_⟩
    · obtain rfl := Option.some.inj (Option.mem_def.1 hrun')
      show s.window.stop ≤ run.start
      rcases hold with hmem | hnew
      · exact h run hmem
      · simp only [Window.stop] at hrun hstop ⊢
        omega
    · show s.window.stop < (s.buffer.passed.push byte).size
      rw [Array.size_push]
      exact Nat.lt_succ_of_le hstop
  · obtain ⟨⟨output, rfl⟩, -⟩ := h₁
    exact .of_none rfl

theorem attempt_apart (ht : t.Sound) (h : s.Coherent t settings) (hcovered : s.covered = none)
    (hapart : s.Apart) :
    ends attempt
      (fun step s' => s'.Apart ∧ (step = .skipped → s'.window.stop < s'.buffer.cursor))
      (fun _ s' => s'.Apart) s := by
  refine .bind (((prepare_ends h hcovered).and (prepare_apart hapart)).mono (fun _ s₁ h₁ => ?_)
    fun _ _ h' => h'.2)
  obtain ⟨⟨-, h₁, hcovered₁, -⟩, hapart₁, -⟩ := h₁
  refine .bind (.get (.bind (.onBuffer ?_)))
  refine .of_result (fun outcome buffer hrun => ?_) fun e buffer _ => hapart₁
  have htables := h₁.tables_eq.symm
  have hprobed := ((Tables.longestMatch_ends (htables ▸ ht) h₁.roomy (htables ▸ h₁.state_lt)
    (htables ▸ h₁.bolState_lt) _).ok hrun).1
  -- Behind a match and at the end of the input there are no unmatched bytes.
  have hflush {step : Step} {f : Scanner → Scanner} (hf : ∀ s, (f s).unmatched = s.unmatched)
      (hstep : step ≠ .skipped) :
      ends (do flush; modify f; return step : ScannerM Step)
        (fun step s' => s'.Apart ∧ (step = .skipped → s'.window.stop < s'.buffer.cursor))
        (fun _ s' => s'.Apart) { s₁ with buffer } := by
    refine .bind ((flush_ends _).mono (fun _ s₂ hs₂ => ?_) fun e s₂ hs₂ => ?_)
    · obtain ⟨output, rfl⟩ := hs₂
      exact .bind (.modify (.pure ⟨.of_none (hf _), fun heq => absurd heq hstep⟩))
    · obtain ⟨⟨output, rfl⟩, -⟩ := hs₂
      exact .of_none rfl
  cases outcome with
  | accepted rule length =>
    exact hflush (f := setMatch rule s₁.buffer.cursor length) (fun _ => rfl) fun heq => nomatch heq
  | noMatch =>
    refine .bind (.modify (.bind ?_))
    refine (skipByte_apart (s := { s₁ with buffer, keepText := false }) hapart₁
      (Nat.le_trans h₁.stop_le hprobed.cursor_le) (Tables.longestMatch_noMatch hrun).2).mono
      (fun _ s₂ h₂ => .pure ⟨h₂.1, fun _ => h₂.2⟩) fun _ _ => id
  | endOfInput =>
    exact hflush (f := fun s => { s with keepText := false }) (fun _ => rfl) fun heq => nomatch heq

/-- If bytes are skipped, fewer are pending, the cursor is behind the text, and no text is kept. -/
theorem Skips.apart (hskips : s.Skips s') (ht : t.Sound) (h : s.Coherent t settings)
    (hcovered : s.covered = none) (hapart : s.Apart) : s'.Apart ∧ (s' = s ∨
      (s'.keepText = false ∧ s'.window.stop < s'.buffer.cursor ∧
        s'.pending.length < s.pending.length)) := by
  induction hskips with
  | here => exact ⟨hapart, .inl rfl⟩
  | @skip s s₁ s' hattempt hskips ih =>
    have hleads := ((attempt_ends ht h hcovered).ok hattempt).1
    have hcovered₁ := hleads.covered hcovered
    obtain ⟨bytes, hattempted⟩ := (attempt_consumes ht h hcovered).ok hattempt
    obtain ⟨hapart₁, hbehind⟩ := (attempt_apart ht h hcovered hapart).ok hattempt
    have hfewer : s₁.pending.length < s.pending.length := by
      rw [pending_of_uncovered hcovered, pending_of_uncovered hcovered₁]
      exact remaining_of_attempt hattempt
    obtain ⟨hapart', hcases⟩ := ih hleads.coherent hcovered₁ hapart₁
    refine ⟨hapart', .inr ?_⟩
    rcases hcases with rfl | ⟨hkeep, hbehind', hfewer'⟩
    · exact ⟨hattempted.keepText_eq, hbehind rfl, hfewer⟩
    · exact ⟨hkeep, hbehind', Nat.lt_trans hfewer' hfewer⟩

/-! ## Attempts at the end of the input -/

/-- The text outlasts the end of the input: it is to be kept, or it is nothing but the byte before the
cursor. -/
def Lingers (s : Scanner) : Prop :=
  s.keepText = true ∨ (s.window.length = 1 ∧ s.window.stop = s.buffer.cursor)

instance : DecidablePred Lingers :=
  fun s => inferInstanceAs (Decidable (s.keepText = true ∨ _ ∧ _))

theorem Lingers.le_start (hlingers : s.Lingers) {dropped : Nat} (h : s.Trims dropped s') :
    dropped ≤ s.window.start := by
  rcases hlingers with hkeep | ⟨hone, hcursor⟩
  · exact h.kept hkeep
  · have hle := h.dropped_le
    simp only [Window.stop] at hcursor
    omega

/-- A text that begins behind the dropped bytes stays, and so do the bytes behind it. -/
theorem Trims.drop_eq {dropped : Nat} (h : s.Trims dropped s') (hle : dropped ≤ s.window.start) :
    s'.window = ⟨s.window.start - dropped, s.window.length⟩ ∧ ∀ n,
      s'.buffer.passed.toList.drop (s'.window.start + n) =
        s.buffer.passed.toList.drop (s.window.start + n) := by
  have hwindow : s'.window = ⟨s.window.start - dropped, s.window.length⟩ := by
    rw [h.window_eq, Window.shift, if_pos hle]
  refine ⟨hwindow, fun n => ?_⟩
  rw [h.passed_eq, List.drop_drop, hwindow]
  congr 1
  show dropped + (s.window.start - dropped + n) = s.window.start + n
  omega

/-- An attempt that comes to the end of the input consumes nothing. A text that does not outlast it is
dropped then, and some byte before the cursor lies behind no text, unless the text was empty already and
nothing was behind it. -/
theorem attempt_ended (ht : t.Sound) (hs : s.Coherent t settings) (hcovered : s.covered = none)
    (hapart : s.Apart) (h : attempt s = .ok .ended s') : s'.pending = s.pending ∧
      (s.Lingers → s'.text = s.text ∧ ∀ behind, s.Behind behind → s'.Behind behind) ∧
      (¬ s.Lingers → s'.window.length = 0 ∧ (s'.window.stop = s'.buffer.cursor ↔
        s.window.length = 0 ∧ s.window.stop = s.buffer.cursor)) := by
  have hs' := ((attempt_ends ht hs hcovered).ok h).1.coherent
  obtain ⟨s₁, b, output, hprepare, ⟨h₁, hcovered₁, -⟩, hread, rfl⟩ := attempt_eq_ended hs hcovered h
  obtain ⟨-, dropped, htrims, hdropped⟩ := (prepare_apart hapart).ok hprepare
  obtain ⟨hpassed, hpending⟩ := (Buffer.readByte_consumes h₁.roomy).ok hread
  rw [Option.toList_none, List.append_nil] at hpassed
  have hahead : s₁.buffer.ahead = [] := by
    cases hcons : s₁.buffer.ahead with
    | nil => rfl
    | cons byte rest => cases (Buffer.readByte_of_cons hcons).symm.trans hread
  refine ⟨?_, fun hlingers => ?_, fun hnot => ?_⟩
  · rw [pending_of_uncovered (by exact hcovered₁), pending_of_uncovered hcovered, ← htrims.pending_eq]
    exact hpending.symm
  · obtain ⟨hwindow, hdrop⟩ := htrims.drop_eq (hlingers.le_start htrims)
    have hlength : s₁.window.length = s.window.length := by rw [hwindow]
    refine ⟨?_, fun behind hbehind => ?_⟩
    · rw [hs'.text_eq, hs.text_eq]
      show (b.passed.toList.drop s₁.window.start).take s₁.window.length = _
      rw [hpassed, hlength]
      exact congrArg (List.take s.window.length) (hdrop 0)
    · show b.passed.toList.drop (s₁.window.start + s₁.window.length) = behind
      rw [hpassed, hlength, hdrop]
      exact hbehind
  · have hcursor : b.cursor = s.buffer.cursor - dropped := by
      have hlength := congrArg List.length (hpassed.trans htrims.passed_eq)
      rwa [List.length_drop, Array.length_toList, Array.length_toList] at hlength
    have hkeep : s.keepText = false := Bool.eq_false_iff.2 fun hkeep => hnot (.inl hkeep)
    have hlast : ¬ (s.window.length = 1 ∧ s.window.stop = s.buffer.cursor) := fun h => hnot (.inr h)
    have hle := htrims.dropped_le
    have hmin := hdropped hkeep hahead
    have hstop := hs.stop_le
    show s₁.window.length = 0 ∧ (s₁.window.stop = b.cursor ↔ _)
    rw [htrims.window_eq, hcursor, Window.shift]
    simp only [Window.stop] at hlast hmin hstop ⊢
    split
    · dsimp only
      omega
    · dsimp only
      omega

/-! ## Operations -/

/-- The text ends no later, and the unmatched bytes are the same or gone. -/
def Recedes (s s' : Scanner) : Prop :=
  s'.window.stop ≤ s.window.stop ∧ ∀ run ∈ s'.unmatched, run ∈ s.unmatched

instance : Frames Recedes where
  refl _ := ⟨Nat.le_refl _, fun _ => id⟩
  trans h h' := ⟨Nat.le_trans h'.1 h.1, fun run hrun => h.2 run (h'.2 run hrun)⟩
  handle _ _ _ _ := ⟨Nat.le_refl _, fun _ => id⟩
  shorten s n := ⟨Nat.add_le_add_left (Nat.min_le_left s.window.length n) _, fun _ => id⟩

theorem Recedes.apart (h : s.Recedes s') (hapart : s.Apart) : s'.Apart :=
  fun run hrun => Nat.le_trans h.1 (hapart run (h.2 run hrun))

theorem restart_recedes (source : Source) (s : Scanner) :
    ends (restart source) (fun _ s' => s.Recedes s') (fun _ s' => s.Recedes s') s := by
  refine .bind ((flush_ends s).mono (fun _ s₁ h₁ => ?_) fun e s₁ h₁ => ?_)
  · obtain ⟨output, rfl⟩ := h₁
    refine .bind (.modify (.modify ⟨Nat.zero_le _, fun run hrun => ?_⟩))
    rw [unterminate_eq] at hrun
    cases hrun
  · obtain ⟨⟨output, rfl⟩, -⟩ := h₁
    exact ⟨Nat.le_refl _, fun run hrun => nomatch hrun⟩

end Scanner

open Scanner

/-- No operation moves the end of the text onwards, or adds unmatched bytes. -/
theorem Edit.perform_recedes (edit : Edit) (s : Scanner) :
    ends edit.perform (fun _ s' => s.Recedes s') (fun _ s' => s.Recedes s') s := by
  have hinput {edit : Edit} (h : edit.KeepsInput) :
      ends edit.perform (fun _ s' => s.Recedes s') (fun _ s' => s.Recedes s') s :=
    (h.perform_retouched s).mono (fun _ _ ⟨_, _, heq⟩ => heq ▸ ⟨Nat.le_refl _, fun _ => id⟩)
      fun _ _ ⟨_, _, heq⟩ => heq ▸ ⟨Nat.le_refl _, fun _ => id⟩
  cases edit with
  | input => exact .of_across (input_frames Recedes) s
  | unput byte => exact .of_across (.bind (unput_frames Recedes byte) fun _ => .pure _) s
  | unputAll bytes => exact .of_across (.bind (unputAll_frames Recedes bytes) fun _ => .pure _) s
  | less n => exact .of_across (.bind (less_frames Recedes n) fun _ => .pure _) s
  | more => exact hinput (by trivial)
  | echo => exact hinput (by trivial)
  | begin sc => exact hinput (by trivial)
  | beginNamed name => exact hinput (by trivial)
  | write bytes => exact hinput (by trivial)
  | restart source => exact .bind ((restart_recedes source s).mono (fun _ _ h => .pure h) fun _ _ => id)

/-! ## Notes -/

section Notes

variable {t : Tables} {settings : BufferSettings} {s s' : Scanner} {note before : Note}
  {earlier : List Note}

theorem Note.Follows.apart (hfollows : note.Follows before) (ht : t.Sound)
    (h : before.scanner.Coherent t settings) (hapart : before.scanner.Apart) : note.scanner.Apart := by
  obtain ⟨event, running, s'⟩ := note
  have hbare : before.scanner.unterminate.Apart := (unterminate_frames Recedes _).apart hapart
  have hattempts {s : Scanner} (hattempts : before.Attempts s) : ends attempt
      (fun _ s' => s'.Apart) (fun _ s' => s'.Apart) s := by
    obtain ⟨hs, hcovered, -⟩ := hattempts.moves ht h
    have hskips := Skips.apart hattempts ht h.unterminate.coherent (covered_unterminate _) hbare
    exact (attempt_apart ht hs hcovered hskips.1).mono (fun _ _ h' => h'.1) fun _ _ => id
  cases event with
  | built => exact hfollows.elim
  | performed edit result =>
    have hedit := (edit.perform_recedes before.scanner).mono (fun _ _ h' => h'.apart hapart)
      fun _ _ h' => h'.apart hapart
    cases result with
    | ok a => exact hedit.ok hfollows.2
    | error e => exact hedit.error hfollows.2
  | altered =>
    obtain ⟨-, output, rfl⟩ := hfollows
    exact hapart
  | entered rule =>
    obtain ⟨-, s, s₁, hfirst, hstep, rfl⟩ := hfollows
    exact (terminate_frames Recedes s₁).apart ((hattempts hfirst).ok hstep)
  | left result =>
    obtain ⟨-, rfl⟩ := hfollows
    exact hapart
  | asked =>
    obtain ⟨-, s, hfirst, hstep⟩ := hfollows
    exact (hattempts hfirst).ok hstep
  | answered result =>
    obtain ⟨-, rfl⟩ := hfollows
    exact hapart
  | scanned result =>
    obtain ⟨-, rfl | ⟨e, s, rfl, hfirst, hfails⟩⟩ := hfollows
    · exact hbare
    · exact (hattempts hfirst).error hfails

/-- Step by step, the unmatched bytes stay behind the text. -/
theorem Linked.apart (hlinked : Linked (note :: earlier)) (ht : t.Sound)
    (hproper : AllProper t settings (note :: earlier)) : note.scanner.Apart := by
  refine Linked.invariant (P := fun note _ => note.scanner.Apart)
    (fun hunused run _ => ?_) (fun hfollows h _ _ hapart => hfollows.apart ht h hapart) hlinked hproper
  show Window.stop _ ≤ _
  rw [hunused.window_eq]
  exact Nat.zero_le _

/-! ## The end of the input -/

/-- No byte was skipped before the end of the input, and the text outlasts it. -/
def Note.Outlasts (note before : Note) : Prop :=
  before.scanner.pending = note.scanner.pending ∧ before.scanner.Lingers

instance : Decidable (note.Outlasts before) :=
  inferInstanceAs (Decidable (_ ∧ before.scanner.Lingers))

/-- What the hook at the end of the input finds: the text as it was, or no text. -/
theorem Note.Follows.ended (hfollows : note.Follows before) (hasked : note.event = .asked)
    (ht : t.Sound) (h : before.scanner.Coherent t settings) (hapart : before.scanner.Apart) :
    (note.Outlasts before → note.scanner.text = before.scanner.text ∧
      ∀ behind, before.scanner.Behind behind → note.scanner.Behind behind) ∧
    (¬ note.Outlasts before → note.scanner.window.length = 0 ∧
      (note.scanner.window.stop = note.scanner.buffer.cursor ↔
        before.scanner.pending = note.scanner.pending ∧ before.scanner.window.length = 0 ∧
          before.scanner.window.stop = before.scanner.buffer.cursor)) := by
  obtain ⟨event, running, s'⟩ := note
  obtain rfl : event = .asked := hasked
  obtain ⟨-, start, hattempts, hstep⟩ := hfollows
  have hbare := h.sameInput_unterminate
  obtain ⟨hstart, hcovered, -⟩ := hattempts.moves ht h
  obtain ⟨hapart', hskips⟩ := Skips.apart hattempts ht h.unterminate.coherent (covered_unterminate _)
    ((unterminate_frames Recedes _).apart hapart)
  obtain ⟨hpending, hstays, hdrops⟩ := attempt_ended ht hstart hcovered hapart' hstep
  rcases hskips with rfl | ⟨hkeep, hbehind, hfewer⟩
  · -- Nothing was skipped, so the attempt has begun at the scanner of the note before.
    have hsame : before.scanner.pending = s'.pending := hbare.pending_eq.symm.trans hpending.symm
    have hcursor : before.scanner.unterminate.buffer.cursor = before.scanner.buffer.cursor :=
      congrArg Array.size hbare.passed_eq
    have hlingers : before.scanner.unterminate.Lingers ↔ before.scanner.Lingers := by
      rw [Lingers, Lingers, unterminate_keepText, hbare.window_eq, hcursor]
    rw [hlingers, hbare.window_eq, hcursor] at hdrops
    refine ⟨fun houtlasts => ?_, fun hnot => ?_⟩
    · obtain ⟨htext, hbehind⟩ := hstays (hlingers.2 houtlasts.2)
      exact ⟨htext.trans h.text_unterminate,
        fun behind hb => hbehind behind (hb.congr hbare.passed_eq hbare.window_eq)⟩
    · obtain ⟨hlength, hiff⟩ := hdrops fun h => hnot ⟨hsame, h⟩
      exact ⟨hlength, hiff.trans ⟨fun h => ⟨hsame, h⟩, And.right⟩⟩
  · have hdiffer : before.scanner.pending ≠ s'.pending := by
      intro heq
      rw [hpending] at heq
      rw [hbare.pending_eq, heq] at hfewer
      exact Nat.lt_irrefl _ hfewer
    have hnot : ¬ start.Lingers := by
      rintro (hkept | ⟨-, hstop⟩)
      · cases hkept.symm.trans hkeep
      · omega
    obtain ⟨hlength, hiff⟩ := hdrops hnot
    refine ⟨fun houtlasts => absurd houtlasts.1 hdiffer, fun _ => ⟨hlength, hiff.trans ⟨fun h => ?_,
      fun h => absurd h.1 hdiffer⟩⟩⟩
    omega

end Notes

/-! ## Sessions -/

/-- The text behind a scan that has come to the end of the input, with a hook that did nothing but say so,
over everything that the session does before. There is no text then, with two exceptions: if no byte was
skipped on the way, a text that was to be kept, and one that is nothing but the byte before the cursor,
are what they were at the note before. -/
theorem Session.exhausted_text {o : ScannerOptions} {t : Tables} {source : Source} {output : Sink}
    {s : Scanner} (hbuild : o.build t source output = .ok s) {σ α : Type} (session : Session σ α)
    (memory : σ) {ended answered asked before : Note} {earlier : List Note}
    (hsuffix : ended :: answered :: asked :: before :: earlier <:+ session.notes memory s)
    (hended : ended.event = .scanned (.ok .exhausted)) (hanswered : answered.event = .answered (.ok true))
    (hasked : asked.event = .asked) :
    ended.scanner.window.length = ended.scanner.text.length ∧
    (asked.Outlasts before → ended.scanner.text = before.scanner.text) ∧
    (¬ asked.Outlasts before → ended.scanner.text = []) := by
  obtain ⟨ht, hproper, hlinked⟩ := session.recorded hbuild memory hsuffix
  have hcoherent := (hproper ended _ List.suffix_rfl).coherent
  have hcoherent₁ := (hproper.tail answered _ List.suffix_rfl).coherent
  have hcoherent₂ := (hproper.tail.tail asked _ List.suffix_rfl).coherent
  cases hlinked with
  | next hlast hlinked =>
  cases hlinked with
  | next hhook hlinked =>
  cases hlinked with
  | next hattempt hlinked =>
  have hbefore := (hproper.tail.tail.tail before _ List.suffix_rfl).coherent
  obtain ⟨hstays, hdrops⟩ :=
    hattempt.ended hasked ht hbefore (hlinked.apart ht hproper.tail.tail.tail)
  have htext : ended.scanner.text = asked.scanner.text := by
    rw [Note.Follows, hended] at hlast
    rw [Note.Follows, hanswered] at hhook
    rcases hlast.2 with hscanner | ⟨e, _, herror, -⟩
    · rw [hscanner, hcoherent₁.text_unterminate, hhook.2]
    · cases herror
  refine ⟨hcoherent.length_text.symm, fun houtlasts => htext.trans (hstays houtlasts).1, fun hnot => ?_⟩
  exact htext.trans (List.length_eq_zero_iff.1 (hcoherent₂.length_text.trans (hdrops hnot).1))

/-- A scan to the end of a short input, whose actions do nothing. -/
def Session.toTheEnd : Session Unit Unit :=
  .scan 3 (fun _ => .finish .resume) (.finish true) fun _ => .finish ()

/-- Behind a text of two bytes there is no text at the end of the input. -/
theorem Session.exhausted_text_anyRun : ∃ s ended,
    ({} : ScannerOptions).build Tables.anyRun (.ofBytes [97, 98]) {} = .ok s ∧
    ended ∈ toTheEnd.notes () s ∧ ended.event = .scanned (.ok .exhausted) ∧
    ended.scanner.text = [] := by
  have hrun : (match ({} : ScannerOptions).build Tables.anyRun (.ofBytes [97, 98]) {} with
      | .ok s => match toTheEnd.notes () s with
        | ended :: notes => match notes with
          | answered :: notes => match notes with
            | asked :: notes => match notes with
              | before :: _ => decide (
                  ended.event = .scanned (.ok .exhausted) ∧ answered.event = .answered (.ok true) ∧
                  asked.event = .asked ∧ ¬ asked.Outlasts before)
              | [] => false
            | [] => false
          | [] => false
        | [] => false
      | .error _ => false) = true := by decide +kernel
  split at hrun
  · rename_i s hbuild
    split at hrun
    · rename_i ended notes hnotes
      split at hrun
      · rename_i answered notes
        split at hrun
        · rename_i asked notes
          split at hrun
          · rename_i before earlier
            obtain ⟨hended, hanswered, hasked, hnot⟩ := of_decide_eq_true hrun
            have hsuffix : ended :: answered :: asked :: before :: earlier <:+ toTheEnd.notes () s :=
              hnotes ▸ List.suffix_rfl
            obtain ⟨-, -, hnone⟩ := exhausted_text hbuild toTheEnd () hsuffix hended hanswered hasked
            exact ⟨s, ended, hbuild, hsuffix.subset List.mem_cons_self, hended, hnone hnot⟩
          · exact Bool.noConfusion hrun
        · exact Bool.noConfusion hrun
      · exact Bool.noConfusion hrun
    · exact Bool.noConfusion hrun
  · exact Bool.noConfusion hrun

/-- A text of one byte is still there at the end of the input. -/
theorem Session.exhausted_oneByte : ∃ s ended earlier,
    ({} : ScannerOptions).build Tables.oneByte (.ofBytes [97]) {} = .ok s ∧
    ended :: earlier <:+ toTheEnd.notes () s ∧
    (ended :: earlier).map Note.event = [.scanned (.ok .exhausted), .answered (.ok true), .asked,
      .left (.ok .resume), .entered 1, .built] ∧
    ended.scanner.text = [97] ∧ ended.scanner.window.length = 1 := by
  have hrun : (match ({} : ScannerOptions).build Tables.oneByte (.ofBytes [97]) {} with
      | .ok s => match toTheEnd.notes () s with
        | ended :: earlier => decide ((ended :: earlier).map Note.event =
              [.scanned (.ok .exhausted), .answered (.ok true), .asked, .left (.ok .resume),
                .entered 1, .built] ∧
            ended.scanner.text = [97] ∧ ended.scanner.window.length = 1)
        | [] => false
      | .error _ => false) = true := by decide +kernel
  split at hrun
  · rename_i s hbuild
    split at hrun
    · rename_i ended earlier hnotes
      exact ⟨s, ended, earlier, hbuild, hnotes ▸ List.suffix_rfl, of_decide_eq_true hrun⟩
    · exact Bool.noConfusion hrun
  · exact Bool.noConfusion hrun

end Munch
