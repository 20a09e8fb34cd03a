-- SUMMARY: Long inputs fit a small buffer: what a scanner asks for is bounded by the size of a block and the longest pass.
import Munch.Proofs.Buffer.Refusal
import Munch.Proofs.Match.Passes
import Munch.Proofs.Scanner.Chronicle
import Munch.Proofs.Scanner.InputEnd
import Munch.Proofs.Scanner.KeptText

/-! # Small buffers

A scanner drops what it has passed but for the byte before the cursor and the run of unmatched bytes,
and drops less than a block only when nothing is ahead. The run is written once it is as long as a
block. So an attempt begins before the end of the second block that is held, and how far it goes from
there is up to its passes. This rests on the run ending at the cursor. A search that fails leaves the
cursor where it failed: then the run stays behind, and what is held grows beyond that. -/

namespace Munch

open Buffer

/-- Where less than a block would be kept before the cursor, trimming leaves less than two. -/
theorem Buffer.cursor_trim_lt {b : Buffer} (hpos : 0 < b.settings.blockSize) {keepFrom : Nat}
    (hkeep : b.cursor ≤ keepFrom + b.settings.blockSize) :
    (b.trim keepFrom).2.cursor < 2 * b.settings.blockSize := by
  unfold trim
  dsimp only
  split
  · rename_i hfew
    simp only [Bool.or_eq_true, Bool.and_eq_true, decide_eq_true_eq] at hfew
    dsimp only
    omega
  · rw [cursor, Array.size_extract]
    simp only [cursor] at *
    omega

namespace Scanner

variable {t : Tables} {settings : BufferSettings} {s s' : Scanner} {e : ScanError}

/-! ## Scanners that hold little -/

/-- No text is to be kept, the unmatched run ends at the cursor, and the source does not fail. -/
structure Tight (s : Scanner) : Prop where
  keepText_eq : s.keepText = false
  stop_eq : ∀ run ∈ s.unmatched, run.stop = s.buffer.cursor
  unfailing : s.buffer.source.unfailing = true

/-- All unmatched bytes are written as well. -/
structure Idle (s : Scanner) : Prop where
  keepText_eq : s.keepText = false
  unmatched_eq : s.unmatched = none
  unfailing : s.buffer.source.unfailing = true

theorem Idle.tight (h : s.Idle) : s.Tight :=
  ⟨h.keepText_eq, fun _ hrun => (nomatch h.unmatched_eq ▸ hrun), h.unfailing⟩

/-- Writing the run leaves the scanner idle, also if it fails. -/
theorem Tight.flushed (h : s.Tight) (output : Sink) : Idle { s with output, unmatched := none } :=
  ⟨h.keepText_eq, rfl, h.unfailing⟩

/-- An output fails with a text. -/
theorem flush_fails (s : Scanner) :
    ends flush (fun _ _ => True) (fun e _ => ∃ text, e = .io text) s := by
  refine .of_result (fun _ _ _ => trivial) fun e s' h => ?_
  unfold flush at h
  split at h
  · cases h
  · unfold write at h
    split at h
    · cases h
    · rename_i e' output hwrite
      obtain ⟨rfl, -⟩ := EStateM.Result.error.inj h
      unfold Sink.write at hwrite
      dsimp only at hwrite
      split at hwrite
      · cases hwrite
      · exact ⟨_, (EStateM.Result.error.inj hwrite).1.symm⟩

/-! ## Attempts -/

/-- The passes over the input that an attempt makes. -/
def passes (s : Scanner) : List (List Buffer) :=
  match prepare s with
  | .error _ _ => []
  | .ok _ s => s.tables.passes s.startCondition s.buffer.atLineStart s.buffer

theorem mem_passes_iff {pass : List Buffer} : pass ∈ s.passes ↔ ∃ s₁, prepare s = .ok () s₁ ∧
    pass ∈ s₁.tables.passes s₁.startCondition s₁.buffer.atLineStart s₁.buffer := by
  unfold passes
  cases hprepare : prepare s with
  | error e s₁ => exact ⟨fun h => (nomatch h), fun ⟨_, h, _⟩ => nomatch h⟩
  | ok u s₁ =>
    refine ⟨fun h => ⟨s₁, rfl, h⟩, ?_⟩
    rintro ⟨_, heq, h⟩
    obtain ⟨-, rfl⟩ := EStateM.Result.ok.inj heq
    exact h

/-- Why an attempt fails: a lookup did, or a read of a pass was refused, or the output took no more and
the scanner is idle. -/
def Fails (s : Scanner) (e : ScanError) (s' : Scanner) : Prop :=
  e.IsFault ∨ (∃ pass ∈ s.passes, ∃ b ∈ pass, b.Refused e) ∨ (s'.Idle ∧ ∃ text, e = .io text)

/-- Dropping bytes leaves at most two blocks before the cursor, but for one byte. -/
theorem Tight.trim (htight : s.Tight) (hpos : 0 < s.buffer.settings.blockSize)
    (hruns : ∀ run ∈ s.unmatched, run.length ≤ s.buffer.settings.blockSize) :
    s.trim.Tight ∧ s.trim.buffer.cursor < 2 * s.buffer.settings.blockSize := by
  have hkeep : s.buffer.cursor ≤ s.keepFrom + s.buffer.settings.blockSize := by
    unfold keepFrom
    rw [htight.keepText_eq]
    cases hrun : s.unmatched with
    | none =>
      simp only [Option.elim_none, Bool.false_eq_true, if_false]
      omega
    | some run =>
      have hstop := htight.stop_eq run hrun
      have hlength := hruns run hrun
      simp only [Window.stop, Option.elim_some, Bool.false_eq_true, if_false] at hstop ⊢
      omega
  refine ⟨⟨htight.keepText_eq, fun run hrun => ?_, ?_⟩, Buffer.cursor_trim_lt hpos hkeep⟩
  · obtain ⟨run', hrun', hshift⟩ := Option.map_eq_some_iff.1 hrun
    have hmoved : run = run'.shift (s.buffer.trim s.keepFrom).1 := hshift.symm
    have hstart : (s.buffer.trim s.keepFrom).1 ≤ run'.start :=
      Nat.le_trans (s.buffer.trim_le s.keepFrom).1 (s.keepFrom_le.2.2 run' hrun')
    have hstop := htight.stop_eq run' hrun'
    have hcursor := (s.buffer.cursor_trim s.keepFrom).1
    rw [hmoved, Window.shift, if_pos hstart]
    show _ = (s.buffer.trim s.keepFrom).2.cursor
    simp only [Window.stop] at hstop ⊢
    omega
  · exact (trim_carried StaysUnfailing s.buffer s.keepFrom).unfailing htight.unfailing

/-- Making room leaves the scanner tight, with less than two blocks before the cursor. -/
theorem Tight.prepare (h : s.Coherent t settings) (htight : s.Tight) :
    ends prepare
      (fun _ s' => s'.Tight ∧ s'.buffer.settings = settings ∧
        s'.buffer.cursor < 2 * settings.blockSize)
      (fun e s' => s'.Idle ∧ ∃ text, e = .io text) s := by
  have hfails : ends Scanner.prepare (fun _ _ => True) (fun e _ => ∃ text, e = .io text) s := by
    refine .bind (.get (.whenThen ?_))
    split
    · exact (flush_fails s).mono (fun _ _ _ => .modify trivial) fun _ _ => id
    · exact .pure (.modify trivial)
  refine (s.prepare_trim.and hfails).mono (fun _ s' h' => ?_) fun e s' h' => ?_
  · obtain ⟨⟨output, unmatched, hruns, rfl⟩, -⟩ := h'
    have htrim := Tight.trim (s := { s with output, unmatched })
      ⟨htight.keepText_eq, fun run hrun => htight.stop_eq run (hruns run hrun), htight.unfailing⟩
      h.roomy.block_pos fun run hrun => h.settings_eq ▸ (h.unmatched run (hruns run hrun)).2.1
    refine ⟨htrim.1, ?_, h.settings_eq ▸ htrim.2⟩
    exact (trim_carried StaysUnfailing s.buffer _).settings_eq.trans h.settings_eq
  · obtain ⟨⟨output, rfl⟩, hio⟩ := h'
    exact ⟨htight.flushed output, hio⟩

/-- How a buffer stands from which an attempt reads. -/
theorem Tight.reads (h : s.Coherent t settings) (htight : s.Tight) {pass : List Buffer}
    (hpass : pass ∈ s.passes) {b : Buffer} (hb : b ∈ pass) : b.settings = settings ∧
      b.source.unfailing = true ∧ b.cursor + 1 < 2 * settings.blockSize + pass.length := by
  obtain ⟨s₁, hprepare, hpass⟩ := mem_passes_iff.1 hpass
  obtain ⟨htight₁, hsettings, hcursor⟩ := (htight.prepare h).ok hprepare
  obtain ⟨hcarried, hreads⟩ := Tables.passes_isPass StaysUnfailing _ _ _ pass hpass b hb
  exact ⟨hcarried.settings_eq.trans hsettings, hcarried.unfailing htight₁.unfailing, by omega⟩

/-- A byte that is ahead goes to the run, or to a new one if there is none. -/
theorem Tight.skipByte (htight : s.Tight) (hahead : s.buffer.ahead ≠ []) :
    ends skipByte (fun _ s' => s'.Tight) (fun e s' => s'.Idle ∧ ∃ text, e = .io text) s := by
  obtain ⟨byte, rest, hcons⟩ := List.exists_cons_of_ne_nil hahead
  have hread := Buffer.readByte_of_cons hcons
  have hcursor : { s.buffer with passed := s.buffer.passed.push byte, ahead := rest }.cursor =
      s.buffer.cursor + 1 := Array.size_push byte
  have hunfailing := ((final_of_ok hread) ▸ readByte_carried StaysUnfailing s.buffer).unfailing
    htight.unfailing
  refine .bind (.get (.bind (.onBuffer (.of_ok hread (.bind ?_)))))
  have hfails : ends (openRun s.buffer.cursor) (fun _ _ => True) (fun e _ => ∃ text, e = .io text)
      { s with buffer := { s.buffer with passed := s.buffer.passed.push byte, ahead := rest } } := by
    refine .bind (.get ?_)
    split
    · exact .pure trivial
    · exact .bind ((flush_fails _).mono (fun _ _ _ => .modify trivial) fun _ _ => id)
  refine ((openRun_ends _ _).and hfails).mono (fun _ s₁ h₁ => .modify ?_) fun e s₁ h₁ => ?_
  · obtain ⟨⟨output, run, hstop, -, rfl⟩, -⟩ := h₁
    refine ⟨htight.keepText_eq, fun run' hrun' => ?_, hunfailing⟩
    obtain rfl := Option.some.inj (Option.mem_def.1 hrun')
    show run.start + (run.length + 1) = _
    exact (congrArg (· + 1) hstop).trans hcursor.symm
  · obtain ⟨⟨⟨output, rfl⟩, -⟩, hio⟩ := h₁
    exact ⟨⟨htight.keepText_eq, rfl, hunfailing⟩, hio⟩

/-- A scanner that is tight stays so across attempts, and is idle behind one that does not skip. An attempt
that fails leaves it idle as well, unless a read was refused. -/
theorem Tight.attempt (h : s.Coherent t settings) (hblock : settings.interactive = false)
    (htight : s.Tight) :
    ends attempt (fun step s' => s'.Tight ∧ (step ≠ .skipped → s'.Idle)) (Fails s) s := by
  refine .bind (.of_result (fun _ s₁ hprepare => ?_) fun e s' hprepare => .inr (.inr ?_))
  · obtain ⟨htight₁, -, -⟩ := (htight.prepare h).ok hprepare
    refine .bind (.get (.bind (.onBuffer (.of_result (fun outcome buffer hrun => ?_)
      fun e buffer hrun => ?_))))
    · have hcarried := final_of_ok hrun ▸ s₁.tables.longestMatch_carried StaysUnfailing _ _ s₁.buffer
      have hunfailing := hcarried.unfailing htight₁.unfailing
      have hflush (step : Step) {f : Scanner → Scanner} (hf : ∀ s₂ : Scanner, s₂.unmatched = none →
          s₂.buffer.source.unfailing = true → (f s₂).Idle) :
          ends (do flush; modify f; return step) (fun step s' => s'.Tight ∧ (step ≠ .skipped → s'.Idle))
            (Fails s) { s₁ with buffer } := by
        refine .bind (((flush_ends _).and (flush_fails _)).mono (fun _ s₂ h₂ => ?_) fun e s₂ h₂ => ?_)
        · obtain ⟨⟨output, rfl⟩, -⟩ := h₂
          have hidle := hf { s₁ with buffer, output, unmatched := none } rfl hunfailing
          exact .bind (.modify (.pure ⟨hidle.tight, fun _ => hidle⟩))
        · obtain ⟨⟨⟨output, rfl⟩, -⟩, hio⟩ := h₂
          exact .inr (.inr ⟨⟨htight₁.keepText_eq, rfl, hunfailing⟩, hio⟩)
      cases outcome with
      | accepted rule length => exact hflush _ fun s₂ hnone hsure => ⟨rfl, hnone, hsure⟩
      | endOfInput => exact hflush _ fun s₂ hnone hsure => ⟨rfl, hnone, hsure⟩
      | noMatch =>
        -- The search has gone back to where it began, right behind the run.
        obtain ⟨hremaining, hahead⟩ := Tables.longestMatch_noMatch hrun
        have hsum := (final_of_ok hrun ▸
          s₁.tables.longestMatch_extends _ _ s₁.buffer).cursor_add_remaining_eq
        have hcursor : buffer.cursor = s₁.buffer.cursor := by omega
        have htight₂ : Tight { s₁ with buffer, keepText := false } :=
          ⟨rfl, fun run hrun => (htight₁.stop_eq run hrun).trans hcursor.symm, hunfailing⟩
        exact .bind (.modify (.bind ((htight₂.skipByte hahead).mono
          (fun _ s₂ h₂ => .pure ⟨h₂, fun hstep => absurd rfl hstep⟩) fun _ _ h₂ => .inr (.inr h₂))))
    · refine (Tables.longestMatch_fails hrun).imp_right fun ⟨reads, hreads, b, hb, hread⟩ => .inl ?_
      have hpass : reads ∈ s.passes := mem_passes_iff.2 ⟨s₁, hprepare, hreads⟩
      obtain ⟨hsettings', hunfailing, -⟩ := htight.reads h hpass hb
      exact ⟨reads, hpass, b, hb, readByte_refused (hsettings' ▸ hblock) hunfailing hread⟩
  · exact (htight.prepare h).error hprepare

/-- What the reads of an attempt ask for, if no pass makes more than `m` reads. -/
theorem Tight.request_le (h : s.Coherent t settings) (hblock : settings.interactive = false)
    (htight : s.Tight) {m : Nat} (hpasses : ∀ pass ∈ s.passes, pass.length ≤ m) :
    ∀ pass ∈ s.passes, ∀ b ∈ pass, b.ahead = [] → b.request ≤ 3 * settings.blockSize + m - 1 := by
  intro pass hpass b hb hahead
  have hlength := hpasses pass hpass
  obtain ⟨hsettings, -, hcursor⟩ := htight.reads h hpass hb
  rw [request, hsettings, hblock, filled_eq, hahead]
  simp only [Bool.false_eq_true, if_false, List.length_nil]
  omega

/-- Settings that afford that much never refuse it. -/
theorem Tight.attempt_withinMemory (h : s.Coherent t settings) (hblock : settings.interactive = false)
    (htight : s.Tight) {m : Nat} (hpasses : ∀ pass ∈ s.passes, pass.length ≤ m)
    (haffords : settings.Affords (3 * settings.blockSize + m - 1)) : WithinMemory s.attempt := by
  intro n s' hfails
  rcases (htight.attempt h hblock).error hfails with hfault | ⟨pass, hpass, b, hb, hrefused⟩ | ⟨-, text, hio⟩
  · exact ScanError.not_isFault_allocation n hfault
  · have hle := htight.request_le h hblock hpasses pass hpass b hb hrefused.ahead_eq
    obtain ⟨hsettings, -, -⟩ := htight.reads h hpass hb
    exact absurd (hrefused.lt_request (hsettings ▸ haffords)) (Nat.not_lt_of_le hle)
  · cases hio

/-! ## Advancing -/

/-- The scanners at which advancing begins an attempt. -/
def attempts : Scanner → List Scanner
  | s =>
    match _h : attempt s with
    | .ok .skipped s' => s :: attempts s'
    | _ => [s]
  termination_by s => s.buffer.remaining
  decreasing_by exact remaining_of_attempt _h

theorem Skips.mem_attempts (h : s.Skips s') : s' ∈ s.attempts := by
  induction h with
  | @here s =>
    rw [attempts]
    split <;> exact List.mem_cons_self
  | @skip s s₁ s' hskip _ ih =>
    rw [attempts]
    split
    · rename_i s₂ hskip'
      obtain ⟨-, rfl⟩ := EStateM.Result.ok.inj (hskip.symm.trans hskip')
      exact List.mem_cons_of_mem s ih
    · rename_i hnone
      exact absurd hskip (hnone s₁)

theorem skips_of_mem_attempts (h : s' ∈ s.attempts) : s.Skips s' := by
  fun_induction attempts s with
  | case1 s _ s₁ hskip ih =>
    rcases List.mem_cons.1 h with rfl | h
    · exact .here
    · exact .skip hskip (ih h)
  | case2 s _ =>
    rw [List.mem_singleton.1 h]
    exact .here

/-- Advancing goes on from each of its attempts. -/
theorem Skips.advance_eq (h : s.Skips s') : s.advance = s'.advance := by
  induction h with
  | here => rfl
  | skip hskip _ ih =>
    rw [Scanner.advance_eq, bind_of_ok hskip]
    exact ih

theorem Skips.advance_eq_error (h : s.Skips s') {s'' : Scanner} (hfails : attempt s' = .error e s'') :
    s.advance = .error e s'' := by
  rw [h.advance_eq, Scanner.advance_eq]
  exact bind_eq_error_iff.2 (.inl hfails)

/-- Every attempt of an advance begins tight if the first one does. -/
theorem Skips.tight (hskips : s.Skips s') (ht : t.Sound) (h : s.Coherent t settings)
    (hcovered : s.covered = none) (hblock : settings.interactive = false) (htight : s.Tight) :
    s'.Tight := by
  induction hskips with
  | here => exact htight
  | skip hskip _ ih =>
    have hleads := ((attempt_ends ht h hcovered).ok hskip).1
    exact ih hleads.coherent (hleads.covered hcovered) ((htight.attempt h hblock).ok hskip).1

end Scanner

open Scanner

/-! ## Operations -/

/-- Whether an operation reads no bytes, puts none back and does not ask for the text. If it goes on with
another source, that one must not fail. -/
def Edit.sparing : Edit → Bool
  | .input => false
  | .unput _ => false
  | .unputAll _ => false
  | .more => false
  | .restart source => source.unfailing
  | _ => true

/-- Whether the operation that was performed, if any, is a sparing one. -/
def Event.sparing : Event → Bool
  | .performed edit _ => edit.sparing
  | _ => true

section Notes

variable {t : Tables} {settings : BufferSettings} {s s' : Scanner} {note before : Note}
  {earlier : List Note}

theorem Scanner.Idle.unterminate (h : s.Idle) : s.unterminate.Idle := by
  refine ⟨s.unterminate_keepText.trans h.keepText_eq, ?_, ?_⟩
  · rw [unterminate_eq]
    exact h.unmatched_eq
  · exact (unterminate_carried StaysUnfailing s).unfailing h.unfailing

theorem Scanner.Idle.terminate (h : s.Idle) : s.terminate.Idle :=
  ⟨h.keepText_eq, h.unmatched_eq, (terminate_carried StaysUnfailing s).unfailing h.unfailing⟩

/-- A sparing operation leaves an idle scanner idle, whether it succeeds or fails. -/
theorem Edit.perform_idle {edit : Edit} (hsparing : edit.sparing = true) (hidle : s.Idle) :
    ends edit.perform (fun _ s' => s'.Idle) (fun _ s' => s'.Idle) s := by
  have hkeeps (result : Except ScanError (Option UInt8)) : edit.keeps s.keepText result = false := by
    rw [hidle.keepText_eq]
    cases edit <;> first | (cases result <;> rfl) | exact nomatch hsparing
  have hsource : ends edit.perform (fun _ s' => s'.buffer.source.unfailing = true)
      (fun _ s' => s'.buffer.source.unfailing = true) s := by
    have hkept (hkeeps : edit.KeepsSource) :
        ends edit.perform (fun _ s' => s'.buffer.source.unfailing = true)
          (fun _ s' => s'.buffer.source.unfailing = true) s :=
      (ends.of_across (edit.perform_carried StaysUnfailing (.inl hkeeps)) s).mono
        (fun _ _ h => h.unfailing hidle.unfailing) fun _ _ h => h.unfailing hidle.unfailing
    cases edit with
    | restart source =>
      refine .bind (.bind ((flush_ends s).mono (fun _ _ _ => .bind (.modify (.modify (.pure hsparing))))
        fun e s' h => ?_))
      obtain ⟨⟨output, rfl⟩, -⟩ := h
      exact hidle.unfailing
    | _ => exact hkept (by trivial)
  have hidle' {s' : Scanner} (hkeepText : s'.keepText = false) (hrecedes : s.Recedes s')
      (hunfailing : s'.buffer.source.unfailing = true) : s'.Idle := by
    refine ⟨hkeepText, ?_, hunfailing⟩
    cases hrun : s'.unmatched with
    | none => rfl
    | some run => cases hidle.unmatched_eq.symm.trans (hrecedes.2 run hrun)
  exact ((edit.perform_keepText s).and ((edit.perform_recedes s).and hsource)).mono
    (fun _ _ h => hidle' (h.1.trans (hkeeps _)) h.2.1 h.2.2)
    fun _ _ h => hidle' (h.1.trans (hkeeps _)) h.2.1 h.2.2

/-! ## Notes -/

/-- Between two notes a scan has advanced: to a match, to the end of the input, or to a failure. -/
def Note.advanced (note before : Note) : Bool :=
  match note.event with
  | .entered _ => true
  | .asked => true
  | .scanned (.error e) =>
    match before.scanner.unterminate.advance with
    | .error e' s => decide (e' = e ∧ s = note.scanner)
    | .ok _ _ => false
  | _ => false

/-- The passes over the input that scans have made, the latest attempts first. -/
def passes : List Note → List (List Buffer)
  | note :: before :: earlier =>
    (if note.advanced before then before.scanner.unterminate.attempts.flatMap Scanner.passes else [])
      ++ passes (before :: earlier)
  | _ => []

/-- Whether a scan has reported that the buffer could not grow. -/
def Event.ranOut : Event → Bool
  | .scanned (.error (.allocation _)) => true
  | _ => false

/-- The scanner of a note stays idle, unless a scan has run out of memory in advancing to it. -/
theorem Note.Follows.idle (hfollows : note.Follows before) (ht : t.Sound)
    (h : before.scanner.Coherent t settings) (hblock : settings.interactive = false)
    (hsparing : note.event.sparing = true)
    (hmemory : note.event.ranOut = true → note.advanced before = false)
    (hidle : before.scanner.Idle) : note.scanner.Idle := by
  obtain ⟨event, running, s'⟩ := note
  have hattempt {s : Scanner} (hattempts : before.Attempts s) :
      ends attempt (fun step s' => step ≠ .skipped → s'.Idle)
        (fun e s' => ¬ e.IsFault ∧ s.Fails e s') s := by
    obtain ⟨hs, hcovered, -⟩ := hattempts.moves ht h
    have htight := Skips.tight hattempts ht h.unterminate.coherent (covered_unterminate _) hblock
      hidle.unterminate.tight
    exact ((attempt_ends ht hs hcovered).and (htight.attempt hs hblock)).mono
      (fun _ _ h' => h'.2.2) fun _ _ h' => ⟨h'.1.2, h'.2⟩
  cases event with
  | built => exact hfollows.elim
  | performed edit result =>
    cases result with
    | ok a => exact (Edit.perform_idle hsparing hidle).ok hfollows.2
    | error e => exact (Edit.perform_idle hsparing hidle).error hfollows.2
  | altered =>
    obtain ⟨-, output, rfl⟩ := hfollows
    exact ⟨hidle.keepText_eq, hidle.unmatched_eq, hidle.unfailing⟩
  | entered rule =>
    obtain ⟨-, s, s₁, hattempts, hstep, rfl⟩ := hfollows
    exact ((hattempt hattempts).ok hstep fun heq => nomatch heq).terminate
  | left result =>
    obtain ⟨-, rfl⟩ := hfollows
    exact hidle
  | asked =>
    obtain ⟨-, s, hattempts, hstep⟩ := hfollows
    exact (hattempt hattempts).ok hstep fun heq => nomatch heq
  | answered result =>
    obtain ⟨-, rfl⟩ := hfollows
    exact hidle
  | scanned result =>
    obtain ⟨-, rfl | ⟨e, s, rfl, hattempts, hfails⟩⟩ := hfollows
    · exact hidle.unterminate
    · obtain ⟨hfault, hfails'⟩ := (hattempt hattempts).error hfails
      rcases hfails' with hfault' | ⟨_, _, _, _, hrefused⟩ | ⟨hidle', -⟩
      · exact absurd hfault' hfault
      · -- A refusal is a failure to allocate, in the advance from the note before.
        obtain rfl := hrefused.error_eq
        have hadvanced := hmemory rfl
        rw [advanced, Skips.advance_eq_error hattempts hfails] at hadvanced
        simp only [and_self, decide_true, Bool.true_eq_false] at hadvanced
      · exact hidle'

/-- Behind an idle scanner every attempt of an advance begins tight. -/
theorem Note.Attempts.tight (hattempts : before.Attempts s) (ht : t.Sound)
    (h : before.scanner.Coherent t settings) (hblock : settings.interactive = false)
    (hidle : before.scanner.Idle) : s.Coherent t settings ∧ s.Tight :=
  ⟨(hattempts.moves ht h).1, Skips.tight hattempts ht h.unterminate.coherent (covered_unterminate _)
    hblock hidle.unterminate.tight⟩

/-- With settings that afford enough, advancing does not run out of memory. -/
theorem Scanner.Idle.advance_withinMemory (hidle : before.scanner.Idle) (ht : t.Sound)
    (h : before.scanner.Coherent t settings) (hblock : settings.interactive = false) {m : Nat}
    (hpasses : ∀ start ∈ before.scanner.unterminate.attempts, ∀ pass ∈ start.passes, pass.length ≤ m)
    (haffords : settings.Affords (3 * settings.blockSize + m - 1)) :
    WithinMemory before.scanner.unterminate.advance := by
  intro n s' hfails
  obtain ⟨start, hskips, hattempt⟩ := (advance_skips _).error hfails
  have hattempts : before.Attempts start := hskips
  obtain ⟨hstart, htight⟩ := hattempts.tight ht h hblock hidle
  exact htight.attempt_withinMemory hstart hblock (hpasses start hskips.mem_attempts) haffords n s' hattempt

/-- A scan that has run out of memory in advancing. -/
theorem Note.advance_of_ranOut (hran : note.event.ranOut = true) (hadvanced : note.advanced before = true) :
    ∃ n, before.scanner.unterminate.advance = .error (.allocation n) note.scanner := by
  obtain ⟨event, running, s'⟩ := note
  unfold Event.ranOut at hran
  split at hran
  · rename_i n hevent
    dsimp only at hevent
    subst hevent
    unfold advanced at hadvanced
    dsimp only at hadvanced
    split at hadvanced
    · rename_i e s hrun
      obtain ⟨rfl, rfl⟩ := of_decide_eq_true hadvanced
      exact ⟨n, hrun⟩
    · cases hadvanced
  · cases hran

/-- The passes are those of the attempts made between one note and the next. -/
theorem mem_passes {pass : List Buffer} {notes : List Note} :
    pass ∈ passes notes ↔ ∃ note before earlier, note :: before :: earlier <:+ notes ∧
      note.advanced before = true ∧ ∃ start ∈ before.scanner.unterminate.attempts,
        pass ∈ start.passes := by
  fun_induction passes notes with
  | case1 note before earlier ih =>
    rw [List.mem_append, ih]
    constructor
    · rintro (hmem | ⟨note', before', rest, hsuffix, hmade⟩)
      · split at hmem
        · rename_i hadvanced
          exact ⟨note, before, earlier, List.suffix_rfl, hadvanced, List.mem_flatMap.1 hmem⟩
        · cases hmem
      · exact ⟨note', before', rest, hsuffix.trans (List.suffix_cons _ _), hmade⟩
    · rintro ⟨note', before', rest, hsuffix, hadvanced, hmade⟩
      rcases List.suffix_cons_iff.1 hsuffix with heq | hsuffix
      · obtain ⟨rfl, hrest⟩ := List.cons.inj heq
        obtain ⟨rfl, -⟩ := List.cons.inj hrest
        rw [if_pos hadvanced]
        exact .inl (List.mem_flatMap.2 hmade)
      · exact .inr ⟨note', before', rest, hsuffix, hadvanced, hmade⟩
  | case2 notes hshort =>
    refine ⟨fun hmem => (nomatch hmem), ?_⟩
    rintro ⟨note, before, earlier, hsuffix, -⟩
    have hlength := hsuffix.length_le
    rcases notes with _ | ⟨last, _ | ⟨before', rest⟩⟩
    · cases hlength
    · exact absurd (Nat.le_of_succ_le_succ hlength) (Nat.not_succ_le_zero _)
    · exact absurd rfl (hshort last before' rest)

end Notes

/-! ## Sessions -/

section Sessions

variable {o : ScannerOptions} {t : Tables} {source : Source} {output : Sink} {s : Scanner}
  {σ α : Type}

/-- At every note of a sparing session the scanner is idle, unless a scan has run out of memory in
advancing from an idle one. -/
theorem Session.idle (hbuild : o.build t source output = .ok s) (hblock : o.interactive = false)
    (hsource : source.unfailing = true) (session : Session σ α) (memory : σ)
    (hsparing : ∀ note ∈ session.notes memory s, note.event.sparing = true) {note : Note}
    {earlier : List Note} (hsuffix : note :: earlier <:+ session.notes memory s)
    (hmemory : ∀ {note' before rest}, note' :: before :: rest <:+ note :: earlier →
      before.scanner.Idle → note'.event.ranOut = true → note'.advanced before = false) :
    note.scanner.Idle := by
  obtain ⟨ht, hproper, hlinked⟩ := session.recorded hbuild memory hsuffix
  obtain ⟨during, hduring⟩ := session.notes_built memory s hsuffix
  refine Note.above (P := fun note _ => note.scanner.Idle) during ?_ (fun hstep _ hidle => ?_) hduring
  · obtain ⟨-, sc, capacity, -, -, -, -, rfl⟩ := ScannerOptions.of_build hbuild
    exact ⟨rfl, rfl, hsource⟩
  · rw [hduring] at hstep
    cases hlinked.of_suffix hstep with
    | next hfollows hlinked' =>
      have hcoherent := ((hproper.of_suffix hstep).tail _ _ List.suffix_rfl).coherent
      exact hfollows.idle ht hcoherent hblock
        (hsparing _ (hsuffix.subset (hstep.subset List.mem_cons_self))) (hmemory hstep hidle) hidle

/-- Long inputs fit a small buffer, over everything that a sparing session does: any scans with what it
likes in their actions and hooks, nested scans too, only no bytes read or put back there and no text
kept. Let no pass over the input make more than `m` reads. Then, as long as no scan has reported that the
buffer could not grow, each read that finds nothing ahead asks for no more than three blocks and `m - 1`
bytes. All other reads of an attempt are of bytes that are ahead. If the settings afford so much, no scan
runs out of memory in advancing, however long the input is. -/
theorem Session.requests_le (hbuild : o.build t source output = .ok s) (hblock : o.interactive = false)
    (hsource : source.unfailing = true) (session : Session σ α) (memory : σ)
    (hsparing : ∀ note ∈ session.notes memory s, note.event.sparing = true) {m : Nat}
    (hpasses : ∀ pass ∈ passes (session.notes memory s), pass.length ≤ m) :
    (∀ note earlier, note :: earlier <:+ session.notes memory s →
      (∀ before ∈ earlier, before.event.ranOut = false) →
      ∀ pass ∈ passes (note :: earlier), ∀ b ∈ pass, b.ahead = [] →
        b.request ≤ 3 * max o.blockSize 1 + m - 1) ∧
    (o.bufferSettings.Affords (3 * max o.blockSize 1 + m - 1) →
      ∀ note before earlier, note :: before :: earlier <:+ session.notes memory s →
        note.advanced before = true → WithinMemory before.scanner.unterminate.advance) := by
  have hmade {note before : Note} {earlier : List Note}
      (hsuffix : note :: before :: earlier <:+ session.notes memory s)
      (hadvanced : note.advanced before = true) :
      ∀ start ∈ before.scanner.unterminate.attempts, ∀ pass ∈ start.passes, pass.length ≤ m :=
    fun start hstart pass hpass =>
      hpasses pass (mem_passes.2 ⟨note, before, earlier, hsuffix, hadvanced, start, hstart, hpass⟩)
  have hcoherent {note : Note} {earlier : List Note}
      (hsuffix : note :: earlier <:+ session.notes memory s) :
      t.Sound ∧ note.scanner.Coherent t o.bufferSettings := by
    obtain ⟨ht, hproper, -⟩ := session.recorded hbuild memory hsuffix
    exact ⟨ht, (hproper note earlier List.suffix_rfl).coherent⟩
  constructor
  · intro note earlier hsuffix hran pass hpass b hb hahead
    obtain ⟨note', before, rest, hstep, hadvanced, start, hstart, hpass⟩ := mem_passes.1 hpass
    have hwhole := hstep.trans hsuffix
    have hbefore : before :: rest <:+ earlier := by
      rcases List.suffix_cons_iff.1 hstep with heq | hstep
      · exact (List.cons.inj heq).2 ▸ List.suffix_rfl
      · exact (List.suffix_cons _ _).trans hstep
    obtain ⟨ht, hcoherent⟩ := hcoherent ((List.suffix_cons _ _).trans hwhole)
    have hidle := session.idle hbuild hblock hsource memory hsparing ((List.suffix_cons _ _).trans hwhole)
      fun hlater _ hranOut => by
        rw [hran _ (hbefore.subset (hlater.subset List.mem_cons_self))] at hranOut
        cases hranOut
    obtain ⟨hstart', htight⟩ := Note.Attempts.tight (skips_of_mem_attempts hstart) ht hcoherent hblock hidle
    exact htight.request_le hstart' hblock (hmade hwhole hadvanced start hstart) pass hpass b hb hahead
  · intro haffords
    have hwithin {note before : Note} {earlier : List Note}
        (hsuffix : note :: before :: earlier <:+ session.notes memory s)
        (hadvanced : note.advanced before = true) (hidle : before.scanner.Idle) :
        WithinMemory before.scanner.unterminate.advance := by
      obtain ⟨ht, hcoherent⟩ := hcoherent ((List.suffix_cons _ _).trans hsuffix)
      exact hidle.advance_withinMemory ht hcoherent hblock (hmade hsuffix hadvanced) haffords
    intro note before earlier hsuffix hadvanced
    refine hwithin hsuffix hadvanced (session.idle hbuild hblock hsource memory hsparing
      ((List.suffix_cons _ _).trans hsuffix) fun {note' before' rest} hlater hidle hran => ?_)
    cases hadvanced' : note'.advanced before' with
    | false => rfl
    | true =>
      obtain ⟨n, hfails⟩ := Note.advance_of_ranOut hran hadvanced'
      exact absurd hfails (hwithin (hlater.trans ((List.suffix_cons _ _).trans hsuffix)) hadvanced' hidle n _)

end Sessions

/-- Tables of a rule that takes an `x`. Behind an `a` they look at one more byte, behind a `c` or an `h` at
all that there are. -/
def Tables.farSighted : Tables where
  classOf := (Array.replicate 256 0).setIfInBounds 120 1 |>.setIfInBounds 97 2 |>.setIfInBounds 99 3
    |>.setIfInBounds 104 3
  base := #[0, 4, 4, 4]
  check := #[-1, 0, 0, 0, 3, 3, 3, 3]
  next := #[-1, 1, 2, 3, 3, 3, 3, 3]
  fallback := #[-1, -1, -1, -1]
  accept := #[0, 1, 0, 0]

/-- Room for four bytes is enough for blocks of one and passes of two reads, over five unmatched bytes and a
match. -/
theorem Session.requests_le_unmatched : ∃ s notes,
    ({ blockSize := 1, initialCapacity := some 2, capacityLimit := some 4 } : ScannerOptions).build
      Tables.farSighted (.ofBytes (List.replicate 5 98 ++ [120])) {} = .ok s ∧
    toTheEnd.notes () s = notes ∧ (passes notes).length = 7 ∧
    (∀ pass ∈ passes notes, ∀ b ∈ pass, b.ahead = [] → b.request ≤ 4) ∧
    WithinMemory s.unterminate.advance := by
  have hrun : (match ({ blockSize := 1, initialCapacity := some 2, capacityLimit := some 4 } :
        ScannerOptions).build Tables.farSighted (.ofBytes (List.replicate 5 98 ++ [120])) {} with
      | .ok s => match toTheEnd.notes () s with
        | last :: earlier => match earlier.drop 3 with
          | note :: before :: rest => decide (
              (∀ note ∈ last :: earlier, note.event.sparing = true ∧ note.event.ranOut = false) ∧
              (passes (last :: earlier)).length = 7 ∧
              (∀ pass ∈ passes (last :: earlier), pass.length ≤ 2) ∧
              note.advanced before = true ∧ before.scanner = s)
          | _ => false
        | [] => false
      | .error _ => false) = true := by decide +kernel
  split at hrun
  · rename_i s hbuild
    split at hrun
    · rename_i last earlier hnotes
      split at hrun
      · rename_i note before rest hdrop
        obtain ⟨hsparing, hcount, hpasses, hadvanced, rfl⟩ := of_decide_eq_true hrun
        have haffords : BufferSettings.Affords
            { blockSize := 1, initialCapacity := 2, capacityLimit := some 4 } 4 :=
          ⟨fun limit hlimit => Nat.le_of_eq (Option.some.inj hlimit), by decide, by decide⟩
        obtain ⟨hle, hwithin⟩ := requests_le hbuild rfl (by decide) toTheEnd ()
          (fun note hmem => (hsparing note (hnotes ▸ hmem)).1) (hnotes ▸ hpasses)
        refine ⟨before.scanner, _, hbuild, hnotes, hcount, ?_, ?_⟩
        · exact hle last earlier (hnotes ▸ List.suffix_rfl)
            fun before hmem => (hsparing before (List.mem_cons_of_mem _ hmem)).2
        · refine hwithin haffords note before rest ?_ hadvanced
          rw [hnotes, ← hdrop]
          exact (List.drop_suffix 3 earlier).trans (List.suffix_cons last earlier)
      · exact Bool.noConfusion hrun
    · exact Bool.noConfusion hrun
  · exact Bool.noConfusion hrun

/-- Two scans. -/
def Session.scanTwice : Session Unit Unit :=
  .scan 3 (fun _ => .finish .resume) (.finish true) fun _ =>
    .scan 3 (fun _ => .finish .resume) (.finish true) fun _ => .finish ()

/-- The first search behind `c` runs out of memory and leaves the cursor where it was. The unmatched `ab`
stay behind, before bytes that belong to nothing, and the search of the second scan asks for 15 bytes,
which is more than three blocks of 3 and 6 - 1 bytes. -/
theorem Session.requests_after_ranOut : ∃ s,
    ({ blockSize := 3, initialCapacity := some 4, capacityLimit := some 12 } : ScannerOptions).build
      Tables.farSighted ⟨[.data [120, 120, 97], .data [98, 99, 100], .data [101, 102, 103], .data [104],
        .data [105, 106, 107], .data [108, 109, 110]]⟩ {} = .ok s ∧
    (∀ note ∈ scanTwice.notes () s, note.event.sparing = true) ∧
    (∀ pass ∈ passes (scanTwice.notes () s), pass.length ≤ 6) ∧
    ∃ pass ∈ passes (scanTwice.notes () s), ∃ b ∈ pass, b.ahead = [] ∧ b.request = 15 ∧
      ¬ b.request ≤ 3 * 3 + 6 - 1 := by
  have hrun : (match ({ blockSize := 3, initialCapacity := some 4, capacityLimit := some 12 } :
        ScannerOptions).build Tables.farSighted ⟨[.data [120, 120, 97], .data [98, 99, 100],
          .data [101, 102, 103], .data [104], .data [105, 106, 107], .data [108, 109, 110]]⟩ {} with
      | .ok s => decide (
          (∀ note ∈ scanTwice.notes () s, note.event.sparing = true) ∧
          (∀ pass ∈ passes (scanTwice.notes () s), pass.length ≤ 6) ∧
          ∃ pass ∈ passes (scanTwice.notes () s), ∃ b ∈ pass, b.ahead = [] ∧ b.request = 15 ∧
            ¬ b.request ≤ 3 * 3 + 6 - 1)
      | .error _ => false) = true := by decide +kernel
  split at hrun
  · rename_i s hbuild
    exact ⟨s, hbuild, of_decide_eq_true hrun⟩
  · exact Bool.noConfusion hrun

end Munch
