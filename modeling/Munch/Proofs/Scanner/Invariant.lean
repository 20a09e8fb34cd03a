-- SUMMARY: What every scanner promises in every state its user can bring it to, and that checked tables never fail.
import Munch.Proofs.Match.MaximalMunch
import Munch.Proofs.Scanner.Intact

/-! # Invariants of sessions

The user of a scanner can call any operation at any place. At every note of every session the parts of
the scanner fit together, and no lookup in checked tables has failed. -/

namespace Munch

variable {o : ScannerOptions} {t : Tables} {source : Source} {output : Sink} {s : Scanner}
  {σ α : Type}

/-- All notes of a session on a new scanner are in order. -/
theorem Session.allProper (hbuild : o.build t source output = .ok s) (session : Session σ α)
    (memory : σ) : AllProper t o.bufferSettings (session.notes memory s) := by
  obtain ⟨ht, -, hcovered⟩ := ScannerOptions.build_coherent hbuild
  have hrun : ends session.run (fun _ st => AllProper t o.bufferSettings st.2.notes)
      (fun _ st => AllProper t o.bufferSettings st.2.notes) (s, Diary.start memory s) :=
    (session.run_keeps ht _ (.start hbuild memory) fun _ => hcovered).mono (fun _ _ h => h.intact.notes)
      fun _ _ h => h.intact.notes
  exact hrun.final

/-! ## The representation -/

/-- What a note shows of a scanner that was built with some options, and of its actions. -/
structure Note.Valid (o : ScannerOptions) (t : Tables) (note : Note) : Prop where
  cursor_le : note.scanner.buffer.cursor ≤ note.scanner.buffer.filled
  filled_lt : note.scanner.buffer.filled < note.scanner.buffer.capacity
  capacity_le : ∀ limit ∈ o.capacityLimit, note.scanner.buffer.capacity ≤ limit
  stop_le : note.scanner.window.stop ≤ note.scanner.buffer.cursor
  length_eq : note.scanner.window.length = note.scanner.text.length
  /-- A byte is covered only while an action is running, and then a zero stands behind the text. -/
  covered : ∀ c ∈ note.scanner.covered, 0 < note.running ∧ c.offset = note.scanner.window.stop ∧
    note.scanner.buffer.slot c.offset = 0
  unmatched : ∀ run ∈ note.scanner.unmatched, 0 < run.length ∧
    run.stop ≤ note.scanner.buffer.filled ∧ run.length ≤ max o.blockSize 1
  line_pos : 1 ≤ note.scanner.line
  state_lt : note.scanner.startCondition.state.toNat < t.stateCount
  bolState_lt : note.scanner.startCondition.bolState.toNat < t.stateCount
  /-- A match that begins with a kept text has as many bytes as lie between the start of that text and
  the cursor; the difference is exact. -/
  entered : ∀ rule, note.event = .entered rule →
    note.scanner.window.start + note.scanner.window.length = note.scanner.buffer.cursor

/-- The representation invariant: whatever operations, actions, hooks and nested scans follow each
other, and wherever one of them has failed, the parts of the scanner fit together, and no capacity was
taken away. Dropping bytes moves the cursor and the end of the held bytes down by no more than they
are. -/
theorem Session.notes_valid (hbuild : o.build t source output = .ok s)
    (hterminator : o.terminator = some 0) (session : Session σ α) (memory : σ) :
    (∀ note earlier, note :: earlier <:+ session.notes memory s → note.Valid o t ∧
      ∀ before ∈ earlier, before.scanner.buffer.capacity ≤ note.scanner.buffer.capacity) ∧
    ∀ (b : Buffer) (keepFrom : Nat),
      (b.trim keepFrom).2.cursor + (b.trim keepFrom).1 = b.cursor ∧
      (b.trim keepFrom).2.filled + (b.trim keepFrom).1 = b.filled := by
  refine ⟨fun note earlier hsuffix => ?_, fun b keepFrom => ?_⟩
  · have hproper := session.allProper hbuild memory note earlier hsuffix
    have hcoherent := hproper.coherent
    have hroomy := hcoherent.roomy
    have hsettings := hcoherent.settings_eq
    refine ⟨⟨Buffer.cursor_le_filled _, hroomy.filled_lt, ?_, hcoherent.stop_le,
      hcoherent.length_text.symm, fun c hc => ?_, fun run hrun => ?_, hcoherent.line_pos,
      hcoherent.state_lt, hcoherent.bolState_lt, fun rule hrule => (hproper.entered rule hrule).1⟩,
      hproper.capacity⟩
    · have hlimit := hroomy.capacity_le
      rw [hsettings] at hlimit
      exact hlimit
    · obtain ⟨hoffset, -, hslot⟩ := hcoherent.covered c hc
      refine ⟨Nat.pos_of_ne_zero fun hzero => ?_, hoffset, ?_⟩
      · rw [hproper.covered hzero] at hc
        cases hc
      · exact (Option.some.inj (hterminator.symm.trans hslot)).symm
    · obtain ⟨hpos, hlength, hstop⟩ := hcoherent.unmatched run hrun
      exact ⟨hpos, hstop, hlength⟩
  · obtain ⟨hcursor, hfilled⟩ := b.cursor_trim keepFrom
    omega

/-- A scan of one match, whose action does nothing. -/
def Session.oneMatch : Session Unit Unit :=
  .scan 1 (fun _ => .finish .resume) (.finish true) fun _ => .finish ()

/-- While the action of a match runs, the byte behind the match is covered. -/
theorem Session.notes_valid_oneByte : ∃ s note,
    ({} : ScannerOptions).build Tables.oneByte (.ofBytes [97, 98]) {} = .ok s ∧
    note ∈ oneMatch.notes () s ∧ note.scanner.covered = some ⟨1, 98⟩ ∧
    note.Valid {} Tables.oneByte := by
  have hrun : (match ({} : ScannerOptions).build Tables.oneByte (.ofBytes [97, 98]) {} with
      | .ok s => decide (∃ note ∈ oneMatch.notes () s, note.scanner.covered = some ⟨1, 98⟩)
      | .error _ => false) = true := by decide +kernel
  split at hrun
  · rename_i s hbuild
    obtain ⟨note, hmem, hcovered⟩ := of_decide_eq_true hrun
    obtain ⟨later, earlier, hnotes⟩ := List.append_of_mem hmem
    have hvalid := (notes_valid hbuild rfl oneMatch ()).1 note earlier ⟨later, hnotes.symm⟩
    exact ⟨s, note, hbuild, hmem, hcovered, hvalid.1⟩
  · exact Bool.noConfusion hrun

/-! ## Checked tables -/

/-- Checked tables never fail at run time: every lookup that starts from states, bytes, classes and
rules succeeds and leads to states. So in every session on a scanner over them the active start
condition enters at states, and a scan ends with an error of the tables only if the action or hook
that ended just before returned that error. -/
theorem Tables.validated_never_fail (hvalid : t.validate = .ok ()) :
    (∀ byte, ∃ c, t.byteClass byte = .ok c ∧ c < t.classCount) ∧
    (∀ s < t.stateCount, ∀ c < t.classCount, ∃ target, t.transition s c = .ok target ∧
      ∀ s' ∈ target, s' < t.stateCount) ∧
    (∀ s < t.stateCount, (∃ rule, t.ruleAt s = .ok rule) ∧ ∃ rules, t.rulesAt s = .ok rules) ∧
    (∀ rule, ∃ start, t.trailingStart? rule = .ok start ∧ ∀ s ∈ start, s < t.stateCount) ∧
    ∀ (o : ScannerOptions) (source : Source) (output : Sink) (s : Scanner),
      o.build t source output = .ok s → ∀ {σ α : Type} (session : Session σ α) (memory : σ),
        ∀ note earlier, note :: earlier <:+ session.notes memory s →
          (note.scanner.tables = t ∧
            note.scanner.startCondition.state.toNat < t.stateCount ∧
            note.scanner.startCondition.bolState.toNat < t.stateCount) ∧
          ∀ fault, note.event = .scanned (.error (.malformed fault)) →
            ∃ cause before, earlier = cause :: before ∧
              (cause.event = .left (.error (.malformed fault)) ∨
                cause.event = .answered (.error (.malformed fault))) := by
  have ht := Tables.validate_eq_ok_iff.1 hvalid
  refine ⟨ht.byteClass, fun s hs c hc => ht.transition hc hs, fun s hs => ⟨?_, ?_⟩, fun rule => ?_, ?_⟩
  · exact ⟨_, ht.ruleAt_eq hs⟩
  · exact ⟨_, ht.rulesAt_eq hs⟩
  · exact ⟨_, ht.trailingStart?_eq rule, fun s hs => ht.contextStart?_lt hs⟩
  · intro o source output s hbuild σ α session memory note earlier hsuffix
    have hproper := session.allProper hbuild memory note earlier hsuffix
    refine ⟨⟨hproper.coherent.tables_eq, hproper.coherent.state_lt, hproper.coherent.bolState_lt⟩, ?_⟩
    intro fault hfault
    obtain ⟨cause, hmem, hhands⟩ := hproper.scanned fault hfault
    obtain ⟨before, rfl⟩ := List.head?_eq_some_iff.1 hmem
    refine ⟨cause, before, rfl, ?_⟩
    revert hhands
    unfold Event.Hands
    split
    · exact fun h => .inl (h ▸ ‹_›)
    · exact fun h => .inr (h ▸ ‹_›)
    · exact False.elim

/-- A scan whose action tries a start condition that does not exist and passes the error on. -/
def Session.misled : Session Unit Unit :=
  .scan 1
    (fun _ => .perform (.begin ⟨7, 7⟩) fun result => match result with
      | .ok _ => .finish .resume
      | .error e => .fail e)
    (.finish true) fun _ => .finish ()

/-- That scan does end with an error of the tables, since its action handed it one. -/
theorem Tables.validated_never_fail_oneByte : ∃ s note cause before,
    ({} : ScannerOptions).build Tables.oneByte (.ofBytes [97]) {} = .ok s ∧
    note :: cause :: before <:+ Session.misled.notes () s ∧
    note.event = .scanned (.error (.malformed (.notAState 7))) ∧
    (cause.event = .left (.error (.malformed (.notAState 7))) ∨
      cause.event = .answered (.error (.malformed (.notAState 7)))) := by
  have hrun : (match ({} : ScannerOptions).build Tables.oneByte (.ofBytes [97]) {} with
      | .ok s => decide (∃ note ∈ Session.misled.notes () s,
        note.event = .scanned (.error (.malformed (.notAState 7))))
      | .error _ => false) = true := by decide +kernel
  split at hrun
  · rename_i s hbuild
    obtain ⟨note, hmem, hevent⟩ := of_decide_eq_true hrun
    obtain ⟨later, earlier, hnotes⟩ := List.append_of_mem hmem
    obtain ⟨-, -, -, -, hsessions⟩ :=
      validated_never_fail (show Tables.oneByte.validate = .ok () by decide +kernel)
    obtain ⟨-, hhanded⟩ := hsessions {} _ {} s hbuild Session.misled () note earlier
      ⟨later, hnotes.symm⟩
    obtain ⟨cause, before, rfl, hcause⟩ := hhanded _ hevent
    exact ⟨s, note, cause, before, hbuild, ⟨later, hnotes.symm⟩, hevent, hcause⟩
  · exact Bool.noConfusion hrun

end Munch
