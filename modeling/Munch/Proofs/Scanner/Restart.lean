-- SUMMARY: Going on with another source is starting anew: a scanner that was restarted runs as one just built over that source.
import Munch.Proofs.Scanner.Invariant
import Munch.Proofs.Scanner.Renewal
import Munch.Proofs.Scanner.Unobservable

/-! # Restarts

Whatever a scanner has done before, and wherever it is when it goes on with another source, what it does
from then on is what a scanner does that was built over that source. Only what it has counted stays: the
number of the line and what was written. -/

namespace Munch

/-! ## New scanners over another source -/

/-- The source has no part in whether a buffer can be created. -/
theorem Buffer.create_switch (settings : BufferSettings) (source source' : Source) :
    create settings source' =
      (create settings source).map fun b => { b with source := source' } :=
  create_map rfl rfl fun _ _ => reserve_map (f := fun b => { b with source := source' })
    (fun _ => rfl) rfl

/-- Where a buffer can be created, a scanner can be built over sound tables from every start condition
with both entry states in them. -/
theorem ScannerOptions.build_anew {o : ScannerOptions} {t : Tables} {source : Source} {b : Buffer}
    (ht : t.Sound) (hcreate : Buffer.create o.bufferSettings source = .ok b) {sc : StartCondition}
    (hstate : sc.state.toNat < t.stateCount) (hbol : sc.bolState.toNat < t.stateCount)
    (output : Sink) :
    ({ o with startAt := .condition sc } : ScannerOptions).build t source output = .ok {
      tables := t
      buffer := b
      output
      startCondition := sc } := by
  have hentries : t.entryStates sc = .ok (sc.state.toNat, sc.bolState.toNat) := by
    unfold Tables.entryStates Tables.checkState
    rw [if_pos hstate, if_pos hbol]
    rfl
  unfold build
  rw [Tables.validate_eq_ok_iff.2 ht]
  show Scanner.create t source output o.bufferSettings sc = _
  unfold Scanner.create
  rw [hentries, hcreate]
  rfl

/-! ## What a restart leaves -/

namespace Scanner

variable {t : Tables} {settings : BufferSettings} {s s' : Scanner}

/-- The unmatched bytes that are not yet written. -/
def unwritten (s : Scanner) : List UInt8 :=
  s.unmatched.elim [] fun run => s.buffer.slice run.start run.stop

/-- A write that succeeds has written all. -/
theorem write_of_ok {bytes : List UInt8} (h : write bytes s = .ok () s') : s' = s.wrote bytes := by
  unfold write Sink.write at h
  dsimp only at h
  by_cases hfits : s.output.room bytes.length = bytes.length
  · rw [if_pos hfits, hfits, List.take_length] at h
    obtain ⟨-, rfl⟩ := EStateM.Result.ok.inj h
    rfl
  · rw [if_neg hfits] at h
    cases h

theorem flush_of_ok (h : flush s = .ok () s') :
    s' = { s.wrote s.unwritten with unmatched := none } := by
  unfold flush at h
  unfold wrote unwritten
  cases hrun : s.unmatched with
  | none =>
    rw [hrun] at h
    obtain ⟨-, rfl⟩ := EStateM.Result.ok.inj h
    rw [Option.elim_none, Array.append_empty, ← hrun]
  | some run =>
    rw [hrun] at h
    exact write_of_ok h

/-- A scanner that was restarted has written its unmatched bytes and stands before the new source, with
no match and no terminator. -/
theorem restart_of_ok {source : Source} (h : restart source s = .ok () s') :
    s' = { s.wrote s.unwritten with
      covered := none
      unmatched := none
      buffer := s.unterminate.buffer.switchTo source
      window := {}
      keepText := false } := by
  obtain ⟨_, s₁, hflush, h⟩ := bind_eq_ok_iff.1 h
  obtain rfl := flush_of_ok hflush
  obtain ⟨-, rfl⟩ := EStateM.Result.ok.inj h
  rw [unterminate_eq]
  unfold unterminate wrote
  dsimp only
  cases s.covered <;> rfl

end Scanner

/-! ## What remains of a scan -/

namespace Hooks

variable {σ : Type} {hooks : Hooks σ} {s s' : Scanner} {x : σ} {st : Scanner × σ}

/-- What remains of a scan when an action lets it go on is a scan of its own. -/
theorem scan_of_resume {rule : Rule} (h : s.advance = .ok (some rule) s')
    (haction : hooks.onMatch rule (s'.terminate, x) = .ok .resume st) (events : Nat) :
    hooks.handle (events + 1) (s, x) = hooks.scan events st := by
  rw [handle_of_match h, runAction_eq, haction]
  rfl

/-- So is what remains of it when the hook has provided more input. -/
theorem scan_of_more (h : s.advance = .ok none s') (hhook : hooks.onEnd (s', x) = .ok false st)
    (hcovered : st.1.covered = none) (events : Nat) :
    hooks.handle (events + 1) (s, x) = hooks.scan events st := by
  rw [scan_eq_handle (Scanner.unterminate_of_none hcovered)]
  simp only [handle, Bind.bind, EStateM.bind, onScanner, h, hhook]
  rfl

end Hooks

/-! ## Capacities -/

instance : Scanner.Lasting (Scanner.Carried Buffer.StaysRegular) :=
  .of_carried Buffer.StaysRegular fun _ _ => ⟨rfl, fun _ => id⟩

/-- Without a limit, all capacities that a session comes to are regular. -/
theorem Session.notes_regular {o : ScannerOptions} {t : Tables} {source : Source} {output : Sink}
    {s : Scanner} (hbuild : o.build t source output = .ok s) (hlimit : o.capacityLimit = none)
    {σ α : Type} (session : Session σ α) (memory : σ) {note : Note}
    (hnote : note ∈ session.notes memory s) : note.scanner.buffer.Regular := by
  obtain ⟨-, -, -, -, -, hcreate, -⟩ := ScannerOptions.parts_of_build hbuild
  have hregular := Buffer.create_regular hlimit hcreate
  obtain ⟨new, hnotes, hnew⟩ := (session.run_chronicle (R := Scanner.Carried Buffer.StaysRegular)
    (s, Diary.start memory s)).notes
  have hsettings : s.buffer.settings.capacityLimit = none := by
    rw [(ScannerOptions.build_coherent hbuild).2.1.settings_eq]
    exact hlimit
  unfold Session.notes at hnote
  rw [hnotes] at hnote
  rcases List.mem_append.1 hnote with hmem | hmem
  · exact (hnew note hmem).regular hsettings hregular
  · rw [List.mem_singleton.1 hmem]
    exact hregular

/-! ## Sessions after a restart -/

/-- What a user sees at two notes is the same, but for what the headstart accounts for. -/
structure Note.SeenAfresh (head : Headstart) (note note' : Note) : Prop where
  event_eq : note'.event = note.event
  running_eq : note'.running = note.running
  text_eq : note'.scanner.text = note.scanner.text
  startCondition_eq : note'.scanner.startCondition = note.scanner.startCondition
  pending_eq : note'.scanner.pending = note.scanner.pending
  line_eq : note.scanner.line = head.lines + note'.scanner.line
  written_eq : note.scanner.output.written = head.written ++ note'.scanner.output.written

/-- Note by note the same is seen, and from the first match on so is its rule. -/
inductive AllAfresh (head : Headstart) : List Note → List Note → Prop where
  | nil : AllAfresh head [] []
  | cons {note note' : Note} {notes notes' : List Note} : note.SeenAfresh head note' →
      (Matched (note :: notes) → note'.scanner.rule = note.scanner.rule) →
      AllAfresh head notes notes' → AllAfresh head (note :: notes) (note' :: notes')

/-- All that has happened in two sessions is the same for their user, but for what the headstart
accounts for. -/
structure SeenAfresh {σ : Type} (head : Headstart) (st st' : Scanner × Diary σ) : Prop where
  memory_eq : st'.2.memory = st.2.memory
  notes : AllAfresh head st.2.notes st'.2.notes

section Afresh

variable {t : Tables} {settings settings' : BufferSettings} {head : Headstart} {s s' : Scanner}
  {notes bare bare' notes' : List Note}

/-- What does not concern the buffer is the same without terminators. -/
theorem Scanner.Counterpart.parts_eq (h : s.Counterpart s') : s'.startCondition = s.startCondition ∧
    s'.line = s.line ∧ s'.output = s.output ∧ s'.rule = s.rule := by
  obtain ⟨buffer, -, rfl⟩ := h
  exact ⟨rfl, rfl, rfl, rfl⟩

theorem matched_of_counterpart (h : List.Forall₂ Note.Counterpart notes bare)
    (hmatched : Matched notes) : Matched bare := by
  induction h with
  | nil => exact hmatched
  | cons hnote _ ih =>
    obtain ⟨note, hmem, rule, hevent⟩ := hmatched
    rcases List.mem_cons.1 hmem with rfl | hmem
    · exact ⟨_, List.mem_cons_self, rule, hnote.event_eq.trans hevent⟩
    · obtain ⟨note', hmem', hevent'⟩ := ih ⟨note, hmem, rule, hevent⟩
      exact ⟨note', List.mem_cons_of_mem _ hmem', hevent'⟩

/-- If no line runs out with terminators then none does without them. -/
theorem clamped_of_counterpart (h : List.Forall₂ Note.Counterpart notes bare)
    (hclamped : Clamped bare) : Clamped notes := by
  induction h with
  | nil => exact hclamped
  | @cons note note' notes bare hnote hrest ih =>
    obtain ⟨note₁, before, earlier, hsuffix, hclamps⟩ := hclamped
    rcases List.suffix_cons_iff.1 hsuffix with heq | hsuffix
    · obtain ⟨rfl, rfl⟩ := List.cons.inj heq
      cases hrest with
      | @cons before' _ earlier' _ hbefore _ =>
        obtain ⟨edit, result, hevent, hkeeps, given, hgiven, hle⟩ := hclamps
        rw [hnote.scanner.pending_eq, hbefore.scanner.pending_eq] at hgiven
        rw [hbefore.scanner.parts_eq.2.1] at hle
        exact ⟨note, before', earlier', List.suffix_refl _, edit, result,
          hnote.event_eq.symm.trans hevent, hkeeps, given, hgiven, hle⟩
    · exact (ih ⟨note₁, before, earlier, hsuffix, hclamps⟩).mono (List.suffix_cons _ _)

/-- What is seen with terminators is what is seen without them. -/
theorem AllBeside.allAfresh (h : AllBeside head bare bare')
    (hbare : List.Forall₂ Note.Counterpart notes bare)
    (hbare' : List.Forall₂ Note.Counterpart notes' bare')
    (hproper : AllProper t settings notes) (hproper' : AllProper t settings' notes') :
    AllAfresh head notes notes' := by
  induction h generalizing notes notes' with
  | nil =>
    cases hbare
    cases hbare'
    exact .nil
  | cons hevent hrunning hscanner _ ih =>
    cases hbare with
    | @cons note _ notes _ hnote hrest =>
      cases hbare' with
      | @cons note' _ notes' _ hnote' hrest' =>
        have hcoherent := (hproper note notes (List.suffix_refl _)).coherent
        have hcoherent' := (hproper' note' notes' (List.suffix_refl _)).coherent
        obtain ⟨hsc, hline, houtput, hrule⟩ := hnote.scanner.parts_eq
        obtain ⟨hsc', hline', houtput', hrule'⟩ := hnote'.scanner.parts_eq
        have hseen : note.SeenAfresh head note' := by
          refine ⟨?_, ?_, ?_, ?_, ?_, ?_, ?_⟩
          · rw [← hnote'.event_eq, hevent, hnote.event_eq]
          · rw [← hnote'.running_eq, hrunning, hnote.running_eq]
          · rw [← hnote'.scanner.text_eq hcoherent', hscanner.text_eq, hnote.scanner.text_eq hcoherent]
          · rw [← hsc', hscanner.startCondition_eq, hsc]
          · rw [← hnote'.scanner.pending_eq, hscanner.pending_eq, hnote.scanner.pending_eq]
          · rw [← hline, hscanner.line_eq, hline']
          · rw [← houtput, hscanner.output.written_eq, houtput']
        refine .cons hseen (fun hmatched => ?_) (ih hrest hrest'
          (fun _ _ hsuffix => hproper _ _ (hsuffix.trans (List.suffix_cons _ _)))
          fun _ _ hsuffix => hproper' _ _ (hsuffix.trans (List.suffix_cons _ _)))
        rw [← hrule', ← hrule]
        exact hscanner.rule_eq (matched_of_counterpart (.cons hnote hrest) hmatched)

/-- A scanner without a terminator is coherent if it never puts any. -/
theorem Scanner.Coherent.plain (h : s.Coherent t settings) (hcovered : s.covered = none) :
    s.plain.Coherent t { settings with terminator := none } :=
  { h with
    settings_eq := congrArg (fun settings => { settings with terminator := none }) h.settings_eq
    roomy := ⟨h.roomy.block_pos, h.roomy.filled_lt, h.roomy.capacity_le⟩
    covered := fun c hc => by
      rw [show s.plain.covered = none from hcovered] at hc
      cases hc }

/-- A session on a coherent scanner runs alike without terminators. -/
theorem Session.run_plain (ht : t.Sound) (hs : s.Coherent t settings) (hcovered : s.covered = none)
    {σ α : Type} (session : Session σ α) (memory : σ) :
    Parallel (fun st st' => AllProper t settings st.2.notes ∧ Alongside st st')
      (session.run (s, Diary.start memory s)) (session.run (s.plain, Diary.start memory s.plain)) := by
  have hcounterpart := (Scanner.Twin.of_plain hcovered).counterpart
  have hintact := Intact.of_coherent hs hcovered memory
  have hbegin : Alongside (s, Diary.start memory s) (s.plain, Diary.start memory s.plain) :=
    ⟨hcounterpart, rfl, rfl, .cons ⟨rfl, rfl, hcounterpart⟩ .nil⟩
  have hrun := session.run_blind ht _ _ hintact (fun _ => hcovered) hbegin
  have hkeeps := session.run_keeps ht _ hintact fun _ => hcovered
  exact (hrun.and_ends hkeeps).mono fun _ _ h => ⟨h.1.intact.notes, h.2⟩

/-- Two coherent scanners, the second one new, run alike if they are side by side without their
terminators. -/
theorem Session.run_afresh (ht : t.Sound) (hs : s.Coherent t settings) (hs' : s'.Coherent t settings')
    (hwritten : s'.output.written = #[]) (hline : s'.line = 1)
    (h : s.plain.Beside Buffer.Akin head False s'.plain)
    {σ α : Type} (session : Session σ α) (memory : σ)
    (hclamped : ¬ Clamped ((session.since s'.headstart).notes memory s')) :
    Parallel (SeenAfresh head) ((session.since head).run (s, Diary.start memory s))
      ((session.since s'.headstart).run (s', Diary.start memory s')) := by
  rw [Scanner.headstart_eq_empty hwritten hline] at hclamped ⊢
  obtain ⟨hcovered, hcovered'⟩ := h.covered_eq
  have hleft := (session.since head).run_plain ht hs hcovered memory
  have hright := (session.since {}).run_plain ht hs' hcovered' memory
  have hunclamped : Unclamped (session.since {}).run (s'.plain, Diary.start memory s'.plain) :=
    fun hbare => hclamped (clamped_of_counterpart hright.final.2.notes hbare)
  have hscanner (hmatched : Matched [⟨.built, 0, s.plain⟩]) : False := by
    obtain ⟨note, hmem, rule, hevent⟩ := hmatched
    rw [List.mem_singleton.1 hmem] at hevent
    cases hevent
  have hbegin : Renewed head (s.plain, Diary.start memory s.plain)
      (s'.plain, Diary.start memory s'.plain) :=
    ⟨h.mono hscanner, rfl, rfl, .cons rfl rfl (h.mono hscanner) .nil⟩
  have hmiddle := session.run_renews ht _ _ (Intact.of_coherent (hs'.plain hcovered') hcovered' memory)
    ⟨_, _, rfl, rfl⟩ hbegin hunclamped
  refine (hleft.trans (hmiddle.trans hright.symm)).mono fun st st' h => ?_
  obtain ⟨bare, ⟨hproper, hbare⟩, bare', hrenewed, hproper', hbare'⟩ := h
  refine ⟨?_, hrenewed.notes.allAfresh hbare.notes hbare'.notes hproper hproper'⟩
  rw [← hbare'.memory_eq, hrenewed.memory_eq, hbare.memory_eq]

/-- Two empty buffers without a limit are akin once they put no terminators. -/
theorem Buffer.Akin.of_empty {b b' : Buffer} (hpassed : b.passed = #[] ∧ b'.passed = #[])
    (hahead : b.ahead = [] ∧ b'.ahead = []) (hsource : b'.source = b.source)
    (hsettings : b'.settings = b.settings) (hlimit : b.settings.capacityLimit = none)
    (hregular : b.Regular) (hregular' : b'.Regular) : b.plain.Akin b'.plain where
  same := ⟨hpassed.2.trans hpassed.1.symm, hahead.2.trans hahead.1.symm, hsource,
    congrArg (·.interactive) hsettings, congrArg (·.blockSize) hsettings⟩
  settings_eq := congrArg (fun settings => { settings with terminator := none }) hsettings
  plain := rfl
  unlimited := hlimit
  regular := hregular
  regular' := hregular'

/-- A restarted scanner is beside one over a new buffer: both stand before the source, and have nothing
of what the first one did before but its headstart. -/
theorem Scanner.beside_of_restart {source : Source} {b : Buffer}
    (hrestart : s.restart source = .ok () s') (hs' : s'.Coherent t settings)
    (hlimit : settings.capacityLimit = none) (hregular : s'.buffer.Regular)
    (hcreate : Buffer.create settings source = .ok b) (hsettings : b.settings = settings) :
    s'.plain.Beside Buffer.Akin s'.headstart False (plain {
      tables := t
      buffer := b
      output := s'.output.since s'.output.written.size
      startCondition := s'.startCondition }) := by
  have heq := restart_of_ok hrestart
  obtain ⟨-, capacity, hempty⟩ := Buffer.create_roomy hcreate
  have hbuffer : s'.buffer.plain.Akin b.plain :=
    .of_empty ⟨by rw [heq]; rfl, by rw [hempty]⟩ ⟨by rw [heq]; rfl, by rw [hempty]⟩
      (by rw [heq, hempty]; rfl) (hsettings.trans hs'.settings_eq.symm) (hs'.settings_eq ▸ hlimit)
      hregular (Buffer.create_regular hlimit hcreate)
  exact {
    buffer := hbuffer
    covered_eq := ⟨by rw [heq]; rfl, rfl⟩
    tables_eq := hs'.tables_eq.symm
    startCondition_eq := rfl
    window_eq := by rw [heq]; rfl
    keepText_eq := by rw [heq]; rfl
    unmatched_eq := by rw [heq]; rfl
    output := Sink.Ahead.of_self _
    line_eq := (Nat.sub_add_cancel hs'.line_pos).symm
    rule_eq := False.elim }

end Afresh

/-- A scan of one match, whose action asks to keep the text. -/
def Session.keeping : Session Unit Unit :=
  .scan 1 (fun _ => .perform .more fun _ => .finish .resume) (.finish true) fun _ => .finish ()

/-- A scan of one match, whose action reads a byte behind the text and gives both back. -/
def Session.rereading : Session Unit Unit :=
  .scan 1 (fun _ => .perform .input fun _ => .perform (.less 0) fun _ => .finish .resume)
    (.finish true) fun _ => .finish ()

/-- Where no newline is pending, none is given back. -/
theorem not_clamped_of_newlines {notes : List Note}
    (h : ∀ note ∈ notes, 10 ∉ note.scanner.pending ∧ 1 ≤ note.scanner.line) : ¬ Clamped notes := by
  rintro ⟨note, before, earlier, hsuffix, edit, result, -, -, given, hgiven, hle⟩
  have hnote := (h note (hsuffix.subset List.mem_cons_self)).1
  have hbefore := (h before (hsuffix.subset (List.mem_cons_of_mem _ List.mem_cons_self))).2
  have hnone : newlines given = 0 := by
    refine List.count_eq_zero_of_not_mem fun hmem => hnote ?_
    rw [hgiven]
    exact List.mem_append_left _ hmem
  omega

/-- Going on with another source is starting anew. On a scanner that was built without a limit on its
buffer, let a session come to any place, inside an action or a hook or between scans, and let the
scanner be restarted there. Then its pending input is the new source, its text is empty and its
unmatched bytes are written; and with the same tables and options a scanner can be built over the new
source, in the start condition that is active now and with what is left of the output. Each session that
sees only what has come since ends on both with the same value or error, having seen the same results
and errors of operations, actions, hooks and scans, the same matches with their texts and start
conditions and the same new output, with lines that differ by the headstart; and the same rules, once a
match has been entered. This holds of all runs in which no operation takes the line of the new scanner
to its lowest. What remains of an action is a session, and what remains of a scan is one by
`Hooks.scan_of_resume` and `Hooks.scan_of_more`. -/
theorem Session.restart_renews {o : ScannerOptions} {t : Tables} {source : Source} {output : Sink}
    {s : Scanner} (hbuild : o.build t source output = .ok s) (hlimit : o.capacityLimit = none)
    {σ α : Type} (session : Session σ α) (memory : σ) {note : Note}
    (hnote : note ∈ session.notes memory s) (source' : Source) {s₁ : Scanner}
    (hrestart : Scanner.restart source' note.scanner = .ok () s₁) :
    s₁.pending = source'.bytes ∧ s₁.text = [] ∧ s₁.unmatched = none ∧
    s₁.output.written = note.scanner.output.written ++ note.scanner.unwritten.toArray ∧
    s₁.startCondition = note.scanner.startCondition ∧ s₁.line = note.scanner.line ∧
    ∃ fresh, ({ o with startAt := .condition s₁.startCondition } : ScannerOptions).build t source'
        (s₁.output.since s₁.output.written.size) = .ok fresh ∧
      fresh.output.written = #[] ∧ fresh.line = 1 ∧
      ∀ {σ' α' : Type} (session' : Session σ' α') (memory' : σ'),
        ¬ Clamped ((session'.since fresh.headstart).notes memory' fresh) →
        Parallel (SeenAfresh s₁.headstart)
          ((session'.since s₁.headstart).run (s₁, Diary.start memory' s₁))
          ((session'.since fresh.headstart).run (fresh, Diary.start memory' fresh)) := by
  obtain ⟨later, earlier, hnotes⟩ := List.append_of_mem hnote
  have hproper := session.allProper hbuild memory note earlier ⟨later, hnotes.symm⟩
  have hcoherent := ((Scanner.restart_upholds hproper.coherent source').ok hrestart).coherent
  have hlimit₀ : note.scanner.buffer.settings.capacityLimit = none :=
    hproper.coherent.settings_eq ▸ hlimit
  have hregular : s₁.buffer.Regular :=
    (final_of_ok hrestart ▸ Scanner.restart_carried Buffer.StaysRegular (fun _ _ => ⟨rfl, fun _ => id⟩)
      source' note.scanner).regular hlimit₀ (session.notes_regular hbuild hlimit memory hnote)
  obtain ⟨ht, -, -, -, -, hcreate₀, -⟩ := ScannerOptions.parts_of_build hbuild
  obtain ⟨b, hcreate⟩ : ∃ b, Buffer.create o.bufferSettings source' = .ok b := by
    rw [Buffer.create_switch o.bufferSettings source source', hcreate₀]
    exact ⟨_, rfl⟩
  have hfresh := ScannerOptions.build_anew ht hcreate hcoherent.state_lt hcoherent.bolState_lt
    (s₁.output.since s₁.output.written.size)
  have hcoherent' := (ScannerOptions.build_coherent hfresh).2.1
  have hbeside := Scanner.beside_of_restart hrestart hcoherent hlimit hregular hcreate
    hcoherent'.settings_eq
  have hwritten : (s₁.output.since s₁.output.written.size).written = #[] := by simp [Sink.since]
  have heq := Scanner.restart_of_ok hrestart
  refine ⟨?_, ?_, ?_, ?_, ?_, ?_, _, hfresh, hwritten, rfl, fun session' memory' hclamped => ?_⟩
  · rw [heq]
    rfl
  · rw [heq]
    simp [Scanner.text, Buffer.slice, Buffer.switchTo, Window.stop]
  · rw [heq]
  · rw [heq]
    rfl
  · rw [heq]
    rfl
  · rw [heq]
    rfl
  · exact Session.run_afresh ht hcoherent hcoherent' hwritten rfl hbeside session' memory' hclamped

/-- In the action of the first match, which has asked to keep its text and sees a terminator on the byte
behind it, the scanner goes on with a source of two bytes, and matches the first of them as a new one
does. -/
theorem Session.restart_renews_oneByte : ∃ s s₁ fresh : Scanner,
    s.covered = some ⟨1, 98⟩ ∧ s.keepText = true ∧ s.restart (.ofBytes [99, 100]) = .ok () s₁ ∧
    s₁.pending = [99, 100] ∧ s₁.text = [] ∧
    Parallel (SeenAfresh s₁.headstart) ((rereading.since s₁.headstart).run (s₁, Diary.start () s₁))
      ((rereading.since fresh.headstart).run (fresh, Diary.start () fresh)) := by
  have hrun : (match ({} : ScannerOptions).build Tables.oneByte (.ofBytes [97, 98]) {} with
      | .ok s => decide (∃ note ∈ keeping.notes () s, note.scanner.covered = some ⟨1, 98⟩ ∧
        note.scanner.keepText = true ∧ (match note.scanner.restart (.ofBytes [99, 100]) with
          | .ok _ s₁ => match ({ ({} : ScannerOptions) with
                startAt := .condition s₁.startCondition } : ScannerOptions).build
              Tables.oneByte (.ofBytes [99, 100]) (s₁.output.since s₁.output.written.size) with
            | .ok fresh => decide (∀ note ∈ (rereading.since fresh.headstart).notes () fresh,
                10 ∉ note.scanner.pending ∧ 1 ≤ note.scanner.line)
            | .error _ => false
          | .error _ _ => false) = true)
      | .error _ => false) = true := by decide +kernel
  split at hrun
  · rename_i s hbuild
    obtain ⟨note, hmem, hcovered, hkeep, hrun⟩ := of_decide_eq_true hrun
    split at hrun
    · rename_i s₁ hrestart
      split at hrun
      · rename_i fresh hfresh
        obtain ⟨hpending, htext, -, -, -, -, fresh', hfresh', -, -, hrenews⟩ :=
          restart_renews hbuild rfl keeping () hmem (.ofBytes [99, 100]) hrestart
        obtain rfl : fresh = fresh' := Except.ok.inj (hfresh.symm.trans hfresh')
        exact ⟨note.scanner, s₁, fresh, hcovered, hkeep, hrestart, hpending, htext,
          hrenews rereading () (not_clamped_of_newlines (of_decide_eq_true hrun))⟩
      · exact Bool.noConfusion hrun
    · exact Bool.noConfusion hrun
  · exact Bool.noConfusion hrun

end Munch
