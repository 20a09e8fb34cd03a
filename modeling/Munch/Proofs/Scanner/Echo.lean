-- SUMMARY: A scan whose actions echo what they keep copies its input, and handles no more matches than there are bytes.
import Munch.Proofs.Scanner.Buffering
import Munch.Proofs.Scanner.Lexer
import Munch.Proofs.Scanner.Upkeep

/-! # Echoing

Bytes are written in two ways: unmatched ones by the scanner, in runs, and matched ones by the action.
An action that echoes its match, after it may have cut it, writes what it does not give back. So what
was written is the input up to the cursor after every action, and each action moves the cursor on. -/

namespace Munch

/-! ## Actions that echo -/

/-- The script switches the start condition and cuts its match, as often as it likes but not to
nothing, and then echoes it and goes on. The match has `n` bytes. -/
inductive Script.Echoes {σ : Type} (t : Tables) : Nat → Script σ → Prop where
  | echo {n : Nat} {keeps : Edit.echo.KeepsSource}
      {next : Except ScanError (Option UInt8) → Sight → Script σ} :
      (∀ sight, ∃ memory, next (.ok none) sight = .finish .resume memory) →
      Echoes t n (.perform .echo keeps next)
  | begin {n : Nat} {sc : StartCondition} {entries : State × State} {keeps : (Edit.begin sc).KeepsSource}
      {next : Except ScanError (Option UInt8) → Sight → Script σ} : t.entryStates sc = .ok entries →
      (∀ sight, Echoes t n (next (.ok none) sight)) → Echoes t n (.perform (.begin sc) keeps next)
  | beginNamed {n : Nat} {name : String} {sc : StartCondition} {entries : State × State}
      {keeps : (Edit.beginNamed name).KeepsSource}
      {next : Except ScanError (Option UInt8) → Sight → Script σ} :
      t.startCondition? name = some sc → t.entryStates sc = .ok entries →
      (∀ sight, Echoes t n (next (.ok none) sight)) →
      Echoes t n (.perform (.beginNamed name) keeps next)
  | less {n k : Nat} {keeps : (Edit.less k).KeepsSource}
      {next : Except ScanError (Option UInt8) → Sight → Script σ} : 1 ≤ k → k ≤ n →
      (∀ sight, Echoes t k (next (.ok none) sight)) → Echoes t n (.perform (.less k) keeps next)

/-- Whether an entry reports a match. -/
def JournalEntry.isReport : JournalEntry → Bool
  | .reported _ _ => true
  | .performed _ _ _ => false

/-- The number of matches that were reported. -/
def Journal.reports {σ : Type} (journal : Journal σ) : Nat :=
  journal.log.countP JournalEntry.isReport

/-! ## Tapes that are copied -/

theorem newlines_append (u v : List UInt8) : newlines (u ++ v) = newlines u + newlines v :=
  List.count_append

namespace Tape

/-- The tape stands at the position `p` of the input. All bytes before it were written behind `out`, and
no others. -/
structure Copied (w out : List UInt8) (p : Nat) (tape : Tape) : Prop where
  stands : tape.At tape.startCondition w p
  output_eq : tape.output = out ++ w.take p

/-- The tape stands behind a match of `n` bytes from the position `p` on, and only the bytes before the
match were written. -/
structure Holds (w out : List UInt8) (p n : Nat) (tape : Tape) : Prop where
  stands : tape.At tape.startCondition w (p + n)
  pos : 0 < n
  start_eq : tape.textStart = p
  length_eq : tape.textLength = n
  output_eq : tape.output = out ++ w.take p

variable {w out : List UInt8} {p n : Nat} {tape tape' : Tape} {t : Tables}

theorem Holds.text_eq (h : tape.Holds w out p n) : tape.text = (w.drop p).take n := by
  unfold text
  rw [h.stands.behind_eq, h.start_eq, h.length_eq, List.drop_take, Nat.add_sub_cancel_left,
    List.take_take, Nat.min_self]

theorem Holds.length_text (h : tape.Holds w out p n) : tape.text.length = n := by
  have hle := h.stands.le
  rw [h.text_eq, List.length_take, List.length_drop]
  omega

/-! ## Edits -/

theorem Holds.begin (h : tape.Holds w out p n) (sc : StartCondition) :
    (tape.begin sc).Holds w out p n :=
  ⟨⟨h.stands.le, h.stands.behind_eq, h.stands.pending_eq, rfl, h.stands.keepText_eq,
    h.stands.line_eq⟩, h.pos, h.start_eq, h.length_eq, h.output_eq⟩

/-- Cutting a match gives its last bytes back, with their newlines. -/
theorem Holds.less (h : tape.Holds w out p n) {k : Nat} (hpos : 1 ≤ k) (hle : k ≤ n) :
    (tape.less k).Holds w out p k := by
  have hcut : p + k ≤ p + n := Nat.add_le_add_left hle p
  have hbehind : tape.behind.take (p + k) = w.take (p + k) := by
    rw [h.stands.behind_eq, List.take_take, Nat.min_eq_left hcut]
  have hsplit : tape.behind = w.take (p + k) ++ tape.behind.drop (p + k) := by
    rw [← hbehind, List.take_append_drop]
  refine ⟨⟨Nat.le_trans hcut h.stands.le, ?_, ?_, rfl, h.stands.keepText_eq, ?_⟩, hpos, h.start_eq,
    ?_, h.output_eq⟩
  · show tape.behind.take (tape.textStart + k) = _
    rw [h.start_eq, hbehind]
  · show tape.behind.drop (tape.textStart + k) ++ tape.pending = _
    have hlength : p + k ≤ (w.take (p + n)).length := by
      rw [List.length_take, Nat.min_eq_left h.stands.le]
      exact hcut
    rw [h.start_eq, h.stands.behind_eq, h.stands.pending_eq,
      ← List.drop_append_of_le_length hlength, List.take_append_drop]
  · show max (tape.line - newlines (tape.behind.drop (tape.textStart + k))) 1 = _
    have hlines : newlines (w.take (p + n)) =
        newlines (w.take (p + k)) + newlines (tape.behind.drop (p + k)) := by
      rw [← newlines_append, ← hsplit, h.stands.behind_eq]
    rw [h.start_eq, h.stands.line_eq, hlines]
    omega
  · show min tape.textLength k = k
    rw [h.length_eq, Nat.min_eq_right hle]

/-- An echo writes the match. -/
theorem Holds.echo (h : tape.Holds w out p n) : (tape.write tape.text).Copied w out (p + n) := by
  refine ⟨⟨h.stands.le, h.stands.behind_eq, h.stands.pending_eq, rfl, h.stands.keepText_eq,
    h.stands.line_eq⟩, ?_⟩
  show tape.output ++ tape.text = _
  rw [h.text_eq, h.output_eq, List.append_assoc, ← List.take_add]

/-! ## Advancing -/

theorem Copied.skipped (h : tape.Copied w out p) (ha : tape.Attempts t .skipped tape') :
    tape'.Copied w out (p + 1) := by
  cases ha with
  | @skipped byte rest hdecides hpending =>
    obtain ⟨hat, hbyte⟩ := h.stands.skip hpending
    refine ⟨hat, ?_⟩
    show tape.output ++ [byte] = _
    rw [h.output_eq, List.append_assoc, List.take_add_one, hbyte]
    rfl

theorem Copied.matched (h : tape.Copied w out p) {rule : Rule}
    (ha : tape.Attempts t (.matched rule) tape') : ∃ n, tape'.Holds w out p n := by
  cases ha with
  | @matched _ length hdecides =>
    have hlength : length ≤ (w.drop p).length := h.stands.pending_eq ▸ hdecides.passes_le
    have hbehind : tape.behind.length = p := by
      rw [h.stands.behind_eq, List.length_take, Nat.min_eq_left h.stands.le]
    have hstart : tape.nextStart = p := by
      unfold nextStart
      rw [h.stands.keepText_eq, hbehind]
      rfl
    obtain ⟨x, -, hhead, hoffered, -⟩ := hdecides
    refine ⟨length, (h.stands.accept rule hlength).1, hhead ▸ hoffered.head_pos.1, hstart, ?_,
      h.output_eq⟩
    show tape.behind.length + length - tape.nextStart = length
    rw [hstart, hbehind, Nat.add_sub_cancel_left]

/-- Advancing copies the bytes that no rule matches, up to a match or the end of the input. -/
theorem Advances.copied (h : tape.Copied w out p) {found : Option Rule}
    (ha : tape.Advances t found tape') :
    match found with
    | some _ => ∃ q n, p ≤ q ∧ tape'.Holds w out q n
    | none => tape'.Copied w out w.length := by
  induction ha generalizing p with
  | matched ha =>
    obtain ⟨n, hholds⟩ := h.matched ha
    exact ⟨p, n, Nat.le_refl p, hholds⟩
  | @ended tape tape' ha =>
    cases ha with
    | ended hdecides =>
      have hdrop : w.drop p = [] := h.stands.pending_eq ▸ hdecides
      obtain rfl : p = w.length := Nat.le_antisymm h.stands.le (List.drop_eq_nil_iff.1 hdrop)
      exact ⟨⟨h.stands.le, h.stands.behind_eq, h.stands.pending_eq, rfl, rfl, h.stands.line_eq⟩,
        h.output_eq⟩
  | @skipped tape tape' tape'' found ha hrest ih =>
    have hnext := ih (h.skipped ha)
    cases found with
    | none => exact hnext
    | some rule =>
      obtain ⟨q, n, hle, hholds⟩ := hnext
      exact ⟨q, n, Nat.le_of_succ_le hle, hholds⟩

end Tape

/-! ## Operations that need no memory -/

/-- Only reading and pushing back ask for memory. -/
def Edit.NeedsNoRoom : Edit → Prop
  | .input => False
  | .unput _ => False
  | .unputAll _ => False
  | _ => True

theorem Scanner.write_starves (bytes : List UInt8) : Starves (fun _ _ => False) (write bytes) := by
  intro s n s' h
  unfold write at h
  split at h
  · cases h
  · rename_i hwrite
    obtain ⟨rfl, -⟩ := EStateM.Result.error.inj h
    unfold Sink.write at hwrite
    dsimp only at hwrite
    split at hwrite
    · cases hwrite
    · cases (EStateM.Result.error.inj hwrite).1

theorem Scanner.begin_starves (sc : StartCondition) : Starves (fun _ _ => False) (begin sc) :=
  .bind .get fun _ => .bind (.liftFault _) fun _ => .modify _

theorem Edit.perform_starves {edit : Edit} (h : edit.NeedsNoRoom) :
    Starves (fun _ _ => False) edit.perform := by
  have hsilently {m : ScannerM Unit} (hm : Starves (fun _ _ => False) m) :
      Starves (fun _ _ => False) (silently m) := .bind hm fun _ => .pure _
  cases edit with
  | input => exact h.elim
  | unput byte => exact h.elim
  | unputAll bytes => exact h.elim
  | less n =>
    refine hsilently fun s m s' hrun => ?_
    by_cases hn : s.window.length < n
    · rw [Scanner.less_eq_error hn] at hrun
      cases (EStateM.Result.error.inj hrun).1
    · rw [Scanner.less_eq (Nat.le_of_not_lt hn)] at hrun
      split at hrun <;> cases hrun
  | more => exact hsilently (.modify _)
  | echo => exact hsilently (.bind .get fun s => Scanner.write_starves s.text)
  | begin sc => exact hsilently (Scanner.begin_starves sc)
  | beginNamed name =>
    refine hsilently (.bind .get fun s => ?_)
    split
    · exact Scanner.begin_starves _
    · intro s n s' hrun
      cases (EStateM.Result.error.inj hrun).1
  | write bytes => exact hsilently (Scanner.write_starves bytes)
  | restart source =>
    refine hsilently (.bind (fun s n s' hrun => ?_) fun _ => .bind (.modify _) fun _ => .modify _)
    unfold Scanner.flush at hrun
    split at hrun
    · cases hrun
    · exact Scanner.write_starves _ _ n s' hrun

/-! ## Actions -/

section Actions

variable {σ : Type} {t : Tables} {settings : BufferSettings} {tape : Tape} {dropped : Nat}
  {s : Scanner} {w out : List UInt8} {p n : Nat}

/-- An operation that has a result on the tape and needs no memory succeeds on a scanner. -/
theorem Script.step_succeeds (hin : s.InAction t tape dropped) (hs : s.Coherent t settings)
    {edit : Edit} (keeps : edit.KeepsSource) (hroom : edit.NeedsNoRoom)
    (hless : edit = .less 0 → tape.prefixed = false)
    (hresult : (tape.perform t edit keeps).1 = .ok none) (journal : Journal σ) :
    ∃ s', step edit (s, journal) = .ok (.ok none, s'.sight) (s', journal.note edit (.ok none)) ∧
      s'.InAction t (tape.perform t edit keeps).2 dropped ∧ s'.Coherent t settings := by
  have hmirrors := Scanner.perform_mirrors hin edit keeps hless
  have hcoherent := edit.perform_upholds hs
  cases hperform : edit.perform s with
  | ok byte s' =>
    rw [hperform] at hmirrors
    obtain ⟨hbyte, hin'⟩ := hmirrors
    obtain rfl : none = byte := Except.ok.inj (hresult.symm.trans hbyte)
    exact ⟨s', step_of_ok hperform, hin', (hcoherent.ok hperform).coherent⟩
  | error e s' =>
    rw [hperform] at hmirrors
    rcases hmirrors with ⟨m, rfl⟩ | ⟨herror, -⟩
    · exact (Edit.perform_starves hroom s m s' hperform).elim
    · cases hresult.symm.trans herror

/-- An action that echoes ends behind what it has kept of its match, with all of that written. -/
theorem Script.run_echoes {script : Script σ} (hscript : script.Echoes t n)
    (hin : s.InAction t tape dropped) (hs : s.Coherent t settings)
    (hholds : tape.Holds w out p n) (journal : Journal σ) :
    ∃ s' journal' tape' q, script.run (s, journal) = .ok .resume (s', journal') ∧
      s'.InAction t tape' dropped ∧ s'.Coherent t settings ∧ p < q ∧ tape'.Copied w out q ∧
      journal'.reports = journal.reports := by
  induction hscript generalizing s tape journal with
  | @echo n keeps next hnext =>
    obtain ⟨s', hstep, hin', hs'⟩ :=
      step_succeeds hin hs keeps trivial Edit.noConfusion rfl journal
    obtain ⟨memory, hfinish⟩ := hnext s'.sight
    refine ⟨s', (journal.note .echo (.ok none)).leave memory s', _, p + n, ?_, hin', hs',
      Nat.lt_add_of_pos_right hholds.pos, hholds.echo, rfl⟩
    rw [run, bind_of_ok hstep, hfinish]
    rfl
  | @begin n sc entries keeps next hentries hnext ih =>
    have hperform : tape.perform t (.begin sc) keeps = (.ok none, tape.begin sc) := by
      simp only [Tape.perform, Tape.tryBegin, hentries]
    obtain ⟨s', hstep, hin', hs'⟩ := step_succeeds hin hs keeps trivial Edit.noConfusion
      (congrArg Prod.fst hperform) journal
    rw [hperform] at hin'
    obtain ⟨s'', journal', tape', q, hrun, hrest⟩ := ih s'.sight hin' hs' (hholds.begin sc) _
    exact ⟨s'', journal', tape', q, (bind_of_ok hstep).trans hrun, hrest⟩
  | @beginNamed n name sc entries keeps next hname hentries hnext ih =>
    have hperform : tape.perform t (.beginNamed name) keeps = (.ok none, tape.begin sc) := by
      simp only [Tape.perform, Tape.tryBegin, hname, hentries]
    obtain ⟨s', hstep, hin', hs'⟩ := step_succeeds hin hs keeps trivial Edit.noConfusion
      (congrArg Prod.fst hperform) journal
    rw [hperform] at hin'
    obtain ⟨s'', journal', tape', q, hrun, hrest⟩ := ih s'.sight hin' hs' (hholds.begin sc) _
    exact ⟨s'', journal', tape', q, (bind_of_ok hstep).trans hrun, hrest⟩
  | @less n k keeps next hpos hle hnext ih =>
    have hperform : tape.perform t (.less k) keeps = (.ok none, tape.less k) := by
      simp only [Tape.perform, hholds.length_eq, Nat.not_lt.2 hle, if_false]
    obtain ⟨s', hstep, hin', hs'⟩ := step_succeeds hin hs keeps trivial
      (fun h => absurd (Edit.less.inj h) (Nat.ne_of_gt hpos)) (congrArg Prod.fst hperform) journal
    rw [hperform] at hin'
    obtain ⟨s'', journal', tape', q, hrun, hrest⟩ := ih s'.sight hin' hs' (hholds.less hpos hle) _
    exact ⟨s'', journal', tape', q, (bind_of_ok hstep).trans hrun, hrest⟩

variable {script : Rule → Sight → σ → Script σ}

/-- An action that echoes moves the scanner on, and copies what it passes. -/
theorem Script.runAction_echoes
    (hscript : ∀ rule sight memory, sight.text ≠ [] →
      (script rule sight memory).Echoes t sight.text.length)
    (hat : s.AtMatch t tape dropped) (hs : s.Coherent t settings) (hmatch : s.BehindMatch)
    (hholds : tape.Holds w out p n) (rule : Rule) (journal : Journal σ) :
    ∃ s' journal' tape' q, (hooks script).runAction rule (s, journal) =
        .ok .resume (s', journal') ∧ s'.Rests t tape' ∧ s'.Coherent t settings ∧ p < q ∧
      tape'.Copied w out q ∧ journal'.reports = journal.reports + 1 := by
  have hin := hat.terminate hmatch.1
  have hterminated := (hs.terminate hat.covered_eq hmatch).1
  have hne : tape.sight.text ≠ [] := List.ne_nil_of_length_pos (hholds.length_text ▸ hholds.pos)
  have hechoes := hscript rule tape.sight journal.memory hne
  rw [show tape.sight.text.length = n from hholds.length_text] at hechoes
  obtain ⟨s', journal', tape', q, hrun, hin', hs', hlt, hcopied, hreports⟩ :=
    run_echoes hechoes hin hterminated hholds { journal with
      log := .reported rule tape.sight :: journal.log
      prefixed := journal.keptAt == some tape.output.length }
  refine ⟨s'.unterminate, journal', tape', q, ?_, hin'.rests, hs'.unterminate.coherent, hlt, hcopied,
    ?_⟩
  · rw [Hooks.runAction_eq, onMatch_eq hin, hrun]
    rfl
  · rw [hreports]
    exact List.countP_cons_of_pos rfl

/-! ## Scans -/

/-- From a position on, the rest of the input is copied, one match or unmatched byte after the other. -/
theorem Script.handle_echoes (ht : t.Sound)
    (hscript : ∀ rule sight memory, sight.text ≠ [] →
      (script rule sight memory).Echoes t sight.text.length)
    (hrest : s.Rests t tape) (hs : s.Coherent t settings) (hcopied : tape.Copied w out p)
    {events : Nat} (hevents : w.length < p + events) (journal : Journal σ)
    (hmemory : settings.Suffices w.length ∨
      WithinMemory ((hooks script).handle events (s, journal))) :
    ∃ s' journal', (hooks script).handle events (s, journal) = .ok .exhausted (s', journal') ∧
      s'.output.written.toList = out ++ w ∧ s'.line = 1 + newlines w ∧
      journal'.reports + p ≤ journal.reports + w.length := by
  induction events generalizing s tape p journal with
  | zero => exact absurd hcopied.stands.le (Nat.not_le_of_lt hevents)
  | succ events ih =>
    obtain ⟨⟨dropped, hbetween⟩, -⟩ := id hrest
    have hadvance : WithinMemory s.advance := by
      rcases hmemory with hsuffices | hgrows
      · exact Scanner.advance_withinMemory (hs.settings_eq ▸ hsuffices)
          (hcopied.stands.length_eq ▸ hrest.stream_length)
      · exact Hooks.withinMemory_advance hgrows
    obtain ⟨found, s₁, hrun, tape₁, htape, hstands⟩ :=
      (Scanner.advance_wp ht hbetween).elim hadvance
    obtain ⟨hleads, hmatch⟩ := (Scanner.advance_ends ht hs hbetween.covered_eq).ok hrun
    have hfound := htape.copied hcopied
    cases found with
    | none =>
      have hrest₁ : s₁.Rests t tape₁ := ⟨hstands.1, hstands.2⟩
      obtain ⟨dropped₁, hbetween₁⟩ := hrest₁.between
      have hall : w.take w.length = w := List.take_length
      refine ⟨s₁, journal, Hooks.handle_of_end hrun rfl events, ?_, ?_, ?_⟩
      · rw [hrest₁.output_eq, hfound.output_eq, hall]
      · rw [hbetween₁.line_eq, hfound.stands.line_eq, hall]
      · exact Nat.add_le_add_left hcopied.stands.le _
    | some rule =>
      obtain ⟨q, n, hle, hholds⟩ := hfound
      obtain ⟨⟨dropped₁, hat⟩, -⟩ := hstands
      obtain ⟨s₂, journal₂, tape₂, q₂, haction, hrest₂, hs₂, hlt, hcopied₂, hreports⟩ :=
        runAction_echoes hscript hat hleads.coherent (hmatch rfl) hholds rule journal
      have hnext : (hooks script).handle (events + 1) (s, journal) =
          (hooks script).handle events (s₂, journal₂) := by
        rw [Hooks.handle_of_match hrun, haction]
      rw [hnext] at hmemory ⊢
      obtain ⟨s', journal', hscan, houtput, hline, hcount⟩ :=
        ih hrest₂ hs₂ hcopied₂ (by omega) journal₂ hmemory
      exact ⟨s', journal', hscan, houtput, hline, by omega⟩

/-- A scan whose actions echo copies its input. Whatever the tables, whichever start conditions the
actions switch to and however they cut their matches, though not to nothing: the scan comes to the end
of the input, what it has written is the input, it counts all lines, and it has run no more actions than
the input has bytes. There must be memory for the input, or at least as much of it as the scan asks
for. -/
theorem Script.scan_echoes {o : ScannerOptions} {source : Source} {output : Sink}
    (hbuild : o.build t source output = .ok s) (hsteady : source.steady = true)
    (hlimit : output.limit = none)
    (hscript : ∀ rule sight memory, sight.text ≠ [] →
      (script rule sight memory).Echoes t sight.text.length)
    {events : Nat} (hevents : source.bytes.length < events) (memory : σ)
    (hmemory : o.bufferSettings.Suffices source.bytes.length ∨
      WithinMemory ((hooks script).scan events (s, { memory }))) :
    ∃ s' journal, (hooks script).scan events (s, { memory }) = .ok .exhausted (s', journal) ∧
      s'.output.written.toList = output.written.toList ++ source.bytes ∧
      s'.line = 1 + newlines source.bytes ∧ journal.reports ≤ source.bytes.length := by
  obtain ⟨ht, -, sc, -, hrest⟩ := ScannerOptions.build_rests hbuild hsteady hlimit
  obtain ⟨-, hs, -⟩ := ScannerOptions.build_coherent hbuild
  have hcopied : (Tape.start source.bytes sc output.written.toList).Copied source.bytes
      output.written.toList 0 := ⟨.start _ _ _, (List.append_nil _).symm⟩
  rw [Hooks.scan_eq_handle hrest.unterminate_eq] at hmemory ⊢
  obtain ⟨s', journal, hscan, houtput, hline, hcount⟩ := handle_echoes ht hscript hrest hs hcopied
    ((Nat.zero_add events).symm ▸ hevents) { memory } hmemory
  exact ⟨s', journal, hscan, houtput, hline, Nat.le_trans hcount (Nat.le_of_eq (Nat.zero_add _))⟩

/-- A script that keeps and echoes the first byte of each match. -/
def bytewise : Rule → Sight → Unit → Script Unit := fun _ _ memory =>
  .perform (.begin {}) trivial fun _ _ =>
    .perform (.less 1) trivial fun _ _ => .perform .echo trivial fun _ _ => .finish .resume memory

theorem Script.scan_echoes_oneByte : ∃ s s' journal,
    ({} : ScannerOptions).build Tables.oneByte (.ofBytes [97, 10, 98]) {} = .ok s ∧
    (hooks bytewise).scan 4 (s, { memory := () }) = .ok .exhausted (s', journal) ∧
    s'.output.written.toList = [97, 10, 98] ∧ s'.line = 2 ∧ journal.reports ≤ 3 := by
  have hbuilt : (match ({} : ScannerOptions).build Tables.oneByte (.ofBytes [97, 10, 98]) {} with
      | .ok _ => true
      | .error _ => false) = true := by decide +kernel
  have hechoes : ∀ rule sight memory, sight.text ≠ [] →
      (bytewise rule sight memory).Echoes Tables.oneByte sight.text.length := by
    intro rule sight memory hne
    refine .begin rfl fun _ => .less (Nat.le_refl 1) (List.length_pos_iff.2 hne) fun _ => ?_
    exact .echo fun _ => ⟨memory, rfl⟩
  split at hbuilt
  · rename_i s hbuild
    obtain ⟨s', journal, hscan, houtput, hline, hreports⟩ := scan_echoes hbuild rfl rfl hechoes
      (Nat.lt_succ_self 3) () (.inl ⟨rfl, by decide, by decide⟩)
    exact ⟨s, s', journal, hbuild, hscan, houtput, hline, hreports⟩
  · exact Bool.noConfusion hbuilt

end Actions

end Munch
