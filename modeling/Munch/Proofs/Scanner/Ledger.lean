-- SUMMARY: A ledger of the bytes that a session consumes and gives back, and the line numbers that follow from it.
import Mathlib.Data.List.Infix
import Munch.Proofs.Scanner.Movement
import Munch.Proofs.Scanner.Trail

/-! # Ledgers

The scanner keeps only some of the bytes before its cursor. A ledger keeps all of them since the scanner
was built or went on with another source: it is posted from the notes of a session, and the scanner has
no part in it. What the scanner still holds before its cursor is the end of what stands in the ledger,
and the number of the line is what the ledger says. -/

namespace Munch

/-- What a session has made of the input. -/
structure Ledger where
  /-- The bytes consumed since the scanner was built or last restarted, but for those given back. -/
  behind : List UInt8 := []
  /-- The newlines consumed from earlier sources. -/
  earlier : Nat := 0
  /-- The newlines pushed back, ever. -/
  pushedBack : Nat := 0

namespace Ledger

/-- The newlines consumed from all sources, but for those given back. -/
def newlines (l : Ledger) : Nat :=
  l.earlier + Munch.newlines l.behind

/-- The ledger after a step. -/
def post (l : Ledger) : Movement → Ledger
  | .consumed bytes => { l with behind := l.behind ++ bytes }
  | .pushedBack bytes => { l with pushedBack := l.pushedBack + Munch.newlines bytes }
  | .givenBack bytes => { l with behind := l.behind.take (l.behind.length - bytes.length) }
  | .restarted => { l with behind := [], earlier := l.newlines }

end Ledger

/-- What a note says was done to the input since the note before. Operations say it themselves; between
two notes without one lie attempts, which take bytes from the front of the pending input. -/
def Note.movement (note before : Note) : Movement :=
  match note.event with
  | .performed edit result => edit.movement result before.scanner note.scanner
  | _ => .consumed (before.scanner.taken note.scanner)

/-- The ledger of some notes, the latest first. -/
def ledger : List Note → Ledger
  | note :: before :: earlier => (ledger (before :: earlier)).post (note.movement before)
  | _ => {}

/-! ## Movements and the ledger -/

namespace Movement

variable {s s' s'' : Scanner} {dropped dropped' : Nat} {bytes more : List UInt8}

theorem Moves.trans (h : (consumed bytes).Moves dropped s s')
    (h' : (consumed more).Moves dropped' s' s'') :
    (consumed (bytes ++ more)).Moves (dropped + dropped') s s'' := by
  obtain ⟨hpending, hpassed, hle⟩ := h
  obtain ⟨hpending', hpassed', hle'⟩ := h'
  have hinside : dropped ≤ (s.buffer.passed.toList ++ bytes).length := by omega
  refine ⟨by rw [hpending, hpending', List.append_assoc], ?_, ?_⟩
  · rw [hpassed', hpassed, ← List.drop_append_of_le_length hinside, List.drop_drop, List.append_assoc]
  · rw [hpassed] at hle'
    simp only [List.length_append, List.length_drop] at hle hle' ⊢
    omega

theorem Moves.nil_of_sameInput (h : s.SameInput s') : (consumed []).Moves 0 s s' :=
  .nil (congrArg Array.toList h.passed_eq) h.pending_eq

/-- An attempt drops bytes before it reads on. -/
theorem Moves.of_consumes (h : s.Consumes bytes s') : ∃ dropped, (consumed bytes).Moves dropped s s' := by
  obtain ⟨dropped, hle, hpassed⟩ := h.passed_eq
  have hlength : s.buffer.passed.toList.length = s.buffer.cursor := Array.length_toList
  refine ⟨dropped, h.pending_eq, ?_, ?_⟩
  · rw [hpassed, List.drop_append_of_le_length (by omega)]
  · rw [List.length_append]
    omega

variable {l : Ledger} {movement : Movement}

/-- What the scanner holds before its cursor stays the end of what stands in the ledger. -/
theorem Moves.suffix (h : movement.Moves dropped s s') (hs : s.buffer.passed.toList <:+ l.behind) :
    s'.buffer.passed.toList <:+ (l.post movement).behind := by
  cases movement with
  | consumed bytes =>
    obtain ⟨-, hpassed, -⟩ := h
    obtain ⟨front, hfront⟩ := hs
    rw [hpassed]
    exact (List.drop_suffix _ _).trans ⟨front, by rw [← List.append_assoc, hfront]; rfl⟩
  | pushedBack bytes => exact h.2 ▸ hs
  | givenBack bytes =>
    obtain ⟨front, hfront⟩ := hs
    rw [h.2, ← List.append_assoc] at hfront
    show s'.buffer.passed.toList <:+ l.behind.take (l.behind.length - bytes.length)
    rw [← hfront, List.length_append, Nat.add_sub_cancel, List.take_left]
    exact List.suffix_append _ _
  | restarted =>
    have hnil : s'.buffer.passed.toList = [] := h
    exact hnil ▸ List.nil_suffix

/-- The line is one more than the newlines consumed, but for those pushed back, as long as the latter
are covered by the former. -/
theorem Moves.line (h : movement.Moves dropped s s') (hs : s.buffer.passed.toList <:+ l.behind)
    (hline : s.line + l.pushedBack = 1 + l.newlines)
    (hcovered : (l.post movement).pushedBack ≤ (l.post movement).newlines) :
    movement.line s.line + (l.post movement).pushedBack = 1 + (l.post movement).newlines := by
  cases movement with
  | consumed bytes =>
    simp only [Movement.line, Ledger.post, Ledger.newlines, newlines_append] at hline ⊢
    omega
  | pushedBack bytes =>
    simp only [Movement.line, Ledger.post, Ledger.newlines] at hline hcovered ⊢
    omega
  | givenBack bytes =>
    obtain ⟨front, hfront⟩ := hs
    rw [h.2, ← List.append_assoc] at hfront
    have hcut : l.behind.take (l.behind.length - bytes.length) = front ++ s'.buffer.passed.toList := by
      rw [← hfront, List.length_append, Nat.add_sub_cancel, List.take_left]
    have hsum : newlines l.behind = newlines (front ++ s'.buffer.passed.toList) + newlines bytes := by
      rw [← hfront, newlines_append]
    simp only [Movement.line, Ledger.post, Ledger.newlines, hcut] at hline hcovered ⊢
    omega
  | restarted => exact hline

end Movement

/-! ## Notes -/

section Notes

variable {t : Tables} {settings : BufferSettings} {s s' : Scanner} {note before : Note}

/-- The bytes that are skipped are consumed and their newlines counted. Whatever text was to be kept is
not kept any more, unless no byte was skipped. -/
theorem Scanner.Skips.moves (hskips : s.Skips s') (ht : t.Sound) (h : s.Coherent t settings)
    (hcovered : s.covered = none) :
    s'.Coherent t settings ∧ s'.covered = none ∧ (s' = s ∨ s'.keepText = false) ∧
      ∃ bytes dropped, (Movement.consumed bytes).Moves dropped s s' ∧
        s'.line = s.line + newlines bytes := by
  induction hskips with
  | here => exact ⟨h, hcovered, .inl rfl, [], 0, .nil rfl rfl, rfl⟩
  | @skip s s₁ s' hattempt _ ih =>
    have hleads := ((attempt_ends ht h hcovered).ok hattempt).1
    obtain ⟨bytes, hattempted⟩ := (attempt_consumes ht h hcovered).ok hattempt
    obtain ⟨dropped, hmoves⟩ := Movement.Moves.of_consumes hattempted.toConsumes
    obtain ⟨hcoherent', hcovered', hkeep, more, dropped', hmoves', hline'⟩ :=
      ih hleads.coherent (hleads.covered hcovered)
    refine ⟨hcoherent', hcovered', .inr ?_, _, _, hmoves.trans hmoves', ?_⟩
    · rcases hkeep with rfl | hkeep
      · exact hattempted.keepText_eq
      · exact hkeep
    · rw [hline', hattempted.line_eq, newlines_append, Nat.add_assoc]

/-- An attempt behind a note begins at a coherent scanner. -/
theorem Note.Attempts.moves (hattempts : before.Attempts s) (ht : t.Sound)
    (h : before.scanner.Coherent t settings) :
    s.Coherent t settings ∧ s.covered = none ∧
      (s = before.scanner.unterminate ∨ s.keepText = false) ∧
      ∃ bytes dropped, (Movement.consumed bytes).Moves dropped before.scanner s ∧
        s.line = before.scanner.line + newlines bytes := by
  obtain ⟨hcoherent, hcovered, hkeep, bytes, dropped, hmoves, hline⟩ :=
    Scanner.Skips.moves hattempts ht h.unterminate.coherent (Scanner.covered_unterminate _)
  refine ⟨hcoherent, hcovered, hkeep, _, _,
    (Movement.Moves.nil_of_sameInput h.sameInput_unterminate).trans hmoves, ?_⟩
  rw [hline, Scanner.unterminate_line]
  rfl

/-- So does one that does not skip, and it ends at a coherent scanner as well. -/
theorem Note.Attempts.step_moves (hattempts : before.Attempts s) (ht : t.Sound)
    (h : before.scanner.Coherent t settings) {step : Scanner.Step}
    (hstep : Scanner.attempt s = .ok step s') :
    s'.covered = none ∧ (∀ rule, step = .matched rule → s'.BehindMatch) ∧
      ∃ bytes dropped, (Movement.consumed bytes).Moves dropped before.scanner s' ∧
        s'.line = before.scanner.line + newlines bytes := by
  obtain ⟨hs, hcovered, -, bytes, dropped, hmoves, hline⟩ := hattempts.moves ht h
  obtain ⟨hleads, hmatch⟩ := (Scanner.attempt_ends ht hs hcovered).ok hstep
  obtain ⟨more, hattempted⟩ := (Scanner.attempt_consumes ht hs hcovered).ok hstep
  obtain ⟨dropped', hmoves'⟩ := Movement.Moves.of_consumes hattempted.toConsumes
  refine ⟨hleads.covered hcovered, hmatch, _, _, hmoves.trans hmoves', ?_⟩
  rw [hattempted.line_eq, hline, newlines_append, Nat.add_assoc]

/-- How the match of a note came about: some bytes were skipped behind the note before, the attempt from
there has matched, and the terminator stands behind the text. -/
structure Note.Arises (note before : Note) (rule : Rule) (start : Scanner)
    (skipped bytes : List UInt8) : Prop where
  attempts : before.Attempts start
  skipped : ∃ dropped, (Movement.consumed skipped).Moves dropped before.scanner start
  /-- Whatever text was to be kept is not kept any more, unless no byte was skipped. -/
  first : start = before.scanner.unterminate ∨ start.keepText = false
  matched : ∃ s, Scanner.attempt start = .ok (.matched rule) s
  passed_eq : ∃ dropped ≤ start.buffer.cursor - 1,
    note.scanner.buffer.passed.toList = start.buffer.passed.toList.drop dropped ++ bytes
  pending_eq : start.pending = bytes ++ note.scanner.pending
  line_eq : note.scanner.line = start.line + newlines bytes
  stop_eq : note.scanner.window.stop = note.scanner.buffer.cursor
  text_eq : note.scanner.text = start.keptPrefix ++ bytes

theorem Note.Follows.arises {rule : Rule} (hfollows : note.Follows before)
    (hentered : note.event = .entered rule) (ht : t.Sound) (h : before.scanner.Coherent t settings) :
    ∃ start skipped bytes, note.Arises before rule start skipped bytes := by
  obtain ⟨event, running, s'⟩ := note
  obtain rfl : event = .entered rule := hentered
  obtain ⟨-, start, s, hattempts, hstep, rfl⟩ := hfollows
  obtain ⟨hstart, hcovered, hfirst, skipped, dropped, hskipped, -⟩ := hattempts.moves ht h
  obtain ⟨hleads, hmatch⟩ := (Scanner.attempt_ends ht hstart hcovered).ok hstep
  obtain ⟨bytes, hattempted⟩ := (Scanner.attempt_consumes ht hstart hcovered).ok hstep
  have hstop := (hmatch rule rfl).1
  have hsame := Scanner.sameInput_terminate (hleads.covered hcovered) hstop
  have hstop' : s.terminate.window.stop = s.terminate.buffer.cursor := by
    rw [hsame.window_eq, Buffer.cursor, hsame.passed_eq]
    exact hstop
  refine ⟨start, skipped, bytes, hattempts, ⟨dropped, hskipped⟩, hfirst, ⟨s, hstep⟩, ?_, ?_,
    hattempted.line_eq, hstop', ?_⟩
  · rw [hsame.passed_eq]
    exact hattempted.passed_eq
  · rw [hsame.pending_eq]
    exact hattempted.pending_eq
  · show s.terminate.text = start.keptPrefix ++ bytes
    rw [Scanner.text_of_stop hstop', hsame.passed_eq, hsame.window_eq, ← Scanner.text_of_stop hstop]
    exact hattempted.text_eq rule rfl

/-- A scan has failed. -/
def Event.ScanFailed : Event → Prop
  | .scanned (.error _) => True
  | _ => False

instance : DecidablePred Event.ScanFailed
  | .scanned (.error _) => .isTrue trivial
  | .scanned (.ok _) => .isFalse id
  | .built => .isFalse id
  | .performed _ _ => .isFalse id
  | .altered => .isFalse id
  | .entered _ => .isFalse id
  | .left _ => .isFalse id
  | .asked => .isFalse id
  | .answered _ => .isFalse id

/-- Between two notes the input moves as the later one says, and so does the line, if no attempt fails. -/
theorem Note.Follows.moves (hfollows : note.Follows before) (ht : t.Sound)
    (h : before.scanner.Coherent t settings) :
    (∃ dropped, (note.movement before).Moves dropped before.scanner note.scanner) ∧
      (¬ note.event.ScanFailed →
        note.scanner.line = (note.movement before).line before.scanner.line) := by
  obtain ⟨event, running, s'⟩ := note
  -- Without an operation, the bytes between the two notes are those taken from the pending input.
  have hconsumed {bytes : List UInt8} {dropped : Nat}
      (hmoves : (Movement.consumed bytes).Moves dropped before.scanner s')
      (hline : s'.line = before.scanner.line + newlines bytes) :
      (∃ dropped, (Movement.consumed (before.scanner.taken s')).Moves dropped before.scanner s') ∧
        s'.line = before.scanner.line + newlines (before.scanner.taken s') := by
    rw [Scanner.taken_of_append hmoves.1]
    exact ⟨⟨_, hmoves⟩, hline⟩
  have hsame (hinput : before.scanner.SameInput s') (hline : s'.line = before.scanner.line) :=
    hconsumed (.nil_of_sameInput hinput) hline
  cases event with
  | built => exact hfollows.elim
  | performed edit result =>
    have hshifts := hfollows.2
    cases result with
    | ok a =>
      obtain ⟨hmoves, hline⟩ := (edit.perform_shifts h).ok hshifts
      exact ⟨⟨0, hmoves⟩, fun _ => hline⟩
    | error e =>
      obtain ⟨hmoves, hline⟩ := (edit.perform_shifts h).error hshifts
      exact ⟨⟨0, hmoves⟩, fun _ => hline⟩
  | altered =>
    obtain ⟨-, output, rfl⟩ := hfollows
    exact (hsame ⟨rfl, rfl, rfl⟩ rfl).imp_right fun hline _ => hline
  | entered rule =>
    obtain ⟨-, s, s₁, hattempts, hstep, rfl⟩ := hfollows
    obtain ⟨hcovered, hmatch, bytes, dropped, hmoves, hline⟩ := hattempts.step_moves ht h hstep
    have hterminate := Scanner.sameInput_terminate hcovered (hmatch rule rfl).1
    exact (hconsumed (hmoves.trans (.nil_of_sameInput hterminate))
      (by rw [List.append_nil]; exact hline)).imp_right fun hline _ => hline
  | left result =>
    obtain ⟨-, rfl⟩ := hfollows
    exact (hsame ⟨rfl, rfl, rfl⟩ rfl).imp_right fun hline _ => hline
  | asked =>
    obtain ⟨-, s, hattempts, hstep⟩ := hfollows
    obtain ⟨-, -, bytes, dropped, hmoves, hline⟩ := hattempts.step_moves ht h hstep
    exact (hconsumed hmoves hline).imp_right fun hline _ => hline
  | answered result =>
    obtain ⟨-, rfl⟩ := hfollows
    exact (hsame ⟨rfl, rfl, rfl⟩ rfl).imp_right fun hline _ => hline
  | scanned result =>
    obtain ⟨-, rfl | ⟨e, s, rfl, hattempts, hfails⟩⟩ := hfollows
    · exact (hsame h.sameInput_unterminate (Scanner.unterminate_line _)).imp_right fun hline _ => hline
    · obtain ⟨hs, hcovered, -, bytes, dropped, hmoves, -⟩ := hattempts.moves ht h
      obtain ⟨more, hconsumes⟩ := (Scanner.attempt_consumes ht hs hcovered).error hfails
      obtain ⟨dropped', hmoves'⟩ := Movement.Moves.of_consumes hconsumes
      refine ⟨?_, fun hnot => absurd trivial hnot⟩
      show ∃ dropped, (Movement.consumed (before.scanner.taken s')).Moves dropped before.scanner s'
      rw [Scanner.taken_of_append (hmoves.trans hmoves').1]
      exact ⟨_, hmoves.trans hmoves'⟩

end Notes

/-! ## Sessions -/

/-- At each note so far, the newlines pushed back were covered by those consumed. -/
def Solvent (notes : List Note) : Prop :=
  ∀ rest ∈ notes.tails, (ledger rest).pushedBack ≤ (ledger rest).newlines

instance : DecidablePred Solvent :=
  fun notes => inferInstanceAs (Decidable (∀ rest ∈ notes.tails, _))

theorem Solvent.head {note : Note} {notes : List Note} (h : Solvent (note :: notes)) :
    (ledger (note :: notes)).pushedBack ≤ (ledger (note :: notes)).newlines :=
  h _ ((List.mem_tails _ _).2 List.suffix_rfl)

theorem Solvent.tail {note : Note} {notes : List Note} (h : Solvent (note :: notes)) : Solvent notes :=
  fun rest hmem => h rest ((List.mem_tails _ _).2 (((List.mem_tails _ _).1 hmem).trans (List.suffix_cons _ _)))

/-- No newline that was pushed back is ever forgotten. -/
theorem Ledger.pushedBack_le_post (l : Ledger) (movement : Movement) :
    l.pushedBack ≤ (l.post movement).pushedBack := by
  cases movement with
  | pushedBack bytes => exact Nat.le_add_right _ _
  | _ => exact Nat.le_refl _

theorem pushedBack_le_of_suffix {rest notes : List Note} (h : rest <:+ notes) :
    (ledger rest).pushedBack ≤ (ledger notes).pushedBack := by
  induction notes with
  | nil => exact List.suffix_nil.1 h ▸ Nat.le_refl _
  | cons note notes ih =>
    rcases List.suffix_cons_iff.1 h with rfl | h
    · exact Nat.le_refl _
    · refine Nat.le_trans (ih h) ?_
      cases notes with
      | nil => exact Nat.zero_le _
      | cons before earlier => exact (ledger (before :: earlier)).pushedBack_le_post _

/-- Where no newline was pushed back, none had to be covered. -/
theorem Solvent.of_none {notes : List Note} (h : (ledger notes).pushedBack = 0) : Solvent notes := by
  intro rest hmem
  have hle := pushedBack_le_of_suffix ((List.mem_tails _ _).1 hmem)
  omega

section Sessions

variable {t : Tables} {settings : BufferSettings} {note : Note} {earlier : List Note}

theorem AllProper.tail {notes : List Note} (h : AllProper t settings (note :: notes)) :
    AllProper t settings notes :=
  fun note earlier hsuffix => h note earlier (hsuffix.trans (List.suffix_cons _ _))

theorem AllProper.of_suffix {rest notes : List Note} (h : AllProper t settings notes)
    (hsuffix : rest <:+ notes) : AllProper t settings rest :=
  fun note earlier hrest => h note earlier (hrest.trans hsuffix)

/-- What holds of a new scanner and is passed on from note to note holds at every note. What is said of a
note may depend on those before it. -/
theorem Linked.invariant {P : Note → List Note → Prop}
    (hbuilt : ∀ {s : Scanner}, s.Unused → P ⟨.built, 0, s⟩ [])
    (hnext : ∀ {note before : Note} {earlier : List Note}, note.Follows before →
      before.scanner.Coherent t settings → Linked (before :: earlier) →
      AllProper t settings (before :: earlier) → P before earlier → P note (before :: earlier))
    (hlinked : Linked (note :: earlier)) (hproper : AllProper t settings (note :: earlier)) :
    P note earlier := by
  induction earlier generalizing note with
  | nil =>
    cases hlinked with
    | built hunused => exact hbuilt hunused
  | cons before earlier ih =>
    cases hlinked with
    | next hfollows hlinked =>
      exact hnext hfollows (hproper.tail before earlier List.suffix_rfl).coherent hlinked hproper.tail
        (ih hlinked hproper.tail)

/-- What holds at a note, and is passed on by each of the notes that come later, holds at the latest. -/
theorem Note.above {P : Note → List Note → Prop} {began : Note} (during : List Note)
    (hbegan : P began earlier)
    (hstep : ∀ {note before : Note} {rest : List Note},
      note :: before :: rest <:+ during ++ began :: earlier → note ∈ during →
      P before rest → P note (before :: rest))
    {last : Note} {rest : List Note} (hlast : during ++ began :: earlier = last :: rest) : P last rest := by
  induction during generalizing last rest with
  | nil =>
    obtain ⟨rfl, rfl⟩ := List.cons.inj hlast
    exact hbegan
  | cons note during ih =>
    obtain ⟨before, sooner, hrest⟩ := List.exists_cons_of_ne_nil
      (List.append_ne_nil_of_right_ne_nil during (List.cons_ne_nil began earlier))
    rw [List.cons_append] at hstep hlast
    obtain ⟨rfl, rfl⟩ := List.cons.inj hlast
    have hbefore : P before sooner := ih
      (fun hsuffix hmem => hstep (hsuffix.trans (List.suffix_cons _ _)) (List.mem_cons_of_mem _ hmem)) hrest
    rw [hrest] at hstep ⊢
    exact hstep List.suffix_rfl List.mem_cons_self hbefore

/-- The same for what is passed on by the events of the later notes. -/
theorem Linked.above {P : Note → List Note → Prop} {Q : Event → Prop}
    (hstep : ∀ {note before : Note} {rest : List Note}, note.Follows before →
      before.scanner.Coherent t settings → note.scanner.Coherent t settings → Linked (before :: rest) →
      AllProper t settings (before :: rest) → Q note.event → P before rest → P note (before :: rest))
    {began : Note} (during : List Note) (hlinked : Linked (during ++ began :: earlier))
    (hproper : AllProper t settings (during ++ began :: earlier)) (hbegan : P began earlier)
    (hall : ∀ note ∈ during, Q note.event) {last : Note} {rest : List Note}
    (hlast : during ++ began :: earlier = last :: rest) : P last rest := by
  refine Note.above during hbegan (fun hsuffix hmem hbefore => ?_) hlast
  have hproper' := hproper.of_suffix hsuffix
  cases hlinked.of_suffix hsuffix with
  | next hfollows hlinked' =>
    exact hstep hfollows (hproper'.tail _ _ List.suffix_rfl).coherent
      (hproper' _ _ List.suffix_rfl).coherent hlinked' hproper'.tail (hall _ hmem) hbefore

/-- At every note the scanner holds the end of what stands in the ledger. -/
theorem Linked.passed_suffix (hlinked : Linked (note :: earlier)) (ht : t.Sound)
    (hproper : AllProper t settings (note :: earlier)) :
    note.scanner.buffer.passed.toList <:+ (ledger (note :: earlier)).behind := by
  refine Linked.invariant
    (P := fun note earlier => note.scanner.buffer.passed.toList <:+ (ledger (note :: earlier)).behind)
    (fun hunused => ?_) (fun hfollows h _ _ hsuffix => ?_) hlinked hproper
  · exact hunused.passed_eq ▸ List.nil_suffix
  · obtain ⟨⟨dropped, hmoves⟩, -⟩ := hfollows.moves ht h
    exact hmoves.suffix hsuffix

/-- Step by step, the number of the line is what the ledger says. -/
theorem Linked.line_eq (hlinked : Linked (note :: earlier)) (ht : t.Sound)
    (hproper : AllProper t settings (note :: earlier))
    (hscans : ∀ note' ∈ note :: earlier, ¬ note'.event.ScanFailed)
    (hsolvent : Solvent (note :: earlier)) :
    note.scanner.line + (ledger (note :: earlier)).pushedBack =
      1 + (ledger (note :: earlier)).newlines := by
  induction earlier generalizing note with
  | nil =>
    cases hlinked with
    | built hunused => exact congrArg (· + 0) hunused.line_eq
  | cons before earlier ih =>
    cases hlinked with
    | next hfollows hlinked =>
      obtain ⟨⟨dropped, hmoves⟩, hline⟩ :=
        hfollows.moves ht (hproper.tail before earlier List.suffix_rfl).coherent
      have hbefore := ih hlinked hproper.tail (fun note' hmem => hscans note' (List.mem_cons_of_mem _ hmem))
        hsolvent.tail
      rw [hline (hscans note List.mem_cons_self)]
      exact hmoves.line (hlinked.passed_suffix ht hproper.tail) hbefore hsolvent.head

end Sessions

/-- What the notes of a session on a new scanner are like. -/
theorem Session.recorded {o : ScannerOptions} {t : Tables} {source : Source} {output : Sink}
    {s : Scanner} (hbuild : o.build t source output = .ok s) {σ α : Type} (session : Session σ α)
    (memory : σ) {note : Note} {earlier : List Note}
    (hsuffix : note :: earlier <:+ session.notes memory s) :
    t.Sound ∧ AllProper t o.bufferSettings (note :: earlier) ∧ Linked (note :: earlier) :=
  ⟨(ScannerOptions.build_coherent hbuild).1, (session.allProper hbuild memory).of_suffix hsuffix,
    (session.linked hbuild memory).of_suffix hsuffix⟩

/-- Line accounting, over everything that a session does and at every place that it comes to: operations
in any order, also some that fail, actions, hooks, nested scans and other sources, only no scan that
fails. As long as the newlines consumed have covered those pushed back, the number of the line is one
more than the former less the latter. What the ledger says was consumed ends with the bytes before the
cursor, as far as they are still held, and in an action with the text of its match. So without newlines
pushed back, the line is one more than the newlines up to the end of the match. -/
theorem Session.line_account {o : ScannerOptions} {t : Tables} {source : Source} {output : Sink}
    {s : Scanner} (hbuild : o.build t source output = .ok s) {σ α : Type} (session : Session σ α)
    (memory : σ) {note : Note} {earlier : List Note}
    (hsuffix : note :: earlier <:+ session.notes memory s)
    (hscans : ∀ note' ∈ note :: earlier, ¬ note'.event.ScanFailed) :
    (Solvent (note :: earlier) → note.scanner.line + (ledger (note :: earlier)).pushedBack =
      1 + (ledger (note :: earlier)).newlines) ∧
    ((ledger (note :: earlier)).pushedBack = 0 →
      note.scanner.line = 1 + (ledger (note :: earlier)).newlines) ∧
    note.scanner.buffer.passed.toList <:+ (ledger (note :: earlier)).behind ∧
    ∀ rule, note.event = .entered rule →
      note.scanner.text <:+ (ledger (note :: earlier)).behind := by
  obtain ⟨ht, hproper, hlinked⟩ := session.recorded hbuild memory hsuffix
  have hpassed := hlinked.passed_suffix ht hproper
  have hline := hlinked.line_eq ht hproper hscans
  refine ⟨hline, fun hnone => ?_, hpassed, fun rule hrule => ?_⟩
  · have hsum := hline (.of_none hnone)
    omega
  · have hstop := ((hproper note earlier List.suffix_rfl).entered rule hrule).1
    rw [Scanner.text_of_stop hstop]
    exact (List.drop_suffix _ _).trans hpassed

/-- A scan of two matches whose actions read on, cut that away again and push a newline back. -/
def Session.newlineBack : Session Unit Unit :=
  .scan 2 (fun _ => .perform .input fun _ => .perform (.less 1) fun _ => .perform (.unput 10) fun _ =>
    .finish .resume) (.finish true) fun _ => .finish ()

/-- Two newlines, both matched and both pushed back. -/
theorem Session.line_account_newlineBack : ∃ s note earlier,
    ({} : ScannerOptions).build Tables.oneByte (.ofBytes [10, 10]) {} = .ok s ∧
    newlineBack.notes () s = note :: earlier ∧ (ledger (note :: earlier)).newlines = 2 ∧
    (ledger (note :: earlier)).pushedBack = 2 ∧
    note.scanner.line + 2 = 1 + 2 := by
  have hrun : (match ({} : ScannerOptions).build Tables.oneByte (.ofBytes [10, 10]) {} with
      | .ok s => match newlineBack.notes () s with
        | note :: earlier => decide ((∀ note' ∈ note :: earlier, ¬ note'.event.ScanFailed) ∧
            Solvent (note :: earlier) ∧ (ledger (note :: earlier)).newlines = 2 ∧
            (ledger (note :: earlier)).pushedBack = 2)
        | [] => false
      | .error _ => false) = true := by decide +kernel
  split at hrun
  · rename_i s hbuild
    split at hrun
    · rename_i note earlier hnotes
      obtain ⟨hscans, hsolvent, hnewlines, hpushed⟩ := of_decide_eq_true hrun
      have hline := (line_account hbuild newlineBack () (hnotes ▸ List.suffix_rfl) hscans).1 hsolvent
      rw [hnewlines, hpushed] at hline
      exact ⟨s, note, earlier, hbuild, hnotes, hnewlines, hpushed, hline⟩
    · exact Bool.noConfusion hrun
  · exact Bool.noConfusion hrun

end Munch
