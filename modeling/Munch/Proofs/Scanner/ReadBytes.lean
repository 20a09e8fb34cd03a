-- SUMMARY: A byte that an operation reads lies outside of later texts, unless a text is kept that begins before it.
import Munch.Proofs.Scanner.KeptText
import Munch.Proofs.Scanner.LineStart

/-! # Bytes read by operations

A byte that an operation reads has its place among the bytes consumed. The next match begins behind it, so
its own bytes are others. But the text of a match is all that lies between its beginning and the cursor:
a match that keeps the text of the one before takes in what was read behind that text as well. -/

namespace Munch

/-! ## Places -/

/-- The byte at a place of the ledger has stood there since some notes: it was not given back, and the
source was not left. -/
def Stands (place : Nat) (since notes : List Note) : Prop :=
  ∀ rest ∈ notes.tails, since.length ≤ rest.length → place < (ledger rest).behind.length

instance (place : Nat) (since notes : List Note) : Decidable (Stands place since notes) :=
  inferInstanceAs (Decidable (∀ rest ∈ notes.tails, since.length ≤ rest.length → _))

theorem Stands.tail {place : Nat} {since notes : List Note} {note : Note}
    (h : Stands place since (note :: notes)) : Stands place since notes :=
  fun rest hmem => h rest ((List.mem_tails _ _).2 (((List.mem_tails _ _).1 hmem).trans (List.suffix_cons _ _)))

theorem Stands.lt {place : Nat} {since notes : List Note} (h : Stands place since notes)
    (hsuffix : since <:+ notes) : place < (ledger notes).behind.length :=
  h notes ((List.mem_tails _ _).2 List.suffix_rfl) hsuffix.length_le

/-- The text of a note takes in the byte at a place of the ledger. -/
def Note.Covers (note : Note) (earlier : List Note) (place : Nat) : Prop :=
  (ledger (note :: earlier)).behind.length ≤ place + note.scanner.text.length

/-- The number of bytes consumed before the text. -/
def Note.textPlace (note : Note) (earlier : List Note) : Nat :=
  (ledger (note :: earlier)).behind.length - (note.scanner.buffer.cursor - note.scanner.window.start)

/-- The next match keeps the text: this was asked for, and no byte is skipped before it. -/
def Note.KeepsText (note : Note) : Prop :=
  note.scanner.keepText = true ∧ ∃ rule s', note.retry = .ok (.matched rule) s'

/-- No attempt begins, and the source is not left. -/
def Event.Within : Event → Prop
  | .performed (.restart _) _ => False
  | .performed _ _ => True
  | .altered => True
  | .left _ => True
  | .answered _ => True
  | .scanned (.ok _) => True
  | _ => False

/-- A byte that stands before a step and after it is the same. -/
theorem Ledger.getElem?_post {l : Ledger} {movement : Movement} {place : Nat}
    (hlt : place < l.behind.length) (hstands : place < (l.post movement).behind.length) :
    (l.post movement).behind[place]? = l.behind[place]? := by
  cases movement with
  | consumed bytes => exact List.getElem?_append_left hlt
  | pushedBack bytes => rfl
  | givenBack bytes =>
    have hkept : place < (l.behind.take (l.behind.length - bytes.length)).length := hstands
    rw [List.length_take] at hkept
    exact List.getElem?_take_of_lt (by omega)
  | restarted => exact absurd hstands (Nat.not_lt_zero place)

/-- As long as a byte stands it is the same. -/
theorem Stands.getElem? {place : Nat} {since notes : List Note} {byte : UInt8}
    (hbyte : (ledger since).behind[place]? = some byte) (hsuffix : since <:+ notes)
    (hstands : Stands place since notes) : (ledger notes).behind[place]? = some byte := by
  induction notes with
  | nil => exact List.suffix_nil.1 hsuffix ▸ hbyte
  | cons note notes ih =>
    rcases List.suffix_cons_iff.1 hsuffix with rfl | hrest
    · exact hbyte
    · have hbefore := ih hrest hstands.tail
      cases notes with
      | nil => cases hbefore
      | cons before earlier =>
        exact (Ledger.getElem?_post (hstands.tail.lt hrest) (hstands.lt hsuffix)).trans hbefore

section Notes

open Scanner

variable {t : Tables} {settings : BufferSettings} {s s' : Scanner} {note before read : Note}
  {during earlier : List Note} {l : Ledger}

/-! ## The beginning of the text -/

/-- A step that drops nothing moves the cursor as it moves the end of the ledger. -/
theorem Movement.Moves.cursor_eq {movement : Movement} (h : movement.Moves 0 s s')
    (hs : s.buffer.passed.toList <:+ l.behind) (hsource : movement ≠ .restarted) :
    (l.post movement).behind.length + s.buffer.cursor = l.behind.length + s'.buffer.cursor := by
  have hcursor (s : Scanner) : s.buffer.cursor = s.buffer.passed.toList.length := Array.length_toList.symm
  have hle := hs.length_le
  rw [hcursor s, hcursor s']
  cases movement with
  | consumed bytes =>
    show (l.behind ++ bytes).length + _ = _
    rw [h.2.1]
    simp only [List.length_append, List.drop_zero]
    omega
  | pushedBack bytes =>
    rw [h.2]
    rfl
  | givenBack bytes =>
    show (l.behind.take (l.behind.length - bytes.length)).length + _ = _
    have hlength := congrArg List.length h.2
    rw [List.length_append] at hlength
    rw [List.length_take]
    omega
  | restarted => exact absurd rfl hsource

/-- Within an action, and between attempts elsewhere, the place of the text is the same. -/
theorem Note.Follows.textPlace_eq (hfollows : note.Follows before) (h : before.scanner.Coherent t settings)
    (h' : note.scanner.Coherent t settings) (hwithin : note.event.Within)
    (hpassed : before.scanner.buffer.passed.toList <:+ (ledger (before :: earlier)).behind) :
    note.textPlace (before :: earlier) = before.textPlace earlier := by
  have hkey (hmoves : (note.movement before).Moves 0 before.scanner note.scanner)
      (hstart : note.scanner.window.start = before.scanner.window.start)
      (hsource : note.movement before ≠ .restarted) :
      note.textPlace (before :: earlier) = before.textPlace earlier := by
    have hcursor := hmoves.cursor_eq hpassed hsource
    have hle := hpassed.length_le
    have hstop := h.stop_le
    have hstop' := h'.stop_le
    rw [Array.length_toList] at hle
    unfold textPlace
    show ((ledger (before :: earlier)).post (note.movement before)).behind.length - _ = _
    simp only [Window.stop, Buffer.cursor] at *
    omega
  obtain ⟨event, running, s'⟩ := note
  have hsame (hinput : before.scanner.SameInput s')
      (hmovement : Note.movement ⟨event, running, s'⟩ before =
        .consumed (before.scanner.taken s')) :
      Note.textPlace ⟨event, running, s'⟩ (before :: earlier) = before.textPlace earlier := by
    rw [taken_of_pending_eq hinput.pending_eq.symm] at hmovement
    refine hkey ?_ (congrArg Window.start hinput.window_eq) ?_
    · rw [hmovement]
      exact .nil_of_sameInput hinput
    · rw [hmovement]
      intro heq
      cases heq
  cases event with
  | performed edit result =>
    have hsource : Note.movement ⟨.performed edit result, running, s'⟩ before ≠ .restarted := by
      cases edit <;> first | exact hwithin.elim | (cases result <;> intro heq <;> cases heq)
    have hedit : ∀ source, edit ≠ .restart source := by
      rintro source rfl
      exact hwithin
    cases result with
    | ok a =>
      exact hkey ((edit.perform_shifts h).ok hfollows.2).1 ((edit.perform_start h).ok hfollows.2 hedit)
        hsource
    | error e =>
      exact hkey ((edit.perform_shifts h).error hfollows.2).1 ((edit.perform_start h).error hfollows.2)
        hsource
  | altered =>
    obtain ⟨-, output, rfl⟩ := hfollows
    exact hsame ⟨rfl, rfl, rfl⟩ rfl
  | left result =>
    obtain ⟨-, rfl⟩ := hfollows
    exact hsame ⟨rfl, rfl, rfl⟩ rfl
  | answered result =>
    obtain ⟨-, rfl⟩ := hfollows
    exact hsame ⟨rfl, rfl, rfl⟩ rfl
  | scanned result =>
    obtain ⟨-, rfl | ⟨e, s, rfl, -⟩⟩ := hfollows
    · exact hsame h.sameInput_unterminate rfl
    · exact hwithin.elim
  | built => exact hwithin.elim
  | entered rule => exact hwithin.elim
  | asked => exact hwithin.elim

/-- A text that was there when a byte was read begins before it. -/
theorem Linked.textPlace_le (hlinked : Linked (during ++ read :: earlier)) (ht : t.Sound)
    (hproper : AllProper t settings (during ++ read :: earlier)) {byte : UInt8}
    (hread : read.event = .performed .input (.ok (some byte)))
    (hwithin : ∀ note ∈ during, note.event.Within) {last : Note} {rest : List Note}
    (hlast : during ++ read :: earlier = last :: rest) :
    last.textPlace rest ≤ (ledger earlier).behind.length := by
  refine Linked.above
    (P := fun note rest => note.textPlace rest ≤ (ledger earlier).behind.length) (Q := Event.Within)
    (fun hfollows h h' hlinked hproper hwithin hle => ?_) during hlinked hproper ?_ hwithin hlast
  · rw [hfollows.textPlace_eq h h' hwithin (hlinked.passed_suffix ht hproper)]
    exact hle
  · -- The byte itself was read behind the beginning of the text.
    have hproper' := hproper.of_suffix (List.suffix_append during (read :: earlier))
    cases hlinked.of_suffix (List.suffix_append during (read :: earlier)) with
    | built _ => cases hread
    | @next _ before rest hfollows hlinked' =>
      have hstep := hfollows.textPlace_eq (hproper'.tail before rest List.suffix_rfl).coherent
        (hproper' read _ List.suffix_rfl).coherent (by rw [hread]; trivial)
        (hlinked'.passed_suffix ht hproper'.tail)
      exact hstep ▸ Nat.sub_le _ _

/-! ## The text of a match -/

/-- A match takes in what was consumed before it if it keeps a text that begins there. -/
theorem Note.Follows.covers_iff {rule : Rule} (hfollows : note.Follows before)
    (hentered : note.event = .entered rule) (ht : t.Sound) (h : before.scanner.Coherent t settings)
    {place : Nat} (hplace : place < (ledger (before :: earlier)).behind.length) :
    note.Covers (before :: earlier) place ↔
      before.KeepsText ∧ before.textPlace earlier ≤ place := by
  obtain ⟨start, skipped, bytes, harises⟩ := hfollows.arises hentered ht h
  obtain ⟨_, hskipped, -⟩ := harises.skipped
  obtain ⟨s', hmatched⟩ := harises.matched
  have htaken : before.scanner.taken note.scanner = skipped ++ bytes :=
    taken_of_append (by rw [hskipped, harises.pending_eq, List.append_assoc])
  have hledger : (ledger (note :: before :: earlier)).behind =
      (ledger (before :: earlier)).behind ++ (skipped ++ bytes) := by
    show ((ledger (before :: earlier)).post (note.movement before)).behind = _
    rw [Note.movement, hentered, htaken]
    rfl
  have hcovers : note.Covers (before :: earlier) place ↔
      (ledger (before :: earlier)).behind.length + skipped.length ≤
        place + start.keptPrefix.length := by
    rw [Covers, hledger, harises.text_eq]
    simp only [List.length_append]
    omega
  rw [hcovers]
  by_cases hkeep : start.keepText = true
  · -- No byte was skipped, or the text would not be kept any more.
    obtain rfl : start = before.scanner.unterminate :=
      harises.first.resolve_right fun hnone => Bool.false_ne_true (hnone.symm.trans hkeep)
    have hnone : skipped = [] := by
      rw [h.sameInput_unterminate.pending_eq] at hskipped
      exact List.self_eq_append_left.1 hskipped
    have hkeeps : before.KeepsText := ⟨unterminate_keepText before.scanner ▸ hkeep, rule, s', hmatched⟩
    rw [keptPrefix, if_pos hkeep, h.sameInput_unterminate.passed_eq, h.sameInput_unterminate.window_eq,
      List.length_drop, Array.length_toList, hnone, iff_true_intro hkeeps, true_and, textPlace]
    exact Nat.sub_le_iff_le_add.symm
  · rw [keptPrefix, if_neg hkeep]
    have hforgets : ¬ before.KeepsText := by
      rintro ⟨hkept, rule', s₁, hretry⟩
      cases harises.attempts with
      | here => exact hkeep ((unterminate_keepText before.scanner).trans hkept)
      | skip hskip _ => cases hretry.symm.trans hskip
    refine iff_of_false (fun hle => ?_) fun hboth => hforgets hboth.1
    rw [List.length_nil] at hle
    omega

end Notes

/-! ## Sessions -/

/-- A byte that an operation has read, over everything that a session does, and at any later match up to
which it stands: no cut has given it back, and the source was not left. The byte stands among those
consumed, and the text of the match is the end of these. It takes the byte in if and only if it keeps a
text that begins before the byte. Where the byte was read in the same action, or since the same attempt,
that is so whenever a text is kept. Where nothing has asked for the text since the last attempt, it is
never so. -/
theorem Session.input_in_text {o : ScannerOptions} {t : Tables} {source : Source} {output : Sink}
    {s : Scanner} (hbuild : o.build t source output = .ok s) {σ α : Type} (session : Session σ α)
    (memory : σ) {after before read : Note} {rest earlier : List Note} {rule : Rule} {byte : UInt8}
    (hsuffix : after :: before :: rest <:+ session.notes memory s) (hafter : after.event = .entered rule)
    (hread : read.event = .performed .input (.ok (some byte))) (hsooner : read :: earlier <:+ before :: rest)
    (hstands : Stands (ledger earlier).behind.length (read :: earlier) (after :: before :: rest)) :
    (ledger (after :: before :: rest)).behind[(ledger earlier).behind.length]? = some byte ∧
    after.scanner.text <:+ (ledger (after :: before :: rest)).behind ∧
    (after.Covers (before :: rest) (ledger earlier).behind.length ↔
      before.KeepsText ∧ before.textPlace rest ≤ (ledger earlier).behind.length) ∧
    (∀ during, before :: rest = during ++ read :: earlier → (∀ note ∈ during, note.event.Within) →
      (after.Covers (before :: rest) (ledger earlier).behind.length ↔ before.KeepsText)) ∧
    (∀ during began sooner, rest = during ++ began :: sooner → began.event.Attempted →
      (∀ note ∈ before :: during, ¬ note.event.Asks ∧ ¬ note.event.ScanFailed) →
        ¬ after.Covers (before :: rest) (ledger earlier).behind.length) := by
  obtain ⟨ht, hproper, hlinked⟩ := session.recorded hbuild memory hsuffix
  have hpassed := hlinked.passed_suffix ht hproper
  have hstop := ((hproper after _ List.suffix_rfl).entered rule hafter).1
  cases hlinked with
  | next hfollows hlinked =>
    have hcovers := hfollows.covers_iff hafter ht (hproper.tail before rest List.suffix_rfl).coherent
      (hstands.tail.lt hsooner)
    refine ⟨hstands.getElem? ?_ (hsooner.trans (List.suffix_cons _ _)), ?_, hcovers,
      fun during heq hwithin => ?_, fun during began sooner heq hattempted hasks hcovered => ?_⟩
    · cases hlinked.of_suffix hsooner with
      | built _ => cases hread
      | @next _ note earlier _ _ =>
        show ((ledger (note :: earlier)).post (read.movement note)).behind[_]? = _
        rw [Note.movement, hread]
        exact List.getElem?_concat_length
    · rw [Scanner.text_of_stop hstop]
      exact (List.drop_suffix _ _).trans hpassed
    · rw [heq] at hlinked
      rw [hcovers]
      exact and_iff_left (hlinked.textPlace_le ht (heq ▸ hproper.tail) hread hwithin heq.symm)
    · subst heq
      have hnone := (hlinked.of_suffix (List.suffix_append (before :: during) _)).keepText_of_attempted ht
        (hproper.tail.of_suffix (List.suffix_append (before :: during) _)) hattempted
      have hforgets := hlinked.keepText_eq_false ht hproper.tail hnone hasks
      exact Bool.false_ne_true (hforgets.symm.trans (hcovers.1 hcovered).1.1)

/-- A scan of two matches whose actions read a byte behind the text. -/
def Session.readingOn : Session Unit Unit :=
  .scan 2 (fun _ => .perform .input fun _ => .finish .resume) (.finish true) fun _ => .finish ()

/-- The byte that the first action has read is not in the text of the second match. -/
theorem Session.input_in_text_readingOn : ∃ s after earlier,
    ({} : ScannerOptions).build Tables.oneByte (.ofBytes [97, 98, 99]) {} = .ok s ∧
    after :: earlier <:+ readingOn.notes () s ∧ after.scanner.text = [99] ∧
    (ledger (after :: earlier)).behind[1]? = some 98 ∧ ¬ after.Covers earlier 1 := by
  -- The notes from the second match back: that match, the end of the action, the byte that it has read.
  have hrun : (match ({} : ScannerOptions).build Tables.oneByte (.ofBytes [97, 98, 99]) {} with
      | .ok s => match (readingOn.notes () s).drop 3 with
        | after :: notes => match notes with
          | before :: notes => match notes with
            | read :: earlier => decide (after.event = .entered 1 ∧
                read.event = .performed .input (.ok (some 98)) ∧ before.scanner.keepText = false ∧
                Stands (ledger earlier).behind.length (read :: earlier)
                  (after :: before :: read :: earlier) ∧
                (ledger earlier).behind.length = 1 ∧ after.scanner.text = [99])
            | [] => false
          | [] => false
        | [] => false
      | .error _ => false) = true := by decide +kernel
  split at hrun
  · rename_i s hbuild
    split at hrun
    · rename_i after notes hnotes
      split at hrun
      · rename_i before notes
        split at hrun
        · rename_i read earlier
          obtain ⟨hafter, hread, hkeep, hstands, hplace, htext⟩ := of_decide_eq_true hrun
          have hsuffix : after :: before :: read :: earlier <:+ readingOn.notes () s :=
            hnotes ▸ List.drop_suffix 3 _
          obtain ⟨hbyte, -, hcovers, -⟩ := input_in_text hbuild readingOn () hsuffix hafter hread
            (List.suffix_cons _ _) hstands
          rw [hplace] at hbyte hcovers
          refine ⟨s, after, _, hbuild, hsuffix, htext, hbyte, fun hcovered => ?_⟩
          exact Bool.false_ne_true (hkeep.symm.trans (hcovers.1 hcovered).1.1)
        · exact Bool.noConfusion hrun
      · exact Bool.noConfusion hrun
    · exact Bool.noConfusion hrun
  · exact Bool.noConfusion hrun

/-- A scan of two matches whose actions read a byte behind the text, and then ask for the text. -/
def Session.readingAndKeeping : Session Unit Unit :=
  .scan 2 (fun _ => .perform .input fun _ => .perform .more fun _ => .finish .resume) (.finish true)
    fun _ => .finish ()

/-- The byte that the first action has read is in the text of the second match. -/
theorem Session.input_kept_in_text : ∃ s after earlier,
    ({} : ScannerOptions).build Tables.oneByte (.ofBytes [97, 98, 99]) {} = .ok s ∧
    after :: earlier <:+ readingAndKeeping.notes () s ∧
    (after :: earlier).map Note.event = [.entered 1, .left (.ok .resume), .performed .more (.ok none),
      .performed .input (.ok (some 98)), .entered 1, .built] ∧
    after.scanner.text = [97, 98, 99] := by
  have hrun : (match ({} : ScannerOptions).build Tables.oneByte (.ofBytes [97, 98, 99]) {} with
      | .ok s => match (readingAndKeeping.notes () s).drop 4 with
        | after :: earlier => decide (
            (after :: earlier).map Note.event = [.entered 1, .left (.ok .resume),
              .performed .more (.ok none), .performed .input (.ok (some 98)), .entered 1, .built] ∧
            after.scanner.text = [97, 98, 99])
        | [] => false
      | .error _ => false) = true := by decide +kernel
  split at hrun
  · rename_i s hbuild
    split at hrun
    · rename_i after earlier hnotes
      obtain ⟨hevents, htext⟩ := of_decide_eq_true hrun
      exact ⟨s, after, earlier, hbuild, hnotes ▸ List.drop_suffix 4 _, hevents, htext⟩
    · exact Bool.noConfusion hrun
  · exact Bool.noConfusion hrun

end Munch
