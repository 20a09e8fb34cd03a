-- SUMMARY: A match begins with the text of the one before if that was asked for, and is only what it has consumed otherwise.
import Munch.Proofs.Scanner.Frame
import Munch.Proofs.Scanner.Ledger

/-! # Kept texts

An action can ask the next match to keep the text in front of its own. That text lies before the cursor
and no attempt drops it, so it is there when the match is set up, through any number of matches. An
attempt that begins is the only one the action has asked: however it ends, nothing is to be kept behind
it. -/

namespace Munch

/-! ## What operations make of the request -/

/-- Whether a text is to be kept, after an operation with such an outcome. -/
def Edit.keeps (keepText : Bool) (result : Except ScanError (Option UInt8)) (edit : Edit) : Bool :=
  match edit, result with
  | .restart _, .ok _ => false
  | edit, _ => keepText || edit.asks

namespace Scanner

/-- Whether a text is to be kept has not changed. -/
def SameRequest (s s' : Scanner) : Prop :=
  s'.keepText = s.keepText

instance : Frames SameRequest where
  refl _ := rfl
  trans h h' := Eq.trans h' h
  handle _ _ _ _ := rfl
  shorten _ _ := rfl

end Scanner

open Scanner

/-- An operation asks for the text, a restart takes that back, and all others leave it as it is. -/
theorem Edit.perform_keepText (edit : Edit) (s : Scanner) :
    ends edit.perform (fun result s' => s'.keepText = edit.keeps s.keepText (.ok result))
      (fun e s' => s'.keepText = edit.keeps s.keepText (.error e)) s := by
  have hsame {α : Type} {m : ScannerM α} (hm : Across SameRequest m) :
      ends m (fun _ s' => s'.keepText = (s.keepText || false))
        (fun _ s' => s'.keepText = (s.keepText || false)) s := by
    rw [Bool.or_false]
    exact .of_across hm s
  have hinput {edit : Edit} (h : edit.KeepsInput) :
      ends edit.perform (fun _ s' => s'.keepText = (s.keepText || edit.asks))
        (fun _ s' => s'.keepText = (s.keepText || edit.asks)) s :=
    (h.perform_retouched s).mono (fun _ _ ⟨_, _, heq⟩ => heq ▸ rfl) fun _ _ ⟨_, _, heq⟩ => heq ▸ rfl
  cases edit with
  | input => exact hsame (input_frames SameRequest)
  | unput byte => exact hsame (.bind (unput_frames SameRequest byte) fun _ => .pure _)
  | unputAll bytes => exact hsame (.bind (unputAll_frames SameRequest bytes) fun _ => .pure _)
  | less n => exact hsame (.bind (less_frames SameRequest n) fun _ => .pure _)
  | more => exact hinput (by trivial)
  | echo => exact hinput (by trivial)
  | begin sc => exact hinput (by trivial)
  | beginNamed name => exact hinput (by trivial)
  | write bytes => exact hinput (by trivial)
  | restart source =>
    refine .bind (.bind ((flush_ends s).mono (fun _ s₁ h₁ => .bind (.modify (.modify (.pure rfl))))
      fun e s₁ h₁ => ?_))
    obtain ⟨⟨output, rfl⟩, -⟩ := h₁
    exact (Bool.or_false _).symm

/-! ## What notes say of it -/

namespace Event

/-- The operation asks the next match to keep the text. -/
def Asks : Event → Prop
  | .performed .more _ => True
  | _ => False

/-- Nothing is read on, and no attempt begins. -/
def Stays : Event → Prop
  | .performed .input _ => False
  | .performed (.restart _) _ => False
  | .performed _ _ => True
  | .altered => True
  | .left _ => True
  | .scanned (.ok _) => True
  | _ => False

/-- An attempt has ended in a match, or at the end of the input. -/
def Attempted : Event → Prop
  | .entered _ => True
  | .asked => True
  | _ => False

/-- Whether a text is to be kept behind an event. -/
def keeps (keepText : Bool) : Event → Bool
  | .performed edit result => edit.keeps keepText result
  | .entered _ => false
  | .asked => false
  | _ => keepText

variable {event : Event}

theorem Stays.not_scanFailed (h : event.Stays) : ¬ event.ScanFailed := by
  cases event with
  | scanned result => cases result <;> simp_all [Stays, ScanFailed]
  | _ => exact id

theorem keeps_of_not_asks (h : ¬ event.Asks) : event.keeps false = false := by
  cases event with
  | performed edit result =>
    cases edit <;> cases result <;> first | rfl | exact absurd trivial h
  | _ => rfl

theorem Stays.keeps_true (h : event.Stays) : event.keeps true = true := by
  cases event with
  | performed edit result => cases edit <;> first | rfl | exact h.elim
  | entered rule => exact h.elim
  | asked => exact h.elim
  | _ => rfl

theorem Asks.keeps_eq (h : event.Asks) (keepText : Bool) : event.keeps keepText = true := by
  cases event with
  | performed edit result =>
    cases edit <;> first | exact h.elim | exact Bool.or_true keepText
  | _ => exact h.elim

end Event

section Notes

variable {t : Tables} {settings : BufferSettings} {note before after : Note}

/-- Behind a note, a text is to be kept as the event says. -/
theorem Note.Follows.keepText (hfollows : note.Follows before) (ht : t.Sound)
    (h : before.scanner.Coherent t settings) (hscan : ¬ note.event.ScanFailed) :
    note.scanner.keepText = note.event.keeps before.scanner.keepText := by
  obtain ⟨event, running, s'⟩ := note
  have hattempt {s s₁ : Scanner} {step : Step} (hattempts : before.Attempts s)
      (hstep : Scanner.attempt s = .ok step s₁) : s₁.keepText = false := by
    obtain ⟨hs, hcovered, -⟩ := hattempts.moves ht h
    obtain ⟨bytes, hattempted⟩ := (attempt_consumes ht hs hcovered).ok hstep
    exact hattempted.keepText_eq
  cases event with
  | built => exact hfollows.elim
  | performed edit result =>
    cases result with
    | ok a => exact (edit.perform_keepText before.scanner).ok hfollows.2
    | error e => exact (edit.perform_keepText before.scanner).error hfollows.2
  | altered =>
    obtain ⟨-, output, rfl⟩ := hfollows
    rfl
  | entered rule =>
    obtain ⟨-, s, s₁, hattempts, hstep, rfl⟩ := hfollows
    show s₁.keepText = false
    exact hattempt hattempts hstep
  | left result => exact congrArg Scanner.keepText hfollows.2
  | asked =>
    obtain ⟨-, s, hattempts, hstep⟩ := hfollows
    exact hattempt hattempts hstep
  | answered result => exact congrArg Scanner.keepText hfollows.2
  | scanned result =>
    obtain ⟨-, rfl | ⟨e, s, rfl, -⟩⟩ := hfollows
    · exact unterminate_keepText _
    · exact absurd trivial hscan

/-- The text of a match goes up to the cursor as long as nothing is read on. -/
theorem Note.Follows.stop_eq (hfollows : note.Follows before)
    (h : before.scanner.Coherent t settings) (h' : note.scanner.Coherent t settings)
    (hstays : note.event.Stays) (hstop : before.scanner.window.stop = before.scanner.buffer.cursor) :
    note.scanner.window.stop = note.scanner.buffer.cursor := by
  obtain ⟨event, running, s'⟩ := note
  have hnothing : before.scanner.Behind [] := by
    rw [Behind, hstop]
    exact List.drop_eq_nil_of_le (Nat.le_refl _)
  have hbehind (hnil : s'.Behind []) : s'.window.stop = s'.buffer.cursor :=
    Nat.le_antisymm h'.stop_le (List.drop_eq_nil_iff.1 hnil)
  cases event with
  | performed edit result =>
    have hkeeps : edit.KeepsSource := by cases edit <;> trivial
    have hedit (a : Option UInt8) : edit.behind a [] = [] := by
      cases edit <;> first | rfl | exact hstays.elim
    cases result with
    | ok a => exact hbehind (hedit a ▸ (edit.perform_behind hkeeps h hnothing).ok hfollows.2)
    | error e => exact hbehind ((edit.perform_behind hkeeps h hnothing).error hfollows.2)
  | altered =>
    obtain ⟨-, output, rfl⟩ := hfollows
    exact hstop
  | left result =>
    obtain ⟨-, rfl⟩ := hfollows
    exact hstop
  | scanned result =>
    obtain ⟨-, rfl | ⟨e, s, rfl, -⟩⟩ := hfollows
    · have hsame := h.sameInput_unterminate
      exact hbehind (hnothing.congr hsame.passed_eq hsame.window_eq)
    · exact hstays.elim
  | built => exact hstays.elim
  | entered rule => exact hstays.elim
  | asked => exact hstays.elim
  | answered result => exact hstays.elim

/-! ## Between two attempts -/

variable {during earlier : List Note}

/-- If nothing asks for the text of a match then no text is to be kept at the next attempt. -/
theorem Linked.keepText_eq_false {began : Note}
    (hlinked : Linked (before :: (during ++ began :: earlier))) (ht : t.Sound)
    (hproper : AllProper t settings (before :: (during ++ began :: earlier)))
    (hbegan : began.scanner.keepText = false)
    (hasks : ∀ note ∈ before :: during, ¬ note.event.Asks ∧ ¬ note.event.ScanFailed) :
    before.scanner.keepText = false := by
  refine Linked.above (P := fun note _ => note.scanner.keepText = false)
    (Q := fun event => ¬ event.Asks ∧ ¬ event.ScanFailed)
    (fun hfollows h _ _ _ hquiet hkeep => ?_) (before :: during) hlinked hproper hbegan hasks rfl
  rw [hfollows.keepText ht h hquiet.2, hkeep]
  exact Event.keeps_of_not_asks hquiet.1

/-- If something asks for the text of a match, and nothing is read on, then the whole text is to be kept
at the next attempt. -/
theorem Linked.keepText_eq_true {began : Note}
    (hlinked : Linked (before :: (during ++ began :: earlier))) (ht : t.Sound)
    (hproper : AllProper t settings (before :: (during ++ began :: earlier)))
    (hstop : began.scanner.window.stop = began.scanner.buffer.cursor)
    (hstays : ∀ note ∈ before :: during, note.event.Stays)
    (hasks : ∃ note ∈ before :: during, note.event.Asks) :
    before.scanner.keepText = true ∧ before.scanner.window.stop = before.scanner.buffer.cursor := by
  constructor
  · -- The request stands from the note that made it on.
    obtain ⟨asked, hmem, hask⟩ := hasks
    obtain ⟨later, sooner, hsplit⟩ := List.append_of_mem hmem
    have hnotes : before :: (during ++ began :: earlier) =
        later ++ asked :: (sooner ++ began :: earlier) := by
      rw [← List.cons_append, hsplit, List.append_assoc, List.cons_append]
    rw [hnotes] at hlinked hproper
    have hasked : asked.scanner.keepText = true := by
      have hsuffix : asked :: (sooner ++ began :: earlier) <:+
          later ++ asked :: (sooner ++ began :: earlier) := List.suffix_append _ _
      have hlinked' := hlinked.of_suffix hsuffix
      have hbefore := (hproper.of_suffix hsuffix).tail
      obtain ⟨note, rest, hrest⟩ := List.exists_cons_of_ne_nil
        (List.append_ne_nil_of_right_ne_nil sooner (List.cons_ne_nil began earlier))
      rw [hrest] at hlinked' hbefore
      cases hlinked' with
      | next hfollows _ =>
        rw [hfollows.keepText ht (hbefore note rest List.suffix_rfl).coherent
          (hstays asked hmem).not_scanFailed]
        exact hask.keeps_eq _
    refine Linked.above (P := fun note _ => note.scanner.keepText = true) (Q := Event.Stays)
      (fun hfollows h _ _ _ hstays hkeep => ?_) later hlinked hproper hasked
      (fun note hlater => hstays note (hsplit ▸ List.mem_append_left _ hlater)) hnotes.symm
    rw [hfollows.keepText ht h hstays.not_scanFailed, hkeep]
    exact hstays.keeps_true
  · exact Linked.above (P := fun note _ => note.scanner.window.stop = note.scanner.buffer.cursor)
      (Q := Event.Stays) (fun hfollows h h' _ _ hstays hstop => hfollows.stop_eq h h' hstays hstop)
      (before :: during) hlinked hproper hstop hstays rfl

/-- An attempt that ends takes the request back. -/
theorem Linked.keepText_of_attempted (hlinked : Linked (note :: earlier)) (ht : t.Sound)
    (hproper : AllProper t settings (note :: earlier)) (hattempted : note.event.Attempted) :
    note.scanner.keepText = false := by
  cases hlinked with
  | built _ => exact hattempted.elim
  | @next _ before earlier hfollows _ =>
    have hscan : ¬ note.event.ScanFailed ∧ note.event.keeps before.scanner.keepText = false := by
      revert hattempted
      cases note.event <;> first | exact False.elim | exact fun _ => ⟨id, rfl⟩
    rw [hfollows.keepText ht (hproper.tail before earlier List.suffix_rfl).coherent hscan.1]
    exact hscan.2

/-- The first attempt behind a note. -/
def Note.retry (note : Note) : EStateM.Result ScanError Scanner Step :=
  attempt note.scanner.unterminate

end Notes

/-! ## Sessions -/

/-- Texts asked for are kept, over everything that a session does. `before` and `during` are the notes
between the end of an attempt and the next match. If the former was a match too, its action has asked for
the text and nothing was read on, and the first attempt behind it matches, then the text of the next match
is what the text was at last, followed by the bytes that it has itself consumed. The newlines of the kept
bytes are not counted again. If nothing has asked for the text, or a byte is skipped first, the text is
only what the match has itself consumed. Nothing here depends on what was kept or dropped before, so texts
grow through any number of matches. -/
theorem Session.more_concatenates {o : ScannerOptions} {t : Tables} {source : Source} {output : Sink}
    {s : Scanner} (hbuild : o.build t source output = .ok s) {σ α : Type} (session : Session σ α)
    (memory : σ) {after before began : Note} {during earlier : List Note} {rule : Rule}
    (hsuffix : after :: before :: (during ++ began :: earlier) <:+ session.notes memory s)
    (hafter : after.event = .entered rule) :
    after.scanner.window.length = after.scanner.text.length ∧
    (∀ rule' s', before.retry = .ok (.matched rule') s' → (∃ rule₀, began.event = .entered rule₀) →
      (∀ note ∈ before :: during, note.event.Stays) → (∃ note ∈ before :: during, note.event.Asks) →
        ∃ bytes, before.scanner.pending = bytes ++ after.scanner.pending ∧
          after.scanner.text = before.scanner.text ++ bytes ∧
          after.scanner.line = before.scanner.line + newlines bytes) ∧
    ((∃ s', before.retry = .ok .skipped s') ∨
        (began.event.Attempted ∧
          ∀ note ∈ before :: during, ¬ note.event.Asks ∧ ¬ note.event.ScanFailed) →
      ∃ start s' bytes, before.Attempts start ∧ Scanner.attempt start = .ok (.matched rule) s' ∧
        start.pending = bytes ++ after.scanner.pending ∧ after.scanner.text = bytes ∧
        after.scanner.line = start.line + newlines bytes) := by
  obtain ⟨ht, hproper, hlinked⟩ := session.recorded hbuild memory hsuffix
  have hcoherent := (hproper.tail before _ List.suffix_rfl).coherent
  have hcoherent' := (hproper after _ List.suffix_rfl).coherent
  cases hlinked with
  | next hfollows hlinked =>
    obtain ⟨start, _, bytes, harises⟩ := hfollows.arises hafter ht hcoherent
    have hattempts := harises.attempts
    obtain ⟨s', hstep⟩ := harises.matched
    have hbare := hcoherent.sameInput_unterminate
    have hbegan : began :: earlier <:+ before :: (during ++ began :: earlier) :=
      List.suffix_append (before :: during) _
    refine ⟨hcoherent'.length_text.symm, fun rule' s₁ hretry hentered hstays hasks => ?_, fun hown => ?_⟩
    · -- The first attempt matches, so nothing was skipped before it.
      obtain rfl : start = before.scanner.unterminate := by
        cases hattempts with
        | here => rfl
        | skip hskipped _ => cases hretry.symm.trans hskipped
      obtain ⟨rule₀, hentered⟩ := hentered
      have hstop := ((hproper.tail.of_suffix hbegan) began earlier List.suffix_rfl).entered rule₀ hentered
      obtain ⟨hkeep, hcursor⟩ := hlinked.keepText_eq_true ht hproper.tail hstop.1 hstays hasks
      refine ⟨bytes, hbare.pending_eq.symm.trans harises.pending_eq, ?_,
        harises.line_eq.trans (by rw [unterminate_line])⟩
      rw [harises.text_eq, keptPrefix, unterminate_keepText, hkeep, if_pos rfl, hbare.passed_eq,
        hbare.window_eq, text_of_stop hcursor]
    · have hkeep : start.keepText = false := by
        rcases harises.first with rfl | hkeep
        · rcases hown with ⟨s₁, hskipped⟩ | ⟨hattempted, hasks⟩
          · cases hskipped.symm.trans hstep
          · have hnone := (hlinked.of_suffix hbegan).keepText_of_attempted ht
              (hproper.tail.of_suffix hbegan) hattempted
            rw [unterminate_keepText]
            exact hlinked.keepText_eq_false ht hproper.tail hnone hasks
        · exact hkeep
      have htext := harises.text_eq
      rw [keptPrefix, hkeep] at htext
      exact ⟨start, s', bytes, hattempts, hstep, harises.pending_eq, htext, harises.line_eq⟩

/-- A scan of two matches whose actions ask for their text. -/
def Session.keepingTwo : Session Unit Unit :=
  .scan 2 (fun _ => .perform .more fun _ => .finish .resume) (.finish true) fun _ => .finish ()

/-- The second of two bytes is matched behind the first one. -/
theorem Session.more_concatenates_keepingTwo : ∃ s after before,
    ({} : ScannerOptions).build Tables.oneByte (.ofBytes [97, 98]) {} = .ok s ∧
    after ∈ keepingTwo.notes () s ∧ before ∈ keepingTwo.notes () s ∧
    before.scanner.text = [97] ∧ after.scanner.text = before.scanner.text ++ [98] := by
  -- The notes from the second match back to the first: that match, the end of the action, its request.
  have hrun : (match ({} : ScannerOptions).build Tables.oneByte (.ofBytes [97, 98]) {} with
      | .ok s => match (keepingTwo.notes () s).drop 3 with
        | after :: notes => match notes with
          | before :: notes => match before.retry with
            | .ok step _ => decide (step = .matched 1 ∧ after.event = .entered 1 ∧
                before.scanner.text = [97] ∧ before.scanner.pending = [98] ∧
                after.scanner.pending = [] ∧ before.event = .left (.ok .resume) ∧
                notes.map Note.event = [.performed .more (.ok none), .entered 1, .built])
            | .error _ _ => false
          | [] => false
        | [] => false
      | .error _ => false) = true := by decide +kernel
  split at hrun
  · rename_i s hbuild
    split at hrun
    · rename_i after notes hnotes
      split at hrun
      · rename_i before notes
        split at hrun
        · rename_i step s' hretry
          obtain ⟨rfl, hafter, htext, hpending, hrest, hbefore, hevents⟩ := of_decide_eq_true hrun
          obtain ⟨asked, notes, rfl, hasked, hevents⟩ := List.map_eq_cons_iff.1 hevents
          obtain ⟨began, earlier, rfl, hbegan, -⟩ := List.map_eq_cons_iff.1 hevents
          have hsuffix : after :: before :: ([asked] ++ began :: earlier) <:+ keepingTwo.notes () s :=
            hnotes ▸ List.drop_suffix 3 _
          obtain ⟨bytes, hbytes, hafter', -⟩ :=
            (more_concatenates hbuild keepingTwo () hsuffix hafter).2.1 1 s' hretry ⟨1, hbegan⟩
              (by simp [hbefore, hasked, Event.Stays]) ⟨asked, by simp, by simp [hasked, Event.Asks]⟩
          rw [hpending, hrest, List.append_nil] at hbytes
          exact ⟨s, after, before, hbuild, hsuffix.subset (by simp), hsuffix.subset (by simp), htext,
            hbytes ▸ hafter'⟩
        · exact Bool.noConfusion hrun
      · exact Bool.noConfusion hrun
    · exact Bool.noConfusion hrun
  · exact Bool.noConfusion hrun

end Munch
