-- SUMMARY: Attempts know the beginning of a line, unless a text with kept bytes in front was cut to nothing.
import Munch.Proofs.Scanner.Ledger

/-! # The beginning of a line

An attempt tells the beginning of a line by the byte before the cursor, or by there being none. An
attempt never drops that byte. But behind a text that begins with bytes of earlier matches no byte is
held for certain: cutting it to nothing can leave the cursor with no byte before it in the middle of a
line. -/

namespace Munch

/-! ## Cuts that lose the byte before them -/

/-- What can be said of the byte before the text of a match. -/
structure Margin where
  /-- The text begins with bytes of an earlier match. -/
  carried : Bool := false
  /-- Such a text was cut to nothing, since the scanner was built or last restarted. -/
  lost : Bool := false

/-- The margin after a note. -/
def Margin.post (m : Margin) (note before : Note) : Margin :=
  match note.event with
  | .entered _ =>
    { m with carried := (before.scanner.taken note.scanner).length < note.scanner.text.length }
  | .performed (.less n) (.ok _) => { m with lost := m.lost || (m.carried && n == 0) }
  | .performed (.restart _) (.ok _) => {}
  | _ => m

/-- The margin after some notes, the latest first. -/
def margin : List Note → Margin
  | note :: before :: earlier => (margin (before :: earlier)).post note before
  | _ => {}

/-- The number of actions running at an event, if no scan runs inside an action and texts are cut in
actions only. Other operations may be anywhere. -/
def Event.depth? : Event → Option Nat
  | .entered _ => some 1
  | .left _ => some 1
  | .performed (.less _) _ => some 1
  | .asked => some 0
  | .answered _ => some 0
  | .scanned _ => some 0
  | _ => none

/-- No scan runs inside an action, and texts are cut in actions only. -/
def Note.Flat (note : Note) : Prop :=
  ∀ depth ∈ note.event.depth?, note.running = depth

instance : DecidablePred Note.Flat :=
  fun note => inferInstanceAs (Decidable (∀ depth ∈ note.event.depth?, note.running = depth))

/-! ## Steps -/

namespace Movement

variable {s s' : Scanner} {dropped : Nat} {movement : Movement} {l : Ledger}

/-- If a step leaves no byte before the cursor, and gives none back, then there was none. -/
theorem Moves.nil_of_passed_nil (h : movement.Moves dropped s s') (hnil : s'.buffer.passed.toList = [])
    (hgiven : ∀ bytes, movement ≠ givenBack bytes) {p : Prop}
    (hs : s.buffer.passed.toList = [] → l.behind = [] ∨ p) : (l.post movement).behind = [] ∨ p := by
  cases movement with
  | consumed bytes =>
    obtain ⟨-, hpassed, hle⟩ := h
    rw [hnil] at hpassed
    have hall := List.drop_eq_nil_iff.1 hpassed.symm
    obtain ⟨hnone, rfl⟩ := List.append_eq_nil_iff.1
      (List.length_eq_zero_iff.1 (show (s.buffer.passed.toList ++ bytes).length = 0 by omega))
    exact (hs hnone).imp_left fun hbehind => (List.append_nil _).trans hbehind
  | pushedBack bytes => exact hs (h.2 ▸ hnil)
  | givenBack bytes => exact absurd rfl (hgiven bytes)
  | restarted => exact .inl rfl

theorem Moves.nil_of_consumed {bytes : List UInt8} (h : (consumed bytes).Moves dropped s s')
    (hnil : s'.buffer.passed.toList = []) {p : Prop}
    (hs : s.buffer.passed.toList = [] → l.behind = [] ∨ p) : l.behind ++ bytes = [] ∨ p :=
  h.nil_of_passed_nil hnil (fun _ heq => by cases heq) hs

/-- An operation that does not drop bytes leaves all of them, or one before the text, at hand. -/
theorem Moves.at_hand (h : movement.Moves 0 s s')
    (hstart : movement ≠ restarted → s'.window.start = s.window.start)
    (hs : 0 < s.window.start ∨ s.buffer.passed.toList = l.behind) :
    0 < s'.window.start ∨ s'.buffer.passed.toList = (l.post movement).behind := by
  cases movement with
  | consumed bytes =>
    refine hs.imp (fun hpos => hstart (by simp) ▸ hpos) fun hpassed => ?_
    rw [h.2.1, hpassed]
    rfl
  | pushedBack bytes =>
    exact hs.imp (fun hpos => hstart (by simp) ▸ hpos) fun hpassed => h.2.trans hpassed
  | givenBack bytes =>
    refine hs.imp (fun hpos => hstart (by simp) ▸ hpos) fun hpassed => ?_
    show s'.buffer.passed.toList = l.behind.take (l.behind.length - bytes.length)
    rw [← hpassed, h.2, List.length_append, Nat.add_sub_cancel, List.take_left]
  | restarted => exact .inr h

end Movement

section Notes

open Scanner

variable {t : Tables} {settings : BufferSettings} {s s' : Scanner} {note before : Note}

/-- Only a restart moves the beginning of the text. -/
theorem Edit.perform_start (h : s.Coherent t settings) (edit : Edit) :
    ends edit.perform
      (fun _ s' => (∀ source, edit ≠ .restart source) → s'.window.start = s.window.start)
      (fun _ s' => s'.window.start = s.window.start) s := by
  have hwindow {edit : Edit} (hkeeps : edit.KeepsInput) :
      ends edit.perform
        (fun _ s' => (∀ source, edit ≠ .restart source) → s'.window.start = s.window.start)
        (fun _ s' => s'.window.start = s.window.start) s :=
    (hkeeps.perform_ends s).mono (fun _ _ h' _ => congrArg Window.start h'.window_eq)
      fun _ _ h' => congrArg Window.start h'.window_eq
  cases edit with
  | input =>
    exact (input_ends h).mono (fun _ _ h' _ => congrArg Window.start h'.1)
      fun _ _ h' => congrArg Window.start h'.1
  | unput byte =>
    exact .bind ((unput_ends h byte).mono (fun _ _ h' => .pure fun _ => congrArg Window.start h'.2.1)
      fun _ _ h' => congrArg Window.start h'.window_eq)
  | unputAll bytes =>
    exact .bind ((unputAll_ends h bytes).mono
      (fun _ _ h' => .pure fun _ => congrArg Window.start h'.window_eq)
      fun _ _ h' => congrArg Window.start h'.window_eq)
  | less n =>
    show ends (silently (Scanner.less n)) _ _ s
    by_cases hn : s.window.length < n
    · exact .bind (.of_error (less_eq_error hn) rfl)
    · exact .bind ((less_ends h (Nat.le_of_not_lt hn)).mono
        (fun _ s' h' => .pure fun _ => by rw [h'.2.1]) fun _ _ => False.elim)
  | more => exact hwindow (by trivial)
  | echo => exact hwindow (by trivial)
  | begin sc => exact hwindow (by trivial)
  | beginNamed name => exact hwindow (by trivial)
  | write bytes => exact hwindow (by trivial)
  | restart source =>
    refine .bind (.bind ((flush_ends s).mono
      (fun _ s₁ h₁ => .bind (.modify (.modify (.pure fun hnot => absurd rfl (hnot source)))))
      fun e s₁ h₁ => ?_))
    obtain ⟨⟨output, rfl⟩, -⟩ := h₁
    rfl

/-- A cut that leaves no byte before the cursor keeps nothing of a text at the very beginning. -/
theorem Edit.less_at_start (h : s.Coherent t settings) {n : Nat} {result : Option UInt8}
    (hrun : (Edit.less n).perform s = .ok result s') (hnil : s'.buffer.passed.toList = []) :
    n = 0 ∧ s.window.start = 0 := by
  by_cases hn : s.window.length < n
  · have herror : (Edit.less n).perform s = .error _ s := bind_eq_error_iff.2 (.inl (less_eq_error hn))
    cases herror.symm.trans hrun
  · have hless : ends (Edit.less n).perform (fun _ s' =>
        s'.buffer.passed.toList = s.buffer.passed.toList.take (s.window.start + n)) (fun _ _ => True) s :=
      .bind ((less_ends h (Nat.le_of_not_lt hn)).mono (fun _ _ h' => .pure h'.1) fun _ _ => False.elim)
    have hlength := congrArg List.length (hless.ok hrun)
    have hstop := h.stop_le
    simp only [hnil, List.length_nil, List.length_take, Array.length_toList, Window.stop,
      Buffer.cursor] at hlength hstop
    omega

/-! ## Notes -/

/-- What an attempt behind a note can rely on: no byte is before the cursor only at the very beginning,
or where such bytes were lost. In an action that has not lost them, and whose text begins with the
match, a byte before the text is at hand, or there is none. -/
structure Anchored (l : Ledger) (m : Margin) (note : Note) : Prop where
  held : note.scanner.buffer.passed.toList = [] → l.behind = [] ∨ m.lost = true
  within : note.level = 1 → m.carried = true ∨ m.lost = true ∨ 0 < note.scanner.window.start ∨
    note.scanner.buffer.passed.toList = l.behind

variable {l : Ledger} {m : Margin}

/-- The text of a match that does not begin with kept bytes has a byte before it, or none ever. -/
theorem Note.Arises.within {rule : Rule} {start : Scanner} {skipped bytes : List UInt8}
    (harises : note.Arises before rule start skipped bytes) (h : before.scanner.Coherent t settings)
    (hheld : before.scanner.buffer.passed.toList = [] → l.behind = [] ∨ m.lost = true)
    (hcarried : note.scanner.text.length ≤ (before.scanner.taken note.scanner).length) :
    m.lost = true ∨ 0 < note.scanner.window.start ∨
      note.scanner.buffer.passed.toList = l.behind ++ before.scanner.taken note.scanner := by
  obtain ⟨_, hskipped⟩ := harises.skipped
  obtain ⟨dropped, hdropped, hpassed⟩ := harises.passed_eq
  have hstop := harises.stop_eq
  have htext := harises.text_eq
  have htaken : before.scanner.taken note.scanner = skipped ++ bytes :=
    taken_of_append (by rw [hskipped.1, harises.pending_eq, List.append_assoc])
  rw [htext, htaken, List.length_append, List.length_append] at hcarried
  rw [htaken]
  -- A kept prefix would make the text longer than what was skipped and matched.
  have hprefix : start.keptPrefix = [] := by
    rcases harises.first with rfl | hkeep
    · have hpending := congrArg List.length hskipped.1
      rw [h.sameInput_unterminate.pending_eq, List.length_append] at hpending
      exact List.length_eq_zero_iff.1 (by omega)
    · rw [keptPrefix, hkeep]
      rfl
  rw [text_of_stop hstop, hprefix, List.nil_append] at htext
  have hlength := congrArg List.length htext
  have hsize := congrArg List.length hpassed
  simp only [List.length_drop, List.length_append, Array.length_toList, Window.stop,
    Buffer.cursor] at hlength hstop hsize hdropped
  by_cases hpos : 0 < note.scanner.window.start
  · exact .inr (.inl hpos)
  -- The text begins where the buffer does, so no byte was before the cursor when the attempt began.
  have hnone : start.buffer.passed.toList = [] :=
    List.length_eq_zero_iff.1 (by rw [Array.length_toList]; omega)
  refine (hskipped.nil_of_consumed hnone hheld).symm.imp_right fun hbehind => .inr ?_
  obtain ⟨hl, rfl⟩ := List.append_eq_nil_iff.1 hbehind
  rw [hpassed, hnone, hl, List.drop_nil]
  rfl

/-- One step keeps what the next attempt relies on. -/
theorem Note.Follows.anchored (hfollows : note.Follows before) (ht : t.Sound)
    (h : before.scanner.Coherent t settings) (hflat : note.Flat) (hanchored : Anchored l m before) :
    Anchored (l.post (note.movement before)) (m.post note before) note := by
  obtain ⟨⟨dropped, hmoves⟩, -⟩ := hfollows.moves ht h
  obtain ⟨event, running, s'⟩ := note
  have hheld (hgiven : ∀ bytes, Note.movement ⟨event, running, s'⟩ before ≠ .givenBack bytes)
      (hnil : s'.buffer.passed.toList = []) :
      (l.post (Note.movement ⟨event, running, s'⟩ before)).behind = [] ∨ m.lost = true :=
    hmoves.nil_of_passed_nil hnil hgiven hanchored.held
  cases event with
  | built => exact hfollows.elim
  | performed edit result =>
    obtain ⟨hlevel, hrun⟩ := hfollows
    have hshifts : (edit.movement result before.scanner s').Moves 0 before.scanner s' ∧
        ((∀ source, edit = .restart source → ∀ a, result ≠ .ok a) →
          s'.window.start = before.scanner.window.start) := by
      cases result with
      | ok a =>
        exact ⟨((edit.perform_shifts h).ok hrun).1, fun hnot => (edit.perform_start h).ok hrun
          fun source heq => hnot source heq a rfl⟩
      | error e =>
        exact ⟨((edit.perform_shifts h).error hrun).1, fun _ => (edit.perform_start h).error hrun⟩
    have hwithin (hrunning : running = 1) (hstart : s'.window.start = before.scanner.window.start) :
        m.carried = true ∨ m.lost = true ∨ 0 < s'.window.start ∨
          s'.buffer.passed.toList = (l.post (edit.movement result before.scanner s')).behind :=
      (hanchored.within (hlevel.symm.trans hrunning)).imp_right
        (Or.imp_right (hshifts.1.at_hand fun _ => hstart))
    cases edit with
    | less n =>
      cases result with
      | ok a =>
        refine ⟨fun hnil => ?_, fun hrunning => ?_⟩
        · obtain ⟨rfl, hzero⟩ := Edit.less_at_start h hrun hnil
          rcases hwithin (hflat 1 rfl) (hshifts.2 fun _ heq => nomatch heq) with hcarried | hlost | hpos | hpassed
          · exact .inr (by simp [Margin.post, hcarried])
          · exact .inr (by simp [Margin.post, hlost])
          · have hstart := hshifts.2 fun _ heq => nomatch heq
            omega
          · exact .inl (hpassed.symm.trans hnil)
        · exact (hwithin hrunning (hshifts.2 fun _ heq => nomatch heq)).imp_right
            (Or.imp_left fun hlost => by simp [Margin.post, hlost])
      | error e => exact ⟨hheld (fun _ heq => nomatch heq),
          fun hrunning => hwithin hrunning (hshifts.2 fun _ heq => nomatch heq)⟩
    | restart source =>
      cases result with
      | ok a => exact ⟨fun _ => .inl rfl, fun _ => .inr (.inr (.inr hshifts.1))⟩
      | error e => exact ⟨hheld (fun _ heq => nomatch heq),
          fun hrunning => hwithin hrunning (hshifts.2 fun _ _ _ heq => nomatch heq)⟩
    | _ =>
      cases result <;> exact ⟨hheld (fun _ heq => nomatch heq),
        fun hrunning => hwithin hrunning (hshifts.2 fun _ heq => nomatch heq)⟩
  | altered =>
    obtain ⟨hlevel, output, heq⟩ := hfollows
    have hsame : s' = { before.scanner with output } := heq
    have hpending : before.scanner.pending = s'.pending := by rw [hsame]; rfl
    have hwindow : s'.window = before.scanner.window := by rw [hsame]
    have hbuffer : s'.buffer = before.scanner.buffer := by rw [hsame]
    have hbehind : (l.post (Note.movement ⟨.altered, running, s'⟩ before)).behind = l.behind := by
      show l.behind ++ before.scanner.taken s' = l.behind
      rw [taken_of_pending_eq hpending, List.append_nil]
    refine ⟨hheld (fun _ heq => nomatch heq), fun hrunning => ?_⟩
    rw [hbehind, hwindow, hbuffer]
    exact hanchored.within (hlevel.symm.trans hrunning)
  | entered rule =>
    refine ⟨hheld (fun _ heq => nomatch heq), fun _ => ?_⟩
    by_cases hcarried : (before.scanner.taken s').length < s'.text.length
    · exact .inl (decide_eq_true hcarried)
    · obtain ⟨start, skipped, bytes, harises⟩ := hfollows.arises rfl ht h
      exact .inr (harises.within h hanchored.held (Nat.le_of_not_lt hcarried))
  | left result =>
    refine ⟨hheld (fun _ heq => nomatch heq), fun hlevel => ?_⟩
    obtain rfl : running = 1 := hflat 1 rfl
    cases hlevel
  | asked =>
    refine ⟨hheld (fun _ heq => nomatch heq), fun hlevel => ?_⟩
    cases hlevel.symm.trans (hflat 0 rfl)
  | answered result =>
    refine ⟨hheld (fun _ heq => nomatch heq), fun hlevel => ?_⟩
    cases hlevel.symm.trans (hflat 0 rfl)
  | scanned result =>
    refine ⟨hheld (fun _ heq => nomatch heq), fun hlevel => ?_⟩
    cases hlevel.symm.trans (hflat 0 rfl)

/-- Step by step, every attempt can rely on the byte before the cursor. -/
theorem Linked.anchored {earlier : List Note} (hlinked : Linked (note :: earlier)) (ht : t.Sound)
    (hproper : AllProper t settings (note :: earlier)) (hflat : ∀ note' ∈ note :: earlier, note'.Flat) :
    Anchored (ledger (note :: earlier)) (margin (note :: earlier)) note := by
  induction earlier generalizing note with
  | nil =>
    cases hlinked with
    | built hunused => exact ⟨fun _ => .inl rfl, fun _ => .inr (.inr (.inr hunused.passed_eq))⟩
  | cons before earlier ih =>
    cases hlinked with
    | next hfollows hlinked =>
      exact hfollows.anchored ht (hproper.tail before earlier List.suffix_rfl).coherent
        (hflat note List.mem_cons_self)
        (ih hlinked hproper.tail fun note' hmem => hflat note' (List.mem_cons_of_mem _ hmem))

end Notes

/-! ## Sessions -/

/-- A buffer that holds the last of some bytes before its cursor, if it holds any, is at the beginning of
a line where they end one, or where it holds none. -/
theorem Buffer.atLineStart_of_suffix {b : Buffer} {bytes : List UInt8} (h : b.passed.toList <:+ bytes) :
    b.atLineStart = true ↔ b.cursor = 0 ∨ bytes.getLast? = some 10 := by
  have hcursor : b.cursor = 0 ↔ b.passed.toList = [] := by
    rw [cursor, ← Array.length_toList, List.length_eq_zero_iff]
  rw [atLineStart, hcursor, ← Array.getLast?_toList]
  obtain ⟨front, rfl⟩ := h
  cases hlast : b.passed.toList.getLast? with
  | none =>
    have hnil := List.getLast?_eq_none_iff.1 hlast
    simp [hnil]
  | some byte =>
    have hne : b.passed.toList ≠ [] := fun hnil => by rw [hnil] at hlast; cases hlast
    rw [List.getLast?_append_of_ne_nil _ hne, hlast]
    simp [hne]

/-- The bytes consumed up to an attempt behind some notes, since the scanner was built or last restarted,
but for those given back. -/
def consumedBefore (note : Note) (earlier : List Note) (start : Scanner) : List UInt8 :=
  (ledger (note :: earlier)).behind ++ note.scanner.taken start

/-- The beginning of a line, at every attempt of scans whose actions do what they like, but for scans of
their own. Once there is room, the attempt takes its place for the beginning of a line if and only if
nothing was consumed yet or the last byte consumed was a newline. What the buffer has dropped, and how
it was filled, does not matter. There is one exception: after a text that begins with bytes of an
earlier match was cut to nothing, and before anything is consumed, the place counts as the beginning
of a line if the buffer has dropped all bytes before it. -/
theorem Session.atLineStart_iff {o : ScannerOptions} {t : Tables} {source : Source} {output : Sink}
    {s : Scanner} (hbuild : o.build t source output = .ok s) {σ α : Type} (session : Session σ α)
    (memory : σ) {note : Note} {earlier : List Note}
    (hsuffix : note :: earlier <:+ session.notes memory s)
    (hflat : ∀ note' ∈ note :: earlier, note'.Flat) {start prepared : Scanner}
    (hattempts : note.Attempts start) (hprepare : Scanner.prepare start = .ok () prepared) :
    prepared.buffer.atLineStart = true ↔
      consumedBefore note earlier start = [] ∨ (consumedBefore note earlier start).getLast? = some 10 ∨
        ((margin (note :: earlier)).lost = true ∧ prepared.buffer.cursor = 0) := by
  obtain ⟨ht, hproper, hlinked⟩ := session.recorded hbuild memory hsuffix
  have hcoherent := (hproper note earlier List.suffix_rfl).coherent
  obtain ⟨hstart, hcovered, -, skipped, _, hmoves, -⟩ := hattempts.moves ht hcoherent
  obtain ⟨dropped, htrims⟩ := start.prepare_trims.ok hprepare
  have hconsumed : consumedBefore note earlier start =
      ((ledger (note :: earlier)).post (.consumed skipped)).behind := by
    rw [consumedBefore, Scanner.taken_of_append hmoves.1]
    rfl
  have hpassed : prepared.buffer.passed.toList <:+ consumedBefore note earlier start := by
    rw [htrims.passed_eq, hconsumed]
    exact (List.drop_suffix _ _).trans (hmoves.suffix (hlinked.passed_suffix ht hproper))
  have hfirst (hzero : prepared.buffer.cursor = 0) :
      consumedBefore note earlier start = [] ∨ (margin (note :: earlier)).lost = true := by
    -- Making room keeps the byte before the cursor, so there was none.
    have hnone : start.buffer.passed.toList = [] := by
      have hlength := congrArg List.length htrims.passed_eq
      have hle := htrims.dropped_le
      simp only [List.length_drop, Array.length_toList, Buffer.cursor] at hlength hle hzero
      refine List.length_eq_zero_iff.1 ?_
      rw [Array.length_toList]
      omega
    rw [hconsumed]
    exact hmoves.nil_of_consumed hnone (hlinked.anchored ht hproper hflat).held
  rw [Buffer.atLineStart_of_suffix hpassed]
  constructor
  · rintro (hzero | hnewline)
    · exact (hfirst hzero).imp_right fun hlost => .inr ⟨hlost, hzero⟩
    · exact .inr (.inl hnewline)
  · rintro (hnil | hnewline | ⟨-, hzero⟩)
    · rw [hnil] at hpassed
      refine .inl ?_
      rw [Buffer.cursor, ← Array.length_toList, List.suffix_nil.1 hpassed]
      rfl
    · exact .inr hnewline
    · exact .inl hzero

/-- Behind a first byte that is no newline, the second attempt does not take its place for the beginning
of a line. -/
theorem Session.atLineStart_iff_oneMatch : ∃ s note earlier start prepared,
    ({} : ScannerOptions).build Tables.oneByte (.ofBytes [120, 97]) {} = .ok s ∧
    note :: earlier <:+ oneMatch.notes () s ∧ note.Attempts start ∧
    Scanner.prepare start = .ok () prepared ∧ consumedBefore note earlier start = [120] ∧
    ¬ prepared.buffer.atLineStart = true := by
  have hrun : (match ({} : ScannerOptions).build Tables.oneByte (.ofBytes [120, 97]) {} with
      | .ok s => match oneMatch.notes () s with
        | note :: earlier => match Scanner.prepare note.scanner.unterminate with
          | .ok _ prepared => decide ((∀ note' ∈ note :: earlier, note'.Flat) ∧
              consumedBefore note earlier note.scanner.unterminate = [120] ∧
              (margin (note :: earlier)).lost = false)
          | .error _ _ => false
        | [] => false
      | .error _ => false) = true := by decide +kernel
  split at hrun
  · rename_i s hbuild
    split at hrun
    · rename_i note earlier hnotes
      split at hrun
      · rename_i prepared hprepare
        obtain ⟨hflat, hconsumed, hlost⟩ := of_decide_eq_true hrun
        have hsuffix : note :: earlier <:+ oneMatch.notes () s := hnotes ▸ List.suffix_rfl
        have hiff := atLineStart_iff hbuild oneMatch () hsuffix hflat .here hprepare
        rw [hconsumed, hlost] at hiff
        refine ⟨s, note, earlier, _, prepared, hbuild, hsuffix, .here, hprepare, hconsumed, fun hstart => ?_⟩
        rcases hiff.1 hstart with hnil | hnewline | ⟨hfalse, -⟩
        · cases hnil
        · exact absurd hnewline (by decide)
        · cases hfalse
      · exact Bool.noConfusion hrun
    · exact Bool.noConfusion hrun
  · exact Bool.noConfusion hrun

/-- A scan of four matches: an action asks for the text `a`, and one cuts the text `ab` to nothing. -/
def Session.cutBack : Session Unit Unit :=
  .scan 4 (fun _ => .look fun view _ =>
    if view.text = [97] then .perform .more fun _ => .finish .resume
    else if view.text = [97, 98] then .perform (.less 0) fun _ => .finish .resume
    else .finish .resume) (.finish true) fun _ => .finish ()

/-- Over `xab` the place behind `x` counts as the beginning of a line at the fourth attempt: the text `ab`
was cut to nothing, and the buffer has dropped the byte before it. -/
theorem Session.cutBack_atLineStart : ∃ s note earlier start prepared,
    ({ blockSize := 1 } : ScannerOptions).build Tables.oneByte (.ofBytes [120, 97, 98]) {} = .ok s ∧
    note :: earlier <:+ cutBack.notes () s ∧ (∀ note' ∈ note :: earlier, note'.Flat) ∧
    note.Attempts start ∧ Scanner.prepare start = .ok () prepared ∧
    consumedBefore note earlier start = [120] ∧
    ¬ (prepared.buffer.atLineStart = true ↔ consumedBefore note earlier start = [] ∨
      (consumedBefore note earlier start).getLast? = some 10) := by
  have hrun : (match ({ blockSize := 1 } : ScannerOptions).build Tables.oneByte
        (.ofBytes [120, 97, 98]) {} with
      | .ok s => match (cutBack.notes () s).drop 4 with
        | note :: earlier => match Scanner.prepare note.scanner.unterminate with
          | .ok _ prepared => decide ((∀ note' ∈ note :: earlier, note'.Flat) ∧
              consumedBefore note earlier note.scanner.unterminate = [120] ∧
              prepared.buffer.atLineStart = true)
          | .error _ _ => false
        | [] => false
      | .error _ => false) = true := by decide +kernel
  split at hrun
  · rename_i s hbuild
    split at hrun
    · rename_i note earlier hnotes
      split at hrun
      · rename_i prepared hprepare
        obtain ⟨hflat, hconsumed, hstart⟩ := of_decide_eq_true hrun
        refine ⟨s, note, earlier, _, prepared, hbuild, hnotes ▸ List.drop_suffix 4 _, hflat, .here,
          hprepare, hconsumed, ?_⟩
        rw [hconsumed, hstart]
        decide
      · exact Bool.noConfusion hrun
    · exact Bool.noConfusion hrun
  · exact Bool.noConfusion hrun

end Munch
