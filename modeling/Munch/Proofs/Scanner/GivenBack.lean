-- SUMMARY: Cutting a text gives the rest of it and the bytes read behind it back, and whatever the end of the input has left there.
import Munch.Proofs.Scanner.InputEnd

/-! # What is given back

Cutting the text of a match gives back all that lies between the cut and the cursor. Behind a match these
are the rest of the text and the bytes read since. But an action can also scan on to the end of the input.
The text is gone then, and bytes that were in front of the cursor are left behind no text: the next cut
gives them back, though they were matched before, or skipped. -/

namespace Munch

/-! ## Gaps -/

/-- The bytes between the text and the cursor. -/
structure Gap where
  /-- Those that the end of a scan has left there. -/
  left : List UInt8 := []
  /-- Those read since. -/
  read : List UInt8 := []
  deriving DecidableEq

/-- All of them, in order. -/
def Gap.bytes (g : Gap) : List UInt8 :=
  g.left ++ g.read

/-- What the scanner holds between the text and the cursor. -/
def Scanner.gap (s : Scanner) : List UInt8 :=
  s.buffer.passed.toList.drop s.window.stop

/-- The gap after an operation with a result. -/
def Gap.perform (g : Gap) (result : Option UInt8) : Edit → Gap
  | .input => { g with read := g.read ++ result.toList }
  | .less _ => {}
  | .restart _ => {}
  | _ => g

/-- The gap after a note. A match leaves none. Neither does the end of the input where the text outlasts
it. Otherwise the end of the input, and an attempt that fails, leave what they do. -/
def Gap.post (g : Gap) (note before : Note) : Gap :=
  match note.event with
  | .performed edit (.ok result) => g.perform result edit
  | .entered _ => {}
  | .asked => if note.Outlasts before then g else { left := note.scanner.gap }
  | .scanned (.error _) =>
    if note.scanner = before.scanner.unterminate then g else { left := note.scanner.gap }
  | _ => g

/-- The gap after some notes, the latest first. -/
def gap : List Note → Gap
  | note :: before :: earlier => (gap (before :: earlier)).post note before
  | _ => {}

theorem Gap.bytes_eq_nil_iff {g : Gap} : g.bytes = [] ↔ g = {} := by
  obtain ⟨left, read⟩ := g
  simp [bytes]

/-! ## Cuts -/

namespace Scanner

variable {t : Tables} {settings : BufferSettings} {s s' : Scanner}

theorem Coherent.gap_eq_nil_iff (h : s.Coherent t settings) :
    s.gap = [] ↔ s.window.stop = s.buffer.cursor := by
  rw [gap, List.drop_eq_nil_iff, Array.length_toList]
  exact ⟨Nat.le_antisymm h.stop_le, fun heq => Nat.le_of_eq heq.symm⟩

/-- The rule, the modes and the output are the same. -/
structure SameMode (s s' : Scanner) : Prop where
  rule_eq : s'.rule = s.rule
  startCondition_eq : s'.startCondition = s.startCondition
  keepText_eq : s'.keepText = s.keepText
  output_eq : s'.output = s.output

instance : Frames SameMode where
  refl _ := ⟨rfl, rfl, rfl, rfl⟩
  trans h h' := ⟨h'.rule_eq.trans h.rule_eq, h'.startCondition_eq.trans h.startCondition_eq,
    h'.keepText_eq.trans h.keepText_eq, h'.output_eq.trans h.output_eq⟩
  handle _ _ _ _ := ⟨rfl, rfl, rfl, rfl⟩
  shorten _ _ := ⟨rfl, rfl, rfl, rfl⟩

/-- A cut has kept the first `n` bytes of the text and given back the rest, and `behind`. -/
structure Cut (n : Nat) (behind : List UInt8) (s s' : Scanner) : Prop where
  text_eq : s'.text = s.text.take n
  pending_eq : s'.pending = s.text.drop n ++ behind ++ s.pending
  line_eq : s'.line = max (s.line - newlines (s.text.drop n ++ behind)) 1
  sameMode : s.SameMode s'

/-- A cut within the text succeeds. -/
theorem Coherent.exists_cut (h : s.Coherent t settings) {behind : List UInt8} (hbehind : s.Behind behind)
    {n : Nat} (hn : n ≤ s.window.length) : ∃ s', less n s = .ok () s' ∧ Cut n behind s s' := by
  obtain ⟨⟨⟩, s', hrun, hpassed, hwindow, hpending⟩ := (less_ends h hn).exists_ok
  obtain ⟨given, ⟨hgiven, -⟩, hline⟩ := (less_shifts h hn).ok hrun
  rw [h.drop_text hbehind (h.length_text.symm ▸ hn)] at hpending
  obtain rfl := List.append_cancel_right (hgiven.symm.trans hpending)
  refine ⟨s', hrun, ?_, hpending, hline, final_of_ok hrun ▸ less_frames SameMode n s⟩
  rw [((less_upholds h n).ok hrun).coherent.text_eq, h.text_eq, hwindow, hpassed, List.drop_take,
    Nat.add_sub_cancel_left, List.take_take, List.take_take, Nat.min_self, Nat.min_eq_left hn]

/-- Nothing is given back at the end of a text with nothing behind it. -/
theorem Cut.all (h : Cut s.window.length [] s s') (hs : s.Coherent t settings) :
    s'.text = s.text ∧ s'.pending = s.pending ∧ s'.line = s.line := by
  have htake : s.text.take s.window.length = s.text := by rw [← hs.length_text, List.take_length]
  have hdrop : s.text.drop s.window.length = [] := by rw [← hs.length_text, List.drop_length]
  refine ⟨h.text_eq.trans htake, ?_, ?_⟩
  · rw [h.pending_eq, hdrop]
    rfl
  · rw [h.line_eq, hdrop]
    exact Nat.max_eq_left hs.line_pos

/-- A restart leaves nothing before the cursor; if it fails it has only written. -/
theorem restart_behind {behind : List UInt8} (hbehind : s.Behind behind) (source : Source) :
    ends (restart source) (fun _ s' => s'.Behind []) (fun _ s' => s'.Behind behind) s := by
  refine .bind ((flush_ends s).mono (fun _ s₁ h₁ => ?_) fun e s₁ h₁ => ?_)
  · obtain ⟨output, rfl⟩ := h₁
    exact .bind (.modify (.modify List.drop_nil))
  · obtain ⟨⟨output, rfl⟩, -⟩ := h₁
    exact hbehind

end Scanner

open Scanner

/-! ## Steps -/

section Notes

variable {t : Tables} {settings : BufferSettings} {s s' : Scanner} {note before : Note}
  {earlier : List Note} {g : Gap}

/-- Operations change the bytes behind the text as they change the gap. -/
theorem Edit.perform_gap (h : s.Coherent t settings) (hg : s.Behind g.bytes) (edit : Edit) :
    ends edit.perform (fun result s' => s'.Behind (g.perform result edit).bytes)
      (fun _ s' => s'.Behind g.bytes) s := by
  have hkeeps (hkeeps : edit.KeepsSource)
      (heq : ∀ result, edit.behind result g.bytes = (g.perform result edit).bytes) :
      ends edit.perform (fun result s' => s'.Behind (g.perform result edit).bytes)
        (fun _ s' => s'.Behind g.bytes) s :=
    (edit.perform_behind hkeeps h hg).mono (fun result _ h' => heq result ▸ h') fun _ _ => id
  cases edit with
  | input => exact hkeeps trivial fun result => List.append_assoc g.left g.read result.toList
  | restart source =>
    exact .bind ((restart_behind hg source).mono (fun _ _ h' => .pure h') fun _ _ => id)
  | _ => exact hkeeps trivial fun _ => rfl

/-- What the scanner holds between the text and the cursor is the gap, from one note to the next. -/
theorem Note.Follows.behind (hfollows : note.Follows before) (ht : t.Sound)
    (h : before.scanner.Coherent t settings) (hapart : before.scanner.Apart)
    (hg : before.scanner.Behind g.bytes) : note.scanner.Behind (g.post note before).bytes := by
  obtain ⟨event, running, s'⟩ := note
  have hleft : s'.Behind ({ left := s'.gap } : Gap).bytes := (List.append_nil _).symm
  have hbare : before.scanner.unterminate.Behind g.bytes :=
    hg.congr h.sameInput_unterminate.passed_eq h.sameInput_unterminate.window_eq
  cases event with
  | built => exact hfollows.elim
  | performed edit result =>
    cases result with
    | ok a => exact (edit.perform_gap h hg).ok hfollows.2
    | error e => exact (edit.perform_gap h hg).error hfollows.2
  | altered =>
    obtain ⟨-, output, rfl⟩ := hfollows
    exact hg
  | entered rule =>
    obtain ⟨start, skipped, bytes, harises⟩ := hfollows.arises rfl ht h
    exact List.drop_eq_nil_of_le (Nat.le_of_eq harises.stop_eq.symm)
  | left result =>
    obtain ⟨-, rfl⟩ := hfollows
    exact hg
  | asked =>
    show s'.Behind (ite (Note.Outlasts _ before) g _).bytes
    split
    · rename_i houtlasts
      exact ((hfollows.ended rfl ht h hapart).1 houtlasts).2 _ hg
    · exact hleft
  | answered result =>
    obtain ⟨-, rfl⟩ := hfollows
    exact hg
  | scanned result =>
    cases result with
    | ok a =>
      obtain ⟨-, rfl | ⟨e, s, herror, -⟩⟩ := hfollows
      · exact hbare
      · cases herror
    | error e =>
      show s'.Behind (ite (s' = before.scanner.unterminate) g _).bytes
      split
      · rename_i heq
        exact heq ▸ hbare
      · exact hleft

/-- At every note the scanner holds the gap between the text and the cursor. -/
theorem Linked.behind (hlinked : Linked (note :: earlier)) (ht : t.Sound)
    (hproper : AllProper t settings (note :: earlier)) :
    note.scanner.Behind (gap (note :: earlier)).bytes := by
  refine Linked.invariant
    (P := fun note earlier => note.scanner.Behind (gap (note :: earlier)).bytes)
    (fun hunused => ?_) (fun hfollows h hlinked hproper hbehind => ?_) hlinked hproper
  · exact (congrArg (List.drop _) hunused.passed_eq).trans List.drop_nil
  · exact hfollows.behind ht h (hlinked.apart ht hproper) hbehind

/-- Only the end of a scan leaves bytes there. -/
theorem Gap.left_post (hleft : g.left = []) (hasked : note.event ≠ .asked)
    (hscan : ¬ note.event.ScanFailed) : (g.post note before).left = [] := by
  obtain ⟨event, running, s'⟩ := note
  cases event with
  | performed edit result =>
    cases result with
    | ok a => cases edit <;> first | exact hleft | rfl
    | error e => exact hleft
  | asked => exact absurd rfl hasked
  | scanned result =>
    cases result with
    | ok a => exact hleft
    | error e => exact absurd trivial hscan
  | entered rule => rfl
  | _ => exact hleft

theorem gap_of_entered {rule : Rule} (hentered : note.event = .entered rule) :
    gap (note :: earlier) = {} := by
  cases earlier with
  | nil => rfl
  | cons before earlier =>
    show (gap (before :: earlier)).post note before = {}
    rw [Gap.post, hentered]

/-- As long as no scan comes to its end or fails behind a match, all bytes there were read. -/
theorem gap_left_of_entered {began : Note} {rule : Rule} (hentered : began.event = .entered rule)
    {during : List Note} (hall : ∀ note ∈ during, note.event ≠ .asked ∧ ¬ note.event.ScanFailed) :
    (gap (during ++ began :: earlier)).left = [] := by
  obtain ⟨last, rest, hlast⟩ := List.exists_cons_of_ne_nil
    (List.append_ne_nil_of_right_ne_nil during (List.cons_ne_nil began earlier))
  rw [hlast]
  refine Note.above (P := fun note earlier => (gap (note :: earlier)).left = []) during
    (congrArg Gap.left (gap_of_entered hentered)) (fun _ hmem hbefore => ?_) hlast
  obtain ⟨hasked, hscan⟩ := hall _ hmem
  exact Gap.left_post hbefore hasked hscan

end Notes

/-! ## Sessions -/

/-- Cuts, over everything that a session does and at every place that it comes to. A cut within the text
succeeds. It gives back the rest of the text, then what is between the text and the cursor, and all of
that is the end of what was consumed. Behind a match, and as long as no scan inside the action comes to
the end of the input or fails, only bytes read since are there, so a cut behind the whole text of a match
just set up changes nothing. At the end of the input there are two cases. Where the text outlasts it,
nothing changes. Otherwise there is no text, but some bytes are left for the next cut to give back, unless
the text was empty already with nothing behind it and nothing was skipped. -/
theorem Session.less_gives_back {o : ScannerOptions} {t : Tables} {source : Source} {output : Sink}
    {s : Scanner} (hbuild : o.build t source output = .ok s) {σ α : Type} (session : Session σ α)
    (memory : σ) {note : Note} {earlier : List Note}
    (hsuffix : note :: earlier <:+ session.notes memory s) :
    (∀ n ≤ note.scanner.window.length, ∃ s', less n note.scanner = .ok () s' ∧
      Cut n (gap (note :: earlier)).bytes note.scanner s' ∧
      note.scanner.text.drop n ++ (gap (note :: earlier)).bytes <:+ (ledger (note :: earlier)).behind) ∧
    (∀ during began rest rule, note :: earlier = during ++ began :: rest →
      began.event = .entered rule →
      (∀ note' ∈ during, note'.event ≠ .asked ∧ ¬ note'.event.ScanFailed) →
        (gap (note :: earlier)).left = []) ∧
    (∀ rule, note.event = .entered rule → ∃ s', less note.scanner.window.length note.scanner = .ok () s' ∧
      s'.text = note.scanner.text ∧ s'.pending = note.scanner.pending ∧
      s'.line = note.scanner.line ∧ note.scanner.SameMode s') ∧
    (∀ before rest, earlier = before :: rest → note.event = .asked →
      (note.Outlasts before →
        note.scanner.text = before.scanner.text ∧ gap (note :: earlier) = gap earlier) ∧
      (¬ note.Outlasts before →
        note.scanner.text = [] ∧ (gap (note :: earlier)).read = [] ∧
        ((gap (note :: earlier)).left = [] ↔ before.scanner.pending = note.scanner.pending ∧
          before.scanner.text = [] ∧ gap earlier = {}))) := by
  obtain ⟨ht, hproper, hlinked⟩ := session.recorded hbuild memory hsuffix
  have h := (hproper note earlier List.suffix_rfl).coherent
  have hbehind := hlinked.behind ht hproper
  refine ⟨fun n hn => ?_, fun during began rest rule heq hentered hall => ?_, fun rule hentered => ?_,
    fun before rest heq hasked => ?_⟩
  · obtain ⟨s', hrun, hcut⟩ := h.exists_cut hbehind hn
    refine ⟨s', hrun, hcut, ?_⟩
    rw [← h.drop_text hbehind (h.length_text.symm ▸ hn)]
    exact (List.drop_suffix _ _).trans (hlinked.passed_suffix ht hproper)
  · exact heq ▸ gap_left_of_entered hentered hall
  · rw [gap_of_entered hentered] at hbehind
    obtain ⟨s', hrun, hcut⟩ := h.exists_cut hbehind (Nat.le_refl _)
    obtain ⟨htext, hpending, hline⟩ := hcut.all h
    exact ⟨s', hrun, htext, hpending, hline, hcut.sameMode⟩
  · subst heq
    cases hlinked with
    | next hfollows hlinked =>
    have hbefore := (hproper.tail before rest List.suffix_rfl).coherent
    obtain ⟨hstays, hdrops⟩ :=
      hfollows.ended hasked ht hbefore (hlinked.apart ht hproper.tail)
    have hpost : gap (note :: before :: rest) =
        if note.Outlasts before then gap (before :: rest) else { left := note.scanner.gap } := by
      show Gap.post _ note before = _
      rw [Gap.post, hasked]
    refine ⟨fun houtlasts => ⟨(hstays houtlasts).1, by rw [hpost, if_pos houtlasts]⟩, fun hnot => ?_⟩
    obtain ⟨hlength, hiff⟩ := hdrops hnot
    rw [hpost, if_neg hnot]
    refine ⟨List.length_eq_zero_iff.1 (h.length_text.trans hlength), rfl, ?_⟩
    have hbytes : before.scanner.gap = (gap (before :: rest)).bytes := hlinked.behind ht hproper.tail
    show note.scanner.gap = [] ↔ _
    rw [h.gap_eq_nil_iff, hiff, ← hbefore.gap_eq_nil_iff, hbytes, Gap.bytes_eq_nil_iff,
      ← hbefore.length_text, List.length_eq_zero_iff]

/-- A scan of one match, whose action scans on for another one and reads a byte behind it. -/
def Session.scanningInside : Session Unit Unit :=
  .scan 1 (fun _ => .scan 1 (fun _ => .finish .resume) (.finish true) fun _ =>
    .perform .input fun _ => .finish .resume) (.finish true) fun _ => .finish ()

/-- Behind a match of a scan inside an action, a cut gives back the text and the byte read behind it. -/
theorem Session.less_gives_back_oneByte : ∃ s note s',
    ({} : ScannerOptions).build Tables.oneByte (.ofBytes [97, 98, 99]) {} = .ok s ∧
    note ∈ scanningInside.notes () s ∧ note.running = 1 ∧ note.scanner.text = [98] ∧
    less 0 note.scanner = .ok () s' ∧ s'.text = [] ∧ s'.pending = [98, 99] := by
  -- The notes up to the byte that is read, without the two of the end of the action.
  have hrun : (match ({} : ScannerOptions).build Tables.oneByte (.ofBytes [97, 98, 99]) {} with
      | .ok s => match (scanningInside.notes () s).drop 2 with
        | note :: earlier => decide (note.event = .performed .input (.ok (some 99)) ∧
            note.running = 1 ∧ note.scanner.text = [98] ∧ note.scanner.pending = [] ∧
            gap (note :: earlier) = { read := [99] })
        | [] => false
      | .error _ => false) = true := by decide +kernel
  split at hrun
  · rename_i s hbuild
    split at hrun
    · rename_i note earlier hnotes
      obtain ⟨-, hrunning, htext, hpending, hgap⟩ := of_decide_eq_true hrun
      have hsuffix : note :: earlier <:+ scanningInside.notes () s := hnotes ▸ List.drop_suffix 2 _
      obtain ⟨s', hless, hcut, -⟩ :=
        (less_gives_back hbuild scanningInside () hsuffix).1 0 (Nat.zero_le _)
      have hpending' := hcut.pending_eq
      rw [htext, hpending, hgap] at hpending'
      exact ⟨s, note, s', hbuild, hsuffix.subset List.mem_cons_self, hrunning, htext, hless,
        hcut.text_eq, hpending'⟩
    · exact Bool.noConfusion hrun
  · exact Bool.noConfusion hrun

/-- A scan inside an action comes to the end of the input: there is no text and no byte was ever read by
an operation, but a cut gives back a byte that was matched. -/
theorem Session.less_exhausted_inside : ∃ s note earlier s',
    ({} : ScannerOptions).build Tables.anyRun (.ofBytes [97, 98]) {} = .ok s ∧
    note :: earlier <:+ scanningInside.notes () s ∧ note.running = 1 ∧
    (note :: earlier).map Note.event =
      [.scanned (.ok .exhausted), .answered (.ok true), .asked, .entered 1, .built] ∧
    note.scanner.text = [] ∧ note.scanner.pending = [] ∧
    less note.scanner.window.length note.scanner = .ok () s' ∧ s'.pending = [98] := by
  have hrun : (match ({} : ScannerOptions).build Tables.anyRun (.ofBytes [97, 98]) {} with
      | .ok s => match (scanningInside.notes () s).drop 3 with
        | note :: earlier => match less note.scanner.window.length note.scanner with
          | .ok _ s' => decide (note.running = 1 ∧ (note :: earlier).map Note.event =
                [.scanned (.ok .exhausted), .answered (.ok true), .asked, .entered 1, .built] ∧
              note.scanner.text = [] ∧ note.scanner.pending = [] ∧ s'.pending = [98])
          | .error _ _ => false
        | [] => false
      | .error _ => false) = true := by decide +kernel
  split at hrun
  · rename_i s hbuild
    split at hrun
    · rename_i note earlier hnotes
      split at hrun
      · rename_i _ s' hcut
        obtain ⟨hrunning, hevents, htext, hpending, hback⟩ := of_decide_eq_true hrun
        exact ⟨s, note, earlier, s', hbuild, hnotes ▸ List.drop_suffix 3 _, hrunning, hevents, htext,
          hpending, hcut, hback⟩
      · exact Bool.noConfusion hrun
    · exact Bool.noConfusion hrun
  · exact Bool.noConfusion hrun

end Munch
