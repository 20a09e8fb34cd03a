-- SUMMARY: What is carried over in a buffer is carried over by attempts, advances and operations.
import Munch.Proofs.Buffer.Carried
import Munch.Proofs.Scanner.Coherent

/-! # Scanners that carry over

Each step of a scanner is one on its buffer, or leaves the buffer alone. So what reads and moves carry
over in a buffer holds across attempts and operations. -/

namespace Munch

open Buffer

/-! ## Attempts -/

namespace Tables

variable (R : Buffer → Buffer → Prop) [Carried R] (t : Tables)

theorem liftFault_carried {α : Type} (r : Except TableFault α) :
    Across R (liftFault r : BufferM α) := by
  intro b
  cases r <;> exact History.refl b

theorem bestSplit_carried (entry : State) (rule : Rule) (trailing : State) (start : Nat) :
    Across R (t.bestSplit entry rule trailing start) :=
  .bind (.modify fun b => seek_carried R b start) fun _ =>
    .bind (feed_across (readByte_carried R) _ _ _) fun _ =>
      .bind (.modify fun b => seek_carried R b start) fun _ => .pure _

theorem consider_carried (start : Nat) (entry : State) (stop : Nat) (sel : Selection)
    (rule : Rule) : Across R (t.consider start entry stop sel rule) := by
  refine .bind (liftFault_carried R _) fun trailing => ?_
  cases trailing with
  | none => exact .pure _
  | some trailing =>
    dsimp only
    split
    · exact .pure _
    · exact .bind (t.bestSplit_carried R _ _ _ _) fun _ => .pure _

theorem considerPoint_carried (start : Nat) (entry : State) (sel : Selection) (point : Acceptance) :
    Across R (t.considerPoint start entry sel point) :=
  .bind (liftFault_carried R _) fun rules =>
    .foldlM (fun sel rule => t.consider_carried R _ _ _ sel rule) rules sel

theorem considerTrack_carried (start : Nat) (best : Option Candidate) (track : Track) :
    Across R (t.considerTrack start best track) :=
  .bind (.foldlM (fun sel point => t.considerPoint_carried R _ _ sel point) _ _) fun _ => .pure _

theorem chooseWinner_carried (start : Nat) (tracks : List Track) :
    Across R (t.chooseWinner start tracks) :=
  .foldlM (fun best track => t.considerTrack_carried R start best track) tracks none

theorem longestMatch_carried (sc : StartCondition) (atLineStart : Bool) :
    Across R (t.longestMatch sc atLineStart) := by
  have hseek (offset : Nat) : Across R (modify (·.seek offset) : BufferM PUnit) :=
    .modify fun b => seek_carried R b offset
  refine .bind (liftFault_carried R _) fun tracks => .bind .get fun b => ?_
  refine .bind (feed_across (readByte_carried R) _ _ _) fun tracks => .bind .get fun b' => ?_
  split
  · exact .pure _
  · refine .bind (.modify fun b => ?_) fun _ => .bind (t.chooseWinner_carried R _ _) fun winner => ?_
    · split
      · exact History.refl b
      · exact unread_carried R b
    · cases winner with
      | none => exact .bind (hseek _) fun _ => .pure _
      | some winner => exact .bind (hseek _) fun _ => .pure _

end Tables

/-! ## Scanners -/

namespace Scanner

/-- The buffers are related. -/
def Carried (R : Buffer → Buffer → Prop) (s s' : Scanner) : Prop :=
  R s.buffer s'.buffer

variable (R : Buffer → Buffer → Prop) [Buffer.Carried R]

instance : History (Carried R) :=
  ⟨fun s => History.refl s.buffer, fun h h' => History.trans (R := R) h h'⟩

/-- A step that leaves the buffer alone. -/
theorem Carried.of_eq {s s' : Scanner} (h : s'.buffer = s.buffer) : Carried R s s' := by
  unfold Carried
  rw [h]
  exact History.refl s.buffer

omit [Buffer.Carried R] in
theorem onBuffer_carried {α : Type} {m : BufferM α} (h : Across R m) :
    Across (Carried R) (onBuffer m) := by
  intro s
  have hm := h s.buffer
  unfold final at hm ⊢
  unfold onBuffer
  cases hrun : m s.buffer <;> rw [hrun] at hm <;> exact hm

theorem terminate_carried (s : Scanner) : Carried R s s.terminate := by
  show R s.buffer (s.buffer.cover s.window.stop).2
  unfold Buffer.cover
  split
  · split
    · exact poke_carried R _ _ _
    · exact History.refl _
  · exact History.refl _

theorem unterminate_carried (s : Scanner) : Carried R s s.unterminate := by
  unfold Carried unterminate Buffer.uncover
  split
  · split
    · exact poke_carried R _ _ _
    · exact History.refl _
  · exact History.refl _

theorem write_carried (bytes : List UInt8) : Across (Carried R) (write bytes) := by
  intro s
  refine ((write_ends bytes s).mono (fun _ s' h => ?_) fun _ s' h => ?_).final
  · obtain ⟨output, rfl⟩ := h
    exact .of_eq R rfl
  · obtain ⟨⟨output, rfl⟩, -⟩ := h
    exact .of_eq R rfl

theorem flush_carried : Across (Carried R) flush := by
  intro s
  refine ((flush_ends s).mono (fun _ s' h => ?_) fun _ s' h => ?_).final
  · obtain ⟨output, rfl⟩ := h
    exact .of_eq R rfl
  · obtain ⟨⟨output, rfl⟩, -⟩ := h
    exact .of_eq R rfl

theorem prepare_carried : Across (Carried R) prepare :=
  .bind .get fun _ => .whenThen (flush_carried R) (.modify fun s => trim_carried R s.buffer s.keepFrom)

theorem skipByte_carried : Across (Carried R) skipByte := by
  refine .bind .get fun s => .bind (onBuffer_carried R (readByte_carried R)) fun found => ?_
  cases found with
  | none => exact .pure _
  | some byte =>
    refine .bind (.bind .get fun s => ?_) fun _ => .modify fun _ => .of_eq R rfl
    split
    · exact .pure _
    · exact .bind (flush_carried R) fun _ => .modify fun _ => .of_eq R rfl

theorem attempt_carried : Across (Carried R) attempt := by
  refine .bind (prepare_carried R) fun _ => .bind .get fun s => ?_
  refine .bind (onBuffer_carried R (s.tables.longestMatch_carried R _ _)) fun outcome => ?_
  cases outcome with
  | accepted rule length =>
    exact .bind (flush_carried R) fun _ => .bind (.modify fun _ => .of_eq R rfl) fun _ => .pure _
  | noMatch =>
    exact .bind (.modify fun _ => .of_eq R rfl) fun _ => .bind (skipByte_carried R) fun _ => .pure _
  | endOfInput =>
    exact .bind (flush_carried R) fun _ => .bind (.modify fun _ => .of_eq R rfl) fun _ => .pure _

theorem advance_carried : Across (Carried R) advance := by
  have hattempt := attempt_carried R
  intro s
  unfold final
  fun_induction advance s with
  | case1 s _ rule s' h => exact final_of_ok h ▸ hattempt s
  | case2 s _ s' h => exact final_of_ok h ▸ hattempt s
  | case3 s _ s' h ih => exact History.trans (final_of_ok h ▸ hattempt s) ih
  | case4 s _ e s' h => exact final_of_error h ▸ hattempt s

/-! ## Operations -/

theorem input_carried : Across (Carried R) input :=
  .bind (.modify fun s => unterminate_carried R s) fun _ =>
    .bind (onBuffer_carried R (readByte_carried R)) fun _ =>
      .whenThen (.modify fun _ => .of_eq R rfl) (.pure _)

theorem unput_carried (byte : UInt8) : Across (Carried R) (unput byte) := by
  refine .bind .get fun s => .bind (.modify fun s => unterminate_carried R s) fun _ => ?_
  refine .bind (onBuffer_carried R (insert_carried R byte)) fun _ => ?_
  refine .whenThen (.modify fun s => terminate_carried R s) ?_
  split
  · exact .modify fun _ => .of_eq R rfl
  · exact .pure _

theorem unputAll_carried (bytes : List UInt8) : Across (Carried R) (unputAll bytes) := by
  unfold unputAll
  generalize bytes.reverse = bytes
  induction bytes with
  | nil => exact .pure _
  | cons byte bytes ih =>
    show Across (Carried R) (unput byte >>= fun _ => bytes.forM unput)
    exact .bind (unput_carried R byte) fun _ => ih

theorem less_carried (n : Nat) : Across (Carried R) (less n) := by
  have hcut : Across (Carried R) (modify (cut n) : ScannerM PUnit) :=
    .modify fun s => seek_carried R s.buffer _
  refine .bind .get fun s => .whenThen (fun s => .of_eq R rfl) ?_
  refine .bind .get fun s => .bind (.modify fun s => unterminate_carried R s) fun _ => .bind hcut fun _ => ?_
  split
  · exact .modify fun s => terminate_carried R s
  · exact .pure _

theorem begin_carried (sc : StartCondition) : Across (Carried R) (begin sc) := by
  refine .bind .get fun s => .bind (fun s' => ?_) fun _ => .modify fun _ => .of_eq R rfl
  cases s.tables.entryStates sc <;> exact .of_eq R rfl

theorem restart_carried (hswitch : ∀ (b : Buffer) source, R b (b.switchTo source)) (source : Source) :
    Across (Carried R) (restart source) :=
  .bind (flush_carried R) fun _ => .bind (.modify fun s => unterminate_carried R s) fun _ =>
    .modify fun s => hswitch s.buffer source

end Scanner

/-- An operation carries over what going on with another source does, if it goes on with one. -/
theorem Edit.perform_carried (R : Buffer → Buffer → Prop) [Buffer.Carried R] (edit : Edit)
    (hswitch : edit.KeepsSource ∨ ∀ (b : Buffer) source, R b (b.switchTo source)) :
    Across (Scanner.Carried R) edit.perform := by
  have hsilently {m : ScannerM Unit} (hm : Across (Scanner.Carried R) m) :
      Across (Scanner.Carried R) (silently m) := .bind hm fun _ => .pure _
  cases edit with
  | input => exact Scanner.input_carried R
  | unput byte => exact hsilently (Scanner.unput_carried R byte)
  | unputAll bytes => exact hsilently (Scanner.unputAll_carried R bytes)
  | less n => exact hsilently (Scanner.less_carried R n)
  | more => exact hsilently (.modify fun _ => .of_eq R rfl)
  | echo => exact hsilently (.bind .get fun _ => Scanner.write_carried R _)
  | begin sc => exact hsilently (Scanner.begin_carried R sc)
  | beginNamed name =>
    refine hsilently (.bind .get fun s => ?_)
    split
    · exact Scanner.begin_carried R _
    · exact fun s => .of_eq R rfl
  | write bytes => exact hsilently (Scanner.write_carried R bytes)
  | restart source =>
    exact hsilently (Scanner.restart_carried R (hswitch.resolve_left id) source)

end Munch
