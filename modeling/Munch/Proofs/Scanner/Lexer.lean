-- SUMMARY: A scan that only looks at its matches is a run of the reference lexer, to the end of the input.
import Munch.Proofs.Match.MaximalMunch
import Munch.Proofs.Scanner.Memory
import Munch.Proofs.Scanner.Scan

/-! # The reference lexer

The reference cuts its input from left to right: at each position it takes the lexeme that wins, or
else passes on a single byte. It knows no buffer and counts lines from the beginning of the input. A
scan whose action only looks at the matches reports the tokens of the reference and writes its other
bytes. -/

namespace Munch

/-- What an action is told of a match. -/
structure Token where
  rule : Rule
  text : List UInt8
  /-- The line at the end of the match. -/
  line : Nat
  deriving DecidableEq, Repr

/-- A piece of the input. -/
inductive Piece where
  | token (found : Token)
  /-- A byte that begins no lexeme. -/
  | echoed (byte : UInt8)
  deriving DecidableEq, Repr

namespace Piece

/-- The bytes that the piece was cut from. -/
def bytes : Piece → List UInt8
  | .token found => found.text
  | .echoed byte => [byte]

def token? : Piece → Option Token
  | .token found => some found
  | .echoed _ => none

def echoed? : Piece → Option UInt8
  | .token _ => none
  | .echoed byte => some byte

theorem filterMap_token?_echoed (bytes : List UInt8) :
    (bytes.map echoed).filterMap token? = [] := by
  induction bytes with
  | nil => rfl
  | cons byte bytes ih => exact ih

theorem filterMap_echoed?_echoed (bytes : List UInt8) :
    (bytes.map echoed).filterMap echoed? = bytes := by
  induction bytes with
  | nil => rfl
  | cons byte bytes ih => exact congrArg (byte :: ·) ih

end Piece

/-- Whether a line starts at a position. -/
def startsLine (w : List UInt8) (p : Nat) : Bool :=
  p == 0 || w[p - 1]? == some 10

/-- The reference cuts the input from the position `p` to the position `q` into pieces. -/
inductive Tables.Lexes (t : Tables) (sc : StartCondition) (w : List UInt8) :
    Nat → List Piece → Nat → Prop where
  | stop {p : Nat} : Lexes t sc w p [] p
  | token {p q : Nat} {x : Lexeme} {pieces : List Piece} :
      t.Wins (entries sc (startsLine w p)) (w.drop p) x → Lexes t sc w (p + x.head) pieces q →
      Lexes t sc w p (.token ⟨x.rule, (w.drop p).take x.head, 1 + newlines (w.take (p + x.head))⟩
        :: pieces) q
  | echo {p q : Nat} {byte : UInt8} {pieces : List Piece} :
      (∀ x, ¬ t.IsLexeme (entries sc (startsLine w p)) (w.drop p) x) → w[p]? = some byte →
      Lexes t sc w (p + 1) pieces q → Lexes t sc w p (.echoed byte :: pieces) q

namespace Tables

variable {t : Tables} {sc : StartCondition} {w : List UInt8} {p q r : Nat}
  {pieces pieces' : List Piece}

/-! ## The reference -/

theorem IsLexeme.head_pos {actives : List State} {x : Lexeme} (h : t.IsLexeme actives w x) :
    0 < x.head ∧ x.head ≤ w.length := by
  obtain ⟨⟨entry, -, hpos, hle, -⟩, -⟩ := h
  exact ⟨hpos, hle⟩

theorem Wins.unique {actives : List State} {x y : Lexeme} (hx : t.Wins actives w x)
    (hy : t.Wins actives w y) : x = y := by
  apply Classical.byContradiction
  intro hne
  exact (hx.precedes y hy.isLexeme (Ne.symm hne)).asymm (hy.precedes x hx.isLexeme hne)

namespace Lexes

theorem trans (h : t.Lexes sc w p pieces q) (h' : t.Lexes sc w q pieces' r) :
    t.Lexes sc w p (pieces ++ pieces') r := by
  induction h with
  | stop => exact h'
  | token hwins _ ih => exact .token hwins (ih h')
  | echo hnone hbyte _ ih => exact .echo hnone hbyte (ih h')

/-- The pieces are cut from the input one behind the other. -/
theorem drop_eq (h : t.Lexes sc w p pieces q) :
    w.drop p = pieces.flatMap Piece.bytes ++ w.drop q := by
  induction h with
  | stop => rfl
  | @token p q x pieces _ _ ih =>
    rw [List.flatMap_cons, List.append_assoc, ← ih, ← List.drop_drop]
    exact (List.take_append_drop x.head (w.drop p)).symm
  | @echo p q byte pieces _ hbyte _ ih =>
    obtain ⟨hp, hget⟩ := List.getElem?_eq_some_iff.1 hbyte
    rw [List.flatMap_cons, List.append_assoc, ← ih, List.drop_eq_getElem_cons hp, hget]
    rfl

theorem eq_nil_of_end (h : t.Lexes sc w w.length pieces q) : pieces = [] := by
  cases h with
  | stop => rfl
  | token hwins _ =>
    obtain ⟨hpos, hle⟩ := hwins.isLexeme.head_pos
    rw [List.drop_length] at hle
    exact absurd (Nat.lt_of_lt_of_le hpos hle) (Nat.lt_irrefl 0)
  | echo _ hbyte _ =>
    rw [List.getElem?_eq_none (Nat.le_refl _)] at hbyte
    cases hbyte

/-- There is only one way to cut the rest of the input. -/
theorem unique (h : t.Lexes sc w p pieces w.length) (h' : t.Lexes sc w p pieces' w.length) :
    pieces = pieces' := by
  generalize hq : w.length = q at h
  induction h generalizing pieces' with
  | stop =>
    subst hq
    exact h'.eq_nil_of_end.symm
  | token hwins hrest ih =>
    cases h' with
    | stop => exact (hrest.token hwins).eq_nil_of_end
    | token hwins' hrest' =>
      obtain rfl := hwins.unique hwins'
      exact congrArg _ (ih hrest' hq)
    | echo hnone _ _ => exact absurd hwins.isLexeme (hnone _)
  | echo hnone hbyte hrest ih =>
    cases h' with
    | stop => exact (hrest.echo hnone hbyte).eq_nil_of_end
    | token hwins' _ => exact absurd hwins'.isLexeme (hnone _)
    | echo _ hbyte' hrest' =>
      obtain rfl := Option.some.inj (hbyte.symm.trans hbyte')
      exact congrArg _ (ih hrest' hq)

end Lexes

end Tables

/-! ## Tapes at positions -/

/-- The tape stands at a position of the input, and keeps no text. -/
structure Tape.At (sc : StartCondition) (w : List UInt8) (p : Nat) (tape : Tape) : Prop where
  le : p ≤ w.length
  behind_eq : tape.behind = w.take p
  pending_eq : tape.pending = w.drop p
  startCondition_eq : tape.startCondition = sc
  keepText_eq : tape.keepText = false
  line_eq : tape.line = 1 + newlines (w.take p)

namespace Tape

variable {sc : StartCondition} {w : List UInt8} {p : Nat} {tape tape' : Tape}

theorem At.start (w : List UInt8) (sc : StartCondition) (output : List UInt8) :
    At sc w 0 (Tape.start w sc output) :=
  ⟨Nat.zero_le _, rfl, rfl, rfl, rfl, rfl⟩

theorem At.length_eq (h : At sc w p tape) :
    tape.behind.length + tape.pending.length = w.length := by
  rw [h.behind_eq, h.pending_eq, List.length_take, List.length_drop, Nat.min_eq_left h.le]
  exact Nat.add_sub_cancel' h.le

theorem At.atLineStart_eq (h : At sc w p tape) : tape.atLineStart = startsLine w p := by
  unfold Tape.atLineStart startsLine
  rw [h.behind_eq, List.getLast?_take]
  cases p with
  | zero => rfl
  | succ p =>
    have hlt : p < w.length := h.le
    have hbyte : w[p]? = some w[p] := List.getElem?_eq_getElem hlt
    rw [if_neg (Nat.succ_ne_zero p), Nat.add_sub_cancel, hbyte]
    rfl

/-- Passing a match. -/
theorem At.accept (h : At sc w p tape) (rule : Rule) {length : Nat}
    (hlength : length ≤ (w.drop p).length) : At sc w (p + length) (tape.accept rule length) ∧
      (tape.accept rule length).text = (w.drop p).take length := by
  have hstart : tape.nextStart = tape.behind.length := by
    unfold nextStart
    rw [h.keepText_eq]
    rfl
  constructor
  · refine ⟨?_, ?_, ?_, h.startCondition_eq, rfl, ?_⟩
    · rw [List.length_drop] at hlength
      have := h.le
      omega
    · show tape.behind ++ tape.pending.take length = _
      rw [h.behind_eq, h.pending_eq, ← List.take_add]
    · show tape.pending.drop length = _
      rw [h.pending_eq, List.drop_drop]
    · show tape.line + newlines (tape.pending.take length) = _
      rw [h.line_eq, h.pending_eq, Nat.add_assoc, List.take_add]
      exact congrArg (1 + ·) List.count_append.symm
  · show ((tape.behind ++ tape.pending.take length).drop tape.nextStart).take
      (tape.behind.length + length - tape.nextStart) = _
    rw [hstart, List.drop_left, Nat.add_sub_cancel_left, List.take_take, Nat.min_self,
      h.pending_eq]

/-- Passing a byte. -/
theorem At.skip (h : At sc w p tape) {byte : UInt8} {rest : List UInt8}
    (hpending : tape.pending = byte :: rest) :
    At sc w (p + 1) (tape.skip byte) ∧ w[p]? = some byte := by
  have hdrop : w.drop p = byte :: rest := h.pending_eq ▸ hpending
  have hbyte : w[p]? = some byte := by
    rw [← List.head?_drop, hdrop]
    rfl
  have htake : w.take (p + 1) = w.take p ++ [byte] := by
    rw [List.take_add, hdrop]
    rfl
  refine ⟨⟨?_, ?_, ?_, h.startCondition_eq, rfl, ?_⟩, hbyte⟩
  · exact Nat.succ_le_of_lt (List.getElem?_eq_some_iff.1 hbyte).1
  · show tape.behind ++ [byte] = _
    rw [h.behind_eq, htake]
  · show tape.pending.tail = _
    rw [h.pending_eq, List.tail_drop]
  · show (if byte = 10 then tape.line + 1 else tape.line) = _
    unfold newlines
    rw [h.line_eq, htake, List.count_append, List.count_singleton, newlines]
    split
    · rename_i hnewline
      rw [hnewline]
      rfl
    · rename_i hother
      rw [if_neg (fun heq => hother (eq_of_beq heq))]
      rfl

variable {t : Tables}

/-- An attempt that skips echoes one byte. -/
theorem Attempts.lexes_skipped (ht : t.Sound) (h0 : ∀ rules ∈ t.acceptLists, 0 ∉ rules)
    (hstate : sc.state.toNat < t.stateCount) (hbol : sc.bolState.toNat < t.stateCount)
    (h : At sc w p tape) (ha : tape.Attempts t .skipped tape') : ∃ byte, At sc w (p + 1) tape' ∧
      tape'.output = tape.output ++ [byte] ∧ t.Lexes sc w p [.echoed byte] (p + 1) := by
  cases ha with
  | @skipped byte rest hdecides hpending =>
    rw [h.startCondition_eq, h.atLineStart_eq, h.pending_eq] at hdecides
    obtain ⟨-, hnone⟩ := (Tables.decides_noMatch_iff ht h0 hstate hbol).1 hdecides
    obtain ⟨hat, hbyte⟩ := h.skip hpending
    exact ⟨byte, hat, rfl, .echo hnone hbyte .stop⟩

/-- An attempt that matches takes the token of the reference. -/
theorem Attempts.lexes_matched (ht : t.Sound) (h0 : ∀ rules ∈ t.acceptLists, 0 ∉ rules)
    (hstate : sc.state.toNat < t.stateCount) (hbol : sc.bolState.toNat < t.stateCount)
    (h : At sc w p tape) {rule : Rule} (ha : tape.Attempts t (.matched rule) tape') :
    ∃ q, p < q ∧ At sc w q tape' ∧ tape'.output = tape.output ∧
      t.Lexes sc w p [.token ⟨rule, tape'.text, tape'.line⟩] q := by
  cases ha with
  | @matched _ length hdecides =>
    rw [h.startCondition_eq, h.atLineStart_eq, h.pending_eq] at hdecides
    obtain ⟨x, hwins, rfl, rfl⟩ := (Tables.decides_accepted_iff ht h0 hstate hbol).1 hdecides
    obtain ⟨hpos, hle⟩ := hwins.isLexeme.head_pos
    obtain ⟨hat, htext⟩ := h.accept x.rule hle
    refine ⟨p + x.head, Nat.lt_add_of_pos_right hpos, hat, rfl, ?_⟩
    rw [htext, hat.line_eq]
    exact .token hwins .stop

/-- From `p` on the reference echoes some bytes and then finds the token that the tape shows, or else
the end of the input; it is at `q` then. -/
def LexedTo (t : Tables) (sc : StartCondition) (w : List UInt8) (p : Nat) (echoes : List UInt8)
    (tape : Tape) (q : Nat) : Option Rule → Prop
  | some rule => p < q ∧ At sc w q tape ∧
      t.Lexes sc w p (echoes.map .echoed ++ [.token ⟨rule, tape.text, tape.line⟩]) q
  | none => q = w.length ∧ t.Lexes sc w p (echoes.map .echoed) q

/-- Advancing is a run of the reference, up to a token or the end of the input. -/
theorem Advances.lexes (ht : t.Sound) (h0 : ∀ rules ∈ t.acceptLists, 0 ∉ rules)
    (hstate : sc.state.toNat < t.stateCount) (hbol : sc.bolState.toNat < t.stateCount)
    (h : At sc w p tape) {found : Option Rule} (ha : tape.Advances t found tape') :
    ∃ q echoes, tape'.output = tape.output ++ echoes ∧ LexedTo t sc w p echoes tape' q found := by
  induction ha generalizing p with
  | matched ha =>
    obtain ⟨q, hlt, hat, houtput, hlexes⟩ := Attempts.lexes_matched ht h0 hstate hbol h ha
    exact ⟨q, [], by rw [houtput, List.append_nil], hlt, hat, hlexes⟩
  | @ended tape tape' ha =>
    cases ha with
    | ended hdecides =>
      have hdrop : w.drop p = [] := h.pending_eq ▸ hdecides
      have hend : p = w.length := Nat.le_antisymm h.le (List.drop_eq_nil_iff.1 hdrop)
      exact ⟨p, [], (List.append_nil _).symm, hend, .stop⟩
  | @skipped tape tape' tape'' found ha hrest ih =>
    obtain ⟨byte, hat, houtput, hecho⟩ := Attempts.lexes_skipped ht h0 hstate hbol h ha
    obtain ⟨q, echoes, houtput', hfound⟩ := ih hat
    refine ⟨q, byte :: echoes, ?_, ?_⟩
    · rw [houtput', houtput, List.append_assoc, List.singleton_append]
    · cases found with
      | some rule =>
        obtain ⟨hlt, hat', hlexes⟩ := hfound
        exact ⟨Nat.lt_of_succ_lt hlt, hat', hecho.trans hlexes⟩
      | none =>
        obtain ⟨hend, hlexes⟩ := hfound
        exact ⟨hend, hecho.trans hlexes⟩

end Tape

/-! ## Scans -/

/-- Hooks that look at the matches: the action takes its token in, and never stops the scan. -/
def Hooks.observe {σ : Type} (take : σ → Token → σ) : Hooks σ where
  onMatch rule := fun (s, x) => .ok .resume (s, take x ⟨rule, s.text, s.line⟩)

section Scans

variable {σ : Type} {take : σ → Token → σ} {t : Tables} {sc : StartCondition} {w : List UInt8}
  {p : Nat} {tape : Tape} {s : Scanner}

theorem Scanner.Rests.stream_length (h : s.Rests t tape) :
    s.buffer.stream.length ≤ tape.behind.length + tape.pending.length := by
  obtain ⟨dropped, hbetween⟩ := h.between
  have hstream : s.buffer.stream = s.buffer.passed.toList ++ s.buffer.pending :=
    List.append_assoc _ _ _
  rw [hstream, List.length_append, hbetween.passed_eq, hbetween.pending_eq, List.length_drop]
  exact Nat.add_le_add_right (Nat.sub_le _ _) _

/-- An action that looks at a match is told its token, and leaves the scanner at rest. -/
theorem Hooks.runAction_observe {dropped : Nat} (h : s.AtMatch t tape dropped)
    (hstop : s.window.stop = s.buffer.cursor) (rule : Rule) (x : σ) :
    ∃ s', (observe take).runAction rule (s, x) =
        .ok .resume (s', take x ⟨rule, tape.text, tape.line⟩) ∧
      s'.Rests t tape ∧ s'.buffer.settings = s.buffer.settings := by
  have hin := h.terminate hstop
  have hsight := hin.sight_eq
  have htext : s.terminate.text = tape.text := congrArg Sight.text hsight
  have hline : s.terminate.line = tape.line := congrArg Sight.line hsight
  refine ⟨s.terminate.unterminate, ?_, hin.rests, ?_⟩
  · rw [runAction_eq]
    unfold observe
    dsimp only
    rw [htext, hline]
    rfl
  · rw [Scanner.settings_unterminate, Scanner.settings_terminate]

/-- From a position on, a scan is a run of the reference to the end of the input. -/
theorem Hooks.handle_lexes (ht : t.Sound) (h0 : ∀ rules ∈ t.acceptLists, 0 ∉ rules)
    (hrest : s.Rests t tape) (hat : tape.At sc w p) {events : Nat}
    (hevents : w.length < p + events) (x : σ)
    (hmemory : s.buffer.settings.Suffices w.length ∨
      WithinMemory ((observe take).handle events (s, x))) :
    ∃ s' pieces, (observe take).handle events (s, x) =
        .ok .exhausted (s', (pieces.filterMap Piece.token?).foldl take x) ∧
      t.Lexes sc w p pieces w.length ∧
      s'.output.written.toList = tape.output ++ pieces.filterMap Piece.echoed? := by
  induction events generalizing s tape p x with
  | zero => exact absurd hat.le (Nat.not_le_of_lt hevents)
  | succ events ih =>
    obtain ⟨⟨dropped, hbetween⟩, -⟩ := id hrest
    have hstate : sc.state.toNat < t.stateCount := hat.startCondition_eq ▸ hbetween.state_lt
    have hbol : sc.bolState.toNat < t.stateCount := hat.startCondition_eq ▸ hbetween.bolState_lt
    have hadvance : WithinMemory s.advance := by
      rcases hmemory with hsuffices | hgrows
      · exact Scanner.advance_withinMemory hsuffices (hat.length_eq ▸ hrest.stream_length)
      · exact withinMemory_advance hgrows
    obtain ⟨found, s₁, hrun, tape₁, htape, hstands⟩ :=
      (Scanner.advance_wp ht hbetween).elim hadvance
    obtain ⟨q, echoes, houtput, hfound⟩ := htape.lexes ht h0 hstate hbol hat
    cases found with
    | none =>
      obtain ⟨rfl, hlexes⟩ := hfound
      have hrest₁ : s₁.Rests t tape₁ := ⟨hstands.1, hstands.2⟩
      refine ⟨s₁, echoes.map .echoed, ?_, hlexes, ?_⟩
      · rw [handle_of_end hrun rfl, Piece.filterMap_token?_echoed]
        rfl
      · rw [hrest₁.output_eq, houtput, Piece.filterMap_echoed?_echoed]
    | some rule =>
      obtain ⟨hlt, hat₁, hlexes⟩ := hfound
      obtain ⟨⟨dropped₁, hmatch⟩, hstop⟩ := hstands
      obtain ⟨s₂, haction, hrest₂, hsettings⟩ :=
        runAction_observe hmatch hstop rule x
      have hnext : (observe take).handle (events + 1) (s, x) =
          (observe take).handle events (s₂, take x ⟨rule, tape₁.text, tape₁.line⟩) := by
        rw [handle_of_match hrun, haction]
      rw [hnext] at hmemory ⊢
      rw [← Scanner.settings_of_advance hrun, ← hsettings] at hmemory
      obtain ⟨s', pieces, hscan, hlexes', houtput'⟩ := ih hrest₂ hat₁ (by omega) _ hmemory
      refine ⟨s', _, ?_, hlexes.trans hlexes', ?_⟩
      · rw [List.filterMap_append, List.filterMap_append, Piece.filterMap_token?_echoed]
        exact hscan
      · rw [houtput', houtput, List.filterMap_append, List.filterMap_append,
          Piece.filterMap_echoed?_echoed]
        simp only [List.filterMap_cons, List.filterMap_nil, Piece.echoed?, List.append_nil,
          List.append_assoc]

/-- A scan that only looks at its matches reports the tokens that the reference finds, one by one,
writes the bytes that the reference echoes, and comes to the end of the input. The reference finds
only one way to cut the input, and loses nothing of it. There must be memory for the input, or at
least as much of it as the scan asks for. -/
theorem Hooks.scan_lexes {o : ScannerOptions} {source : Source} {output : Sink}
    (hbuild : o.build t source output = .ok s) (h0 : ∀ rules ∈ t.acceptLists, 0 ∉ rules)
    (hsteady : source.steady = true) (hlimit : output.limit = none)
    {events : Nat} (hevents : source.bytes.length < events) (take : σ → Token → σ) (x : σ)
    (hmemory : o.bufferSettings.Suffices source.bytes.length ∨
      WithinMemory ((observe take).scan events (s, x))) :
    ∃ sc s' pieces, o.startCondition t = .ok sc ∧
      (observe take).scan events (s, x) =
        .ok .exhausted (s', (pieces.filterMap Piece.token?).foldl take x) ∧
      s'.output.written.toList = output.written.toList ++ pieces.filterMap Piece.echoed? ∧
      (∀ pieces', t.Lexes sc source.bytes 0 pieces' source.bytes.length ↔ pieces' = pieces) ∧
      pieces.flatMap Piece.bytes = source.bytes := by
  obtain ⟨ht, hsettings, sc, hsc, hrest⟩ := ScannerOptions.build_rests hbuild hsteady hlimit
  rw [scan_eq_handle hrest.unterminate_eq, ← hsettings] at hmemory
  rw [scan_eq_handle hrest.unterminate_eq]
  obtain ⟨s', pieces, hscan, hlexes, houtput⟩ :=
    handle_lexes ht h0 hrest (Tape.At.start _ _ _) ((Nat.zero_add events).symm ▸ hevents) x hmemory
  refine ⟨sc, s', pieces, hsc, hscan, houtput, fun pieces' => ⟨fun h => h.unique hlexes, ?_⟩, ?_⟩
  · intro heq
    exact heq ▸ hlexes
  · have hdrop := hlexes.drop_eq
    rw [List.drop_zero, List.drop_length, List.append_nil] at hdrop
    exact hdrop.symm

theorem Hooks.scan_lexes_oneByte : ∃ pieces,
    (∀ pieces', Tables.oneByte.Lexes {} [97, 10] 0 pieces' 2 ↔ pieces' = pieces) ∧
    pieces.flatMap Piece.bytes = [97, 10] := by
  have hbuilt : (match ({} : ScannerOptions).build Tables.oneByte (.ofBytes [97, 10]) {} with
      | .ok _ => true
      | .error _ => false) = true := by decide +kernel
  split at hbuilt
  · rename_i s hbuild
    obtain ⟨sc, s', pieces, hsc, -, -, hlexes, hbytes⟩ := scan_lexes hbuild (by decide) rfl rfl
      (Nat.lt_succ_self 2) (fun tokens token => tokens ++ [token]) []
      (.inl ⟨rfl, by decide, by decide⟩)
    obtain rfl := Except.ok.inj hsc
    exact ⟨pieces, hlexes, hbytes⟩
  · exact Bool.noConfusion hbuilt

end Scans

end Munch
