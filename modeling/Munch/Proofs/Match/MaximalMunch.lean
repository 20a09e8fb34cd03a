-- SUMMARY: Maximal munch by lexemes alone, and that an attempt finds exactly its winner.
import Munch.Proofs.Match.Attempt

/-! # Maximal munch

The reference for match attempts: which lexemes stand at the front of some bytes, and which of them
wins. It says nothing of tracks, accepting states passed on the way or remembered contexts. On sound
tables whose accept lists leave rule 0 out, an attempt has the outcome that the reference gives. -/

namespace Munch

namespace Tables

/-- The lexemes at the front of some bytes. The automaton, run from an active state over the head,
accepts the rule; the trailing automaton of the rule, if it has one, accepts what stands between the
head and the extent. -/
def IsLexeme (t : Tables) (actives : List State) (w : List UInt8) (x : Lexeme) : Prop :=
  (∃ entry ∈ actives, t.IsHead entry x.rule w x.head) ∧
    match t.contextStart? x.rule with
    | none => x.extent = x.head
    | some q => x.head ≤ x.extent ∧ x.extent ≤ w.length ∧
        ∃ s, t.run? q ((w.take x.extent).drop x.head) = some s ∧ t.rulesOf s ≠ []

/-- The lexeme that precedes all others. -/
structure Wins (t : Tables) (actives : List State) (w : List UInt8) (x : Lexeme) : Prop where
  isLexeme : t.IsLexeme actives w x
  precedes : ∀ y, t.IsLexeme actives w y → y ≠ x → x.Precedes y

end Tables

/-! ## Precedence -/

namespace Lexeme.Precedes

variable {x y : Lexeme}

theorem asymm (h : x.Precedes y) : ¬ y.Precedes x := by
  intro h'
  rw [← preferredTo_shift 0] at h h'
  have htrans := Candidate.preference.trans _ _ _ h h'
  rw [Candidate.preference.irrefl] at htrans
  exact Bool.false_ne_true htrans

theorem of_not (h : ¬ y.Precedes x) (hne : y ≠ x) : x.Precedes y := by
  refine Classical.byContradiction fun h' => hne ?_
  exact eq_of_not_precedes h h'

end Lexeme.Precedes

namespace Tables

section Reference

variable {t : Tables} {sc : StartCondition} {atLineStart : Bool} {w : List UInt8}

/-! ## Offers are lexemes -/

theorem entries_lt (hstate : sc.state.toNat < t.stateCount) (hbol : sc.bolState.toNat < t.stateCount)
    {entry : State} (hentry : entry ∈ entries sc atLineStart) : entry < t.stateCount := by
  unfold entries at hentry
  rcases List.mem_cons.1 hentry with rfl | hentry
  · exact hstate
  · split at hentry
    · exact List.mem_singleton.1 hentry ▸ hbol
    · cases hentry

/-- Without rule 0 in the accept lists a track passes an accepting state wherever it accepts a
rule. -/
theorem isPoint_iff (ht : t.Sound) (h0 : ∀ rules ∈ t.acceptLists, 0 ∉ rules) {entry : State}
    (hentry : entry < t.stateCount) {rule : Rule} {head : Nat} :
    t.IsPoint entry w rule head ↔ t.IsHead entry rule w head := by
  refine and_congr_right fun _ => and_congr_right fun _ => exists_congr fun s => ?_
  refine and_congr_right fun hrun => ?_
  rw [ht.ruleOf_ne_zero_iff h0 (ht.run?_lt hentry hrun)]
  exact and_iff_right_of_imp List.ne_nil_of_mem

theorem offers_iff (ht : t.Sound) (h0 : ∀ rules ∈ t.acceptLists, 0 ∉ rules) {entry : State}
    (hentry : entry < t.stateCount) {x : Lexeme} :
    t.Offers entry w x ↔ t.IsLexeme [entry] w x := by
  unfold Offers IsLexeme Contributes
  simp only [isPoint_iff ht h0 hentry, List.mem_singleton, exists_eq_left]
  cases hq : t.contextStart? x.rule with
  | none =>
    constructor
    · rintro ⟨head, hhead, rfl, hextent⟩
      exact ⟨hhead, hextent⟩
    · rintro ⟨hhead, hextent⟩
      exact ⟨x.head, hhead, rfl, hextent⟩
  | some q =>
    have haccepts : ∀ s, t.run? q ((w.take x.extent).drop x.head) = some s →
        (t.ruleOf s ≠ 0 ↔ t.rulesOf s ≠ []) := fun s hrun =>
      ht.ruleOf_ne_zero_iff h0 (ht.run?_lt (ht.contextStart?_lt hq) hrun)
    constructor
    · rintro ⟨_, -, hhead, hle, hlength, s, hrun, hrule⟩
      exact ⟨hhead, hle, hlength, s, hrun, (haccepts s hrun).1 hrule⟩
    · rintro ⟨hhead, hle, hlength, s, hrun, hrules⟩
      exact ⟨x.head, hhead, hhead, hle, hlength, s, hrun, (haccepts s hrun).2 hrules⟩

theorem offered_iff (ht : t.Sound) (h0 : ∀ rules ∈ t.acceptLists, 0 ∉ rules)
    (hstate : sc.state.toNat < t.stateCount) (hbol : sc.bolState.toNat < t.stateCount) {x : Lexeme} :
    t.Offered sc atLineStart w x ↔ t.IsLexeme (entries sc atLineStart) w x := by
  constructor
  · rintro ⟨entry, hmem, hoffers⟩
    obtain ⟨⟨_, hentry, hhead⟩, hextent⟩ :=
      (offers_iff ht h0 (entries_lt hstate hbol hmem)).1 hoffers
    exact ⟨⟨entry, hmem, List.mem_singleton.1 hentry ▸ hhead⟩, hextent⟩
  · rintro ⟨⟨entry, hmem, hhead⟩, hextent⟩
    refine ⟨entry, hmem, (offers_iff ht h0 (entries_lt hstate hbol hmem)).2 ⟨?_, hextent⟩⟩
    exact ⟨entry, List.mem_singleton_self entry, hhead⟩

/-! ## Outcomes by the reference -/

/-- Only the outcome that the bytes decide is decided by them. -/
theorem Decides.eq_iff {outcome outcome' : Attempt} (h : t.Decides sc atLineStart w outcome) :
    outcome = outcome' ↔ t.Decides sc atLineStart w outcome' :=
  ⟨fun heq => heq ▸ h, h.unique⟩

theorem decides_noMatch_iff (ht : t.Sound) (h0 : ∀ rules ∈ t.acceptLists, 0 ∉ rules)
    (hstate : sc.state.toNat < t.stateCount) (hbol : sc.bolState.toNat < t.stateCount) :
    t.Decides sc atLineStart w .noMatch ↔
      w ≠ [] ∧ ∀ x, ¬ t.IsLexeme (entries sc atLineStart) w x := by
  simp only [Decides, offered_iff ht h0 hstate hbol]

theorem decides_accepted_iff (ht : t.Sound) (h0 : ∀ rules ∈ t.acceptLists, 0 ∉ rules)
    (hstate : sc.state.toNat < t.stateCount) (hbol : sc.bolState.toNat < t.stateCount)
    {rule : Rule} {length : Nat} :
    t.Decides sc atLineStart w (.accepted rule length) ↔
      ∃ x, t.Wins (entries sc atLineStart) w x ∧ x.rule = rule ∧ x.head = length := by
  simp only [Decides, offered_iff ht h0 hstate hbol]
  constructor
  · rintro ⟨x, hrule, hhead, hx, hbest⟩
    exact ⟨x, ⟨hx, fun y hy hne => .of_not (hbest y hy) hne⟩, hrule, hhead⟩
  · rintro ⟨x, hwins, hrule, hhead⟩
    refine ⟨x, hrule, hhead, hwins.isLexeme, fun y hy hyx => ?_⟩
    rcases eq_or_ne y x with rfl | hne
    · exact hyx.asymm hyx
    · exact (hwins.precedes y hy hne).asymm hyx

end Reference

/-! ## Attempts -/

/-- An attempt on a steady source either cannot grow its buffer or has the outcome that maximal munch
gives for the pending bytes. No byte is lost, and the cursor moves over the head of the winner. -/
theorem longestMatch_maximalMunch {t : Tables} (ht : t.validate = .ok ())
    (h0 : ∀ rules ∈ t.acceptLists, 0 ∉ rules) {sc : StartCondition}
    (hstate : sc.state.toNat < t.stateCount) (hbol : sc.bolState.toNat < t.stateCount)
    (atLineStart : Bool) {b : Buffer} (hb : b.Steady)
    (hgrows : WithinMemory (t.longestMatch sc atLineStart b)) :
    ∃ outcome b', t.longestMatch sc atLineStart b = .ok outcome b' ∧
      (outcome = .endOfInput ↔ b.pending = []) ∧
      (outcome = .noMatch ↔
        b.pending ≠ [] ∧ ∀ x, ¬ t.IsLexeme (entries sc atLineStart) b.pending x) ∧
      (∀ rule length, outcome = .accepted rule length ↔
        ∃ x, t.Wins (entries sc atLineStart) b.pending x ∧ x.rule = rule ∧ x.head = length) ∧
      b'.cursor = b.cursor + outcome.passes ∧ b'.pending = b.pending.drop outcome.passes ∧
      b'.stream = b.stream := by
  have hsound := validate_eq_ok_iff.1 ht
  obtain ⟨outcome, b', hrun, hdecides, hreached⟩ :=
    (longestMatch_wp hsound hstate hbol hb).elim hgrows
  refine ⟨outcome, b', hrun, hdecides.eq_iff, ?_, fun rule length => ?_, hreached.cursor_eq, ?_,
    hreached.toExtends.stream_eq⟩
  · exact hdecides.eq_iff.trans (decides_noMatch_iff hsound h0 hstate hbol)
  · exact hdecides.eq_iff.trans (decides_accepted_iff hsound h0 hstate hbol)
  · rw [hreached.pending_eq, ← List.drop_drop, ← Buffer.pending_eq_drop]

/-- Tables of a single rule, which takes any one byte. -/
def oneByte : Tables where
  classOf := Array.replicate 256 0
  base := #[0, 0]
  check := #[0]
  next := #[1]
  fallback := #[-1, -1]
  accept := #[0, 1]

theorem longestMatch_maximalMunch_oneByte :
    ∃ x, oneByte.Wins (entries {} true) [97, 98] x ∧ x.rule = 1 ∧ x.head = 1 := by
  let b : Buffer := { settings := {}, source := .ofBytes [97, 98] }
  have hfirst : (match oneByte.longestMatch {} true b with
      | .ok (.accepted 1 1) _ => true
      | _ => false) = true := by decide +kernel
  obtain ⟨outcome, b', hrun, -, -, haccepted, -⟩ := longestMatch_maximalMunch
    (show oneByte.validate = .ok () by decide +kernel) (by decide)
    (show ({} : StartCondition).state.toNat < oneByte.stateCount by decide)
    (show ({} : StartCondition).bolState.toNat < oneByte.stateCount by decide) true
    (show b.Steady from ⟨rfl, by decide⟩)
    (fun n b' hfull => by
      rw [hfull] at hfirst
      exact Bool.noConfusion hfirst)
  rw [hrun] at hfirst
  refine (haccepted 1 1).1 ?_
  split at hfirst
  · rename_i heq
    exact (EStateM.Result.ok.inj heq).1
  · exact Bool.noConfusion hfirst

end Tables

end Munch
