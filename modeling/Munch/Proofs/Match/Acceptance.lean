-- SUMMARY: The accepted rule and the accepted rules of a state agree, and every accepted rule competes for the match.
import Munch.Proofs.Match.MaximalMunch

/-! # Acceptance

What a state accepts is encoded twice. An attempt finds the accepting states on its way by their accepted
rule, and contexts end by it as well; the candidates, and the heads that a context may follow, come from the
accept lists. On checked tables the two encodings agree, except where a list names rule 0: its first entry
then reads as no rule at all, whatever stands behind it. -/

namespace Munch

namespace Tables

namespace Sound

variable {t : Tables} {s : State}

/-- The rules of a state ascend. -/
theorem rulesOf_pairwise (h : t.Sound) (hs : s < t.stateCount) : (t.rulesOf s).Pairwise (· < ·) := by
  cases hl : t.acceptLists.isEmpty with
  | true =>
    rw [h.rulesOf_of_isEmpty hl hs]
    split <;> simp
  | false =>
    obtain ⟨hlist, hrules⟩ := h.rulesOf_eq_list hl hs
    have hascending := (h.list_eq hl hlist (h.accept_size ▸ hs)).2
    rw [hrules, List.pairwise_map]
    exact (ascending_iff.1 hascending).imp UInt32.lt_iff_toNat_lt.1

/-- A state reads as accepting no rule if it has none, or rule 0 among them. -/
theorem ruleOf_eq_zero_iff (h : t.Sound) (hs : s < t.stateCount) :
    t.ruleOf s = 0 ↔ t.rulesOf s = [] ∨ 0 ∈ t.rulesOf s := by
  have hpairwise := h.rulesOf_pairwise hs
  rw [h.ruleOf_eq_head hs]
  cases hrules : t.rulesOf s with
  | nil => simp
  | cons rule rest =>
    rw [hrules, List.pairwise_cons] at hpairwise
    -- The rules behind the first one are greater than it.
    have hrest : 0 ∉ rest := fun hmem => Nat.not_lt_zero rule (hpairwise.1 0 hmem)
    simp [hrest, eq_comm]

/-- No list names rule 0 if and only if no state accepts it. -/
theorem zero_notMem_lists_iff (h : t.Sound) :
    (∀ rules ∈ t.acceptLists, 0 ∉ rules) ↔ ∀ s < t.stateCount, 0 ∉ t.rulesOf s := by
  refine ⟨fun h0 s hs => h.zero_notMem_rulesOf h0 hs, fun hnone rules hmem hzero => ?_⟩
  obtain ⟨s, hlist, rfl⟩ := Array.mem_iff_getElem.1 hmem
  have hl : t.acceptLists.isEmpty = false := by
    simpa using Nat.pos_iff_ne_zero.1 (Nat.zero_lt_of_lt hlist)
  have hs : s < t.stateCount := h.listCount hl ▸ hlist
  obtain ⟨_, hrules⟩ := h.rulesOf_eq_list hl hs
  refine hnone s hs ?_
  rw [hrules]
  exact List.mem_map.2 ⟨0, hzero, rfl⟩

end Sound

/-- A lexeme wins the attempt unless another lexeme precedes it. -/
theorem longestMatch_of_isLexeme {t : Tables} (ht : t.Sound) (h0 : ∀ rules ∈ t.acceptLists, 0 ∉ rules)
    {sc : StartCondition} (hstate : sc.state.toNat < t.stateCount)
    (hbol : sc.bolState.toNat < t.stateCount) {atLineStart : Bool} {b : Buffer} (hb : b.Steady)
    (hgrows : WithinMemory (t.longestMatch sc atLineStart b)) {x : Lexeme}
    (hx : t.IsLexeme (entries sc atLineStart) b.pending x) :
    ∃ y b', t.longestMatch sc atLineStart b = .ok (.accepted y.rule y.head) b' ∧
      t.IsLexeme (entries sc atLineStart) b.pending y ∧ (y = x ∨ y.Precedes x) := by
  obtain ⟨outcome, b', hrun, hdecides, -⟩ := (longestMatch_wp ht hstate hbol hb).elim hgrows
  have hoffered := (offered_iff ht h0 hstate hbol).2 hx
  cases outcome with
  | accepted rule length =>
    obtain ⟨y, hy, rfl, rfl⟩ := (decides_accepted_iff ht h0 hstate hbol).1 hdecides
    refine ⟨y, b', hrun, hy.isLexeme, ?_⟩
    rcases eq_or_ne x y with rfl | hne
    · exact .inl rfl
    · exact .inr (hy.precedes x hx hne)
  | noMatch => exact absurd hoffered (hdecides.2 x)
  | endOfInput =>
    have hnil : b.pending = [] := hdecides
    exact absurd hoffered.head_pos.2 (by simpa [hnil] using Nat.ne_zero_of_lt hoffered.head_pos.1)

/-- The two encodings of acceptance agree on checked tables. The accepted rules of a state ascend, and
the first of them is its accepted rule. That is none where the state has no rules, and where rule 0 is
among them. If the accept lists leave rule 0 out, no state accepts it, and each rule that a state accepts
behind some head, followed by its context if it has one, wins the attempt unless another such rule
precedes it. -/
theorem acceptance_agrees {t : Tables} (ht : t.validate = .ok ()) :
    (∀ s < t.stateCount, ∃ rules, t.rulesAt s = .ok rules ∧ rules.Pairwise (· < ·) ∧
      t.ruleAt s = .ok (rules.head?.getD 0) ∧
      (t.ruleAt s = .ok 0 ↔ rules = [] ∨ 0 ∈ rules)) ∧
    ((∀ rules ∈ t.acceptLists, 0 ∉ rules) ↔
      ∀ s < t.stateCount, ∀ rules, t.rulesAt s = .ok rules → 0 ∉ rules) ∧
    ((∀ rules ∈ t.acceptLists, 0 ∉ rules) →
      ∀ (sc : StartCondition) (atLineStart : Bool) (b : Buffer),
      sc.state.toNat < t.stateCount → sc.bolState.toNat < t.stateCount → b.Steady →
      WithinMemory (t.longestMatch sc atLineStart b) →
      ∀ x, t.IsLexeme (entries sc atLineStart) b.pending x →
        ∃ y b', t.longestMatch sc atLineStart b = .ok (.accepted y.rule y.head) b' ∧
          t.IsLexeme (entries sc atLineStart) b.pending y ∧ (y = x ∨ y.Precedes x)) := by
  have hsound := validate_eq_ok_iff.1 ht
  refine ⟨fun s hs => ?_, ?_, fun h0 sc atLineStart b hstate hbol hb hgrows x hx => ?_⟩
  · refine ⟨t.rulesOf s, hsound.rulesAt_eq hs, hsound.rulesOf_pairwise hs, ?_, ?_⟩
    · rw [hsound.ruleAt_eq hs, hsound.ruleOf_eq_head hs]
    · rw [hsound.ruleAt_eq hs, Except.ok.injEq]
      exact hsound.ruleOf_eq_zero_iff hs
  · refine hsound.zero_notMem_lists_iff.trans (forall_congr' fun s => forall_congr' fun hs => ?_)
    simp [hsound.rulesAt_eq hs]
  · exact longestMatch_of_isLexeme hsound h0 hstate hbol hb hgrows hx

/-- Tables of two rules that both take one byte, the first one only before another byte. -/
def twoRules : Tables where
  classOf := Array.replicate 256 0
  base := #[0, 0, 1, 0]
  check := #[0, 2]
  next := #[1, 3]
  fallback := #[-1, -1, -1, -1]
  accept := #[0, 1, 0, 1]
  contextOf := #[0, 2]
  acceptLists := #[[], [1, 2], [], [1]]

/-- The second rule takes the last byte, although the state behind it reads as one of the first rule. -/
theorem acceptance_agrees_twoRules : twoRules.ruleAt 1 = .ok 1 ∧ twoRules.rulesAt 1 = .ok [1, 2] ∧
    ∃ (y : Lexeme) (b' : Buffer),
      twoRules.longestMatch {} true { settings := {}, source := .ofBytes [97] } =
        .ok (.accepted y.rule y.head) b' ∧ (y = ⟨2, 1, 1⟩ ∨ y.Precedes ⟨2, 1, 1⟩) := by
  let b : Buffer := { settings := {}, source := .ofBytes [97] }
  have hfirst : (match twoRules.longestMatch {} true b with
      | .ok (.accepted 2 1) _ => true
      | _ => false) = true := by decide +kernel
  have hvalid : twoRules.validate = .ok () := by decide +kernel
  obtain ⟨hstates, -, hcompetes⟩ := acceptance_agrees hvalid
  have hrules : twoRules.rulesAt 1 = .ok [1, 2] := by decide +kernel
  obtain ⟨rules, heq, -, hrule, -⟩ := hstates 1 (by decide)
  obtain rfl : [1, 2] = rules := Except.ok.inj (hrules.symm.trans heq)
  refine ⟨hrule, hrules, ?_⟩
  obtain ⟨y, b', hrun, -, hy⟩ := hcompetes (by decide) {} true b (by decide) (by decide)
    ⟨rfl, by decide⟩
    (fun n b' hfull => by
      rw [hfull] at hfirst
      exact Bool.noConfusion hfirst)
    ⟨2, 1, 1⟩ ⟨⟨0, by decide, by decide, by decide, 1, by decide +kernel, by decide +kernel⟩, rfl⟩
  exact ⟨y, b', hrun, hy⟩

/-- Tables of a rule that takes any one byte, in a list that begins with rule 0. -/
def reserved : Tables :=
  { oneByte with accept := #[0, 0], acceptLists := #[[], [0, 7]] }

/-- A list that begins with rule 0 passes the checks. Its state is read as one that accepts no rule, and
the rule behind it does not match. -/
theorem reserved_never_matches : reserved.validate = .ok () ∧ reserved.rulesAt 1 = .ok [0, 7] ∧
    reserved.ruleAt 1 = .ok 0 ∧
    ∃ b', reserved.longestMatch {} true { settings := {}, source := .ofBytes [97] } =
      .ok .noMatch b' := by
  have hfirst : (match reserved.longestMatch {} true { settings := {}, source := .ofBytes [97] } with
      | .ok .noMatch _ => true
      | _ => false) = true := by decide +kernel
  refine ⟨by decide +kernel, by decide +kernel, by decide +kernel, ?_⟩
  split at hfirst
  · rename_i b' hrun
    exact ⟨b', hrun⟩
  · exact Bool.noConfusion hfirst

end Tables

end Munch
