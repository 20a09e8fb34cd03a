-- SUMMARY: The accept lists and trailing contexts of packed tables say what the description says.
import Mathlib.Algebra.Group.Nat.Defs
import Munch.Automaton.Pack
import Munch.Proofs.Automaton.Classes
import Munch.Proofs.Tables.Run

/-! # Accepted rules and trailing contexts

The columns beside the transitions are filled from the description state by state, or declaration by
declaration. Of several edges on a byte, and of several contexts of a rule, the last one counts. -/

namespace Munch

/-! ## The last of a list -/

/-- An element that has a property, with none behind it that has it too. -/
def IsLast {α : Type} (p : α → Prop) (l : List α) (a : α) : Prop :=
  ∃ before after, l = before ++ a :: after ∧ p a ∧ ∀ b ∈ after, ¬ p b

theorem find?_reverse_eq_some_iff {α : Type} {p : α → Bool} {l : List α} {a : α} :
    l.reverse.find? p = some a ↔ IsLast (fun a => p a = true) l a := by
  rw [List.find?_eq_some_iff_append]
  constructor
  · rintro ⟨hp, after, before, hl, hnone⟩
    refine ⟨before.reverse, after.reverse, ?_, hp, fun b hb hpb => ?_⟩
    · rw [← List.reverse_reverse l, hl]
      simp only [List.reverse_append, List.reverse_cons, List.append_assoc, List.singleton_append]
    · have hbad := hnone b (List.mem_reverse.1 hb)
      rw [hpb] at hbad
      exact Bool.noConfusion hbad
  · rintro ⟨before, after, rfl, hp, hnone⟩
    refine ⟨hp, after.reverse, before.reverse, ?_, fun b hb => ?_⟩
    · simp only [List.reverse_append, List.reverse_cons, List.append_assoc, List.singleton_append]
    · exact Bool.not_eq_true' _ ▸ Bool.eq_false_iff.2 (hnone b (List.mem_reverse.1 hb))

/-! ## Nodes -/

namespace Node

theorem covers_iff {e : Edge} {byte : UInt8} :
    e.covers byte = true ↔ e.first ≤ byte ∧ byte ≤ e.last := by
  rw [Edge.covers, Bool.and_eq_true, decide_eq_true_iff, decide_eq_true_iff]

theorem step?_of_isLast {n : Node} {byte : UInt8} {e : Edge}
    (h : IsLast (fun e => e.first ≤ byte ∧ byte ≤ e.last) n.edges e) :
    n.step? byte = some e.target.toNat := by
  simp only [← covers_iff] at h
  rw [step?, find?_reverse_eq_some_iff.2 h, Option.map_some]

theorem step?_of_uncovered {n : Node} {byte : UInt8}
    (h : ∀ e ∈ n.edges, ¬ (e.first ≤ byte ∧ byte ≤ e.last)) : n.step? byte = none := by
  rw [step?, Option.map_eq_none_iff, List.find?_eq_none]
  intro e he
  rw [covers_iff]
  exact h e (List.mem_reverse.1 he)

/-- A live step leads to the target of an edge. -/
theorem exists_edge {n : Node} {byte : UInt8} {s : State} (h : n.step? byte = some s) :
    ∃ e ∈ n.edges, e.target.toNat = s := by
  obtain ⟨e, he, rfl⟩ := Option.map_eq_some_iff.1 h
  exact ⟨e, List.mem_reverse.1 (List.mem_of_find?_eq_some he), rfl⟩

theorem mem_rules {n : Node} {rule : UInt32} : rule ∈ n.rules ↔ rule ∈ n.accept := by
  rw [rules, List.mem_eraseDups, List.mem_mergeSort]

theorem pairwise_rules (n : Node) : n.rules.Pairwise (· < ·) := by
  refine pairwise_lt_eraseDups ?_
  have hsorted : (n.accept.mergeSort fun a b => decide (a ≤ b)).Pairwise
      fun a b => decide (a ≤ b) = true := by
    refine List.pairwise_mergeSort (fun a b c hab hbc => ?_) (fun a b => ?_) n.accept
    · exact decide_eq_true (UInt32.le_trans (of_decide_eq_true hab) (of_decide_eq_true hbc))
    · rw [Bool.or_eq_true, decide_eq_true_iff, decide_eq_true_iff]
      exact UInt32.le_total a b
  exact hsorted.imp of_decide_eq_true

/-- The first of the rules is the smallest. -/
theorem head_rules_le {n : Node} {rule rule' : UInt32} (h : n.rules.head? = some rule)
    (h' : rule' ∈ n.accept) : rule ≤ rule' := by
  obtain ⟨rest, hrules⟩ := List.head?_eq_some_iff.1 h
  have hmem : rule' ∈ rule :: rest := hrules ▸ mem_rules.2 h'
  rcases List.mem_cons.1 hmem with rfl | hmem
  · exact UInt32.le_refl _
  · have hsorted := n.pairwise_rules
    rw [hrules] at hsorted
    exact UInt32.le_of_lt (List.rel_of_pairwise_cons hsorted hmem)

end Node

namespace Automaton

variable {a : Automaton}

/-! ## Accepted rules -/

theorem ruleAt_toTables {s : State} {n : Node} (hs : a.nodes[s]? = some n) :
    a.toTables.ruleAt s = .ok (n.rules.head?.getD 0).toNat := by
  have haccept : a.toTables.accept[s]? = some (n.rules.head?.getD 0) := by
    simp only [toTables, Array.getElem?_map, hs, Option.map_some]
  rw [Tables.ruleAt, lookup, haccept]
  rfl

theorem acceptLists_toTables : a.toTables.acceptLists =
    if (a.nodes.map (·.rules)).any (fun rules => 1 < rules.length) then a.nodes.map (·.rules)
    else #[] :=
  rfl

/-- The lists say the same where they are left out. -/
theorem rulesAt_toTables (h0 : ∀ n ∈ a.nodes, 0 ∉ n.accept) {s : State} {n : Node}
    (hs : a.nodes[s]? = some n) : a.toTables.rulesAt s = .ok (n.rules.map (·.toNat)) := by
  have hlist : (a.nodes.map (·.rules))[s]? = some n.rules := by
    rw [Array.getElem?_map, hs, Option.map_some]
  unfold Tables.rulesAt
  rw [acceptLists_toTables, ruleAt_toTables hs]
  by_cases hany : (a.nodes.map (·.rules)).any (fun rules => 1 < rules.length) = true
  · have hne : (a.nodes.map (·.rules)).isEmpty = false := by
      rw [Array.isEmpty_eq_false_iff]
      intro hnil
      rw [hnil] at hlist
      cases hlist
    rw [if_pos hany, hne, if_neg Bool.false_ne_true, lookup, hlist]
    rfl
  · have hshort : n.rules.length ≤ 1 := by
      have hall := mt Array.any_eq_true'.2 hany
      refine Nat.le_of_not_lt fun hlong => hall ⟨n.rules, ?_, decide_eq_true hlong⟩
      exact Array.mem_of_getElem? hlist
    rw [if_neg hany]
    cases hrules : n.rules with
    | nil => rfl
    | cons rule rest =>
      rw [hrules, List.length_cons] at hshort
      obtain rfl := List.length_eq_zero_iff.1 (Nat.le_zero.1 (Nat.le_of_succ_le_succ hshort))
      have hne : rule.toNat ≠ 0 := by
        intro hzero
        have hmem : rule ∈ n.accept := Node.mem_rules.1 (hrules ▸ List.mem_cons_self)
        exact h0 n (Array.mem_of_getElem? hs) ((UInt32.toNat_inj.1 hzero : rule = 0) ▸ hmem)
      exact congrArg Except.ok (if_neg hne)

/-! ## Trailing contexts -/

theorem getElem?_contexts (l : List TrailingContext) (column : Array UInt32) (k : Nat) :
    (l.foldl (fun column tc => column.setIfInBounds tc.rule.toNat tc.state.toUInt32) column)[k]? =
      column[k]?.map fun entry =>
        (l.reverse.find? (·.rule.toNat == k)).elim entry (·.state.toUInt32) := by
  induction l using List.reverseRecOn with
  | nil =>
    rw [List.foldl_nil]
    cases column[k]? <;> rfl
  | append_singleton l tc ih =>
    rw [List.foldl_append, List.foldl_cons, List.foldl_nil, Array.getElem?_setIfInBounds,
      List.reverse_append, List.reverse_singleton, List.singleton_append, List.find?_cons]
    by_cases hk : tc.rule.toNat = k
    · simp only [hk, beq_self_eq_true, if_true, Option.elim_some]
      cases hentry : column[k]? with
      | none =>
        rw [hentry, Option.map_none, Array.getElem?_eq_none_iff] at ih
        exact if_neg (Nat.not_lt.2 ih)
      | some entry =>
        rw [hentry, Option.map_some] at ih
        obtain ⟨hlt, -⟩ := Array.getElem?_eq_some_iff.1 ih
        exact if_pos hlt
    · rw [if_neg hk, ih, beq_eq_false_iff_ne.2 hk]

theorem lt_contextCount (l : List TrailingContext) (size : Nat) :
    size ≤ l.foldl (fun n tc => max n (tc.rule.toNat + 1)) size ∧
      ∀ tc ∈ l, tc.rule.toNat < l.foldl (fun n tc => max n (tc.rule.toNat + 1)) size := by
  induction l generalizing size with
  | nil => exact ⟨Nat.le_refl size, fun _ h => nomatch h⟩
  | cons tc rest ih =>
    obtain ⟨hle, hlt⟩ := ih (max size (tc.rule.toNat + 1))
    refine ⟨Nat.le_trans (Nat.le_max_left _ _) hle, fun tc' hmem => ?_⟩
    rcases List.mem_cons.1 hmem with rfl | hmem
    · exact Nat.lt_of_lt_of_le (Nat.lt_succ_self _) (Nat.le_trans (Nat.le_max_right _ _) hle)
    · exact hlt tc' hmem

/-- The last context declared for a rule; none if there is none. -/
def contextOf? (a : Automaton) (rule : Rule) : Option TrailingContext :=
  a.trailingContexts.reverse.find? (·.rule.toNat == rule)

theorem contextOf?_of_isLast {rule : Rule} {tc : TrailingContext}
    (h : IsLast (fun tc => tc.rule.toNat = rule) a.trailingContexts tc) :
    a.contextOf? rule = some tc := by
  refine find?_reverse_eq_some_iff.2 ?_
  simpa only [beq_iff_eq] using h

theorem contextOf?_of_undeclared {rule : Rule}
    (h : ∀ tc ∈ a.trailingContexts, tc.rule.toNat ≠ rule) : a.contextOf? rule = none := by
  refine List.find?_eq_none.2 fun tc hmem => ?_
  rw [beq_iff_eq]
  exact h tc (List.mem_reverse.1 hmem)

theorem mem_of_contextOf? {rule : Rule} {tc : TrailingContext} (h : a.contextOf? rule = some tc) :
    tc ∈ a.trailingContexts :=
  List.mem_reverse.1 (List.mem_of_find?_eq_some h)

theorem getD_trailingColumn (rule : Rule) : a.trailingColumn[rule]?.getD 0 =
    (a.contextOf? rule).elim 0 (·.state.toUInt32) := by
  unfold trailingColumn
  rw [getElem?_contexts, Array.getElem?_replicate]
  split
  · rfl
  · rename_i hout
    have hnone : a.contextOf? rule = none := by
      apply contextOf?_of_undeclared
      intro tc hmem hrule
      exact hout (hrule ▸ (lt_contextCount a.trailingContexts 0).2 tc hmem)
    rw [hnone]
    rfl

/-- The column is read as the last declaration says, if all declared states are states. -/
theorem trailingStart?_toTables (hsize : a.size < 2 ^ 31)
    (hcount : a.toTables.stateCount = a.size)
    (h : ∀ tc ∈ a.trailingContexts, 0 < tc.state.toNat ∧ tc.state.toNat < a.size) (rule : Rule) :
    a.toTables.trailingStart? rule = .ok ((a.contextOf? rule).map (·.state.toNat)) := by
  have hentry := getD_trailingColumn (a := a) rule
  have hread : a.toTables.trailingStart? rule =
      if a.trailingColumn[rule]?.getD 0 = 0 then .ok none
      else some <$> a.toTables.checkState (a.trailingColumn[rule]?.getD 0) := by
    have hcolumn : a.toTables.contextOf = a.trailingColumn := rfl
    unfold Tables.trailingStart?
    rw [hcolumn]
    cases a.trailingColumn[rule]? with
    | none => rfl
    | some entry => rfl
  rw [hread, hentry]
  cases htc : a.contextOf? rule with
  | none => rfl
  | some tc =>
    obtain ⟨hpos, hlt⟩ := h tc (mem_of_contextOf? htc)
    have hnat : tc.state.toUInt32.toNat = tc.state.toNat := by
      rw [UInt64.toNat_toUInt32]
      exact Nat.mod_eq_of_lt (Nat.lt_trans hlt (Nat.lt_trans hsize (by decide)))
    have hne : tc.state.toUInt32 ≠ 0 := by
      intro hzero
      rw [hzero] at hnat
      exact absurd hnat (Nat.ne_of_lt hpos)
    rw [Option.elim_some, if_neg hne, Tables.checkState, hcount, hnat, if_pos hlt]
    rfl

end Automaton

end Munch
