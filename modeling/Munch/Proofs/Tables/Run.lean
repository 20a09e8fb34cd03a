-- SUMMARY: Runs of the automaton that sound tables encode: every lookup succeeds and leads to states.
import Mathlib.Data.List.Induction
import Munch.Match.Longest
import Munch.Proofs.Tables.Sound

/-! # Runs

The automaton behind packed tables, read as total functions: where a state goes on a byte, where a
run over some bytes ends, which rules a state accepts. On sound tables every lookup that starts from
a state agrees with them. -/

namespace Munch

namespace Tables

/-- Where a state goes on a byte; none if that is nowhere. -/
def step? (t : Tables) (s : State) (byte : UInt8) : Option State :=
  (t.byteClass byte >>= t.transition s).toOption.join

/-- Where a run from a state over some bytes ends; none if it dies on the way. -/
def run? (t : Tables) (s : State) (bytes : List UInt8) : Option State :=
  bytes.foldlM t.step? s

/-- The rules that a state accepts. -/
def rulesOf (t : Tables) (s : State) : List Rule :=
  (t.rulesAt s).toOption.getD []

/-- The first rule that a state accepts; 0 if there is none. -/
def ruleOf (t : Tables) (s : State) : Rule :=
  (t.ruleAt s).toOption.getD 0

/-- The state in which the trailing context of a rule starts; none if the rule has no context. -/
def contextStart? (t : Tables) (rule : Rule) : Option State :=
  (t.trailingStart? rule).toOption.join

/-- The active entry states of an attempt. -/
def entries (sc : StartCondition) (atLineStart : Bool) : List State :=
  sc.state.toNat :: if atLineStart && sc.hasOwnBol then [sc.bolState.toNat] else []

/-! ## Runs piece by piece -/

@[simp] theorem run?_nil (t : Tables) (s : State) : t.run? s [] = some s := rfl

theorem run?_append (t : Tables) (s : State) (u v : List UInt8) :
    t.run? s (u ++ v) = (t.run? s u).bind (t.run? · v) :=
  List.foldlM_append

theorem run?_concat (t : Tables) (s : State) (u : List UInt8) (x : UInt8) :
    t.run? s (u ++ [x]) = (t.run? s u).bind (t.step? · x) := by
  rw [run?_append]
  congr 1
  funext s'
  exact bind_pure (t.step? s' x)

/-! ## Entry states -/

theorem entryStates_lt (t : Tables) {sc : StartCondition} {entries : State × State}
    (h : t.entryStates sc = .ok entries) :
    sc.state.toNat < t.stateCount ∧ sc.bolState.toNat < t.stateCount := by
  unfold entryStates checkState at h
  by_cases hstate : sc.state.toNat < t.stateCount
  · by_cases hbol : sc.bolState.toNat < t.stateCount
    · exact ⟨hstate, hbol⟩
    · rw [if_pos hstate, if_neg hbol] at h
      cases h
  · rw [if_neg hstate] at h
    cases h

/-! ## Lookups on sound tables -/

theorem lookup_eq_ok {α : Type} {column : Array α} {i : Nat} (missing : TableFault)
    (h : i < column.size) : lookup column i missing = .ok column[i] := by
  unfold lookup
  rw [Array.getElem?_eq_getElem h]

theorem le_foldl_max (classes : List UInt32) (n : Nat) :
    n ≤ classes.foldl (fun n c => max n (c.toNat + 1)) n ∧
      ∀ c ∈ classes, c.toNat < classes.foldl (fun n c => max n (c.toNat + 1)) n := by
  induction classes generalizing n with
  | nil => exact ⟨Nat.le_refl n, fun c h => nomatch h⟩
  | cons d rest ih =>
    obtain ⟨hle, hlt⟩ := ih (max n (d.toNat + 1))
    refine ⟨Nat.le_trans (Nat.le_max_left _ _) hle, fun c hc => ?_⟩
    rcases List.mem_cons.1 hc with rfl | hc
    · exact Nat.lt_of_lt_of_le (Nat.lt_succ_self _) (Nat.le_trans (Nat.le_max_right _ _) hle)
    · exact hlt c hc

theorem lt_classCount {t : Tables} {c : UInt32} (h : c ∈ t.classOf) : c.toNat < t.classCount := by
  unfold classCount
  rw [← Array.foldl_toList]
  exact (le_foldl_max t.classOf.toList 0).2 c (Array.mem_toList_iff.2 h)

theorem toNat_lt_of_ofEntry? {entry : Int32} {s : State} {n : Nat} (hn : entry.toInt < n)
    (h : State.ofEntry? entry = some s) : s < n := by
  unfold State.ofEntry? at h
  split at h
  · cases h
  · rename_i hpos
    cases h
    exact (Int.toNat_lt (Int.not_lt.1 hpos)).2 hn

namespace Sound

variable {t : Tables}

theorem byteClass (h : t.Sound) (byte : UInt8) :
    ∃ c, t.byteClass byte = .ok c ∧ c < t.classCount := by
  have hbyte : byte.toNat < t.classOf.size := by
    rw [h.classOf_size]
    exact byte.toNat_lt
  refine ⟨t.classOf[byte.toNat].toNat, ?_, lt_classCount (Array.getElem_mem hbyte)⟩
  unfold Tables.byteClass
  rw [lookup_eq_ok _ hbyte]
  rfl

/-- A walk along a fallback chain that ends finds a state or the dead one. -/
theorem walk (h : t.Sound) {c : ByteClass} (hc : c < t.classCount) (origin : State) :
    ∀ (k steps : Nat) (s : State), s < t.stateCount → t.fallbackEnds k s = true → k ≤ steps →
      ∃ o, t.walk origin c steps s = .ok o ∧ ∀ s' ∈ o, s' < t.stateCount := by
  intro k
  induction k with
  | zero =>
    intro steps s _ hends _
    cases hends
  | succ k ih =>
    intro steps s hs hends hle
    obtain ⟨steps, rfl⟩ : ∃ n, steps = n + 1 := ⟨steps - 1, by omega⟩
    have hbase : s < t.base.size := hs
    have hslot : t.base[s].toNat + c < t.check.size :=
      Nat.lt_of_lt_of_le (Nat.add_lt_add_left hc _) (h.rows t.base[s] (Array.getElem_mem hbase))
    have hnext : t.base[s].toNat + c < t.next.size := h.next_size ▸ hslot
    have hfallback : s < t.fallback.size := h.fallback_size ▸ hs
    simp only [Tables.walk, lookup_eq_ok _ hbase, lookup_eq_ok _ hslot, lookup_eq_ok _ hnext,
      lookup_eq_ok _ hfallback, ok_bind]
    split
    · refine ⟨_, rfl, fun s' hs' => ?_⟩
      exact toNat_lt_of_ofEntry? (h.targets _ (Array.getElem_mem hnext)) hs'
    · cases hd : State.ofEntry? t.fallback[s] with
      | none => exact ⟨none, rfl, fun s' hs' => nomatch hs'⟩
      | some d =>
        have hdlt := toNat_lt_of_ofEntry? (h.fallbacks _ (Array.getElem_mem hfallback)) hd
        refine ih steps d hdlt ?_ (Nat.le_of_succ_le_succ hle)
        rw [Tables.fallbackEnds, fallsTo?, Array.getElem?_eq_getElem hfallback, Option.bind_some,
          hd] at hends
        exact hends

theorem transition (h : t.Sound) {c : ByteClass} (hc : c < t.classCount) {s : State}
    (hs : s < t.stateCount) :
    ∃ o, t.transition s c = .ok o ∧ ∀ s' ∈ o, s' < t.stateCount :=
  h.walk hc s t.stateCount (t.stateCount + 1) s hs (h.fallbackEnds s hs) (Nat.le_succ _)

/-! ## Steps and runs on sound tables -/

theorem step?_eq (h : t.Sound) {byte : UInt8} {c : ByteClass} (hc : t.byteClass byte = .ok c)
    {s : State} (hs : s < t.stateCount) : t.transition s c = .ok (t.step? s byte) := by
  obtain ⟨c', hc', hlt⟩ := h.byteClass byte
  obtain rfl : c = c' := Except.ok.inj (hc.symm.trans hc')
  obtain ⟨o, ho, -⟩ := h.transition hlt hs
  rw [step?, hc, ok_bind, ho]
  rfl

theorem step?_lt (h : t.Sound) {s s' : State} {byte : UInt8} (hs : s < t.stateCount)
    (hstep : t.step? s byte = some s') : s' < t.stateCount := by
  obtain ⟨c, hc, hlt⟩ := h.byteClass byte
  obtain ⟨o, ho, hrange⟩ := h.transition hlt hs
  obtain rfl : o = t.step? s byte := Except.ok.inj (ho.symm.trans (h.step?_eq hc hs))
  exact hrange s' hstep

theorem run?_lt (h : t.Sound) {s : State} (hs : s < t.stateCount) {u : List UInt8} :
    ∀ {s'}, t.run? s u = some s' → s' < t.stateCount := by
  induction u using List.reverseRecOn with
  | nil =>
    intro s' hrun
    exact Option.some.inj hrun ▸ hs
  | append_singleton u x ih =>
    intro s' hrun
    rw [run?_concat] at hrun
    obtain ⟨s₀, hs₀, hstep⟩ := Option.bind_eq_some_iff.1 hrun
    exact h.step?_lt (ih hs₀) hstep

/-! ## Acceptance on sound tables -/

theorem ruleAt_eq (h : t.Sound) {s : State} (hs : s < t.stateCount) :
    t.ruleAt s = .ok (t.ruleOf s) := by
  have haccept : s < t.accept.size := h.accept_size ▸ hs
  unfold ruleOf Tables.ruleAt
  rw [lookup_eq_ok _ haccept]
  rfl

theorem accepts_eq (h : t.Sound) {s : State} (hs : s < t.stateCount) :
    t.accepts s = .ok (t.ruleOf s != 0) := by
  unfold Tables.accepts
  rw [h.ruleAt_eq hs]
  rfl

theorem rulesAt_eq (h : t.Sound) {s : State} (hs : s < t.stateCount) :
    t.rulesAt s = .ok (t.rulesOf s) := by
  unfold rulesOf Tables.rulesAt
  split
  · rw [h.ruleAt_eq hs]
    rfl
  · rename_i hlists
    have hlist : s < t.acceptLists.size := by
      rw [h.listCount (Bool.not_eq_true _ ▸ hlists)]
      exact hs
    rw [lookup_eq_ok _ hlist]
    rfl

theorem rulesOf_of_isEmpty (h : t.Sound) (hl : t.acceptLists.isEmpty = true) {s : State}
    (hs : s < t.stateCount) : t.rulesOf s = if t.ruleOf s = 0 then [] else [t.ruleOf s] := by
  unfold rulesOf Tables.rulesAt
  rw [if_pos hl, h.ruleAt_eq hs]
  rfl

theorem rulesOf_eq_list (h : t.Sound) (hl : t.acceptLists.isEmpty = false) {s : State}
    (hs : s < t.stateCount) : ∃ hlist : s < t.acceptLists.size,
      t.rulesOf s = t.acceptLists[s].map (·.toNat) := by
  have hlist : s < t.acceptLists.size := h.listCount hl ▸ hs
  refine ⟨hlist, ?_⟩
  unfold rulesOf Tables.rulesAt
  rw [if_neg (by rw [hl]; exact Bool.false_ne_true), lookup_eq_ok _ hlist]
  rfl

/-- The list of a state, if there are lists, ascends from its accepted rule. -/
theorem list_eq (h : t.Sound) (hl : t.acceptLists.isEmpty = false) {s : State}
    (hlist : s < t.acceptLists.size) (haccept : s < t.accept.size) :
    t.acceptLists[s].head?.getD 0 = t.accept[s] ∧ ascending t.acceptLists[s] = true := by
  have hzip : s < (t.acceptLists.zip t.accept).size := by
    rw [Array.size_zip]
    exact Nat.lt_min.2 ⟨hlist, haccept⟩
  have hentry := h.lists hl _ (Array.getElem_mem hzip)
  rwa [Array.getElem_zip] at hentry

/-- The first of the accepted rules is the accepted rule. -/
theorem ruleOf_eq_head (h : t.Sound) {s : State} (hs : s < t.stateCount) :
    t.ruleOf s = (t.rulesOf s).head?.getD 0 := by
  cases hl : t.acceptLists.isEmpty with
  | true =>
    rw [h.rulesOf_of_isEmpty hl hs]
    split
    · assumption
    · rfl
  | false =>
    obtain ⟨hlist, hrules⟩ := h.rulesOf_eq_list hl hs
    have haccept : s < t.accept.size := h.accept_size ▸ hs
    have hrule : t.ruleOf s = t.accept[s].toNat := by
      unfold ruleOf Tables.ruleAt
      rw [lookup_eq_ok _ haccept]
      rfl
    rw [hrule, hrules, ← (h.list_eq hl hlist haccept).1, List.head?_map]
    cases t.acceptLists[s].head? <;> rfl

theorem zero_notMem_rulesOf (h : t.Sound) (h0 : ∀ rules ∈ t.acceptLists, 0 ∉ rules) {s : State}
    (hs : s < t.stateCount) : 0 ∉ t.rulesOf s := by
  cases hl : t.acceptLists.isEmpty with
  | true =>
    rw [h.rulesOf_of_isEmpty hl hs]
    split
    · exact List.not_mem_nil
    · rename_i hne
      exact fun hmem => hne (List.mem_singleton.1 hmem).symm
  | false =>
    obtain ⟨hlist, hrules⟩ := h.rulesOf_eq_list hl hs
    rw [hrules]
    intro hmem
    obtain ⟨rule, hrule, hzero⟩ := List.mem_map.1 hmem
    exact h0 _ (Array.getElem_mem hlist) ((UInt32.toNat_inj.1 hzero : rule = 0) ▸ hrule)

/-- Where no list names rule 0, a state has an accepted rule if it has any rule at all. -/
theorem ruleOf_ne_zero_iff (h : t.Sound) (h0 : ∀ rules ∈ t.acceptLists, 0 ∉ rules) {s : State}
    (hs : s < t.stateCount) : t.ruleOf s ≠ 0 ↔ t.rulesOf s ≠ [] := by
  have hzero := h.zero_notMem_rulesOf h0 hs
  rw [h.ruleOf_eq_head hs]
  cases hr : t.rulesOf s with
  | nil => exact ⟨fun h => absurd rfl h, fun h => absurd rfl h⟩
  | cons rule rest =>
    rw [hr] at hzero
    refine ⟨fun _ => List.cons_ne_nil _ _, fun _ hrule => hzero ?_⟩
    exact List.mem_cons.2 (.inl hrule.symm)

theorem trailingStart?_eq (h : t.Sound) (rule : Rule) :
    t.trailingStart? rule = .ok (t.contextStart? rule) := by
  unfold contextStart? Tables.trailingStart?
  cases he : t.contextOf[rule]? with
  | none => rfl
  | some entry =>
    by_cases h0 : entry = 0
    · simp only [h0, if_true]
      rfl
    · have hlt : entry.toNat < t.stateCount := h.contexts entry (Array.mem_of_getElem? he)
      simp only [h0, if_false, checkState, hlt, if_true]
      rfl

theorem contextStart?_lt (h : t.Sound) {rule : Rule} {q : State}
    (hq : t.contextStart? rule = some q) : q < t.stateCount := by
  have heq := h.trailingStart?_eq rule
  rw [hq, Tables.trailingStart?] at heq
  cases he : t.contextOf[rule]? with
  | none =>
    rw [he] at heq
    cases heq
  | some entry =>
    have hlt : entry.toNat < t.stateCount := h.contexts entry (Array.mem_of_getElem? he)
    simp only [he, checkState, hlt, if_true] at heq
    split at heq
    · cases heq
    · cases heq
      exact hlt

end Sound

end Tables

end Munch
