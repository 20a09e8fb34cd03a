-- SUMMARY: Packing succeeds exactly on well-formed descriptions and keeps what they mean.
import Munch.Proofs.Automaton.Columns
import Munch.Proofs.Automaton.Rows

/-! # Packed descriptions

`Automaton.WellFormed` is what a description has to satisfy to be packed, and `Tables.Realizes` what
the tables then say about it. Classes, fallbacks and shared slots do not show in either. -/

namespace Munch

namespace Automaton

/-- Every number in a description that stands for a rule or a state is one. -/
structure WellFormed (a : Automaton) : Prop where
  states : 0 < a.size
  rules : ∀ n ∈ a.nodes, 0 ∉ n.accept
  targets : ∀ n ∈ a.nodes, ∀ e ∈ n.edges, e.target.toNat < a.size
  contexts : ∀ tc ∈ a.trailingContexts,
    tc.rule ≠ 0 ∧ 0 < tc.state.toNat ∧ tc.state.toNat < a.size
  starts : ∀ sc ∈ a.initial :: a.startConditions.map (·.condition),
    sc.state.toNat < a.size ∧ sc.bolState.toNat < a.size

end Automaton

/-- The tables say of each state, byte and rule what the description says. -/
structure Tables.Realizes (t : Tables) (a : Automaton) : Prop where
  stateCount_eq : t.stateCount = a.size
  /-- A state goes along the last edge that takes the byte, and dies if none does. -/
  step : ∀ s n, a.nodes[s]? = some n → ∀ byte, ∃ c, t.byteClass byte = .ok c ∧
    (∀ e, IsLast (fun e => e.first ≤ byte ∧ byte ≤ e.last) n.edges e →
      t.transition s c = .ok (some e.target.toNat)) ∧
    ((∀ e ∈ n.edges, ¬ (e.first ≤ byte ∧ byte ≤ e.last)) → t.transition s c = .ok none)
  /-- The accepted rules ascend, each once. -/
  rules : ∀ s n, a.nodes[s]? = some n → ∃ rules, t.rulesAt s = .ok rules ∧
    rules.Pairwise (· < ·) ∧ ∀ rule, rule ∈ rules ↔ ∃ r ∈ n.accept, r.toNat = rule
  /-- The accepted rule is the smallest, or 0 if there is none. -/
  rule : ∀ s n, a.nodes[s]? = some n → ∃ rule, t.ruleAt s = .ok rule ∧
    (n.accept = [] → rule = 0) ∧
    (n.accept ≠ [] → (∃ r ∈ n.accept, r.toNat = rule) ∧ ∀ r ∈ n.accept, rule ≤ r.toNat)
  /-- The context of a rule starts where the last declaration says. -/
  context : ∀ rule, (∀ tc, IsLast (fun tc => tc.rule.toNat = rule) a.trailingContexts tc →
      t.trailingStart? rule = .ok (some tc.state.toNat)) ∧
    ((∀ tc ∈ a.trailingContexts, tc.rule.toNat ≠ rule) → t.trailingStart? rule = .ok none)
  startConditions_eq : t.startConditions = a.startConditions
  initial_eq : t.initial = a.initial

namespace Automaton

variable {a : Automaton}

/-! ## References -/

theorem nodeFault?_eq_none_iff {s : Nat} {n : Node} : a.nodeFault? s n = none ↔
    0 ∉ n.accept ∧ ∀ e ∈ n.edges, e.target.toNat < a.size := by
  unfold nodeFault?
  by_cases h0 : 0 ∈ n.accept
  · rw [if_pos (List.contains_iff_mem.2 h0)]
    exact ⟨fun h => (nomatch h), fun h => absurd h0 h.1⟩
  · rw [if_neg (mt List.contains_iff_mem.1 h0), Option.map_eq_none_iff, List.find?_eq_none]
    simp only [decide_eq_true_iff, Nat.not_le, h0, not_false_iff, true_and]

theorem trailingFault?_eq_none_iff : a.trailingFault? = none ↔ ∀ tc ∈ a.trailingContexts,
    tc.rule ≠ 0 ∧ 0 < tc.state.toNat ∧ tc.state.toNat < a.size := by
  rw [trailingFault?, Option.map_eq_none_iff, List.find?_eq_none]
  refine forall₂_congr fun tc _ => ?_
  have hstate : tc.state = 0 ↔ tc.state.toNat = 0 := UInt64.toNat_inj.symm
  simp only [Bool.or_eq_true, beq_iff_eq, decide_eq_true_iff, not_or, Nat.not_le, hstate,
    Nat.pos_iff_ne_zero, and_assoc, ne_eq]

theorem nodeFaults_eq_none_iff :
    a.nodes.toList.zipIdx.findSome? (fun (n, s) => a.nodeFault? s n) = none ↔
      ∀ n ∈ a.nodes, 0 ∉ n.accept ∧ ∀ e ∈ n.edges, e.target.toNat < a.size := by
  rw [List.findSome?_eq_none_iff]
  constructor
  · intro h n hmem
    obtain ⟨s, hs⟩ := List.mem_iff_getElem?.1 (Array.mem_toList_iff.2 hmem)
    exact nodeFault?_eq_none_iff.1 (h (n, s) (List.mk_mem_zipIdx_iff_getElem?.2 hs))
  · rintro h ⟨n, s⟩ hmem
    refine nodeFault?_eq_none_iff.2 (h n (Array.mem_toList_iff.1 ?_))
    exact List.mem_of_getElem? (List.mk_mem_zipIdx_iff_getElem?.1 hmem)

theorem checkReferences_eq_ok_iff : a.checkReferences = .ok () ↔
    (∀ n ∈ a.nodes, 0 ∉ n.accept ∧ ∀ e ∈ n.edges, e.target.toNat < a.size) ∧
      ∀ tc ∈ a.trailingContexts, tc.rule ≠ 0 ∧ 0 < tc.state.toNat ∧ tc.state.toNat < a.size := by
  rw [← nodeFaults_eq_none_iff, ← trailingFault?_eq_none_iff, ← Option.or_eq_none_iff,
    checkReferences]
  split
  · rename_i fault hsome
    apply iff_of_false
    · intro h
      cases h
    · intro hnone
      cases hsome.symm.trans hnone
  · rename_i hnone
    exact iff_of_true rfl hnone

/-! ## Transitions -/

theorem getElem?_rows {s : State} {n : Node} (hs : a.nodes[s]? = some n) :
    (a.rows a.byteClasses)[s]? = some (a.byteClasses.representatives.map n.step?) := by
  rw [rows, List.getElem?_map, Array.getElem?_toList, hs, Option.map_some]

theorem mem_rows {row : Row} (h : row ∈ a.rows a.byteClasses) :
    ∃ n ∈ a.nodes, row = a.byteClasses.representatives.map n.step? := by
  obtain ⟨n, hmem, rfl⟩ := List.mem_map.1 h
  exact ⟨n, Array.mem_toList_iff.1 hmem, rfl⟩

theorem toTables_packs (hsize : a.size * 256 < 2 ^ 31) :
    a.toTables.Packs (a.rows a.byteClasses) a.byteClasses.count where
  base_eq := rfl
  check_eq := rfl
  next_eq := rfl
  fallback_eq := rfl
  width_eq row h := by
    obtain ⟨n, -, rfl⟩ := mem_rows h
    exact List.length_map _
  count := by
    rw [rows, List.length_map, Array.length_toList]
    exact Nat.lt_of_le_of_lt (Nat.le_mul_of_pos_right _ (by decide)) hsize
  size := by
    rw [rows, List.length_map, Array.length_toList]
    exact Nat.lt_of_le_of_lt (Nat.mul_le_mul_left _ ByteClasses.count_le) hsize

theorem stateCount_toTables (hsize : a.size * 256 < 2 ^ 31) : a.toTables.stateCount = a.size := by
  rw [(toTables_packs hsize).stateCount_eq, rows, List.length_map, Array.length_toList, size]

theorem rows_targets (h : ∀ n ∈ a.nodes, ∀ e ∈ n.edges, e.target.toNat < a.size) :
    ∀ row ∈ a.rows a.byteClasses, ∀ s, some s ∈ row → s < a.size := by
  intro row hrow s hs
  obtain ⟨n, hn, rfl⟩ := mem_rows hrow
  obtain ⟨byte, -, hstep⟩ := List.mem_map.1 hs
  obtain ⟨e, he, rfl⟩ := Node.exists_edge hstep
  exact h n hn e he

/-- A packed lookup goes where the described state goes. -/
theorem transition_toTables (hsize : a.size * 256 < 2 ^ 31)
    (htargets : ∀ n ∈ a.nodes, ∀ e ∈ n.edges, e.target.toNat < a.size) {s : State} {n : Node}
    (hs : a.nodes[s]? = some n) (byte : UInt8) :
    ∃ c, a.toTables.byteClass byte = .ok c ∧ a.toTables.transition s c = .ok (n.step? byte) := by
  obtain ⟨c, hc, rep, hrep, hkey⟩ := ByteClasses.exists_representative a.column byte
  have hlt : c < a.byteClasses.count := ByteClasses.lt_count (List.mem_of_getElem? hc)
  have hclass : a.toTables.byteClass byte = .ok c := by
    have hentry : a.toTables.classOf[byte.toNat]? = some (UInt32.ofNat c) := by
      rw [toTables, List.getElem?_toArray, List.getElem?_map, byteClasses, hc, Option.map_some]
    have hsmall : c < UInt32.size :=
      Nat.lt_of_lt_of_le hlt (Nat.le_trans ByteClasses.count_le (by decide))
    rw [Tables.byteClass, lookup, hentry]
    exact congrArg Except.ok (UInt32.toNat_ofNat_of_lt' hsmall)
  -- The representative of the class takes the state where the byte does.
  have hcolumn : n.step? rep = n.step? byte := by
    have hat := congrArg (fun column => column[s]?) hkey
    simpa only [column, List.getElem?_map, Array.getElem?_toList, hs, Option.map_some,
      Option.some.injEq] using hat
  have hslt : s < a.toTables.stateCount := by
    obtain ⟨hslt, -⟩ := Array.getElem?_eq_some_iff.1 hs
    rwa [stateCount_toTables hsize]
  refine ⟨c, hclass, ?_⟩
  have hsmall : a.size < 2 ^ 31 :=
    Nat.lt_of_le_of_lt (Nat.le_mul_of_pos_right _ (by decide)) hsize
  refine (toTables_packs hsize).walk_eq hsmall (rows_targets htargets) hlt s s
    (Nat.lt_succ_of_lt hslt) (getElem?_rows hs) ?_
  rw [List.getElem?_map, byteClasses, hrep, Option.map_some, hcolumn]

end Automaton

/-! ## Soundness -/

namespace Tables.Packs

variable {t : Tables} {rows : List Row} {width : Nat}

theorem rows_le (h : t.Packs rows width) {base : UInt32} (hbase : base ∈ t.base) :
    base.toNat + width ≤ t.check.size := by
  obtain ⟨s, hs⟩ := Array.mem_iff_getElem?.1 hbase
  obtain ⟨hlt, -⟩ := Array.getElem?_eq_some_iff.1 hs
  have hlt' : s < rows.length := h.stateCount_eq ▸ hlt
  obtain ⟨entry, hentry, hoffset⟩ := h.getElem?_base hlt'
  obtain rfl := Option.some.inj (hs.symm.trans hentry)
  rw [hoffset, h.check_eq, Array.size_map]
  exact h.holds.row_le s (by rw [Automaton.length_stored]; exact hlt')

/-- Every slot is free, or owned by a state and leading where its row does. -/
theorem slot_cases (h : t.Packs rows width) {slot : Slot}
    (hslot : slot ∈ (Automaton.layOut rows width).slots) : slot = .free ∨
      ∃ s < rows.length, ∃ row ∈ rows, ∃ target ∈ row,
        slot = ⟨Int32.ofNat s, State.toEntry target⟩ := by
  obtain ⟨k, hk⟩ := Array.mem_iff_getElem?.1 hslot
  rcases h.holds.owned k slot hk with hfree | ⟨s, entries, c, target, hs, hmem, -, rfl⟩
  · exact .inl hfree
  · obtain ⟨hlt, -⟩ := List.getElem?_eq_some_iff.1 hs
    rw [Automaton.length_stored] at hlt
    have hrow := List.getElem?_eq_getElem hlt
    have hstored := Automaton.getElem?_stored hrow (Automaton.getElem?_fallbacks hrow)
    obtain rfl := Option.some.inj (hs.symm.trans hstored)
    exact .inr ⟨s, hlt, _, List.getElem_mem hlt, target,
      List.mem_of_getElem? (Row.getElem?_of_mem_entries hmem), rfl⟩

theorem owners_lt (h : t.Packs rows width) {entry : Int32} (hentry : entry ∈ t.check) :
    entry.toInt < rows.length := by
  rw [h.check_eq] at hentry
  obtain ⟨slot, hslot, rfl⟩ := Array.mem_map.1 hentry
  rcases h.slot_cases hslot with rfl | ⟨s, hs, -, -, -, -, rfl⟩
  · exact Int.lt_of_lt_of_le (by decide) (Int.natCast_nonneg _)
  · have howner : (Int32.ofNat s).toInt = s := Int32.toInt_ofNat_of_lt (Nat.lt_trans hs h.count)
    rw [howner]
    exact Int.ofNat_lt.2 hs

theorem targets_lt (h : t.Packs rows width)
    (htargets : ∀ row ∈ rows, ∀ s, some s ∈ row → s < rows.length) {entry : Int32}
    (hentry : entry ∈ t.next) : entry.toInt < rows.length := by
  rw [h.next_eq] at hentry
  obtain ⟨slot, hslot, rfl⟩ := Array.mem_map.1 hentry
  rcases h.slot_cases hslot with rfl | ⟨-, -, row, hrow, target, htarget, rfl⟩
  · exact Int.lt_of_lt_of_le (by decide) (Int.natCast_nonneg _)
  · refine State.toInt_toEntry_lt h.count fun s hs => htargets row hrow s ?_
    exact Option.mem_def.1 hs ▸ htarget

theorem fallbacks_lt (h : t.Packs rows width) {entry : Int32} (hentry : entry ∈ t.fallback) :
    entry.toInt < rows.length := by
  rw [h.fallback_eq, List.mem_toArray] at hentry
  obtain ⟨fallback, hfallback, rfl⟩ := List.mem_map.1 hentry
  obtain ⟨s, hs⟩ := List.mem_iff_getElem?.1 hfallback
  obtain ⟨hlt, -⟩ := List.getElem?_eq_some_iff.1 hs
  rw [Automaton.length_fallbacks] at hlt
  refine State.toInt_toEntry_lt h.count fun d hd => ?_
  obtain rfl := Option.mem_def.1 hd
  exact Nat.lt_trans (Automaton.fallback_lt hs) hlt

/-- Fallbacks descend, so their chains end. -/
theorem fallbackEnds_eq (h : t.Packs rows width) (s : State) :
    ∀ steps, s < rows.length → s < steps → t.fallbackEnds steps s = true := by
  induction s using Nat.strongRecOn with
  | ind s ih =>
    intro steps hs hle
    cases steps with
    | zero => exact absurd hle (Nat.not_lt_zero s)
    | succ steps =>
      have hfallback := Automaton.getElem?_fallbacks (List.getElem?_eq_getElem hs)
      rw [fallbackEnds, fallsTo?, h.getElem?_fallback hfallback, Option.bind_some,
        State.ofEntry?_toEntry (h.fallback_bound hs hfallback)]
      cases hd : rows[s].chooseFallback (rows.take s) with
      | none => rfl
      | some d =>
        have hlt : d < s := Automaton.fallback_lt (hd ▸ hfallback)
        exact ih d hlt steps (Nat.lt_trans hlt hs) (Nat.lt_of_lt_of_le hlt (Nat.le_of_lt_succ hle))

end Tables.Packs

namespace Automaton

variable {a : Automaton}

theorem classCount_le {t : Tables} {n : Nat} (h : ∀ c ∈ t.classOf, c.toNat < n) :
    t.classCount ≤ n := by
  unfold Tables.classCount
  rw [← Array.foldl_toList]
  apply List.foldlRecOn (motive := fun m => m ≤ n)
  · exact Nat.zero_le n
  · intro m hm c hc
    exact Nat.max_le.2 ⟨hm, h c (Array.mem_toList_iff.1 hc)⟩

theorem classCount_toTables : a.toTables.classCount ≤ a.byteClasses.count := by
  apply classCount_le
  intro entry hentry
  obtain ⟨c, hc, rfl⟩ := List.mem_map.1 (List.mem_toArray.1 hentry)
  rw [UInt32.toNat_ofNat']
  exact Nat.lt_of_le_of_lt (Nat.mod_le _ _) (ByteClasses.lt_count hc)

theorem contexts_toTables (hpos : 0 < a.size)
    (h : ∀ tc ∈ a.trailingContexts, tc.state.toNat < a.size) {entry : UInt32}
    (hentry : entry ∈ a.trailingColumn) : entry.toNat < a.size := by
  obtain ⟨rule, hrule⟩ := Array.mem_iff_getElem?.1 hentry
  have hread := getD_trailingColumn (a := a) rule
  rw [hrule, Option.getD_some] at hread
  rw [hread]
  cases htc : a.contextOf? rule with
  | none => exact hpos
  | some tc =>
    have hlt := h tc (mem_of_contextOf? htc)
    rw [Option.elim_some, UInt64.toNat_toUInt32]
    exact Nat.lt_of_le_of_lt (Nat.mod_le _ _) hlt

/-- Lists that were kept start with the accepted rule and ascend. -/
theorem lists_toTables {rules : List UInt32} {rule : UInt32}
    (h : (rules, rule) ∈ a.toTables.acceptLists.zip a.toTables.accept) :
    rules.head?.getD 0 = rule ∧ Tables.ascending rules = true := by
  obtain ⟨s, hs⟩ := Array.mem_iff_getElem?.1 h
  obtain ⟨hrules, hrule⟩ := Array.getElem?_zip_eq_some.1 hs
  rw [acceptLists_toTables] at hrules
  split at hrules
  · rw [Array.getElem?_map, Option.map_eq_some_iff] at hrules
    obtain ⟨n, hn, rfl⟩ := hrules
    have haccept : a.toTables.accept[s]? = some (n.rules.head?.getD 0) := by
      simp only [toTables, Array.getElem?_map, hn, Option.map_some]
    exact ⟨Option.some.inj (haccept.symm.trans hrule), Tables.ascending_iff.2 n.pairwise_rules⟩
  · cases hrules

/-- The tables of a well-formed description pass all checks. -/
theorem toTables_sound (hsize : a.size * 256 < 2 ^ 31) (h : a.WellFormed) : a.toTables.Sound := by
  have hpacks := toTables_packs hsize
  have hcount := stateCount_toTables hsize
  have hrows : (a.rows a.byteClasses).length = a.toTables.stateCount := hpacks.stateCount_eq.symm
  have htargets := rows_targets h.targets
  have hsmall : a.size < 2 ^ 31 :=
    Nat.lt_of_le_of_lt (Nat.le_mul_of_pos_right _ (by decide)) hsize
  constructor
  case classOf_size =>
    simp only [toTables, List.size_toArray, List.length_map]
    exact ByteClasses.length_classOf
  case states => exact hcount.symm ▸ h.states
  case fallback_size =>
    rw [← hrows, ← length_fallbacks, hpacks.fallback_eq, List.size_toArray, List.length_map]
  case accept_size =>
    rw [hcount]
    simp only [toTables, Array.size_map, size]
  case next_size => simp only [toTables, Array.size_map]
  case rows =>
    intro base hbase
    exact Nat.le_trans (Nat.add_le_add_left classCount_toTables _) (hpacks.rows_le hbase)
  case owners =>
    intro entry hentry
    exact hrows ▸ hpacks.owners_lt hentry
  case targets =>
    intro entry hentry
    rw [← hrows]
    refine hpacks.targets_lt (fun row hrow s hs => ?_) hentry
    rw [hrows, hcount]
    exact htargets row hrow s hs
  case fallbacks =>
    intro entry hentry
    exact hrows ▸ hpacks.fallbacks_lt hentry
  case fallbackEnds =>
    intro s hs
    exact hpacks.fallbackEnds_eq s _ (hrows ▸ hs) hs
  case contexts =>
    intro entry hentry
    rw [hcount]
    exact contexts_toTables h.states (fun tc htc => (h.contexts tc htc).2.2) hentry
  case listCount =>
    intro hne
    rw [hcount, acceptLists_toTables]
    rw [acceptLists_toTables] at hne
    split at hne
    · rename_i hany
      rw [if_pos hany, Array.size_map, size]
    · cases hne
  case lists =>
    intro _ entry hentry
    exact lists_toTables hentry
  case starts =>
    rw [hcount]
    exact h.starts

/-! ## What the tables say -/

theorem toTables_realizes (hsize : a.size * 256 < 2 ^ 31) (h : a.WellFormed) :
    a.toTables.Realizes a := by
  have hsmall : a.size < 2 ^ 31 :=
    Nat.lt_of_le_of_lt (Nat.le_mul_of_pos_right _ (by decide)) hsize
  constructor
  case stateCount_eq => exact stateCount_toTables hsize
  case step =>
    intro s n hs byte
    obtain ⟨c, hc, hstep⟩ := transition_toTables hsize h.targets hs byte
    refine ⟨c, hc, fun e he => ?_, fun hnone => ?_⟩
    · rw [hstep, Node.step?_of_isLast he]
    · rw [hstep, Node.step?_of_uncovered hnone]
  case rules =>
    intro s n hs
    refine ⟨_, rulesAt_toTables h.rules hs, ?_, fun rule => ?_⟩
    · exact n.pairwise_rules.map _ fun r r' hlt => UInt32.lt_iff_toNat_lt.1 hlt
    · simp only [List.mem_map, Node.mem_rules]
  case rule =>
    intro s n hs
    refine ⟨_, ruleAt_toTables hs, fun hnil => ?_, fun hne => ?_⟩
    · have hrules : n.rules = [] := by
        refine List.eq_nil_iff_forall_not_mem.2 fun r hr => ?_
        exact absurd (Node.mem_rules.1 hr) (hnil ▸ List.not_mem_nil)
      rw [hrules]
      rfl
    · obtain ⟨r, hr⟩ := List.exists_mem_of_ne_nil _ hne
      obtain ⟨first, hfirst⟩ : ∃ first, n.rules.head? = some first := by
        cases hrules : n.rules with
        | nil => exact absurd (Node.mem_rules.2 hr) (hrules ▸ List.not_mem_nil)
        | cons first rest => exact ⟨first, rfl⟩
      rw [hfirst, Option.getD_some]
      refine ⟨⟨first, Node.mem_rules.1 (List.mem_of_head? hfirst), rfl⟩, fun r' hr' => ?_⟩
      exact UInt32.le_iff_toNat_le.1 (Node.head_rules_le hfirst hr')
  case context =>
    intro rule
    have hread := trailingStart?_toTables hsmall (stateCount_toTables hsize)
      (fun tc htc => (h.contexts tc htc).2) rule
    refine ⟨fun tc htc => ?_, fun hnone => ?_⟩
    · rw [hread, contextOf?_of_isLast htc, Option.map_some]
    · rw [hread, contextOf?_of_undeclared hnone, Option.map_none]
  case startConditions_eq => rfl
  case initial_eq => rfl

/-! ## Packing -/

theorem pack_eq_ok_iff {t : Tables} : a.pack = .ok t ↔
    a.checkReferences = .ok () ∧ a.toTables.validate = .ok () ∧ a.toTables = t := by
  unfold pack
  cases a.checkReferences with
  | error fault => exact ⟨fun h => (nomatch h), fun h => (nomatch h.1)⟩
  | ok u =>
    show (a.toTables.validate >>= fun _ => pure a.toTables) = .ok t ↔ _
    cases a.toTables.validate with
    | error fault => exact ⟨fun h => (nomatch h), fun h => (nomatch h.2.1)⟩
    | ok u => exact ⟨fun h => ⟨rfl, rfl, Except.ok.inj h⟩, fun h => congrArg Except.ok h.2.2⟩

theorem wellFormed_of_pack (hsize : a.size * 256 < 2 ^ 31) {t : Tables} (h : a.pack = .ok t) :
    a.WellFormed := by
  obtain ⟨hrefs, hvalid, -⟩ := pack_eq_ok_iff.1 h
  obtain ⟨hnodes, hcontexts⟩ := checkReferences_eq_ok_iff.1 hrefs
  have hsound := Tables.validate_eq_ok_iff.1 hvalid
  have hcount := stateCount_toTables hsize
  exact ⟨hcount ▸ hsound.states, fun n hn => (hnodes n hn).1, fun n hn => (hnodes n hn).2,
    hcontexts, hcount ▸ hsound.starts⟩

theorem pack_of_wellFormed (hsize : a.size * 256 < 2 ^ 31) (h : a.WellFormed) :
    a.pack = .ok a.toTables := by
  apply pack_eq_ok_iff.2
  refine ⟨?_, Tables.validate_eq_ok_iff.2 (toTables_sound hsize h), rfl⟩
  exact checkReferences_eq_ok_iff.2 ⟨fun n hn => ⟨h.rules n hn, h.targets n hn⟩, h.contexts⟩

/-- Packing succeeds on well-formed descriptions and on no others, and what it returns is valid and
says what the description says. -/
theorem pack_realizes (hsize : a.size * 256 < 2 ^ 31) :
    ((∃ t, a.pack = .ok t) ↔ a.WellFormed) ∧
      ∀ t, a.pack = .ok t → t.validate = .ok () ∧ t.Realizes a := by
  constructor
  · constructor
    · intro h
      obtain ⟨t, ht⟩ := h
      exact wellFormed_of_pack hsize ht
    · intro h
      exact ⟨a.toTables, pack_of_wellFormed hsize h⟩
  · intro t ht
    have hwf := wellFormed_of_pack hsize ht
    obtain ⟨-, hvalid, rfl⟩ := pack_eq_ok_iff.1 ht
    exact ⟨hvalid, toTables_realizes hsize hwf⟩

/-- Two states. The first keeps on over letters, but the letter q leads to the second. -/
def untilQ : Automaton where
  nodes := #[{ edges := [⟨97, 122, 0⟩, ⟨113, 113, 1⟩] }, { accept := [2, 1, 2] }]

theorem pack_realizes_untilQ : untilQ.size * 256 < 2 ^ 31 ∧
    ∃ t, untilQ.pack = .ok t ∧ t.validate = .ok () ∧ t.Realizes untilQ := by
  have hsize : untilQ.size * 256 < 2 ^ 31 := by decide
  obtain ⟨hiff, hrealizes⟩ := pack_realizes hsize
  obtain ⟨t, ht⟩ := hiff.2 ⟨by decide, by decide, by decide, by decide, by decide⟩
  exact ⟨hsize, t, ht, hrealizes t ht⟩

end Automaton

end Munch
