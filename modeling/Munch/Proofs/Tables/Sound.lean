-- SUMMARY: What checked tables promise, as one structure that holds exactly if the checks pass.
import Munch.Proofs.Tables.Fallback

/-! # Sound tables

`Tables.validate` is a sequence of checks, each of which reads as a rule on one or two columns.
`Tables.Sound` collects these rules. -/

namespace Munch

/-! ## Checks in sequence -/

theorem ok_bind {ε α β : Type} (a : α) (f : α → Except ε β) : (Except.ok a >>= f) = f a := rfl

theorem then_eq_ok_iff {ε : Type} {r s : Except ε Unit} :
    (r >>= fun _ => s) = .ok () ↔ r = .ok () ∧ s = .ok () := by
  cases r with
  | ok u => exact ⟨fun h => ⟨rfl, h⟩, fun h => h.2⟩
  | error e => exact ⟨fun h => (nomatch h), fun h => (nomatch h.1)⟩

theorem demand_eq_ok_iff {holds : Bool} {fault : TableFault} :
    demand holds fault = .ok () ↔ holds = true := by
  cases holds with
  | false => exact ⟨fun h => (nomatch h), fun h => (nomatch h)⟩
  | true => exact ⟨fun _ => rfl, fun _ => rfl⟩

theorem forbid_eq_ok_iff {α : Type} {column : Array α} {bad : α → Bool}
    {fault : Nat → α → TableFault} :
    forbid column bad fault = .ok () ↔ ∀ entry ∈ column, bad entry = false := by
  unfold forbid
  cases h : column.toList.zipIdx.find? (fun entry => bad entry.1) with
  | some found =>
    refine ⟨fun h => (nomatch h), fun hall => ?_⟩
    have hbad := List.find?_some h
    have hmem := List.mem_of_find?_eq_some h
    have hentry := hall found.1 (Array.mem_toList_iff.1 (List.fst_mem_of_mem_zipIdx hmem))
    rw [hentry] at hbad
    exact Bool.noConfusion hbad
  | none =>
    refine ⟨fun _ entry hmem => ?_, fun _ => rfl⟩
    obtain ⟨i, hi, rfl⟩ := List.mem_iff_getElem.1 (Array.mem_toList_iff.2 hmem)
    have hnone := List.find?_eq_none.1 h (column.toList[i], i)
      (List.mk_mem_zipIdx_iff_getElem?.2 (List.getElem?_eq_getElem hi))
    simpa using hnone

namespace Tables

/-! ## The rules -/

/-- The rules that the checks enforce. -/
structure Sound (t : Tables) : Prop where
  classOf_size : t.classOf.size = 256
  states : 0 < t.stateCount
  fallback_size : t.fallback.size = t.stateCount
  accept_size : t.accept.size = t.stateCount
  next_size : t.next.size = t.check.size
  rows : ∀ base ∈ t.base, base.toNat + t.classCount ≤ t.check.size
  owners : ∀ entry ∈ t.check, entry.toInt < t.stateCount
  targets : ∀ entry ∈ t.next, entry.toInt < t.stateCount
  fallbacks : ∀ entry ∈ t.fallback, entry.toInt < t.stateCount
  fallbackEnds : ∀ s < t.stateCount, t.fallbackEnds t.stateCount s = true
  contexts : ∀ entry ∈ t.contextOf, entry.toNat < t.stateCount
  listCount : t.acceptLists.isEmpty = false → t.acceptLists.size = t.stateCount
  lists : t.acceptLists.isEmpty = false → ∀ entry ∈ t.acceptLists.zip t.accept,
    entry.1.head?.getD 0 = entry.2 ∧ ascending entry.1 = true
  starts : ∀ sc ∈ t.allStartConditions,
    sc.state.toNat < t.stateCount ∧ sc.bolState.toNat < t.stateCount

theorem checkShape_eq_ok_iff {t : Tables} : t.checkShape = .ok () ↔
    t.classOf.size = 256 ∧ 0 < t.stateCount ∧
      (t.fallback.size = t.stateCount ∧ t.accept.size = t.stateCount) ∧
      t.next.size = t.check.size := by
  simp only [checkShape, then_eq_ok_iff, demand_eq_ok_iff, beq_iff_eq, bne_iff_ne,
    Bool.and_eq_true, Nat.pos_iff_ne_zero, @eq_comm _ t.check.size]

theorem checkRows_eq_ok_iff {t : Tables} : t.checkRows = .ok () ↔
    ∀ base ∈ t.base, base.toNat + t.classCount ≤ t.check.size := by
  simp only [checkRows, forbid_eq_ok_iff, decide_eq_false_iff_not, Nat.not_lt]

theorem checkEntries_eq_ok_iff {t : Tables} : t.checkEntries = .ok () ↔
    (∀ entry ∈ t.check, entry.toInt < t.stateCount) ∧
      (∀ entry ∈ t.next, entry.toInt < t.stateCount) ∧
      ∀ entry ∈ t.fallback, entry.toInt < t.stateCount := by
  simp only [checkEntries, then_eq_ok_iff, forbid_eq_ok_iff, inRange, Bool.not_eq_false',
    decide_eq_true_eq]

theorem checkTrailing_eq_ok_iff {t : Tables} : t.checkTrailing = .ok () ↔
    ∀ entry ∈ t.contextOf, entry.toNat < t.stateCount := by
  simp only [checkTrailing, forbid_eq_ok_iff, decide_eq_false_iff_not, Nat.not_le]

theorem ascending_iff {rules : List UInt32} : ascending rules = true ↔ rules.Pairwise (· < ·) := by
  rw [← List.isChain_iff_pairwise]
  fun_induction ascending rules with
  | case1 a b rest ih => simp [ih]
  | case2 rules hshort =>
    match rules, hshort with
    | [], _ => simp
    | [a], _ => simp
    | a :: b :: rest, hshort => exact absurd rfl (hshort a b rest)

theorem checkAcceptLists_eq_ok_iff {t : Tables} : t.checkAcceptLists = .ok () ↔
    (t.acceptLists.isEmpty = false → t.acceptLists.size = t.stateCount) ∧
      (t.acceptLists.isEmpty = false → ∀ entry ∈ t.acceptLists.zip t.accept,
        entry.1.head?.getD 0 = entry.2 ∧ ascending entry.1 = true) := by
  unfold checkAcceptLists
  cases h : t.acceptLists.isEmpty with
  | true => exact ⟨fun _ => ⟨fun h => (nomatch h), fun h => (nomatch h)⟩, fun _ => rfl⟩
  | false =>
    simp only [Bool.false_eq_true, if_false, then_eq_ok_iff, demand_eq_ok_iff, forbid_eq_ok_iff,
      beq_iff_eq, Bool.not_eq_false', Bool.and_eq_true, true_imp_iff]

theorem checkStartConditions_eq_ok_iff {t : Tables} : t.checkStartConditions = .ok () ↔
    ∀ sc ∈ t.allStartConditions,
      sc.state.toNat < t.stateCount ∧ sc.bolState.toNat < t.stateCount := by
  simp only [checkStartConditions, forbid_eq_ok_iff, List.mem_toArray, Bool.or_eq_false_iff,
    decide_eq_false_iff_not, Nat.not_le]

theorem validate_eq_ok_iff {t : Tables} : t.validate = .ok () ↔ t.Sound := by
  simp only [validate, then_eq_ok_iff, checkShape_eq_ok_iff, checkRows_eq_ok_iff,
    checkEntries_eq_ok_iff, checkTrailing_eq_ok_iff, checkAcceptLists_eq_ok_iff,
    checkStartConditions_eq_ok_iff]
  constructor
  · rintro ⟨⟨h₁, h₂, ⟨h₃, h₄⟩, h₅⟩, h₆, ⟨h₇, h₈, h₉⟩, h₁₀, h₁₁, ⟨h₁₂, h₁₃⟩, h₁₄⟩
    have hends := (checkFallbacks_eq_ok_iff ⟨h₃, h₉⟩).1 h₁₀
    exact ⟨h₁, h₂, h₃, h₄, h₅, h₆, h₇, h₈, h₉, hends, h₁₁, h₁₂, h₁₃, h₁₄⟩
  · intro h
    have hcheck := (checkFallbacks_eq_ok_iff ⟨h.fallback_size, h.fallbacks⟩).2 h.fallbackEnds
    exact ⟨⟨h.classOf_size, h.states, ⟨h.fallback_size, h.accept_size⟩, h.next_size⟩, h.rows,
      ⟨h.owners, h.targets, h.fallbacks⟩, hcheck, h.contexts, ⟨h.listCount, h.lists⟩, h.starts⟩

end Tables

end Munch
