-- SUMMARY: The walk along a fallback chain without a bound, and that the bounded one gives its result wherever it ends.
import Munch.Proofs.Tables.Fallback
import Munch.Tables.Lookup

/-! # Walks

A transition is looked up along the fallback chain of a state, in as many rounds as there are states and
one more. This is enough on any tables, checked or not: all states of a chain but the last one have a
row, and a chain that ends does not come back to a state. -/

namespace Munch

namespace Tables

/-! ## Walks without a bound -/

/-- The slot for a class in the row of a state, if the state has a row. -/
def slot? (t : Tables) (c : ByteClass) (s : State) : Option Nat :=
  t.base[s]?.map fun base => base.toNat + c

/-- The walk for a class from a state ends with a result: that of the first state which owns its slot or
falls back to the dead state, or the fault of the first entry that does not exist. -/
inductive Walks (t : Tables) (c : ByteClass) : State → Except TableFault (Option State) → Prop where
  | noRow {s : State} : t.base[s]? = none → t.Walks c s (.error (.noRow s))
  | noOwner {s : State} {slot : Nat} : t.slot? c s = some slot → t.check[slot]? = none →
      t.Walks c s (.error (.checkOutOfRange slot s))
  | noTarget {s : State} {slot : Nat} {owner : Int32} : t.slot? c s = some slot →
      t.check[slot]? = some owner → owner.toInt = s → t.next[slot]? = none →
      t.Walks c s (.error (.nextOutOfRange slot))
  | target {s : State} {slot : Nat} {owner entry : Int32} : t.slot? c s = some slot →
      t.check[slot]? = some owner → owner.toInt = s → t.next[slot]? = some entry →
      t.Walks c s (.ok (State.ofEntry? entry))
  | noFallback {s : State} {slot : Nat} {owner : Int32} : t.slot? c s = some slot →
      t.check[slot]? = some owner → owner.toInt ≠ s → t.fallback[s]? = none →
      t.Walks c s (.error (.noFallback s))
  | dead {s : State} {slot : Nat} {owner entry : Int32} : t.slot? c s = some slot →
      t.check[slot]? = some owner → owner.toInt ≠ s → t.fallback[s]? = some entry →
      State.ofEntry? entry = none → t.Walks c s (.ok none)
  | onward {s d : State} {slot : Nat} {owner entry : Int32}
      {result : Except TableFault (Option State)} : t.slot? c s = some slot →
      t.check[slot]? = some owner → owner.toInt ≠ s → t.fallback[s]? = some entry →
      State.ofEntry? entry = some d → t.Walks c d result → t.Walks c s result

/-! ## Chains of states that hand on -/

/-- The state that the walk goes on at, where it does not end. -/
def handsOn? (t : Tables) (c : ByteClass) (s : State) : Option State :=
  (t.slot? c s).bind fun slot => t.check[slot]?.bind fun owner =>
    if owner.toInt = s then none else t.fallsTo? s

variable {t : Tables} {c : ByteClass} {s d origin : State} {l : List State}

/-- A state that hands on has a row. -/
theorem lt_of_handsOn? (h : t.handsOn? c s = some d) : s < t.stateCount := by
  obtain ⟨slot, hslot, -⟩ := Option.bind_eq_some_iff.1 h
  obtain ⟨base, hbase, -⟩ := Option.map_eq_some_iff.1 hslot
  exact (Array.getElem?_eq_some_iff.1 hbase).1

/-- A chain visits each state at most once, and at its end one number that is none. -/
theorem length_le_of_visits (h : Visits (t.handsOn? c) s l) : l.length ≤ t.stateCount + 1 := by
  have hrows : ∀ x ∈ l.dropLast, x < t.stateCount := by
    intro x hx
    obtain ⟨d, hd⟩ := h.next_of_mem_dropLast hx
    exact lt_of_handsOn? hd
  have hle := length_le_of_nodup (h.nodup.sublist l.dropLast_sublist) hrows
  rw [List.length_dropLast] at hle
  omega

/-! ## The bounded walk -/

/-- One round of the walk. -/
theorem walk_succ (steps : Nat) : t.walk origin c (steps + 1) s =
    match t.slot? c s with
    | none => .error (.noRow s)
    | some slot =>
      match t.check[slot]? with
      | none => .error (.checkOutOfRange slot s)
      | some owner =>
        if owner.toInt = s then State.ofEntry? <$> lookup t.next slot (.nextOutOfRange slot)
        else
          match t.fallback[s]? with
          | none => .error (.noFallback s)
          | some entry =>
            match State.ofEntry? entry with
            | some d => t.walk origin c steps d
            | none => .ok none := by
  rw [walk, slot?, lookup]
  cases t.base[s]? with
  | none => rfl
  | some base =>
    simp only [Option.map_some, lookup, bind, Except.bind]
    cases t.check[base.toNat + c]? with
    | none => rfl
    | some owner =>
      simp only
      split
      · cases t.next[base.toNat + c]? <;> rfl
      · cases t.fallback[s]? <;> rfl

/-- A walk that ends does so along a chain, and the bounded one has its result if the bound admits the
chain. -/
theorem Walks.visits {result : Except TableFault (Option State)} (h : t.Walks c s result) :
    ∃ l, Visits (t.handsOn? c) s l ∧ ∀ origin more, t.walk origin c (more + l.length) s = result := by
  induction h with
  | @onward s d slot owner entry result hslot howner hne hentry hd _ ih =>
    obtain ⟨l, hl, hwalk⟩ := ih
    have hon : t.handsOn? c s = some d := by simp [handsOn?, fallsTo?, *]
    refine ⟨s :: l, .onward hon hl, fun origin more => ?_⟩
    rw [List.length_cons, ← Nat.add_assoc, walk_succ]
    simp [*]
  | @noRow s hbase =>
    refine ⟨[s], .last ?_, fun origin more => ?_⟩
    · simp [handsOn?, slot?, hbase]
    · simp [walk_succ, slot?, hbase]
  | @noOwner s | @noTarget s | @target s | @noFallback s | @dead s =>
    refine ⟨[s], .last ?_, fun origin more => ?_⟩
    · simp [handsOn?, fallsTo?, *]
    · simp [walk_succ, lookup, *]

/-- The result of a walk is never that it does not end. -/
theorem Walks.ne_endless {result : Except TableFault (Option State)} (h : t.Walks c s result) :
    result ≠ .error (.endlessFallback origin) := by
  induction h <;> simp_all

/-- The bounded walk has the result of the unbounded one, unless it meets its bound. -/
theorem walk_endless_or (steps : Nat) : t.walk origin c steps s = .error (.endlessFallback origin) ∨
    t.Walks c s (t.walk origin c steps s) := by
  induction steps generalizing s with
  | zero => exact .inl rfl
  | succ steps ih =>
    rw [walk_succ]
    cases hslot : t.slot? c s with
    | none => exact .inr (.noRow (by simpa [slot?] using hslot))
    | some slot =>
      dsimp only
      cases howner : t.check[slot]? with
      | none => exact .inr (.noOwner hslot howner)
      | some owner =>
        dsimp only
        split
        case isTrue howns =>
          cases hentry : t.next[slot]? with
          | none => simpa [lookup, hentry] using Walks.noTarget hslot howner howns hentry
          | some entry => simpa [lookup, hentry] using Walks.target hslot howner howns hentry
        case isFalse hne =>
          cases hentry : t.fallback[s]? with
          | none => exact .inr (.noFallback hslot howner hne hentry)
          | some entry =>
            cases hd : State.ofEntry? entry with
            | none => simpa [hd] using Walks.dead hslot howner hne hentry hd
            | some d => simpa [hd] using ih.imp_right (.onward hslot howner hne hentry hd)

/-- The bounded walk is the unbounded one, on all tables. Where the walk ends, a transition has its
result, be it a state, the dead state or a fault, and the fault of an endless chain is reported if and
only if the walk never ends. -/
theorem transition_walks (t : Tables) (s : State) (c : ByteClass) :
    (∀ result, t.Walks c s result → t.transition s c = result) ∧
    (t.transition s c = .error (.endlessFallback s) ↔ ¬ ∃ result, t.Walks c s result) := by
  have hends : ∀ result, t.Walks c s result → t.transition s c = result := by
    intro result h
    obtain ⟨l, hl, hwalk⟩ := h.visits
    obtain ⟨more, hmore⟩ := Nat.exists_eq_add_of_le' (length_le_of_visits hl)
    rw [transition, hmore]
    exact hwalk s more
  refine ⟨hends, ?_, fun hnone => ?_⟩
  · rintro heq ⟨result, h⟩
    exact h.ne_endless ((hends result h).symm.trans heq)
  · exact (walk_endless_or _).resolve_right fun h => hnone ⟨_, h⟩

/-- The last round is needed by a chain that visits all states and then leaves the tables. -/
example :
    let t : Tables := { base := #[0], check := #[-1], fallback := #[1] }
    t.walk 0 0 t.stateCount 0 = .error (.endlessFallback 0) ∧ t.transition 0 0 = .error (.noRow 1) := by
  decide

end Tables

end Munch
