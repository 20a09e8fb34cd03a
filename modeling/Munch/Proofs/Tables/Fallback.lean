-- SUMMARY: Fallback chains: which of them end, and that the search by marks reports the first state whose chain does not.
import Mathlib.Data.List.Perm.Subperm
import Mathlib.Logic.Relation
import Munch.Tables.Valid

/-! # Fallback chains

Going on from a state by a partial function either ends or comes back to a state visited before. A chain
that ends visits each state at most once, so it is no longer than there are states. The search for
cycles does not count: it marks the states on its path, and the states of earlier paths, and never
looks at a state twice. -/

namespace Munch

/-! ## Chains that end -/

/-- Going on from a state by `next` visits the listed states, and ends at the last of them. -/
inductive Visits (next : State → Option State) : State → List State → Prop where
  | last {s : State} : next s = none → Visits next s [s]
  | onward {s d : State} {rest : List State} :
      next s = some d → Visits next d rest → Visits next s (s :: rest)

namespace Visits

variable {next : State → Option State} {s : State} {l l' : List State}

theorem unique (h : Visits next s l) (h' : Visits next s l') : l = l' := by
  induction h generalizing l' with
  | last hnone =>
    cases h' with
    | last => rfl
    | onward hd _ => simp [hnone] at hd
  | onward hd _ ih =>
    cases h' with
    | last hnone => simp [hnone] at hd
    | onward hd' hrest =>
      obtain rfl := Option.some.inj (hd.symm.trans hd')
      rw [ih hrest]

/-- Each visited state begins a chain of its own, which is no longer. -/
theorem of_mem (h : Visits next s l) {x : State} (hx : x ∈ l) :
    ∃ l', Visits next x l' ∧ l'.length ≤ l.length := by
  induction h with
  | last hnone =>
    obtain rfl := List.mem_singleton.1 hx
    exact ⟨_, .last hnone, Nat.le_refl _⟩
  | onward hd hrest ih =>
    rcases List.mem_cons.1 hx with rfl | hx
    · exact ⟨_, .onward hd hrest, Nat.le_refl _⟩
    · obtain ⟨l', hl', hle⟩ := ih hx
      exact ⟨l', hl', Nat.le_succ_of_le hle⟩

/-- A chain that ends does not come back to a state. -/
theorem nodup (h : Visits next s l) : l.Nodup := by
  induction h with
  | last => simp
  | @onward s d rest hd hrest ih =>
    refine List.nodup_cons.2 ⟨fun hmem => ?_, ih⟩
    obtain ⟨l', hl', hle⟩ := hrest.of_mem hmem
    obtain rfl := hl'.unique (.onward hd hrest)
    exact Nat.not_succ_le_self _ hle

/-- All states but the last one go on. -/
theorem next_of_mem_dropLast (h : Visits next s l) {x : State} (hx : x ∈ l.dropLast) :
    ∃ d, next x = some d := by
  induction h with
  | last => simp at hx
  | @onward s d rest hd hrest ih =>
    have hne : rest ≠ [] := by cases hrest <;> simp
    rw [List.dropLast_cons_of_ne_nil hne] at hx
    rcases List.mem_cons.1 hx with rfl | hx
    · exact ⟨d, hd⟩
    · exact ih hx

end Visits

/-- There are no more different numbers than there are numbers. -/
theorem length_le_of_nodup {l : List Nat} {n : Nat} (hl : l.Nodup) (hlt : ∀ x ∈ l, x < n) :
    l.length ≤ n := by
  have hsub : l ⊆ List.range n := fun x hx => List.mem_range.2 (hlt x hx)
  simpa using (hl.subperm hsub).length_le

namespace Tables

/-! ## Fallback chains -/

/-- Following the fallbacks of a state leads to the dead state. -/
inductive FallsDead (t : Tables) : State → Prop where
  | last {s : State} {entry : Int32} :
      t.fallback[s]? = some entry → entry.toInt < 0 → t.FallsDead s
  | next {s : State} {entry : Int32} :
      t.fallback[s]? = some entry → 0 ≤ entry.toInt → t.FallsDead entry.toInt.toNat → t.FallsDead s

/-- Whether the fallback chain of a state ends within `steps` states. -/
def fallbackEnds (t : Tables) : (steps : Nat) → State → Bool
  | 0, _ => false
  | steps + 1, s =>
    match t.fallsTo? s with
    | some d => t.fallbackEnds steps d
    | none => true

theorem fallbackEnds_iff {t : Tables} {steps : Nat} {s : State} :
    t.fallbackEnds steps s = true ↔ ∃ l, Visits t.fallsTo? s l ∧ l.length ≤ steps := by
  induction steps generalizing s with
  | zero =>
    refine ⟨fun h => (nomatch h), ?_⟩
    rintro ⟨l, hl, hle⟩
    cases hl <;> simp at hle
  | succ steps ih =>
    rw [fallbackEnds]
    cases hd : t.fallsTo? s with
    | none => exact ⟨fun _ => ⟨[s], .last hd, by simp⟩, fun _ => rfl⟩
    | some d =>
      refine ih.trans ⟨?_, ?_⟩
      · rintro ⟨l, hl, hle⟩
        exact ⟨s :: l, .onward hd hl, Nat.succ_le_succ hle⟩
      · rintro ⟨l, hl, hle⟩
        cases hl with
        | last hnone => simp [hd] at hnone
        | onward hd' hrest =>
          obtain rfl := Option.some.inj (hd.symm.trans hd')
          exact ⟨_, hrest, Nat.le_of_succ_le_succ hle⟩

theorem fallsDead_iff {t : Tables} {s d : State} (hd : t.fallsTo? s = some d) :
    t.FallsDead s ↔ t.FallsDead d := by
  obtain ⟨entry, hentry, hd⟩ := Option.bind_eq_some_iff.1 hd
  simp only [State.ofEntry?, Option.ite_none_left_eq_some, Option.some.injEq, Int.not_lt] at hd
  obtain ⟨hpos, rfl⟩ := hd
  refine ⟨fun h => ?_, .next hentry hpos⟩
  cases h with
  | last hentry' hneg =>
    obtain rfl := Option.some.inj (hentry.symm.trans hentry')
    omega
  | next hentry' _ hrest =>
    obtain rfl := Option.some.inj (hentry.symm.trans hentry')
    exact hrest

/-- There is a fallback for each state, and each is a state or the dead one. -/
structure FallsInside (t : Tables) : Prop where
  size_eq : t.fallback.size = t.stateCount
  entry_lt : ∀ entry ∈ t.fallback, entry.toInt < t.stateCount

namespace FallsInside

variable {t : Tables} {s d : State}

theorem fallsTo?_lt (h : t.FallsInside) (hd : t.fallsTo? s = some d) : d < t.stateCount := by
  obtain ⟨entry, hentry, hd⟩ := Option.bind_eq_some_iff.1 hd
  have hlt := h.entry_lt entry (Array.mem_of_getElem? hentry)
  simp only [State.ofEntry?, Option.ite_none_left_eq_some, Option.some.injEq] at hd
  exact hd.2 ▸ (Int.toNat_lt (Int.not_lt.1 hd.1)).2 hlt

theorem fallsDead_of_none (h : t.FallsInside) (hs : s < t.stateCount) (hd : t.fallsTo? s = none) :
    t.FallsDead s := by
  have hsize : s < t.fallback.size := h.size_eq ▸ hs
  have hentry : t.fallback[s]? = some t.fallback[s] := Array.getElem?_eq_getElem hsize
  refine .last hentry ?_
  simpa [fallsTo?, hentry, State.ofEntry?] using hd

/-- A chain that leads to the dead state visits states only. -/
theorem visits_of_fallsDead (h : t.FallsInside) (hdead : t.FallsDead s) (hs : s < t.stateCount) :
    ∃ l, Visits t.fallsTo? s l ∧ ∀ x ∈ l, x < t.stateCount := by
  induction hdead with
  | @last s entry hentry hneg =>
    refine ⟨[s], .last ?_, by simpa using hs⟩
    simp [fallsTo?, hentry, State.ofEntry?, hneg]
  | @next s entry hentry hpos _ ih =>
    have hd : t.fallsTo? s = some entry.toInt.toNat := by
      simp [fallsTo?, hentry, State.ofEntry?, Int.not_lt.2 hpos]
    obtain ⟨l, hl, hlt⟩ := ih (h.fallsTo?_lt hd)
    exact ⟨s :: l, .onward hd hl, by simpa [hs] using hlt⟩

theorem fallsDead_of_visits (h : t.FallsInside) {l : List State} (hl : Visits t.fallsTo? s l)
    (hs : s < t.stateCount) : t.FallsDead s := by
  induction hl with
  | last hd => exact h.fallsDead_of_none hs hd
  | onward hd _ ih => exact (fallsDead_iff hd).2 (ih (h.fallsTo?_lt hd))

/-- A chain that ends does so within as many states as there are. -/
theorem fallbackEnds_iff_fallsDead (h : t.FallsInside) (hs : s < t.stateCount) :
    t.fallbackEnds t.stateCount s = true ↔ t.FallsDead s := by
  rw [fallbackEnds_iff]
  constructor
  · rintro ⟨l, hl, -⟩
    exact h.fallsDead_of_visits hl hs
  · intro hdead
    obtain ⟨l, hl, hlt⟩ := h.visits_of_fallsDead hdead hs
    exact ⟨l, hl, length_le_of_nodup hl.nodup hlt⟩

end FallsInside

/-! ## Cycles -/

/-- Following fallbacks from a state, by one step or more, leads to another. -/
abbrev FallsOnto (t : Tables) : State → State → Prop :=
  Relation.TransGen fun s d => t.fallsTo? s = some d

namespace FallsOnto

variable {t : Tables} {s d : State}

theorem fallsDead_iff (h : t.FallsOnto s d) : t.FallsDead s ↔ t.FallsDead d := by
  induction h with
  | single hd => exact Tables.fallsDead_iff hd
  | tail _ hd ih => exact ih.trans (Tables.fallsDead_iff hd)

/-- On a cycle no chain ends. -/
theorem not_fallsDead (h : t.FallsOnto s s) : ¬ t.FallsDead s := by
  intro hdead
  induction hdead with
  | @last s entry hentry hneg =>
    obtain ⟨d, hd, -⟩ := Relation.TransGen.head'_iff.1 h
    simp [fallsTo?, hentry, State.ofEntry?, hneg] at hd
  | @next s entry hentry hpos _ ih =>
    -- The cycle leads through the next state, which is on it as well.
    obtain ⟨d, hd, hback⟩ := Relation.TransGen.head'_iff.1 h
    obtain rfl : d = entry.toInt.toNat := by
      simpa [fallsTo?, hentry, State.ofEntry?, Int.not_lt.2 hpos, eq_comm] using hd
    exact ih (Relation.TransGen.tail'_iff.2 ⟨s, hback, hd⟩)

end FallsOnto

/-! ## The search by marks -/

theorem size_markEnds (path : List State) (marks : Array Mark) :
    (markEnds path marks).size = marks.size := by
  induction path generalizing marks with
  | nil => rfl
  | cons s path ih => simpa [markEnds] using ih (marks.setIfInBounds s .ends)

/-- The states of the path are marked as ones whose chains end, the others as they were. -/
theorem getElem?_markEnds (path : List State) (marks : Array Mark) (x : State) :
    (markEnds path marks)[x]? = if x ∈ path then marks[x]?.map fun _ => .ends else marks[x]? := by
  induction path generalizing marks with
  | nil => rfl
  | cons s path ih =>
    have hrest := ih (marks.setIfInBounds s .ends)
    rw [markEnds] at hrest ⊢
    rw [List.foldl_cons, hrest, Array.getElem?_setIfInBounds]
    by_cases hx : s = x
    · subst hx
      by_cases hs : s < marks.size <;> simp [hs]
    · simp [hx, Ne.symm hx]

/-- The marks are right while the path is followed that leads to a state: those of the path lead on to
that state, and the chains that are marked as ending do end. -/
structure Marked (t : Tables) (marks : Array Mark) (path : List State) (s : State) : Prop where
  size_eq : marks.size = t.stateCount
  onPath : ∀ x, marks[x]? = some .onPath ↔ x ∈ path
  ends : ∀ x, marks[x]? = some .ends → t.FallsDead x
  leads : ∀ x ∈ path, t.FallsOnto x s

namespace Marked

variable {t : Tables} {marks : Array Mark} {path : List State} {s d : State}

theorem start (t : Tables) (s : State) :
    t.Marked (Array.replicate t.stateCount .unknown) [] s where
  size_eq := Array.size_replicate
  onPath x := by simp [Array.getElem?_replicate]
  ends x hx := by simp [Array.getElem?_replicate] at hx
  leads x hx := nomatch hx

/-- One more state is passed. -/
theorem pass (h : t.Marked marks path s) (hs : s < t.stateCount) (hd : t.fallsTo? s = some d) :
    t.Marked (marks.setIfInBounds s .onPath) (s :: path) d where
  size_eq := by simpa using h.size_eq
  onPath x := by
    have hsize : s < marks.size := h.size_eq ▸ hs
    by_cases hx : s = x
    · subst hx
      simp [hsize]
    · simp [hx, Ne.symm hx, h.onPath]
  ends x hx := by
    by_cases hsx : s = x
    · simp [Array.getElem?_setIfInBounds, hsx] at hx
    · exact h.ends x (by simpa [Array.getElem?_setIfInBounds, hsx] using hx)
  leads x hx := by
    rcases List.mem_cons.1 hx with rfl | hx
    · exact .single hd
    · exact .tail (h.leads x hx) hd

/-- The last state of a chain is marked at once. -/
theorem close (h : t.Marked marks path s) (hmark : marks[s]? = some .unknown)
    (hdead : t.FallsDead s) : t.Marked (marks.setIfInBounds s .ends) path s where
  size_eq := by simpa using h.size_eq
  onPath x := by
    by_cases hx : s = x
    · subst hx
      have hnot : s ∉ path := fun hmem => by simp [(h.onPath s).2 hmem] at hmark
      simp [Array.getElem?_setIfInBounds, hnot]
    · simp [hx, h.onPath]
  ends x hx := by
    by_cases hsx : s = x
    · exact hsx ▸ hdead
    · exact h.ends x (by simpa [Array.getElem?_setIfInBounds, hsx] using hx)
  leads := h.leads

/-- The chain ends, so those of the whole path do. -/
theorem finish (h : t.Marked marks path s) (hdead : t.FallsDead s) (s' : State) :
    t.Marked (markEnds path marks) [] s' where
  size_eq := (size_markEnds path marks).trans h.size_eq
  onPath x := by
    rw [getElem?_markEnds]
    by_cases hx : x ∈ path
    · simp [hx]
    · simp [hx, h.onPath]
  ends x hx := by
    rw [getElem?_markEnds] at hx
    by_cases hmem : x ∈ path
    · exact (h.leads x hmem).fallsDead_iff.2 hdead
    · exact h.ends x (by simpa [hmem] using hx)
  leads x hx := nomatch hx

end Marked

/-- Following a chain marks it if it ends; otherwise it reports the state where the chain began. -/
theorem follow_spec {t : Tables} (ht : t.FallsInside) (origin : State) {marks : Array Mark}
    {path : List State} {s : State} (h : t.Marked marks path s) (hs : s < t.stateCount) :
    (∃ marks', t.follow origin marks path s = .ok marks' ∧ t.FallsDead s ∧
      ∀ s', t.Marked marks' [] s') ∨
    (t.follow origin marks path s = .error (.cyclicFallback origin) ∧ ¬ t.FallsDead s) := by
  fun_induction follow t origin marks path s with
  | case1 marks path s hmark d hd ih =>
    have hdead := Tables.fallsDead_iff hd
    rcases ih (h.pass hs hd) (ht.fallsTo?_lt hd) with ⟨marks', heq, hends, hmarks'⟩ | ⟨heq, hnot⟩
    · exact .inl ⟨marks', heq, hdead.2 hends, hmarks'⟩
    · exact .inr ⟨heq, mt hdead.1 hnot⟩
  | case2 marks path s hmark hd =>
    have hdead := ht.fallsDead_of_none hs hd
    exact .inl ⟨_, rfl, hdead, (h.close hmark hdead).finish hdead⟩
  | case3 marks path s hmark =>
    have hcycle := h.leads s ((h.onPath s).1 hmark)
    exact .inr ⟨rfl, hcycle.not_fallsDead⟩
  | case4 marks path s hmark =>
    have hdead := h.ends s hmark
    exact .inl ⟨_, rfl, hdead, h.finish hdead⟩
  | case5 marks path s hmark =>
    rw [Array.getElem?_eq_none_iff, h.size_eq] at hmark
    exact absurd hs (Nat.not_lt.2 hmark)

/-- Following the chains of some states one after the other reports the first that does not end. -/
theorem foldlM_follow_spec {t : Tables} (ht : t.FallsInside) (origins : List State)
    (horigins : ∀ s ∈ origins, s < t.stateCount) {marks : Array Mark}
    (h : ∀ s, t.Marked marks [] s) :
    (∃ marks', origins.foldlM (fun marks s => t.follow s marks [] s) marks = .ok marks' ∧
      ∀ s ∈ origins, t.FallsDead s) ∨
    ∃ before s after, origins = before ++ s :: after ∧
      origins.foldlM (fun marks s => t.follow s marks [] s) marks = .error (.cyclicFallback s) ∧
      ¬ t.FallsDead s ∧ ∀ s' ∈ before, t.FallsDead s' := by
  induction origins generalizing marks with
  | nil => exact .inl ⟨marks, rfl, by simp⟩
  | cons s rest ih =>
    rw [List.foldlM_cons]
    rcases follow_spec ht s (h s) (horigins s (by simp)) with ⟨marks', heq, hdead, h'⟩ | ⟨heq, hnot⟩
    · rw [heq]
      rcases ih (fun s' hs' => horigins s' (by simp [hs'])) h' with
        ⟨marks'', hrest, hall⟩ | ⟨before, s', after, rfl, hrest, hnot, hall⟩
      · exact .inl ⟨marks'', hrest, by simpa [hdead] using hall⟩
      · exact .inr ⟨s :: before, s', after, rfl, hrest, hnot, by simpa [hdead] using hall⟩
    · exact .inr ⟨[], s, rest, rfl, by rw [heq]; rfl, hnot, by simp⟩

/-- The search succeeds if all chains end, and otherwise reports the smallest state whose chain does
not. -/
theorem checkFallbacks_spec {t : Tables} (ht : t.FallsInside) :
    (t.checkFallbacks = .ok () ∧ ∀ s < t.stateCount, t.FallsDead s) ∨
    ∃ s < t.stateCount, t.checkFallbacks = .error (.cyclicFallback s) ∧ ¬ t.FallsDead s ∧
      ∀ s' < s, t.FallsDead s' := by
  rw [checkFallbacks]
  rcases foldlM_follow_spec ht (List.range t.stateCount) (by simp) (Marked.start t) with
    ⟨marks, heq, hall⟩ | ⟨before, s, after, hrange, heq, hnot, hall⟩
  · exact .inl ⟨by rw [heq]; rfl, by simpa using hall⟩
  · rw [List.range_eq_range', List.range'_eq_append_iff] at hrange
    obtain ⟨k, -, rfl, hrest⟩ := hrange
    obtain ⟨rfl, hpos, -⟩ := List.range'_eq_cons_iff.1 hrest.symm
    exact .inr ⟨_, by omega, by rw [heq]; rfl, hnot, by simpa using hall⟩

theorem checkFallbacks_eq_ok_iff {t : Tables} (ht : t.FallsInside) :
    t.checkFallbacks = .ok () ↔ ∀ s < t.stateCount, t.fallbackEnds t.stateCount s = true := by
  rcases checkFallbacks_spec ht with ⟨heq, hall⟩ | ⟨s, hs, heq, hnot, -⟩
  · exact ⟨fun _ s hs => (ht.fallbackEnds_iff_fallsDead hs).2 (hall s hs), fun _ => heq⟩
  · refine ⟨fun h => ?_, fun hall => absurd ((ht.fallbackEnds_iff_fallsDead hs).1 (hall s hs)) hnot⟩
    rw [heq] at h
    cases h

/-- The search for cycles is exact. It succeeds if and only if the fallbacks of every state lead to the
dead state, which they do within as many steps as there are states or not at all. When it fails, it names
the smallest state whose fallbacks never lead there. -/
theorem checkFallbacks_exact {t : Tables} (ht : t.FallsInside) :
    (t.checkFallbacks = .ok () ↔ ∀ s < t.stateCount, t.FallsDead s) ∧
    (∀ s < t.stateCount, t.FallsDead s ↔ t.fallbackEnds t.stateCount s = true) ∧
    ∀ fault, t.checkFallbacks = .error fault ↔ ∃ s < t.stateCount,
      fault = .cyclicFallback s ∧ ¬ t.FallsDead s ∧ ∀ s' < s, t.FallsDead s' := by
  refine ⟨?_, fun s hs => (ht.fallbackEnds_iff_fallsDead hs).symm, fun fault => ?_⟩
  · refine (checkFallbacks_eq_ok_iff ht).trans (forall_congr' fun s => forall_congr' fun hs => ?_)
    exact ht.fallbackEnds_iff_fallsDead hs
  · rcases checkFallbacks_spec ht with ⟨heq, hall⟩ | ⟨s, hs, heq, hnot, hall⟩
    · refine ⟨fun h => ?_, fun ⟨s, hs, _, hnot, _⟩ => absurd (hall s hs) hnot⟩
      rw [heq] at h
      cases h
    · rw [heq, Except.error.injEq]
      constructor
      · rintro rfl
        exact ⟨s, hs, rfl, hnot, hall⟩
      · rintro ⟨s', -, rfl, hnot', hall'⟩
        -- Neither of the two states can be smaller than the other.
        rcases Nat.lt_trichotomy s s' with hlt | rfl | hlt
        · exact absurd (hall' s hlt) hnot
        · rfl
        · exact absurd (hall s' hlt) hnot'

/-- States whose chains join, end and run in a cycle: 3 joins the chain of 0, and 2 and 4 fall back to
each other. -/
def looped : Tables where
  base := #[0, 0, 0, 0, 0]
  fallback := #[1, -1, 4, 1, 2]

theorem checkFallbacks_exact_looped : looped.FallsInside ∧
    looped.checkFallbacks = .error (.cyclicFallback 2) ∧ ¬ looped.FallsDead 2 ∧
    looped.FallsDead 3 := by
  have hinside : looped.FallsInside := ⟨rfl, by simp [looped, stateCount]⟩
  have hfound : looped.checkFallbacks = .error (.cyclicFallback 2) := by decide +kernel
  obtain ⟨-, hwithin, herror⟩ := checkFallbacks_exact hinside
  obtain ⟨s, -, hs, hnot, -⟩ := (herror _).1 hfound
  obtain rfl := TableFault.cyclicFallback.inj hs
  exact ⟨hinside, hfound, hnot, (hwithin 3 (by decide)).2 rfl⟩

end Tables

end Munch
