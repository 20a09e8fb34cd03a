-- SUMMARY: The search for trailing context returns the lexicographic maximum of all splits and loses no byte.
import Mathlib.Data.Prod.Lex
import Mathlib.Order.Bounds.Basic
import Munch.Proofs.Match.MaximalMunch
import Munch.Proofs.Scanner.Memory

/-! # The best split

Splits are ranked by their extents, and among those of the same extent by their heads. On checked tables
and a steady source the search returns the split of the highest rank, and none only if there is none.
It reads ahead as far as it has to, but leaves the cursor at the start and the stream as it was. -/

namespace Munch

/-- The rank of a split: its extent counts first, then its head. -/
def Split.rank (x : Split) : ℕ ×ₗ ℕ :=
  toLex (x.extentEnd, x.headEnd)

theorem Split.rank_le_iff {x y : Split} : y.rank ≤ x.rank ↔ y.betterThan x = false := by
  simp only [rank, Prod.Lex.toLex_le_toLex, betterThan, Bool.or_eq_false_iff, Bool.and_eq_false_iff,
    decide_eq_false_iff_not, beq_eq_false_iff_ne]
  omega

/-- The best element of a set of splits is the one of the highest rank. -/
theorem IsBest.eq_some_iff {S : Set Split} {best : Option Split}
    (h : IsBest Split.betterThan (· ∈ S) best) (x : Split) :
    best = some x ↔ x ∈ S ∧ x.rank ∈ upperBounds (Split.rank '' S) := by
  have hupper : x.rank ∈ upperBounds (Split.rank '' S) ↔ ∀ y ∈ S, y.betterThan x = false := by
    simp only [mem_upperBounds, Set.forall_mem_image, Split.rank_le_iff]
  rw [hupper]
  constructor
  · rintro rfl
    exact h
  · rintro ⟨hx, hbest⟩
    cases best with
    | none => exact absurd hx (h x)
    | some z => exact congrArg some (Split.preference.total z x (hbest z h.1) (h.2 x hx))

theorem IsBest.eq_none_iff {S : Set Split} {best : Option Split}
    (h : IsBest Split.betterThan (· ∈ S) best) : best = none ↔ S = ∅ := by
  constructor
  · rintro rfl
    exact Set.eq_empty_iff_forall_notMem.2 h
  · rintro rfl
    cases best with
    | none => rfl
    | some z => exact absurd h.1 (Set.notMem_empty z)

namespace Tables

open Buffer

/-- The splits of the bytes `w` that follow the offset `start`, by the offsets at which head and context
end. -/
def splitsFrom (t : Tables) (entry : State) (rule : Rule) (trailing : State) (start : Nat)
    (w : List UInt8) : Set Split :=
  {x | ∃ head extent, t.IsSplit entry rule trailing w head extent ∧
    x = ⟨start + head, start + extent⟩}

theorem bestSplit_starves (t : Tables) (entry : State) (rule : Rule) (trailing : State)
    (start : Nat) : Starves Starved (t.bestSplit entry rule trailing start) :=
  .bind (.modify _) fun _ => .bind (feed_starves _ _ _) fun _ => .bind (.modify _) fun _ => .pure _

/-- Over the bytes that follow an offset, held or still in the source, the search returns the split of the
highest rank: the longest extent, then the longest head. It returns none if and only if there is no
split. In both cases the cursor is at the offset afterwards, and no byte of the stream is lost. The only
other ending is that the buffer cannot grow to hold one block more than it does, which does not happen
without a limit where memory suffices for the stream. -/
theorem bestSplit_greatest {t : Tables} (ht : t.validate = .ok ()) {entry trailing : State}
    (hentry : entry < t.stateCount) (htrailing : trailing < t.stateCount) (rule : Rule) {b : Buffer}
    (hb : b.Steady) {start : Nat} (hstart : start ≤ b.filled) :
    (∃ best b', t.bestSplit entry rule trailing start b = .ok best b' ∧
      (∀ x, best = some x ↔ x ∈ t.splitsFrom entry rule trailing start (b.stream.drop start) ∧
        x.rank ∈ upperBounds
          (Split.rank '' t.splitsFrom entry rule trailing start (b.stream.drop start))) ∧
      (best = none ↔ t.splitsFrom entry rule trailing start (b.stream.drop start) = ∅) ∧
      b'.cursor = start ∧ b'.stream = b.stream) ∨
    ∃ n b', t.bestSplit entry rule trailing start b = .error (.allocation n) b' ∧ b'.Starved n ∧
      ¬ b.settings.Suffices b.stream.length := by
  have hwp : wp (t.bestSplit entry rule trailing start) _ b :=
    bestSplit_wp (validate_eq_ok_iff.1 ht) hentry htrailing hb hstart
  cases hrun : t.bestSplit entry rule trailing start b with
  | ok best b' =>
    rw [wp, hrun] at hwp
    obtain ⟨hreached, hbest, -⟩ := hwp
    exact .inl ⟨best, b', rfl, hbest.eq_some_iff, hbest.eq_none_iff, hreached.cursor_eq,
      hreached.toExtends.stream_eq⟩
  | error e b' =>
    rw [wp, hrun] at hwp
    obtain ⟨n, rfl⟩ := hwp
    have hstarved := t.bestSplit_starves entry rule trailing start b n b' hrun
    have hextends : b.Extends b' :=
      final_of_error hrun ▸ t.bestSplit_extends entry rule trailing start b
    have hfilled : b'.filled ≤ b.stream.length := hextends.stream_eq ▸ b'.filled_le_stream
    exact .inr ⟨n, b', rfl, hstarved, hextends.settings_eq ▸ hstarved.not_suffices hfilled⟩

/-- Any byte can be the head and any next one its context: of two bytes, the first is split from the
second. -/
theorem bestSplit_greatest_oneByte :
    (⟨1, 2⟩ : Split) ∈ oneByte.splitsFrom 0 1 0 0 [97, 98] ∧
      Split.rank ⟨1, 2⟩ ∈ upperBounds (Split.rank '' oneByte.splitsFrom 0 1 0 0 [97, 98]) := by
  let b : Buffer := { settings := {}, source := .ofBytes [97, 98] }
  have hfound : (match oneByte.bestSplit 0 1 0 0 b with
      | .ok best _ => decide (best = some ⟨1, 2⟩)
      | .error _ _ => false) = true := by decide +kernel
  rcases bestSplit_greatest (show oneByte.validate = .ok () by decide +kernel)
    (show 0 < oneByte.stateCount by decide) (show 0 < oneByte.stateCount by decide) 1
    (show b.Steady from ⟨rfl, by decide⟩) (Nat.zero_le _) with
    ⟨best, b', hrun, hsome, -⟩ | ⟨n, b', hrun, -⟩
  · rw [hrun] at hfound
    exact (hsome ⟨1, 2⟩).1 (of_decide_eq_true hfound)
  · rw [hrun] at hfound
    exact Bool.noConfusion hfound

end Tables

end Munch
