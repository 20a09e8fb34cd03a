-- SUMMARY: Choosing the best of a set by a strict preference, one element at a time.
import Munch.Match.Longest

/-! # Preferences

Splits and candidates are chosen by the same loop: the best so far gives way to a new element that
is preferred to it. What the loop has found in the end is the best element of all that it was
offered, in whatever order. -/

namespace Munch

variable {α : Type}

/-- A preference that decides between any two different elements. -/
structure Preference (beats : α → α → Bool) : Prop where
  irrefl : ∀ a, beats a a = false
  trans : ∀ a b c, beats a b = true → beats b c = true → beats a c = true
  total : ∀ a b, beats a b = false → beats b a = false → a = b

/-- The best element of a set; none if the set is empty. -/
def IsBest (beats : α → α → Bool) (P : α → Prop) : Option α → Prop
  | none => ∀ a, ¬ P a
  | some a => P a ∧ ∀ b, P b → beats b a = false

namespace IsBest

variable {beats : α → α → Bool} {P Q : α → Prop} {o : Option α}

theorem congr (h : IsBest beats P o) (hPQ : ∀ a, P a ↔ Q a) : IsBest beats Q o := by
  cases o with
  | none => exact fun a hQ => h a ((hPQ a).2 hQ)
  | some a => exact ⟨(hPQ a).1 h.1, fun b hQ => h.2 b ((hPQ b).2 hQ)⟩

theorem mem (h : IsBest beats P o) {a : α} (ha : a ∈ o) : P a := by
  obtain rfl := Option.mem_def.1 ha
  exact h.1

/-- The loop: the best so far gives way to a new element that beats it. -/
theorem offer (hp : Preference beats) (h : IsBest beats P o) (new : α) :
    IsBest beats (fun a => P a ∨ a = new) (if o.all (beats new) then some new else o) := by
  cases o with
  | none =>
    refine ⟨.inr rfl, ?_⟩
    rintro b (hb | rfl)
    · exact absurd hb (h b)
    · exact hp.irrefl b
  | some a =>
    cases hbeats : beats new a with
    | true =>
      simp only [Option.all_some, hbeats, if_true]
      refine ⟨.inr rfl, ?_⟩
      rintro b (hb | rfl)
      · cases hbn : beats b new with
        | true => exact (hp.trans b new a hbn hbeats).symm.trans (h.2 b hb)
        | false => rfl
      · exact hp.irrefl b
    | false =>
      simp only [Option.all_some, hbeats, Bool.false_eq_true, if_false]
      refine ⟨.inl h.1, ?_⟩
      rintro b (hb | rfl)
      · exact h.2 b hb
      · exact hbeats

/-- Elements that do not beat one of the set need not be looked at. -/
theorem absorb (hp : Preference beats) (h : IsBest beats P o)
    (hQ : ∀ a, Q a → ∃ b, P b ∧ beats a b = false) : IsBest beats (fun a => P a ∨ Q a) o := by
  cases o with
  | none =>
    rintro a (ha | ha)
    · exact h a ha
    · obtain ⟨b, hb, -⟩ := hQ a ha
      exact h b hb
  | some c =>
    refine ⟨.inl h.1, ?_⟩
    rintro a (ha | ha)
    · exact h.2 a ha
    · obtain ⟨b, hb, hab⟩ := hQ a ha
      cases hac : beats a c with
      | false => rfl
      | true =>
        cases hcb : beats c b with
        | true => exact (hp.trans a c b hac hcb).symm.trans hab
        | false => exact hac.symm.trans ((hp.total c b hcb (h.2 b hb)).symm ▸ hab)

end IsBest

theorem Split.preference : Preference Split.betterThan where
  irrefl a := by simp [Split.betterThan]
  trans a b c hab hbc := by
    simp only [Split.betterThan, Bool.or_eq_true, Bool.and_eq_true, decide_eq_true_eq,
      beq_iff_eq] at hab hbc ⊢
    omega
  total a b hab hba := by
    simp only [Split.betterThan, Bool.or_eq_false_iff, Bool.and_eq_false_iff,
      decide_eq_false_iff_not, beq_eq_false_iff_ne] at hab hba
    obtain ⟨headEnd, extentEnd⟩ := a
    obtain ⟨headEnd', extentEnd'⟩ := b
    simp only [Split.mk.injEq] at *
    omega

theorem Candidate.preference : Preference Candidate.preferredTo where
  irrefl a := by simp [Candidate.preferredTo]
  trans a b c hab hbc := by
    simp only [Candidate.preferredTo, Bool.or_eq_true, Bool.and_eq_true, decide_eq_true_eq,
      beq_iff_eq] at hab hbc ⊢
    grind
  total a b hab hba := by
    simp only [Candidate.preferredTo, Bool.or_eq_false_iff, Bool.and_eq_false_iff,
      decide_eq_false_iff_not, beq_eq_false_iff_ne] at hab hba
    obtain ⟨rule, headEnd, extentEnd⟩ := a
    obtain ⟨rule', headEnd', extentEnd'⟩ := b
    simp only [Candidate.mk.injEq] at *
    grind

end Munch
