-- SUMMARY: Two runs side by side: the same result on both sides, and final states that are related.
import Munch.Proofs.Endings

/-! # Parallel runs

To say that a difference between two states cannot be observed, run the same computation on both:
`Parallel R` relates two outcomes with the same value or the same error whose final states are related
by `R`. A computation is in step if it runs in parallel with itself from any two related states. -/

namespace Munch

variable {σ τ ε α β : Type}

/-- Two outcomes with the same value or error, in states that are related. -/
inductive Parallel (R : σ → τ → Prop) : EStateM.Result ε σ α → EStateM.Result ε τ α → Prop
  | ok {a : α} {s : σ} {s' : τ} : R s s' → Parallel R (.ok a s) (.ok a s')
  | error {e : ε} {s : σ} {s' : τ} : R s s' → Parallel R (.error e s) (.error e s')

/-- From related states a computation gives the same result, in related states. -/
def InStep (R : σ → σ → Prop) (m : EStateM ε σ α) : Prop :=
  ∀ s s', R s s' → Parallel R (m s) (m s')

namespace Parallel

variable {R R' : σ → τ → Prop} {s : σ} {s' : τ}

theorem mono {r : EStateM.Result ε σ α} {r' : EStateM.Result ε τ α} (h : Parallel R r r')
    (hR : ∀ s s', R s s' → R' s s') : Parallel R' r r' := by
  cases h with
  | ok h => exact .ok (hR _ _ h)
  | error h => exact .error (hR _ _ h)

/-- Both sides go on where their first parts have succeeded. What those leave when they fail is related
as the final states should be. -/
theorem bind_runs {m : EStateM ε σ α} {m' : EStateM ε τ α} {f : α → EStateM ε σ β}
    {f' : α → EStateM ε τ β} (h : Parallel R (m s) (m' s')) (hfail : ∀ t t', R t t' → R' t t')
    (hf : ∀ a t t', m s = .ok a t → m' s' = .ok a t' → R t t' → Parallel R' (f a t) (f' a t')) :
    Parallel R' ((m >>= f) s) ((m' >>= f') s') := by
  simp only [Bind.bind, EStateM.bind]
  revert h hf
  cases m s with
  | ok a t =>
    intro h hf
    cases hm' : m' s' <;> rw [hm'] at h <;> cases h
    exact hf a t _ rfl hm' ‹_›
  | error e t =>
    intro h hf
    cases hm' : m' s' <;> rw [hm'] at h <;> cases h
    exact .error (hfail _ _ ‹_›)

/-- How the first part has run on the right is often not needed. -/
theorem bind {m : EStateM ε σ α} {m' : EStateM ε τ α} {f : α → EStateM ε σ β}
    {f' : α → EStateM ε τ β} (h : Parallel R (m s) (m' s')) (hfail : ∀ t t', R t t' → R' t t')
    (hf : ∀ a t t', m s = .ok a t → R t t' → Parallel R' (f a t) (f' a t')) :
    Parallel R' ((m >>= f) s) ((m' >>= f') s') :=
  h.bind_runs hfail fun a t t' hrun _ => hf a t t' hrun

theorem symm {r : EStateM.Result ε σ α} {r' : EStateM.Result ε τ α} (h : Parallel R r r') :
    Parallel (fun s' s => R s s') r' r := by
  cases h with
  | ok h => exact .ok h
  | error h => exact .error h

theorem trans {υ : Type} {Q : τ → υ → Prop} {r : EStateM.Result ε σ α} {r' : EStateM.Result ε τ α}
    {r'' : EStateM.Result ε υ α} (h : Parallel R r r') (h' : Parallel Q r' r'') :
    Parallel (fun s s'' => ∃ s', R s s' ∧ Q s' s'') r r'' := by
  cases h with
  | ok h => cases h' with | ok h' => exact .ok ⟨_, h, h'⟩
  | error h => cases h' with | error h' => exact .error ⟨_, h, h'⟩

theorem final {m : EStateM ε σ α} {m' : EStateM ε τ α} (h : Parallel R (m s) (m' s')) :
    R (final m s) (final m' s') := by
  unfold Munch.final
  revert h
  cases m s <;> cases m' s' <;> rintro ⟨⟩ <;> assumption

/-- What is known of the final state on the left. -/
theorem and_ends {m : EStateM ε σ α} {r' : EStateM.Result ε τ α} {P : σ → Prop}
    (h : Parallel R (m s) r') (hm : ends m (fun _ => P) (fun _ => P) s) :
    Parallel (fun t t' => P t ∧ R t t') (m s) r' := by
  unfold ends at hm
  revert h hm
  cases m s with
  | ok a t =>
    intro h hm
    cases h
    exact .ok ⟨hm, ‹_›⟩
  | error e t =>
    intro h hm
    cases h
    exact .error ⟨hm, ‹_›⟩

theorem onFinal {r : EStateM.Result ε σ α} {r' : EStateM.Result ε τ α} {f : σ → σ} {f' : τ → τ}
    (h : Parallel R r r') (hR : ∀ s s', R s s' → R' (f s) (f' s')) :
    Parallel R' (Munch.onFinal f r) (Munch.onFinal f' r') := by
  cases h with
  | ok h => exact .ok (hR _ _ h)
  | error h => exact .error (hR _ _ h)

/-- A step that is taken on a condition, which may differ on both sides, and what follows in any
case. -/
theorem whenThen {c c' : Prop} [Decidable c] [Decidable c'] {m : EStateM ε σ PUnit}
    {m' : EStateM ε τ PUnit} {f : PUnit → EStateM ε σ β} {f' : PUnit → EStateM ε τ β}
    (h : Parallel R ((if c then m else pure ⟨⟩ : EStateM ε σ PUnit) s)
      ((if c' then m' else pure ⟨⟩ : EStateM ε τ PUnit) s'))
    (hfail : ∀ t t', R t t' → R' t t')
    (hf : ∀ t t', R t t' → Parallel R' (f ⟨⟩ t) (f' ⟨⟩ t')) :
    Parallel R' ((if c then m >>= f else f ⟨⟩) s) ((if c' then m' >>= f' else f' ⟨⟩) s') := by
  rw [ite_bind_eq, ite_bind_eq]
  exact h.bind hfail fun _ t t' _ ht => hf t t' ht

end Parallel

namespace InStep

variable {R : σ → σ → Prop}

theorem pure (a : α) : InStep R (Pure.pure a : EStateM ε σ α) :=
  fun _ _ h => .ok h

theorem throw (e : ε) : InStep R (MonadExcept.throw e : EStateM ε σ α) :=
  fun _ _ h => .error h

theorem modify {f : σ → σ} (h : ∀ s s', R s s' → R (f s) (f s')) :
    InStep R (modify f : EStateM ε σ PUnit) :=
  fun s s' hR => .ok (h s s' hR)

/-- What is read of the state may differ on both sides, as long as what follows does not. -/
theorem getThen {f : σ → EStateM ε σ α} (hf : ∀ s s', R s s' → Parallel R (f s s) (f s' s')) :
    InStep R (get >>= f) :=
  hf

theorem bind {m : EStateM ε σ α} {f : α → EStateM ε σ β} (hm : InStep R m)
    (hf : ∀ a, InStep R (f a)) : InStep R (m >>= f) :=
  fun s s' h => (hm s s' h).bind (fun _ _ => id) fun a t t' _ ht => hf a t t' ht

theorem foldlM {f : β → α → EStateM ε σ β} (hf : ∀ b a, InStep R (f b a)) (as : List α) (b : β) :
    InStep R (as.foldlM f b) := by
  induction as generalizing b with
  | nil => exact pure b
  | cons a as ih => exact bind (hf b a) ih

theorem liftFault {R : σ → σ → Prop} (r : Except TableFault α) :
    InStep R (liftFault r : EStateM ScanError σ α) := by
  cases r with
  | ok a => exact pure a
  | error fault => exact throw _

end InStep

end Munch
