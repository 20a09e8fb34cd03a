-- SUMMARY: Computations on a state that keep the state when they fail: their final state and how they compose.

/-! # Outcomes

Scanning changes a state and may fail half way; the state it has reached then stays. `final` is that
state, whatever the outcome. A relation of earlier to later states
holds across a computation if it holds across its steps. -/

namespace Munch

variable {ε σ α β : Type}

/-- The state that a computation leaves, whether it succeeds or fails. -/
def final (m : EStateM ε σ α) (s : σ) : σ :=
  match m s with
  | .ok _ s' => s'
  | .error _ s' => s'

theorem final_of_ok {m : EStateM ε σ α} {s s' : σ} {a : α} (h : m s = .ok a s') :
    final m s = s' := by
  simp [final, h]

theorem final_of_error {m : EStateM ε σ α} {s s' : σ} {e : ε} (h : m s = .error e s') :
    final m s = s' := by
  simp [final, h]

/-- An outcome with its final state changed. -/
def onFinal (f : σ → σ) : EStateM.Result ε σ α → EStateM.Result ε σ α
  | .ok a s => .ok a (f s)
  | .error e s => .error e (f s)

theorem final_eq_of_onFinal {m m' : EStateM ε σ α} {f : σ → σ} {s s' : σ}
    (h : m s = onFinal f (m' s')) : final m s = f (final m' s') := by
  unfold final
  rw [h]
  cases m' s' with
  | ok a s' => rfl
  | error e s' => rfl

/-- A sequence succeeds if and only if both parts do. -/
theorem bind_eq_ok_iff {m : EStateM ε σ α} {f : α → EStateM ε σ β} {s s' : σ} {b : β} :
    (m >>= f) s = .ok b s' ↔ ∃ a t, m s = .ok a t ∧ f a t = .ok b s' := by
  simp only [Bind.bind, EStateM.bind]
  cases h : m s <;> simp [and_assoc]

/-- A sequence fails if its first part does, or else its second. -/
theorem bind_eq_error_iff {m : EStateM ε σ α} {f : α → EStateM ε σ β} {s s' : σ} {e : ε} :
    (m >>= f) s = .error e s' ↔
      m s = .error e s' ∨ ∃ a t, m s = .ok a t ∧ f a t = .error e s' := by
  simp only [Bind.bind, EStateM.bind]
  cases h : m s <;> simp [and_assoc]

/-- A sequence goes on where its first part has succeeded. -/
theorem bind_of_ok {m : EStateM ε σ α} {f : α → EStateM ε σ β} {s s' : σ} {a : α}
    (h : m s = .ok a s') : (m >>= f) s = f a s' := by
  simp only [Bind.bind, EStateM.bind, h]

/-- A step that is taken on a condition comes before what follows in any case. -/
theorem ite_bind_eq {c : Prop} [Decidable c] {m : EStateM ε σ PUnit} {f : PUnit → EStateM ε σ β} :
    (if c then m >>= f else f ⟨⟩) = (if c then m else pure ⟨⟩) >>= f := by
  split <;> rfl

theorem pure_apply (a : α) (s : σ) : (pure a : EStateM ε σ α) s = .ok a s := rfl

theorem get_apply (s : σ) : (get : EStateM ε σ σ) s = .ok s s := rfl

theorem modify_apply (f : σ → σ) (s : σ) : (modify f : EStateM ε σ PUnit) s = .ok ⟨⟩ (f s) := rfl

theorem throw_apply (e : ε) (s : σ) : (throw e : EStateM ε σ α) s = .error e s := rfl

/-- A relation of states to states that come later: it holds of a state and itself, and across two
steps if it holds across each. -/
class History (R : σ → σ → Prop) : Prop where
  refl (s : σ) : R s s
  trans {a b c : σ} : R a b → R b c → R a c

/-- The relation holds between the state before a computation and its final state. -/
def Across (R : σ → σ → Prop) (m : EStateM ε σ α) : Prop :=
  ∀ s, R s (final m s)

namespace Across

variable {R : σ → σ → Prop} [History R]

theorem pure (a : α) : Across R (Pure.pure a : EStateM ε σ α) :=
  History.refl

theorem get : Across R (MonadState.get : EStateM ε σ σ) :=
  History.refl

theorem bind {m : EStateM ε σ α} {f : α → EStateM ε σ β} (hm : Across R m)
    (hf : ∀ a, Across R (f a)) : Across R (m >>= f) := by
  intro s
  have h := hm s
  simp only [final, Bind.bind, EStateM.bind] at h ⊢
  cases hs : m s with
  | ok a s' =>
    rw [hs] at h
    exact History.trans h (hf a s')
  | error e s' =>
    rw [hs] at h
    exact h

theorem foldlM {f : β → α → EStateM ε σ β} (hf : ∀ b a, Across R (f b a)) (as : List α) (b : β) :
    Across R (as.foldlM f b) := by
  induction as generalizing b with
  | nil => exact pure b
  | cons a as ih => exact bind (hf b a) ih

omit [History R] in
theorem modify {f : σ → σ} (h : ∀ s, R s (f s)) :
    Across R (modify f : EStateM ε σ PUnit) :=
  h

end Across

end Munch
