-- SUMMARY: Weakest preconditions of computations that may run out of memory.
import Munch.Error
import Munch.Outcome

/-! # Weakest preconditions

A buffer that has to grow can fail to allocate at any read. `wp m Q s` says that `m` started in `s`
reports such a failure, or else ends with a value and a state that satisfy `Q`. Every other error
falsifies it. -/

namespace Munch

variable {σ α β : Type}

/-- The weakest precondition of a computation, up to failures to allocate. -/
def wp (m : EStateM ScanError σ α) (Q : α → σ → Prop) (s : σ) : Prop :=
  match m s with
  | .ok a s' => Q a s'
  | .error e _ => ∃ n, e = .allocation n

/-- The computation did not run out of memory. -/
def WithinMemory (r : EStateM.Result ScanError σ α) : Prop :=
  ∀ n s, r ≠ .error (.allocation n) s

namespace WithinMemory

variable {m : EStateM ScanError σ α} {f : α → EStateM ScanError σ β} {s : σ}

theorem of_bind (h : WithinMemory ((m >>= f) s)) : WithinMemory (m s) := by
  intro n s' hm
  exact h n s' (bind_eq_error_iff.2 (.inl hm))

theorem of_onFinal {r : EStateM.Result ScanError σ α} {f : σ → σ}
    (h : WithinMemory (onFinal f r)) : WithinMemory r := by
  intro n s' hr
  apply h n (f s')
  rw [hr]
  rfl

end WithinMemory

namespace wp

theorem of_ok {m : EStateM ScanError σ α} {Q : α → σ → Prop} {s s' : σ} {a : α}
    (h : m s = .ok a s') (hQ : Q a s') : wp m Q s := by
  simpa only [wp, h] using hQ

/-- Only the run from the given state matters. -/
theorem congr {m m' : EStateM ScanError σ α} {Q : α → σ → Prop} {s : σ} (h : m s = m' s)
    (hQ : wp m' Q s) : wp m Q s := by
  unfold wp at hQ ⊢
  rw [h]
  exact hQ

theorem mono {m : EStateM ScanError σ α} {P Q : α → σ → Prop} {s : σ}
    (h : wp m P s) (hPQ : ∀ a s', P a s' → Q a s') : wp m Q s := by
  unfold wp at h ⊢
  cases hm : m s with
  | ok a s' =>
    rw [hm] at h
    exact hPQ a s' h
  | error e s' =>
    rw [hm] at h
    exact h

theorem pure {Q : α → σ → Prop} {s : σ} {a : α} (h : Q a s) :
    wp (Pure.pure a : EStateM ScanError σ α) Q s :=
  h

theorem get {Q : σ → σ → Prop} {s : σ} (h : Q s s) :
    wp (MonadState.get : EStateM ScanError σ σ) Q s :=
  h

theorem modify {f : σ → σ} {Q : PUnit → σ → Prop} {s : σ} (h : Q ⟨⟩ (f s)) :
    wp (MonadStateOf.modifyGet (fun s => (⟨⟩, f s))) Q s :=
  h

theorem bind {m : EStateM ScanError σ α} {f : α → EStateM ScanError σ β} {Q : β → σ → Prop}
    {s : σ} (h : wp m (fun a s' => wp (f a) Q s') s) : wp (m >>= f) Q s := by
  unfold wp at h ⊢
  simp only [Bind.bind, EStateM.bind]
  cases hm : m s with
  | ok a s' =>
    rw [hm] at h
    exact h
  | error e s' =>
    rw [hm] at h
    exact h

/-- A step that is taken on a condition, and what follows in any case. -/
theorem whenThen {c : Prop} [Decidable c] {m : EStateM ScanError σ PUnit}
    {f : PUnit → EStateM ScanError σ β} {Q : β → σ → Prop} {s : σ}
    (h : wp (if c then m else Pure.pure ⟨⟩) (fun a s' => wp (f a) Q s') s) :
    wp (if c then m >>= f else f ⟨⟩) Q s := by
  rw [ite_bind_eq]
  exact bind h

theorem liftFault {r : Except TableFault α} {a : α} {Q : α → σ → Prop} {s : σ} (hr : r = .ok a)
    (h : Q a s) : wp (liftFault r : EStateM ScanError σ α) Q s := by
  subst hr
  exact h

/-- A fold keeps an invariant of the elements it has seen if each step does. -/
theorem foldlM {f : β → α → EStateM ScanError σ β} {as : List α} {b : β} {s : σ}
    (I : List α → β → σ → Prop) (h : I [] b s)
    (hf : ∀ seen a rest b s, as = seen ++ a :: rest → I seen b s →
      wp (f b a) (I (seen ++ [a])) s) :
    wp (as.foldlM f b) (I as) s := by
  suffices hgen : ∀ rest seen b s, as = seen ++ rest → I seen b s →
      wp (rest.foldlM f b) (I as) s from hgen as [] b s rfl h
  intro rest
  induction rest with
  | nil =>
    intro seen b s has hI
    rw [List.append_nil] at has
    exact pure (has ▸ hI)
  | cons a rest ih =>
    intro seen b s has hI
    rw [List.foldlM_cons]
    refine bind ((hf seen a rest b s has hI).mono fun b' s' hI' => ?_)
    exact ih (seen ++ [a]) b' s' (by rw [has, List.append_assoc, List.singleton_append]) hI'

/-- What holds of every end of a computation that does not run out of memory. -/
theorem elim {m : EStateM ScanError σ α} {Q : α → σ → Prop} {s : σ} (h : wp m Q s)
    (hm : WithinMemory (m s)) : ∃ a s', m s = .ok a s' ∧ Q a s' := by
  unfold wp at h
  cases hr : m s with
  | ok a s' =>
    rw [hr] at h
    exact ⟨a, s', rfl, h⟩
  | error e s' =>
    rw [hr] at h
    obtain ⟨n, rfl⟩ := h
    exact absurd hr (hm n s')

end wp

end Munch
