-- SUMMARY: Both endings of a computation: what holds if it succeeds, and what holds if it fails.
import Munch.Error
import Munch.Outcome

/-! # Endings

A scanner that has failed can be used again, so what a failed operation leaves matters as much as
what a successful one does. `ends m Q E s` says that `m` started in `s` ends with a value and a state
that satisfy `Q`, or with an error and a state that satisfy `E`. -/

namespace Munch

variable {σ α β ε : Type}

/-- Whether tables are blamed for an error. -/
def ScanError.IsFault (e : ScanError) : Prop :=
  ∃ fault, e = .malformed fault

@[simp] theorem ScanError.not_isFault_allocation (n : Nat) :
    ¬ (ScanError.allocation n).IsFault := by
  simp [IsFault]

@[simp] theorem ScanError.not_isFault_io (text : String) : ¬ (ScanError.io text).IsFault := by
  simp [IsFault]

/-- What a computation ends with, in success and in failure. -/
def ends (m : EStateM ε σ α) (Q : α → σ → Prop) (E : ε → σ → Prop) (s : σ) : Prop :=
  match m s with
  | .ok a s' => Q a s'
  | .error e s' => E e s'

namespace ends

variable {m : EStateM ε σ α} {Q : α → σ → Prop} {E : ε → σ → Prop} {s : σ}

theorem of_ok {s' : σ} {a : α} (h : m s = .ok a s') (hQ : Q a s') : ends m Q E s := by
  simpa only [ends, h] using hQ

theorem of_error {s' : σ} {e : ε} (h : m s = .error e s') (hE : E e s') : ends m Q E s := by
  simpa only [ends, h] using hE

theorem of_result (hok : ∀ a s', m s = .ok a s' → Q a s')
    (herror : ∀ e s', m s = .error e s' → E e s') : ends m Q E s := by
  unfold ends
  cases h : m s with
  | ok a s' => exact hok a s' h
  | error e s' => exact herror e s' h

/-- What a successful run has ended with. -/
theorem ok (h : ends m Q E s) {s' : σ} {a : α} (hm : m s = .ok a s') : Q a s' := by
  simpa only [ends, hm] using h

/-- What a failed run has ended with. -/
theorem error (h : ends m Q E s) {s' : σ} {e : ε} (hm : m s = .error e s') : E e s' := by
  simpa only [ends, hm] using h

/-- Only the result of the run matters. -/
theorem congr {m' : EStateM ε σ α} {s' : σ} (h : m s = m' s') (hm : ends m' Q E s') :
    ends m Q E s := by
  simpa only [ends, h] using hm

/-- A computation that cannot fail succeeds. -/
theorem exists_ok (h : ends m Q (fun _ _ => False) s) : ∃ a s', m s = .ok a s' ∧ Q a s' := by
  unfold ends at h
  cases hm : m s with
  | ok a s' => exact ⟨a, s', rfl, by simpa only [hm] using h⟩
  | error e s' => simp only [hm] at h

theorem mono {Q' : α → σ → Prop} {E' : ε → σ → Prop} (h : ends m Q E s)
    (hQ : ∀ a s', Q a s' → Q' a s') (hE : ∀ e s', E e s' → E' e s') : ends m Q' E' s :=
  of_result (fun a s' hm => hQ a s' (h.ok hm)) (fun e s' hm => hE e s' (h.error hm))

/-- Two accounts of the same run. -/
theorem and {Q' : α → σ → Prop} {E' : ε → σ → Prop} (h : ends m Q E s) (h' : ends m Q' E' s) :
    ends m (fun a s' => Q a s' ∧ Q' a s') (fun e s' => E e s' ∧ E' e s') s :=
  of_result (fun _ _ hm => ⟨h.ok hm, h'.ok hm⟩) (fun _ _ hm => ⟨h.error hm, h'.error hm⟩)

/-- A relation that holds across a computation holds at both its endings. -/
theorem of_across {R : σ → σ → Prop} (h : Across R m) (s : σ) :
    ends m (fun _ s' => R s s') (fun _ s' => R s s') s :=
  of_result (fun _ _ hm => final_of_ok hm ▸ h s) (fun _ _ hm => final_of_error hm ▸ h s)

/-- The final state, whichever ending it is. -/
theorem final {P : σ → Prop} (h : ends m (fun _ => P) (fun _ => P) s) : P (final m s) := by
  unfold Munch.final
  cases hm : m s with
  | ok a s' => exact h.ok hm
  | error e s' => exact h.error hm

/-! ## Rules -/

theorem pure {a : α} (h : Q a s) : ends (Pure.pure a : EStateM ε σ α) Q E s :=
  h

theorem throw {e : ε} (h : E e s) : ends (MonadExcept.throw e : EStateM ε σ α) Q E s :=
  h

theorem get {Q : σ → σ → Prop} (h : Q s s) : ends (MonadState.get : EStateM ε σ σ) Q E s :=
  h

theorem modify {f : σ → σ} {Q : PUnit → σ → Prop} (h : Q ⟨⟩ (f s)) :
    ends (modify f : EStateM ε σ PUnit) Q E s :=
  h

theorem bind {f : α → EStateM ε σ β} {Q : β → σ → Prop}
    (h : ends m (fun a s' => ends (f a) Q E s') E s) : ends (m >>= f) Q E s := by
  unfold ends at h ⊢
  simp only [Bind.bind, EStateM.bind]
  cases hm : m s with
  | ok a s' => simpa only [hm] using h
  | error e s' => simpa only [hm] using h

/-- A step that is taken on a condition, and what follows in any case. -/
theorem whenThen {c : Prop} [Decidable c] {m : EStateM ε σ PUnit} {f : PUnit → EStateM ε σ β}
    {Q : β → σ → Prop}
    (h : ends (if c then m else Pure.pure ⟨⟩) (fun a s' => ends (f a) Q E s') E s) :
    ends (if c then m >>= f else f ⟨⟩) Q E s := by
  rw [ite_bind_eq]
  exact bind h

theorem liftFault {r : Except TableFault α} {a : α} {E : ScanError → σ → Prop} (hr : r = .ok a)
    (h : Q a s) : ends (liftFault r) Q E s := by
  subst hr
  exact h

/-- A fold keeps an invariant of the elements it has seen if each step does. -/
theorem foldlM {f : β → α → EStateM ε σ β} {as : List α} {b : β} {Q : β → σ → Prop} (h : Q b s)
    (hf : ∀ a ∈ as, ∀ b s, Q b s → ends (f b a) Q E s) : ends (as.foldlM f b) Q E s := by
  induction as generalizing b s with
  | nil => exact pure h
  | cons a as ih =>
    rw [List.foldlM_cons]
    refine bind ((hf a List.mem_cons_self b s h).mono (fun b' s' h' => ?_) fun _ _ => id)
    exact ih h' fun a' hmem => hf a' (List.mem_cons_of_mem a hmem)

end ends

end Munch
