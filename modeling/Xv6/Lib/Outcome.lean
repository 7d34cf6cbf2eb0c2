import Mathlib

/-!
# Postconditions of fallible stateful computations

A computation `m : StateT σ (Except ε) α` run in a state either returns a value and
a new state or stops with an error. `Outcome r Q E` says that the result `r` of such
a run satisfies `Q` when it returns and `E` when it stops. The rules below follow a
computation through its binds; the equations under `Run` execute its primitive steps.

* `Outcome.bind`: what holds after the first part is what the second part starts from.
* `Outcome.mono`: weaken both postconditions.
* `Outcome.and`: two results about the same run.
* `Preserves`: the rules for an invariant of the state.
-/

namespace Lib

universe u v

variable {σ α β : Type u} {ε : Type v}

/-- The result `r` of a run satisfies `Q` if the run returns and `E` if it stops. -/
def Outcome (r : Except ε (α × σ)) (Q : α → σ → Prop) (E : ε → Prop) : Prop :=
  match r with
  | .ok (a, s) => Q a s
  | .error e => E e

/-- A result that is found by evaluation. -/
theorem exists_ok {ε α : Type*} {P : α → Prop} [DecidablePred P] {r : Except ε α}
    (h : (r.toOption.any fun x => decide (P x)) = true) : ∃ x, r = .ok x ∧ P x := by
  cases r with
  | ok x => exact ⟨x, rfl, of_decide_eq_true h⟩
  | error e => cases h

namespace Outcome

variable {r : Except ε (α × σ)} {Q Q' : α → σ → Prop} {E E' : ε → Prop}

variable {a : α} {s : σ}

theorem ok (h : Q a s) : Outcome (.ok (a, s)) Q E := h

variable {e : ε}

theorem error (h : E e) : Outcome (.error e : Except ε (α × σ)) Q E := h

theorem mono (h : Outcome r Q E) (hQ : ∀ a s, Q a s → Q' a s) (hE : ∀ e, E e → E' e) :
    Outcome r Q' E' := by
  unfold Outcome at *
  split
  · next a s => exact hQ a s h
  · next e => exact hE e h

theorem imp (h : Outcome r Q E) (hQ : ∀ a s, Q a s → Q' a s) : Outcome r Q' E :=
  h.mono hQ fun _ he => he

theorem and (h : Outcome r Q E) (h' : Outcome r Q' E') :
    Outcome r (fun a s => Q a s ∧ Q' a s) (fun e => E e ∧ E' e) := by
  unfold Outcome at *
  split
  · exact ⟨h, h'⟩
  · exact ⟨h, h'⟩

theorem stops (h : Outcome r Q E) (hE : ∀ e, E e → E' e) : Outcome r Q E' :=
  h.mono (fun _ _ hs => hs) hE

/-- A run that does not stop. -/
theorem never (h : Outcome r Q fun _ => False) : Outcome r Q E := h.stops fun _ he => he.elim

/-- Nothing is claimed. -/
theorem of_true : Outcome r (fun _ _ => True) (fun _ => True) := by
  unfold Outcome
  split <;> trivial

variable {f : α → StateT σ (Except ε) β} {m : StateT σ (Except ε) α}

/-- The rule of sequencing. -/
theorem bind
    {Q : β → σ → Prop} (hm : Outcome (m s) Q' E) (hf : ∀ a s', Q' a s' → Outcome (f a s') Q E) :
    Outcome ((m >>= f) s) Q E := by
  change Outcome (m s >>= fun p => f p.1 p.2) Q E
  unfold Outcome at hm
  split at hm
  · next a s' h => rw [h]; exact hf a s' hm
  · next e h => rw [h]; exact hm

theorem bind_ok {t : σ}
    {Q : β → σ → Prop} (hm : m s = .ok (a, t)) (hf : Outcome (f a t) Q E) :
    Outcome ((m >>= f) s) Q E := by
  change Outcome (m s >>= fun p => f p.1 p.2) Q E
  rw [hm]; exact hf

theorem bind_error
    {Q : β → σ → Prop} (hm : m s = .error e) (he : E e) : Outcome ((m >>= f) s) Q E := by
  change Outcome (m s >>= fun p => f p.1 p.2) Q E
  rw [hm]; exact he

/-- The rule of the conditional. -/
theorem ite {m' : StateT σ (Except ε) α} {c : Prop} [Decidable c]
    (ht : c → Outcome (m s) Q E) (hf : ¬ c → Outcome (m' s) Q E) :
    Outcome ((if c then m else m') s) Q E := by
  split
  · next h => exact ht h
  · next h => exact hf h

theorem of_ok (h : Outcome r Q E) (hr : r = .ok (a, s)) : Q a s := by
  subst hr; exact h

theorem of_error (h : Outcome r Q E) (hr : r = .error e) : E e := by
  subst hr; exact h

end Outcome

/-- Run in a state with `I`, the computation returns in a state with `I`, or stops with `E`. -/
def Preserves (I : σ → Prop) (E : ε → Prop) (m : StateT σ (Except ε) α) : Prop :=
  ∀ s, I s → Outcome (m s) (fun _ s' => I s') E

namespace Preserves

variable {I : σ → Prop} {E : ε → Prop} {m m' : StateT σ (Except ε) α}

theorem of_pure (a : α) : Preserves I E (pure a : StateT σ (Except ε) α) := fun _ h => .ok h

theorem of_bind {f : α → StateT σ (Except ε) β} (hm : Preserves I E m)
    (hf : ∀ a, Preserves I E (f a)) : Preserves I E (m >>= f) :=
  fun s h => (hm s h).bind fun a s' hs => hf a s' hs

theorem of_get {f : σ → StateT σ (Except ε) β} (hf : ∀ s, Preserves I E (f s)) :
    Preserves I E ((get : StateT σ (Except ε) σ) >>= f) := fun s h => hf s s h

theorem of_modify {g : σ → σ} (hg : ∀ s, I s → I (g s)) :
    Preserves I E (modify g : StateT σ (Except ε) PUnit) := fun s h => .ok (hg s h)

theorem of_throw {e : ε} (he : E e) : Preserves I E (throw e : StateT σ (Except ε) α) :=
  fun _ _ => .error he

theorem of_ite {c : Prop} [Decidable c] (ht : Preserves I E m) (hf : Preserves I E m') :
    Preserves I E (if c then m else m') := by
  split
  · exact ht
  · exact hf

end Preserves

namespace Run

variable (s : σ)

@[simp] theorem pure_run (a : α) : (pure a : StateT σ (Except ε) α) s = .ok (a, s) := rfl

@[simp] theorem pure_bind (a : α) (f : α → StateT σ (Except ε) β) :
    ((pure a : StateT σ (Except ε) α) >>= f) s = f a s := rfl

@[simp] theorem get_bind (f : σ → StateT σ (Except ε) β) :
    ((get : StateT σ (Except ε) σ) >>= f) s = f s s := rfl

@[simp] theorem modify_run (g : σ → σ) :
    (modify g : StateT σ (Except ε) PUnit) s = .ok (⟨⟩, g s) := rfl

@[simp] theorem modify_bind (g : σ → σ) (f : PUnit → StateT σ (Except ε) β) :
    ((modify g : StateT σ (Except ε) PUnit) >>= f) s = f ⟨⟩ (g s) := rfl

@[simp] theorem throw_run (e : ε) : (throw e : StateT σ (Except ε) α) s = .error e := rfl

variable {m : StateT σ (Except ε) α}

theorem bind_of_ok {f : α → StateT σ (Except ε) β} {s t : σ} {a : α}
    (h : m s = .ok (a, t)) : (m >>= f) s = f a t := by
  change (m s >>= fun p => f p.1 p.2) = _
  rw [h]; rfl

theorem bind_of_error {f : α → StateT σ (Except ε) β} {s : σ} {e : ε}
    (h : m s = .error e) : (m >>= f) s = .error e := by
  change (m s >>= fun p => f p.1 p.2) = _
  rw [h]; rfl

theorem ite_run {m' : StateT σ (Except ε) α} {c : Prop} [Decidable c] :
    (if c then m else m') s = if c then m s else m' s := by
  split <;> rfl

end Run

end Lib
