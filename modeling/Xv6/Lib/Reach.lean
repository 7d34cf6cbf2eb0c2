import Mathlib

/-!
# Runs of a partial step function

A system takes a step `step s a` for an action `a`, when it is enabled. `Reach` is the
set of states of the runs all of whose steps meet a condition `G` on the state before
the step and the action; `run` executes a list of actions. `Reach.inv` is the only
induction over runs that a safety proof needs.
-/

namespace Lib

variable {S A : Type*}

/-- The states reached from `s₀` by steps that meet `G`. -/
inductive Reach (step : S → A → Option S) (G : S → A → Prop) (s₀ : S) : S → Prop
  | refl : Reach step G s₀ s₀
  | tail {s s' : S} {a : A} : Reach step G s₀ s → G s a → step s a = some s' → Reach step G s₀ s'

/-- Execute a list of actions. -/
def run (step : S → A → Option S) : S → List A → Option S
  | s, [] => some s
  | s, a :: as => (step s a).bind fun s' => run step s' as

-- A schedule names its few threads by numerals; with these the numerals carry no proof of their own.
instance neZero_one : NeZero 1 := ⟨by decide⟩

instance neZero_two : NeZero 2 := ⟨by decide⟩

instance neZero_three : NeZero 3 := ⟨by decide⟩

variable {step : S → A → Option S} {G : S → A → Prop} {s₀ s : S}

/-- **Invariance.** What holds at the start and is kept by every step holds in every
reached state. -/
theorem Reach.inv {I : S → Prop} (h : Reach step G s₀ s) (h0 : I s₀)
    (hs : ∀ s a s', I s → G s a → step s a = some s' → I s') : I s := by
  induction h with
  | refl => exact h0
  | tail _ hg hstep ih => exact hs _ _ _ ih hg hstep

/-- An invariant may use that the state before the step was itself reached. -/
theorem Reach.inv' {I : S → Prop} (h : Reach step G s₀ s) (h0 : I s₀)
    (hs : ∀ s a s', Reach step G s₀ s → I s → G s a → step s a = some s' → I s') : I s := by
  induction h with
  | refl => exact h0
  | tail hr hg hstep ih => exact hs _ _ _ hr ih hg hstep

theorem Reach.mono {G' : S → A → Prop} (hG : ∀ s a, G s a → G' s a) (h : Reach step G s₀ s) :
    Reach step G' s₀ s := by
  induction h with
  | refl => exact .refl
  | tail _ hg hstep ih => exact .tail ih (hG _ _ hg) hstep

/-- A run whose steps all meet `G` reaches its last state. -/
theorem reach_of_run [∀ s a, Decidable (G s a)] {as : List A} {s₁ : S}
    (h : run (fun s a => if G s a then step s a else none) s as = some s₁) (h0 : Reach step G s₀ s) :
    Reach step G s₀ s₁ := by
  induction as generalizing s with
  | nil => cases h; exact h0
  | cons a as ih =>
    simp only [run, Option.bind_eq_some_iff] at h
    obtain ⟨s', hs', hr⟩ := h
    by_cases hg : G s a
    · rw [if_pos hg] at hs'
      exact ih hr (h0.tail hg hs')
    · rw [if_neg hg] at hs'; cases hs'

/-- A value that is found by evaluation. -/
theorem exists_some {α : Type*} {P : α → Prop} [DecidablePred P] {o : Option α}
    (h : (o.any fun x => decide (P x)) = true) : ∃ x, o = some x ∧ P x := by
  obtain ⟨x, hx, hP⟩ := (Option.any_eq_true _ _).1 h
  exact ⟨x, hx, of_decide_eq_true hP⟩

/-- A run that is found by evaluation. -/
theorem exists_reach {P : S → Prop} [∀ s a, Decidable (G s a)] [DecidablePred P] (as : List A)
    (h : ((run (fun s a => if G s a then step s a else none) s₀ as).any fun s => decide (P s)) = true) :
    ∃ s, Reach step G s₀ s ∧ P s := by
  obtain ⟨s, hs, hP⟩ := exists_some h
  exact ⟨s, reach_of_run hs .refl, hP⟩

end Lib
