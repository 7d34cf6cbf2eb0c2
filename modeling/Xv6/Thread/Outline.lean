import Xv6.Thread.Locks

/-!
# Proof outlines

How to prove that data guarded by a lock `k` stays as it should while many processes run
(`Outline`): `I` holds of the data whenever `k` is free, `J p l` is what process `p` knows
at the local state `l`, and `W p l` what it still knows while it sleeps, to continue at `l`.
Each instruction of the program is checked once; what `p` knows must survive the actions of
other processes (`stable`), where two processes that hold `k` never meet. The data need
not be touched with `k` held only: an action made without it has to keep `I` as well.

* `OutlineInv.step`: every step keeps the outline.
* `Outline.reach`: it holds in every reachable state.
* `OutlineInv.always`: where the lock's holder knows `I` as well, `I` holds in every state.

`Ctx` is what is already known at a local state, from an outline proved before; `ok` is the
condition on which actions the run takes, `True` where there is none.
-/

namespace Xv6.Thread

open Lib

variable {n : ℕ} {K C σ ι L : Type}

/-- A program annotated with what is known at each of its local states. -/
structure Outline (prog : Fin n → L → Instr n K C σ ι L) (held : L → Lock n K → Prop) (k : K)
    (Ctx : Fin n → L → σ → Prop) (ok : Fin n → L → ι → σ → Prop) (I : σ → Prop)
    (J W : Fin n → L → σ → Prop) : Prop where
  acquire : ∀ {p l ℓ l' sh}, prog p l = .acquire ℓ l' → J p l sh → (ℓ = .mon k → I sh) → J p l' sh
  release : ∀ {p l ℓ l' sh}, prog p l = .release ℓ l' → J p l sh → (ℓ = .mon k → I sh) ∧ J p l' sh
  act : ∀ {p l f x sh}, prog p l = .act f → Ctx p l sh → ok p l x sh → J p l sh →
    J p (f x sh).2 (f x sh).1
  stable : ∀ {p l f x sh}, prog p l = .act f → Ctx p l sh → ok p l x sh → J p l sh → ∀ q, q ≠ p →
    (∀ l', (held l' (.mon k) → ¬ held l (.mon k)) → J q l' sh → J q l' (f x sh).1) ∧
      ∀ l', W q l' sh → W q l' (f x sh).1
  unlocked : ∀ {p l f x sh}, prog p l = .act f → ¬ held l (.mon k) → Ctx p l sh → ok p l x sh →
    J p l sh → I sh → I (f x sh).1
  sleep : ∀ {p l c k' l' sh}, prog p l = .sleep c k' l' → J p l sh →
    W p l' sh ∧ (held l' (.mon k) → k' = k ∧ I sh)
  back : ∀ {p l' sh}, W p l' sh → (held l' (.mon k) → I sh) → J p l' sh
  wakeup : ∀ {p l c l' sh}, prog p l = .wakeup c l' → J p l sh → J p l' sh
  killed : ∀ {p l f sh}, prog p l = .killed f → J p l sh → ∀ b, J p (f b) sh
  kill : ∀ {p l pid f sh}, prog p l = .kill pid f → J p l sh → ∀ b, J p (f b) sh

/-- What is known at a control point. -/
def Ctl.Asserts (held : L → Lock n K → Prop) (k : K) (I : σ → Prop) (J W : L → σ → Prop) (sh : σ) :
    Ctl n K C L → Prop
  | .run l => J l sh
  | .sleepAcquire _ k' l | .sleepRelease _ k' l => W l sh ∧ (held l (.mon k) → k' = k ∧ I sh)
  | .sleepSet _ k' l | .sleepSwtch _ k' l | .sleepOff _ k' l | .sleepBack _ k' l
  | .sleepReacquire _ k' l => W l sh ∧ (held l (.mon k) → k' = k)
  | .wakeAt _ _ l | .wakeHold _ _ l => J l sh
  | .killedAcquire f | .killedHold f | .killAt _ _ f | .killHold _ _ f => ∀ b, J (f b) sh

/-- Where the function is, or will go on when the call it made returns. -/
def Ctl.resume : Ctl n K C L → L
  | .run l => l
  | .sleepAcquire _ _ l | .sleepRelease _ _ l | .sleepSet _ _ l | .sleepSwtch _ _ l | .sleepOff _ _ l
  | .sleepBack _ _ l | .sleepReacquire _ _ l => l
  | .wakeAt _ _ l | .wakeHold _ _ l => l
  | .killedAcquire f | .killedHold f | .killAt _ _ f | .killHold _ _ f => f false

/-- What is known where the function will go on. -/
theorem Ctl.Asserts.resume {held : L → Lock n K → Prop} {k : K} {I : σ → Prop} {J W : L → σ → Prop}
    {sh : σ} {c : Ctl n K C L} {P : L → Prop} (h : c.Asserts held k I J W sh) (hJ : ∀ l, J l sh → P l)
    (hW : ∀ l, W l sh → P l) : P c.resume := by
  cases c with
  | run l | wakeAt c j l | wakeHold c j l => exact hJ l h
  | killedAcquire f | killedHold f | killAt pid j f | killHold pid j f => exact hJ _ (h false)
  | _ => exact hW _ h.1

/-- What is known at every local state, asleep or not, is known at every control point. -/
theorem Ctl.Asserts.elim {held : L → Lock n K → Prop} {k : K} {I : σ → Prop} {J W : L → σ → Prop} {sh : σ}
    {c : Ctl n K C L} {P : Prop} (h : c.Asserts held k I J W sh) (hJ : ∀ l, J l sh → P)
    (hW : ∀ l, W l sh → P) : P :=
  h.resume (P := fun _ => P) hJ hW

/-- **The annotations are true.** -/
structure OutlineInv (held : L → Lock n K → Prop) (k : K) (I : σ → Prop) (J W : Fin n → L → σ → Prop)
    (s : State n K C σ L) : Prop where
  free : s.lock (.mon k) = none → I s.sh
  asserts : ∀ q, (s.procs q).ctl.Asserts held k I (J q) (W q) s.sh

variable {prog : Fin n → L → Instr n K C σ ι L} {s s' : State n K C σ L} {p : Fin n} {i : ι}
variable {held : L → Lock n K → Prop} {k : K} {Ctx : Fin n → L → σ → Prop}
variable {ok : Fin n → L → ι → σ → Prop} {I : σ → Prop} {J W : Fin n → L → σ → Prop}

theorem OutlineInv.start {l : L} {sh : σ} (hI : I sh) (hJ : ∀ q, J q l sh) :
    OutlineInv held k I J W (start l sh : State n K C σ L) :=
  ⟨fun _ => hI, fun q => hJ q⟩

/-- What another process knows survives an action of `p`. -/
theorem OutlineInv.other (ho : Outline prog held k Ctx ok I J W) (hl : LockInv held s)
    (h : OutlineInv held k I J W s) {l : L} {f : ι → σ → σ × L}
    (hc : (s.procs p).ctl = .run l) (hi : prog p l = .act f) (hctx : Ctx p l s.sh)
    (hok : ok p l i s.sh) {q : Fin n} (hq : q ≠ p) :
    (s.procs q).ctl.Asserts held k I (J q) (W q) (f i s.sh).1 := by
  have hJ : J p l s.sh := by simpa [hc, Ctl.Asserts] using h.asserts p
  obtain ⟨hJq, hWq⟩ := ho.stable hi hctx hok hJ q hq
  have hI : ¬ held l (.mon k) → I s.sh → I (f i s.sh).1 := fun hn =>
    ho.unlocked hi hn hctx hok hJ
  -- `p` and `q` do not both hold the lock
  have hex : ∀ l', (held l' (.mon k) → (s.procs q).ctl.Holds held q (.mon k)) →
      held l' (.mon k) → ¬ held l (.mon k) := fun l' hq' h1 h2 =>
    hq (hl.unique (hq' h1) (show (s.procs p).ctl.Holds held p (.mon k) by rw [hc]; exact h2))
  have hqa := h.asserts q
  have hqo := hl.ok q
  cases hcq : (s.procs q).ctl with
  | run l' | wakeAt c j l' => rw [hcq] at hqa hex; exact hJq l' (hex l' id) hqa
  | sleepAcquire c k' l' =>
    rw [hcq] at hqa hex
    exact ⟨hWq l' hqa.1, fun hh => ⟨(hqa.2 hh).1, hI (hex l' id hh) (hqa.2 hh).2⟩⟩
  | sleepRelease c k' l' =>
    rw [hcq] at hqa hex
    exact ⟨hWq l' hqa.1, fun hh => ⟨(hqa.2 hh).1, hI (hex l' Or.inl hh) (hqa.2 hh).2⟩⟩
  | sleepSet c k' l' | sleepSwtch c k' l' | sleepOff c k' l' | sleepBack c k' l'
  | sleepReacquire c k' l' => rw [hcq] at hqa; exact ⟨hWq l' hqa.1, hqa.2⟩
  | wakeHold c j l' => rw [hcq] at hqa hex; exact hJq l' (hex l' Or.inl) hqa
  | killedAcquire g | killAt _ _ g =>
    rw [hcq] at hqa hex hqo
    exact fun b => hJq (g b) (hex (g b) (hqo.2 b _).1) (hqa b)
  | killedHold g | killHold _ _ g =>
    rw [hcq] at hqa hex hqo
    exact fun b => hJq (g b) (hex (g b) fun hh => Or.inl ((hqo.2 b _).1 hh)) (hqa b)

/-- If every local state that holds the lock knows `I`, then `I` holds all the time. -/
theorem OutlineInv.always (hJ : ∀ q l sh, held l (.mon k) → J q l sh → I sh) (hl : LockInv held s)
    (h : OutlineInv held k I J W s) : I s.sh := by
  cases ho : s.lock (.mon k) with
  | none => exact h.free ho
  | some q =>
    have hq := (hl.holder q (.mon k)).1 ho
    have ha := h.asserts q
    have hok := hl.ok q
    cases hc : (s.procs q).ctl with
    | run l | wakeAt c j l => rw [hc] at hq ha; exact hJ q l _ hq ha
    | wakeHold c j l => rw [hc] at hq ha; exact hJ q l _ (by simpa [Ctl.Holds] using hq) ha
    | sleepAcquire c k' l => rw [hc] at hq ha; exact (ha.2 hq).2
    | sleepRelease c k' l => rw [hc] at hq ha; exact (ha.2 (by simpa [Ctl.Holds] using hq)).2
    | sleepSet c k' l | sleepSwtch c k' l | sleepOff c k' l | sleepBack c k' l | sleepReacquire c k' l =>
      -- it gave the lock away
      rw [hc] at hq ha
      have hq' : held l (.mon k) ∧ k ≠ k' := by simpa [Ctl.Holds] using hq
      exact absurd (ha.2 hq'.1).symm hq'.2
    | killedAcquire f | killAt pid j f => rw [hc] at hq ha; exact hJ q _ _ hq (ha false)
    | killedHold f | killHold pid j f =>
      rw [hc] at hq ha
      exact hJ q _ _ (by simpa [Ctl.Holds] using hq) (ha false)

variable [DecidableEq K] [DecidableEq C]

/-- A step that leaves the data alone. -/
theorem OutlineInv.quiet (h : OutlineInv held k I J W s) (hm : Move prog s p i s') (hsh : s'.sh = s.sh)
    (hfree : s'.lock (.mon k) = none → s.lock (.mon k) = none ∨ I s.sh)
    (hp : (s'.procs p).ctl.Asserts held k I (J p) (W p) s.sh) : OutlineInv held k I J W s' := by
  constructor
  · intro hl
    rw [hsh]
    rcases hfree hl with h0 | h0
    · exact h.free h0
    · exact h0
  · intro q
    rw [hsh]
    rcases eq_or_ne q p with rfl | hq
    · exact hp
    · rw [hm.ctl_of_ne hq]; exact h.asserts q

/-- **Every step keeps the outline.** -/
theorem OutlineInv.step (ho : Outline prog held k Ctx ok I J W) (hl : LockInv held s)
    (hctx : ∀ l, (s.procs p).ctl = .run l → Ctx p l s.sh)
    (hok : ∀ l f, (s.procs p).ctl = .run l → prog p l = .act f → ok p l i s.sh)
    (h : OutlineInv held k I J W s) (hm : Move prog s p i s') : OutlineInv held k I J W s' := by
  have hm' := hm
  have hpa := h.asserts p
  have hkeep : ∀ {ℓ : Lock n K} {o : Option (Fin n)}, ℓ ≠ .mon k →
      (Function.update s.lock ℓ o) (.mon k) = none → s.lock (.mon k) = none ∨ I s.sh :=
    fun hne hf => Or.inl (by rwa [Function.update_of_ne hne.symm] at hf)
  cases hm with
  | acquire hc hi hf =>
    rename_i l l' ℓ
    rw [hc] at hpa
    refine h.quiet hm' rfl (fun hf' => ?_) ?_
    · rcases eq_or_ne ℓ (.mon k) with rfl | hne
      · exact Or.inl hf
      · exact hkeep hne hf'
    · rw [goto_self]
      exact ho.acquire hi hpa fun he => h.free (he ▸ hf)
  | release hc hi hf =>
    rename_i l l' ℓ
    rw [hc] at hpa
    obtain ⟨h1, h2⟩ := ho.release hi hpa
    refine h.quiet hm' rfl (fun hf' => ?_) ?_
    · rcases eq_or_ne ℓ (.mon k) with rfl | hne
      · exact Or.inr (h1 rfl)
      · exact hkeep hne hf'
    · rw [goto_self]; exact h2
  | act hc hi =>
    rename_i l f
    rw [hc] at hpa
    constructor
    · intro hf
      have hnot : ¬ held l (.mon k) := fun hh => by
        have := (hl.holder p (.mon k)).2 (by rw [hc]; exact hh)
        rw [show s.lock (.mon k) = none from hf] at this; cases this
      exact ho.unlocked hi hnot (hctx l hc) (hok l f hc hi) hpa (h.free hf)
    · intro q
      rcases eq_or_ne q p with rfl | hq
      · rw [goto_self]
        exact ho.act hi (hctx l hc) (hok l f hc hi) hpa
      · rw [goto_of_ne _ _ _ _ hq]
        exact h.other ho hl hc hi (hctx l hc) (hok l f hc hi) hq
  | sleep hc hi =>
    rw [hc] at hpa
    exact h.quiet hm' rfl Or.inl (by rw [goto_self]; exact ho.sleep hi hpa)
  | wakeup hc hi =>
    rw [hc] at hpa
    exact h.quiet hm' rfl Or.inl (by rw [goto_self]; exact ho.wakeup hi hpa)
  | killed hc hi =>
    rw [hc] at hpa
    exact h.quiet hm' rfl Or.inl (by rw [goto_self]; exact ho.killed hi hpa)
  | kill hc hi =>
    rw [hc] at hpa
    exact h.quiet hm' rfl Or.inl (by rw [goto_self]; exact ho.kill hi hpa)
  | panic hc hi | badRelease hb hm => exact ⟨h.free, h.asserts⟩
  | sleepAcquire hc hf | sleepSwtch hc | wakeAt hc hj hf | wakeHold hc | killedAcquire hc hf
  | killAt hc hf | killMiss hc hp | wakeSelf hc | wakeEnd hc hj =>
    rw [hc] at hpa
    exact h.quiet hm' rfl (fun hf' => Or.inl (by simpa using hf')) (by rw [goto_self]; exact hpa)
  | sleepRelease hc hf =>
    rename_i c k' l
    rw [hc] at hpa
    refine h.quiet hm' rfl (fun hf' => ?_) (by rw [goto_self]; exact ⟨hpa.1, fun hh => (hpa.2 hh).1⟩)
    rcases eq_or_ne k' k with rfl | hne
    · have hh := hl.ok p
      rw [hc] at hh
      exact Or.inr (hpa.2 hh.1).2
    · exact hkeep (by simpa using hne) hf'
  | sleepSet hc | sleepOff hc hr hf | sleepBack hc =>
    rw [hc] at hpa
    exact h.quiet hm' rfl (fun hf' => Or.inl (by simpa using hf')) (by simpa [Ctl.Asserts] using hpa)
  | sleepReacquire hc hf =>
    rename_i c k' l
    rw [hc] at hpa
    refine h.quiet hm' rfl (fun hf' => ?_) ?_
    · rcases eq_or_ne k' k with rfl | hne
      · exact Or.inl hf
      · exact hkeep (by simpa using hne) hf'
    · rw [goto_self]
      exact ho.back hpa.1 fun hh => h.free (hpa.2 hh ▸ hf)
  | killedHold hc | killHit hc hp | killEnd hc hj =>
    rw [hc] at hpa
    exact h.quiet hm' rfl (fun hf' => Or.inl (by simpa using hf')) (by rw [goto_self]; exact hpa _)

/-- **A proved outline is true in every reachable state**, and locks are held where the
program says. -/
theorem Outline.reach {G : State n K C σ L → Fin n × ι → Prop} {s₀ : State n K C σ L}
    (ho : Outline prog held k Ctx ok I J W) (hd : Disciplined prog held)
    (hctx : ∀ s, Reach (step prog) G s₀ s → ∀ q l, (s.procs q).ctl = .run l → Ctx q l s.sh)
    (hok : ∀ s q x l f, G s (q, x) → (s.procs q).ctl = .run l → prog q l = .act f → ok q l x s.sh)
    (hl0 : LockInv held s₀) (h0 : OutlineInv held k I J W s₀) (hr : Reach (step prog) G s₀ s) :
    LockInv held s ∧ OutlineInv held k I J W s := by
  refine hr.inv' (I := fun s => LockInv held s ∧ OutlineInv held k I J W s) ⟨hl0, h0⟩ ?_
  rintro s ⟨q, x⟩ s' hreach ⟨hl, h⟩ hg hstep
  have hm := step_move hstep
  exact ⟨hl.step hd hm, h.step ho hl (hctx s hreach q) (fun l f => hok s q x l f hg) hm⟩

end Xv6.Thread
