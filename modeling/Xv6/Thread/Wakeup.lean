import Xv6.Thread.Locks

/-!
# No wakeup is lost

A monitor: data guarded by a lock `k`, a channel `c`, and a condition `B` of the data on
which nobody should sleep on `c`. A program signals `B` properly (`Signals`) when

* it sleeps on `c` only at local states that know `B` to be false (`Safe`), with `k` held;
* whoever makes `B` true does so with `k` held and from then on owes a `wakeup c`
  (`Owes`), which it calls before it lets go of `k`.

Then, in every reachable state in which `k` is free, no process sleeps on `c` while `B`
holds (`no_lost_wakeup`). The invariant (`WakeInv`) says who will wake a sleeper: the
process that holds `k` and owes the call, or is in a `wakeup` scan that has not come to
the sleeper's slot yet (`Covers`). A sleeper between its release of `k` and the moment it
is marked `SLEEPING` is not passed by, because it holds its own `p->lock`.
-/

namespace Xv6.Thread

open Lib

variable {n : ℕ} {K C σ ι L : Type} [DecidableEq K] [DecidableEq C]
variable {prog : Fin n → L → Instr n K C σ ι L} {s s' : State n K C σ L} {p : Fin n} {i : ι}
variable {held : L → Lock n K → Prop}

/-! ## Sleeping processes are inside `sleep` -/

/-- A `SLEEPING` process has given up the CPU inside `sleep`, on the channel it recorded. -/
structure SleepInv (s : State n K C σ L) : Prop where
  asleep : ∀ q, (s.procs q).state = .sleeping →
    ∃ c k l, (s.procs q).ctl = .sleepSwtch c k l ∨ (s.procs q).ctl = .sleepOff c k l
  chan : ∀ q c k l, (s.procs q).ctl = .sleepSwtch c k l ∨ (s.procs q).ctl = .sleepOff c k l →
    (s.procs q).chan = some c

omit [DecidableEq K] [DecidableEq C] in
theorem SleepInv.start {l : L} {sh : σ} : SleepInv (start l sh : State n K C σ L) :=
  ⟨by simp [Thread.start], by simp [Thread.start]⟩

omit [DecidableEq K] in
/-- A step of `p` that does not put `p` to sleep keeps the invariant. -/
theorem SleepInv.awake (h : SleepInv s)
    (hne : ∀ q, q ≠ p → s'.procs q = s.procs q ∨ (∃ c, s'.procs q = (s.procs q).wake c) ∨
      s'.procs q = (s.procs q).markKilled)
    (hst : (s'.procs p).state ≠ .sleeping)
    (hctl : ∀ c k l, (s'.procs p).ctl ≠ .sleepSwtch c k l ∧ (s'.procs p).ctl ≠ .sleepOff c k l) :
    SleepInv s' := by
  constructor
  · intro q hq
    rcases eq_or_ne q p with rfl | hqp
    · exact absurd hq hst
    rcases hne q hqp with he | ⟨c, he⟩ | he <;> rw [he] at hq ⊢
    · exact h.asleep q hq
    · simpa using h.asleep q (wake_state _ _ hq).1
    · exact absurd hq (markKilled_state _)
  · intro q c k l hq
    rcases eq_or_ne q p with rfl | hqp
    · rcases hq with hq | hq
      · exact absurd hq (hctl c k l).1
      · exact absurd hq (hctl c k l).2
    rcases hne q hqp with he | ⟨d, he⟩ | he <;> rw [he] at hq ⊢
    · exact h.chan q c k l hq
    · rw [wake_chan]; exact h.chan q c k l (by simpa using hq)
    · rw [markKilled_chan]; exact h.chan q c k l (by simpa using hq)

theorem Move.others (hm : Move prog s p i s') {q : Fin n} (hq : q ≠ p) :
    s'.procs q = s.procs q ∨ (∃ c, s'.procs q = (s.procs q).wake c) ∨
      s'.procs q = (s.procs q).markKilled := by
  rcases hm.proc_of_ne hq with he | ⟨c, -, -, he⟩ | ⟨-, -, -, -, he⟩
  · exact Or.inl he
  · exact Or.inr (Or.inl ⟨c, he⟩)
  · exact Or.inr (Or.inr he)

theorem SleepInv.step (h : SleepInv s) (hm : Move prog s p i s') : SleepInv s' := by
  have hne := fun q (hq : q ≠ p) => hm.others hq
  -- outside the two control points a process is awake
  have haw : (∀ c k l, (s.procs p).ctl ≠ .sleepSwtch c k l ∧ (s.procs p).ctl ≠ .sleepOff c k l) →
      (s.procs p).state ≠ .sleeping := by
    intro hc hs
    obtain ⟨c, k, l, h1 | h1⟩ := h.asleep p hs
    · exact (hc c k l).1 h1
    · exact (hc c k l).2 h1
  cases hm with
  | sleepSet hc =>
    rename_i c k l
    constructor
    · intro q hq
      rcases eq_or_ne q p with rfl | hqp
      · exact ⟨c, k, l, Or.inl (by simp)⟩
      · simpa [hqp] using h.asleep q (by simpa [hqp] using hq)
    · intro q c' k' l' hq
      rcases eq_or_ne q p with rfl | hqp
      · simp only [setProc_procs, Function.update_self, Ctl.sleepSwtch.injEq, reduceCtorEq, or_false] at hq ⊢
        rw [hq.1]
      · simpa [hqp] using h.chan q c' k' l' (by simpa [hqp] using hq)
  | sleepSwtch hc =>
    rename_i c k l
    have hch := h.chan p c k l (Or.inl hc)
    constructor
    · intro q hq
      rcases eq_or_ne q p with rfl | hqp
      · exact ⟨c, k, l, Or.inr (by simp)⟩
      · simpa [hqp] using h.asleep q (by simpa [hqp] using hq)
    · intro q c' k' l' hq
      rcases eq_or_ne q p with rfl | hqp
      · simp only [goto_self, setLock_procs, Ctl.sleepOff.injEq, reduceCtorEq, false_or] at hq ⊢
        rw [← hq.1]; exact hch
      · simpa [hqp] using h.chan q c' k' l' (by simpa [hqp] using hq)
  | sleepOff hc hr hl => exact h.awake hne (by simp) (by simp)
  | panic hc hi | badRelease hb hm => exact ⟨h.asleep, h.chan⟩
  | wakeHold hc =>
    rename_i c l j
    refine h.awake hne ?_ (by simp [State.goto])
    have hp := haw (by simp [hc])
    rcases eq_or_ne p j with rfl | hj
    · simpa [State.goto] using fun hx => hp (wake_state (s.procs p) c hx).1
    · simpa [State.goto, hj] using hp
  | killHit hc hpid =>
    rename_i pid f j
    refine h.awake hne ?_ (by simp [State.goto])
    have hp := haw (by simp [hc])
    rcases eq_or_ne p j with rfl | hj
    · simpa [State.goto] using markKilled_state (s.procs p)
    · simpa [State.goto, hj] using hp
  | acquire hc | release hc | act hc | sleep hc | wakeup hc | killed hc | kill hc | sleepAcquire hc
  | sleepRelease hc | sleepBack hc | sleepReacquire hc | wakeSelf hc | wakeAt hc | wakeEnd hc
  | killedAcquire hc | killedHold hc | killAt hc | killEnd hc | killMiss hc =>
    exact h.awake hne (by simpa [State.goto] using haw (by simp [hc])) (by simp [State.goto])

/-! ## Proper signalling -/

/-- A program that signals `B` on channel `c` under lock `k`. `J` is what is known of the
data at a local state. -/
structure Signals (prog : Fin n → L → Instr n K C σ ι L) (held : L → Lock n K → Prop) (k : K) (c : C)
    (B : σ → Prop) (J : Fin n → L → σ → Prop) (Safe Owes : L → Prop) : Prop where
  acquire : ∀ {p l ℓ l'}, prog p l = .acquire ℓ l' → (Safe l' → Safe l) ∧ (Owes l → Owes l')
  release : ∀ {p l ℓ l'}, prog p l = .release ℓ l' →
    (Safe l' → ℓ ≠ .mon k ∧ Safe l) ∧ (Owes l → ℓ ≠ .mon k ∧ Owes l')
  /-- Without the lock `B` does not become true; with it, whoever finds or makes it true owes. -/
  act : ∀ {p l f}, prog p l = .act f → ∀ x sh, J p l sh → (Safe l → ¬ B sh) →
    (Safe (f x sh).2 → held l (.mon k) ∧ ¬ B (f x sh).1) ∧
    (¬ held l (.mon k) → B (f x sh).1 → B sh) ∧
    (held l (.mon k) → B (f x sh).1 → (B sh → Owes l) → Owes (f x sh).2)
  sleep : ∀ {p l d k' l'}, prog p l = .sleep d k' l' → (d = c → Safe l) ∧ ¬ Owes l ∧ ¬ Safe l'
  wakeup : ∀ {p l d l'}, prog p l = .wakeup d l' → (Safe l' → Safe l) ∧ (d ≠ c → Owes l → Owes l')
  killed : ∀ {p l f}, prog p l = .killed f → (∀ b, Safe (f b) → Safe l) ∧ (Owes l → Owes (f false))
  kill : ∀ {p l pid f}, prog p l = .kill pid f → (∀ b, Safe (f b) → Safe l) ∧ (Owes l → ∀ b, Owes (f b))

/-- The control points that know `B` to be false. -/
def Ctl.IsSafe (c : C) (Safe : L → Prop) : Ctl n K C L → Prop
  | .run l => Safe l
  | .sleepAcquire d _ _ | .sleepRelease d _ _ => d = c
  | .wakeAt _ _ l | .wakeHold _ _ l => Safe l
  | .killedAcquire f | .killedHold f | .killAt _ _ f | .killHold _ _ f => ∃ b, Safe (f b)
  | _ => False

/-- The control points from which `wakeup c` will still reach slot `q`. -/
def Ctl.Covers (c : C) (Owes : L → Prop) (q : Fin n) : Ctl n K C L → Prop
  | .run l => Owes l
  | .wakeAt d j l => d = c ∧ j ≤ q.val ∨ d ≠ c ∧ Owes l
  | .wakeHold d j l => d = c ∧ j.val ≤ q.val ∨ d ≠ c ∧ Owes l
  | .killedAcquire f | .killedHold f => Owes (f false)
  | .killAt _ _ f | .killHold _ _ f => ∀ b, Owes (f b)
  | _ => False

/-- A process that has let go of the monitor to sleep on `c` and was not woken. -/
def Proc.Waiting (c : C) (x : Proc n K C L) : Prop :=
  match x.ctl with
  | .sleepSet d _ _ | .sleepSwtch d _ _ => d = c
  | .sleepOff d _ _ => d = c ∧ x.state = .sleeping
  | _ => False

/-- Where a process inside `sleep` will continue. -/
def Ctl.sleepNext : Ctl n K C L → Option L
  | .sleepAcquire _ _ l | .sleepRelease _ _ l | .sleepSet _ _ l | .sleepSwtch _ _ l | .sleepOff _ _ l
  | .sleepBack _ _ l | .sleepReacquire _ _ l => some l
  | _ => none

/-- **Who wakes a sleeper.** -/
structure WakeInv (k : K) (c : C) (B : σ → Prop) (Safe Owes : L → Prop) (s : State n K C σ L) : Prop where
  next : ∀ q l, (s.procs q).ctl.sleepNext = some l → ¬ Safe l
  safe : ∀ q, (s.procs q).ctl.IsSafe c Safe → s.lock (.mon k) = some q ∧ ¬ B s.sh
  wait : ∀ q, (s.procs q).Waiting c → B s.sh →
    ∃ h, s.lock (.mon k) = some h ∧ (s.procs h).ctl.Covers c Owes q

section Inv

variable {k : K} {c : C} {B : σ → Prop} {J : Fin n → L → σ → Prop} {Safe Owes : L → Prop}

omit [DecidableEq K] [DecidableEq C] in
theorem WakeInv.start {l : L} {sh : σ} (h : ¬ Safe l) :
    WakeInv k c B Safe Owes (start l sh : State n K C σ L) :=
  ⟨by simp [Thread.start, Ctl.sleepNext], by simp [Thread.start, Ctl.IsSafe, h],
    by simp [Thread.start, Proc.Waiting]⟩

variable {q : Fin n}

omit [DecidableEq K] in
/-- `wakeup` and `kill` put nobody to sleep. -/
theorem waiting_of_ne
    (hne : s'.procs q = s.procs q ∨ (∃ d, s'.procs q = (s.procs q).wake d) ∨
      s'.procs q = (s.procs q).markKilled)
    (h : (s'.procs q).Waiting c) : (s.procs q).Waiting c := by
  rcases hne with he | ⟨d, he⟩ | he
  · rwa [he] at h
  · rw [he] at h
    unfold Proc.Waiting at h ⊢
    rw [wake_ctl] at h
    split at h
    · exact h
    · exact h
    · exact ⟨h.1, (wake_state _ _ h.2).1⟩
    · exact h
  · rw [he] at h
    unfold Proc.Waiting at h ⊢
    rw [markKilled_ctl] at h
    split at h
    · exact h
    · exact h
    · exact absurd h.2 (markKilled_state _)
    · exact h

omit [DecidableEq K] [DecidableEq C] in
theorem WakeInv.next_step (h : WakeInv k c B Safe Owes s)
    (hctl : ∀ q, q ≠ p → (s'.procs q).ctl = (s.procs q).ctl)
    (hp : ∀ l, (s'.procs p).ctl.sleepNext = some l → ¬ Safe l) :
    ∀ q l, (s'.procs q).ctl.sleepNext = some l → ¬ Safe l := by
  intro q l hq
  rcases eq_or_ne q p with rfl | hqp
  · exact hp l hq
  · rw [hctl q hqp] at hq; exact h.next q l hq

/-- A step that touches neither the data nor the monitor's lock. -/
theorem WakeInv.quiet (h : WakeInv k c B Safe Owes s) (hm : Move prog s p i s')
    (hsafe : (s'.procs p).ctl.IsSafe c Safe → (s.procs p).ctl.IsSafe c Safe)
    (hcov : ∀ q, q ≠ p → (s'.procs q).Waiting c → (s.procs p).ctl.Covers c Owes q →
      (s'.procs p).ctl.Covers c Owes q)
    (x : ∀ l, (s'.procs p).ctl.sleepNext = some l → ¬ Safe l := by simp [Ctl.sleepNext, State.goto])
    (w : (s'.procs p).Waiting c → (s.procs p).Waiting c ∨ ¬ B s.sh := by simp [Proc.Waiting, State.goto])
    (e : s'.lock (.mon k) = s.lock (.mon k) := by simp) (hsh : s'.sh = s.sh := by rfl) :
    WakeInv k c B Safe Owes s' := by
  have hctl := fun q (hq : q ≠ p) => hm.ctl_of_ne hq
  refine ⟨h.next_step hctl x, fun q hq => ?_, fun q hq hB => ?_⟩
  · rw [e, hsh]
    rcases eq_or_ne q p with rfl | hqp
    · exact h.safe q (hsafe hq)
    · rw [hctl q hqp] at hq; exact h.safe q hq
  · rw [hsh] at hB
    rw [e]
    have hq0 : (s.procs q).Waiting c := by
      rcases eq_or_ne q p with rfl | hqp
      · exact (w hq).resolve_right (fun hn => hn hB)
      · exact waiting_of_ne (hm.others hqp) hq
    obtain ⟨r, hr, hc⟩ := h.wait q hq0 hB
    refine ⟨r, hr, ?_⟩
    rcases eq_or_ne r p with rfl | hrp
    · rcases eq_or_ne q r with rfl | hqr
      · -- a waiting process covers nobody
        unfold Proc.Waiting at hq0
        split at hq0 <;> simp_all [Ctl.Covers]
      · exact hcov q hqr hq hc
    · rw [hctl r hrp]; exact hc

/-- A step that takes the monitor's lock. -/
theorem WakeInv.take (h : WakeInv k c B Safe Owes s) (hm : Move prog s p i s') (hsh : s'.sh = s.sh)
    (hfree : s.lock (.mon k) = none) (hp : (s'.procs p).ctl.sleepNext = none)
    (hsafe : ¬ (s'.procs p).ctl.IsSafe c Safe) (hwait : ¬ (s'.procs p).Waiting c) :
    WakeInv k c B Safe Owes s' := by
  have hctl := fun q (hq : q ≠ p) => hm.ctl_of_ne hq
  refine ⟨h.next_step hctl (by simp [hp]), fun q hq => ?_, fun q hq hB => ?_⟩
  · rcases eq_or_ne q p with rfl | hqp
    · exact absurd hq hsafe
    · rw [hctl q hqp] at hq
      have := (h.safe q hq).1
      rw [hfree] at this; cases this
  · rcases eq_or_ne q p with rfl | hqp
    · exact absurd hq hwait
    · obtain ⟨r, hr, -⟩ := h.wait q (waiting_of_ne (hm.others hqp) hq) (hsh ▸ hB)
      rw [hfree] at hr; cases hr

/-- A step that lets go of the monitor's lock, owing nothing. -/
theorem WakeInv.letGo (h : WakeInv k c B Safe Owes s) (hm : Move prog s p i s') (hsh : s'.sh = s.sh)
    (hmine : s.lock (.mon k) = some p) (hp : ∀ l, (s'.procs p).ctl.sleepNext = some l → ¬ Safe l)
    (hsafe : ¬ (s'.procs p).ctl.IsSafe c Safe) (hwait : (s'.procs p).Waiting c → ¬ B s.sh)
    (hcov : ∀ q, ¬ (s.procs p).ctl.Covers c Owes q) : WakeInv k c B Safe Owes s' := by
  have hctl := fun q (hq : q ≠ p) => hm.ctl_of_ne hq
  refine ⟨h.next_step hctl hp, fun q hq => ?_, fun q hq hB => ?_⟩
  · rcases eq_or_ne q p with rfl | hqp
    · exact absurd hq hsafe
    · rw [hctl q hqp] at hq
      have := (h.safe q hq).1
      rw [hmine] at this; cases this; exact absurd rfl hqp
  · rcases eq_or_ne q p with rfl | hqp
    · exact absurd (hsh ▸ hB) (hwait hq)
    · obtain ⟨r, hr, hc⟩ := h.wait q (waiting_of_ne (hm.others hqp) hq) (hsh ▸ hB)
      rw [hmine] at hr; cases hr
      exact absurd hc (hcov q)

omit [DecidableEq K] [DecidableEq C] in
/-- A step of the function itself on the shared data. -/
theorem WakeInv.act {l : L} {f : ι → σ → σ × L} (hs : Signals prog held k c B J Safe Owes)
    (hl : LockInv held s) (h : WakeInv k c B Safe Owes s) (hJ : J p l s.sh)
    (hc : (s.procs p).ctl = .run l) (hi : prog p l = .act f) :
    WakeInv k c B Safe Owes ({ s with sh := (f i s.sh).1 }.goto p (.run (f i s.sh).2)) := by
  have hmine : s.lock (.mon k) = some p ↔ held l (.mon k) := by rw [hl.holder p, hc]; rfl
  obtain ⟨h1, h2, h3⟩ := hs.act hi i s.sh hJ (fun hsl => (h.safe p (by rw [hc]; exact hsl)).2)
  have hctl : ∀ q, q ≠ p → (({ s with sh := (f i s.sh).1 } : State n K C σ L).goto p
      (.run (f i s.sh).2)).procs q = s.procs q := fun q hq => by simp [hq]
  refine ⟨h.next_step (p := p) (fun q hq => by rw [hctl q hq]) (by simp [Ctl.sleepNext]),
    fun q hq => ?_, fun q hq hB => ?_⟩
  · rcases eq_or_ne q p with rfl | hqp
    · simp only [goto_self, Ctl.IsSafe] at hq
      exact ⟨hmine.2 (h1 hq).1, (h1 hq).2⟩
    · rw [hctl q hqp] at hq
      obtain ⟨hq1, hq2⟩ := h.safe q hq
      have hnot : ¬ held l (.mon k) := fun hh => by
        rw [hmine.2 hh] at hq1; cases hq1; exact hqp rfl
      exact ⟨hq1, fun hB => hq2 (h2 hnot hB)⟩
  · have hqp : q ≠ p := by
      rintro rfl
      simp [Proc.Waiting] at hq
    rw [hctl q hqp] at hq
    by_cases hh : held l (.mon k)
    · refine ⟨p, hmine.2 hh, ?_⟩
      simp only [goto_self, Ctl.Covers]
      refine h3 hh hB fun hB0 => ?_
      obtain ⟨r, hr, hcv⟩ := h.wait q hq hB0
      rw [hmine.2 hh] at hr; cases hr
      rw [hc] at hcv; exact hcv
    · obtain ⟨r, hr, hcv⟩ := h.wait q hq (h2 hh hB)
      have hrp : r ≠ p := fun he => hh (hmine.1 (he ▸ hr))
      exact ⟨r, hr, by rw [hctl r hrp]; exact hcv⟩

/-- **Every step keeps it**, except that of a process that owes a `wakeup` to somebody, learns
that it was killed, and takes an exit on which it no longer owes. -/
theorem WakeInv.step (hs : Signals prog held k c B J Safe Owes)
    (hl : LockInv held s) (hsl : SleepInv s) (hJ : ∀ l, (s.procs p).ctl = .run l → J p l s.sh)
    (hkill : ∀ f q, (s.procs p).ctl = .killedHold f → (s.procs p).killed = true → Owes (f false) →
      (s.procs q).Waiting c → Owes (f true))
    (h : WakeInv k c B Safe Owes s) (hm : Move prog s p i s') : WakeInv k c B Safe Owes s' := by
  have hm' := hm
  cases hm with
  | acquire hc hi hf =>
    rename_i l l' ℓ
    have hi' := hs.acquire hi
    rcases eq_or_ne ℓ (.mon k) with rfl | hne
    · refine h.take hm' rfl hf (by simp [Ctl.sleepNext]) ?_ (by simp [Proc.Waiting])
      simp only [goto_self, Ctl.IsSafe]
      intro hsafe
      have := (h.safe p (by rw [hc]; exact hi'.1 hsafe)).1
      rw [hf] at this; cases this
    · exact h.quiet hm' (by simpa [Ctl.IsSafe, hc] using hi'.1)
        (fun q _ _ => by simpa [Ctl.Covers, hc] using hi'.2) (e := by simp [hne.symm])
  | release hc hi hf =>
    rename_i l l' ℓ
    have hi' := hs.release hi
    rcases eq_or_ne ℓ (.mon k) with rfl | hne
    · exact h.letGo hm' rfl hf (by simp [Ctl.sleepNext]) (by simpa [Ctl.IsSafe] using hi'.1)
        (by simp [Proc.Waiting]) (fun q => by simpa [Ctl.Covers, hc] using hi'.2)
    · exact h.quiet hm' (by simpa [Ctl.IsSafe, hc] using fun hq => (hi'.1 hq).2)
        (fun q _ _ => by simpa [Ctl.Covers, hc] using fun hq => (hi'.2 hq).2) (e := by simp [hne.symm])
  | act hc hi => exact h.act hs hl (hJ _ hc) hc hi
  | sleep hc hi =>
    obtain ⟨h1, h2, h3⟩ := hs.sleep hi
    exact h.quiet hm' (by simpa [Ctl.IsSafe, hc] using h1) (fun q _ _ => by simp [Ctl.Covers, hc, h2])
      (x := by simpa [Ctl.sleepNext] using h3)
  | wakeup hc hi =>
    rename_i l d l'
    obtain ⟨h1, h2⟩ := hs.wakeup hi
    refine h.quiet hm' (by simpa [Ctl.IsSafe, hc] using h1) (fun q _ _ hcv => ?_)
    simp only [goto_self, Ctl.Covers, Nat.zero_le, and_true]
    rw [hc] at hcv
    by_cases hdc : d = c
    · exact Or.inl hdc
    · exact Or.inr ⟨hdc, h2 hdc hcv⟩
  | killed hc hi =>
    obtain ⟨h1, h2⟩ := hs.killed hi
    exact h.quiet hm' (by simpa [Ctl.IsSafe, hc] using Or.rec (h1 false) (h1 true))
      (fun q _ _ => by simpa [Ctl.Covers, hc] using h2)
  | kill hc hi =>
    obtain ⟨h1, h2⟩ := hs.kill hi
    refine h.quiet hm' (by simpa [Ctl.IsSafe, hc] using Or.rec (h1 false) (h1 true)) (fun q _ _ hcv => ?_)
    rw [hc] at hcv
    simpa [Ctl.Covers] using And.intro (h2 hcv false) (h2 hcv true)
  | panic hc hi | badRelease hb hm => exact ⟨h.next, h.safe, h.wait⟩
  | sleepAcquire hc hf | sleepOff hc hr hf | sleepBack hc =>
    have hn := h.next p _ (by rw [hc]; rfl)
    exact h.quiet hm' (by simp [Ctl.IsSafe, hc]) (fun q _ _ => by simp [Ctl.Covers, hc])
      (x := by simpa [Ctl.sleepNext] using hn)
  | sleepRelease hc hf =>
    rename_i d k' l
    have hn := h.next p _ (by rw [hc]; rfl)
    have hwait : d = c → ¬ B s.sh := fun hdc => (h.safe p (by rw [hc]; exact hdc)).2
    rcases eq_or_ne k' k with rfl | hne
    · exact h.letGo hm' rfl hf (by simpa [Ctl.sleepNext] using hn) (by simp [Ctl.IsSafe])
        (by simpa [Proc.Waiting] using hwait) (fun q => by simp [Ctl.Covers, hc])
    · refine h.quiet hm' (by simp [Ctl.IsSafe]) (fun q _ _ => by simp [Ctl.Covers, hc])
        (x := by simpa [Ctl.sleepNext] using hn)
        (w := fun hw => Or.inr (hwait (by simpa [Proc.Waiting] using hw))) (e := by simp [hne.symm])
  | sleepSet hc | sleepSwtch hc =>
    have hn := h.next p _ (by rw [hc]; rfl)
    exact h.quiet hm' (by simp [Ctl.IsSafe]) (fun q _ _ => by simp [Ctl.Covers, hc])
      (x := by simpa [Ctl.sleepNext] using hn) (w := fun hw => Or.inl (by simp_all [Proc.Waiting]))
  | sleepReacquire hc hf =>
    rename_i d k' l
    have hn : ¬ Safe l := h.next p _ (by rw [hc]; rfl)
    rcases eq_or_ne k' k with rfl | hne
    · exact h.take hm' rfl hf (by simp [Ctl.sleepNext]) (by simpa [Ctl.IsSafe] using hn) (by simp [Proc.Waiting])
    · exact h.quiet hm' (by simp [Ctl.IsSafe, hn]) (fun q _ _ => by simp [Ctl.Covers, hc])
        (e := by simp [hne.symm])
  | wakeSelf hc =>
    refine h.quiet hm' (by simp [Ctl.IsSafe, hc]) (fun q hq _ hcv => ?_)
    have hqp : q.val ≠ p.val := fun he => hq (Fin.ext he)
    rw [hc] at hcv
    simp only [goto_self, Ctl.Covers] at hcv ⊢
    rcases hcv with ⟨h1, h2⟩ | h1
    · exact Or.inl ⟨h1, by omega⟩
    · exact Or.inr h1
  | wakeAt hc hj hf | killedAcquire hc hf | killAt hc hf | killMiss hc hp =>
    exact h.quiet hm' (by simp [Ctl.IsSafe, hc]) (fun q _ _ => by simp [Ctl.Covers, hc])
  | wakeEnd hc hj =>
    refine h.quiet hm' (by simp [Ctl.IsSafe, hc]) (fun q _ _ hcv => ?_)
    rw [hc] at hcv
    simp only [goto_self, Ctl.Covers] at hcv ⊢
    rcases hcv with ⟨-, h2⟩ | ⟨-, h1⟩
    · have := q.isLt; omega
    · exact h1
  | wakeHold hc =>
    rename_i d l j
    refine h.quiet hm' (by simp [Ctl.IsSafe, hc, State.goto]) (fun q hq hw hcv => ?_)
    rw [hc] at hcv
    simp only [goto_self, Ctl.Covers] at hcv ⊢
    rcases hcv with ⟨rfl, h2⟩ | h1
    · refine Or.inl ⟨rfl, ?_⟩
      -- the slot just passed is not waiting any more
      have hqj : q ≠ j := by
        rintro rfl
        have hw0 := waiting_of_ne (hm'.others hq) hw
        have hmine : (s.procs p).ctl.Holds held p (.proc q) := by rw [hc]; exact Or.inr rfl
        cases hcq : (s.procs q).ctl with
        | sleepSet d' k' l' | sleepSwtch d' k' l' =>
          exact hq (hl.unique hmine (by rw [hcq]; exact Or.inr rfl)).symm
        | sleepOff d' k' l' =>
          simp only [Proc.Waiting, hcq] at hw0
          have hch := hsl.chan q d' k' l' (Or.inr hcq)
          simp [Proc.Waiting, State.goto, hq, Proc.wake, hw0.2, hch, hw0.1, hcq] at hw
        | _ => simp [Proc.Waiting, hcq] at hw0
      have : q.val ≠ j.val := fun he => hqj (Fin.ext he)
      omega
    · exact Or.inr h1
  | killedHold hc =>
    rename_i f
    refine h.quiet hm' (by cases hk : (s.procs p).killed <;> simp +contextual [Ctl.IsSafe, hc, hk])
      (fun q hq hw hcv => ?_)
    rw [hc] at hcv
    simp only [goto_self, Ctl.Covers, setLock_procs] at hcv ⊢
    cases hk : (s.procs p).killed with
    | false => exact hcv
    | true => exact hkill f q hc hk hcv (waiting_of_ne (hm'.others hq) hw)
  | killEnd hc hj =>
    refine h.quiet hm' (by simpa [Ctl.IsSafe, hc] using Or.inl) (fun q _ _ hcv => ?_)
    rw [hc] at hcv
    simpa [Ctl.Covers] using hcv false
  | killHit hc hp =>
    refine h.quiet hm' (by simpa [Ctl.IsSafe, hc, State.goto] using Or.inr) (fun q _ _ hcv => ?_)
    rw [hc] at hcv
    simpa [Ctl.Covers] using hcv true

omit [DecidableEq K] [DecidableEq C] in
/-- Somebody is about to wake a process that sleeps while `B` holds. -/
theorem WakeInv.covers (hw : WakeInv k c B Safe Owes s) (hsl : SleepInv s)
    (hq : (s.procs q).state = .sleeping) (hc : (s.procs q).chan = some c) (hB : B s.sh) :
    ∃ h, s.lock (.mon k) = some h ∧ (s.procs h).ctl.Covers c Owes q := by
  refine hw.wait q ?_ hB
  obtain ⟨c', k', l, hctl⟩ := hsl.asleep q hq
  have hcc : c' = c := Option.some.inj ((hsl.chan q c' k' l hctl).symm.trans hc)
  rcases hctl with hctl | hctl
  · simpa [Proc.Waiting, hctl] using hcc
  · simpa [Proc.Waiting, hctl] using ⟨hcc, hq⟩

section Runs

variable {G : State n K C σ L → Fin n × ι → Prop} {s₀ : State n K C σ L}
  (hs : Signals prog held k c B J Safe Owes) (hl : ∀ s, Reach (step prog) G s₀ s → LockInv held s)
  (hJ : ∀ s, Reach (step prog) G s₀ s → ∀ q l, (s.procs q).ctl = .run l → J q l s.sh)
  (hsl0 : SleepInv s₀) (h0 : WakeInv k c B Safe Owes s₀) (hr : Reach (step prog) G s₀ s)

include hs hl hJ hsl0 h0 hr

/-- The two invariants hold in every reachable state, if no process that owes a `wakeup` to
somebody gives it up on learning that it was killed. -/
theorem wake_reach
    (hkill : ∀ s p x f q, Reach (step prog) G s₀ s → G s (p, x) → (s.procs p).ctl = .killedHold f →
      (s.procs p).killed = true → Owes (f false) → (s.procs q).Waiting c → Owes (f true)) :
    SleepInv s ∧ WakeInv k c B Safe Owes s := by
  refine hr.inv' (I := fun s => SleepInv s ∧ WakeInv k c B Safe Owes s) ⟨hsl0, h0⟩ ?_
  rintro s ⟨p, x⟩ s' hreach ⟨hsl, hw⟩ hg hstep
  have hm := step_move hstep
  exact ⟨hsl.step hm, hw.step hs (hl s hreach) hsl (hJ s hreach p)
    (fun f q => hkill s p x f q hreach hg) hm⟩

variable (hfree : s.lock (.mon k) = none) (hq : (s.procs q).state = .sleeping)
  (hc : (s.procs q).chan = some c)

include hfree hq hc

/-- **No wakeup is lost.** In every reachable state in which the monitor's lock is free,
nobody sleeps on `c` while `B` holds, if no process that owes a `wakeup` to somebody gives it
up on learning that it was killed. -/
theorem no_lost_wakeup
    (hkill : ∀ s p x f q, Reach (step prog) G s₀ s → G s (p, x) → (s.procs p).ctl = .killedHold f →
      (s.procs p).killed = true → Owes (f false) → (s.procs q).Waiting c → Owes (f true)) :
    ¬ B s.sh := by
  obtain ⟨hsl, hw⟩ := wake_reach hs hl hJ hsl0 h0 hr hkill
  intro hB
  obtain ⟨h, hh, -⟩ := hw.covers hsl hq hc hB
  rw [hfree] at hh; cases hh

/-- The same for a program that owes no less when it finds itself killed. -/
theorem no_lost_wakeup' (howe : ∀ p l f, prog p l = .killed f → Owes (f false) → Owes (f true))
    (hno0 : ∀ q f, (s₀.procs q).ctl ≠ .killedAcquire f ∧ (s₀.procs q).ctl ≠ .killedHold f) :
    ¬ B s.sh := by
  refine no_lost_wakeup hs hl hJ hsl0 h0 hr hfree hq hc fun s p x f q hs _ hctl _ ho _ => ?_
  obtain ⟨l, hl⟩ := killed_from hno0 hs p f (Or.inr hctl)
  exact howe p l f hl ho

end Runs

end Inv

end Xv6.Thread
