import Xv6.Thread.Wakeup

/-!
# `sleep` and `wakeup` lose no wakeup

The pattern that every blocking function of the kernel follows, over any data and any condition
(`Monitor`). A waiter takes `lk`, sleeps on the channel while the condition is false, does with the
data what it came for and releases `lk`; a waker takes `lk`, makes the condition true, calls `wakeup`
and releases `lk`. Any process may be asked to do either, again and again, and to `kill`.

An interrupt handler is a waker that runs while a process holds no spin-lock, in that process's slot
(so that `wakeup` passes over it: it is not asleep), or, when the CPU runs no process, in a slot of
its own that never waits.

* `signals`: waiters and wakers signal the condition properly.
* `chan_cleared`: `p->chan` is 0 when `sleep` takes `lk` back.
* `no_wakeup_lost`: nobody sleeps on the channel while the condition is true and `lk` is free, and
  `sleep` returns with `lk` held and `chan` cleared.
-/

namespace Xv6.Thread

open Lib

section Chan

variable {n : ℕ} {K C σ ι L : Type} [DecidableEq K] [DecidableEq C]
variable {prog : Fin n → L → Instr n K C σ ι L} {s s' : State n K C σ L} {p : Fin n} {i : ι}

/-- `p->chan = 0` before `sleep` takes its lock back. -/
def ChanCleared (s : State n K C σ L) : Prop :=
  ∀ q c k l, (s.procs q).ctl = .sleepReacquire c k l → (s.procs q).chan = none

theorem ChanCleared.step (h : ChanCleared s) (hm : Move prog s p i s') : ChanCleared s' := by
  intro q c k l hq
  rcases eq_or_ne q p with rfl | hqp
  · -- the only way there is the step that clears it
    cases hm <;> simp_all [State.goto]
  · rw [hm.ctl_of_ne hqp] at hq
    have hc := h q c k l hq
    rcases hm.others hqp with he | ⟨d, he⟩ | he
    · rw [he]; exact hc
    · rw [he, wake_chan]; exact hc
    · rw [he, markKilled_chan]; exact hc

/-- **`sleep` returns with its lock held and `chan` cleared**, whatever the program. -/
theorem sleep_returns {G : State n K C σ L → Fin n × ι → Prop} {s₀ : State n K C σ L}
    (h0 : ChanCleared s₀) (hr : Reach (step prog) G s₀ s) {c : C} {k : K} {l : L}
    (hc : (s.procs p).ctl = .sleepReacquire c k l) (hs : step prog s (p, i) = some s') :
    (s'.procs p).ctl = .run l ∧ s'.lock (.mon k) = some p ∧ (s'.procs p).chan = none := by
  have hclear : ChanCleared s :=
    hr.inv h0 fun s a s' h _ hstep => h.step (step_move (p := a.1) (i := a.2) hstep)
  have hchan := hclear p c k l hc
  cases step_move hs with
  | sleepReacquire hc' hf =>
    rw [hc] at hc'
    cases hc'
    exact ⟨by simp, by simp, by simpa using hchan⟩
  | _ => simp_all

end Chan

end Xv6.Thread

namespace Xv6

/-- What the processes wait for: a condition on the data, what a waker does to make it true, and
what a waiter does when it has found it true. -/
structure Monitor (σ ι : Type) where
  cond : σ → Bool
  make : ι → σ → σ
  made : ∀ x sh, cond (make x sh) = true
  body : ι → σ → σ

namespace Monitor

open Thread Lib

variable {n : ℕ} {σ ι : Type}

/-- What a process is asked to do; the input of `make` and `body`. -/
inductive Req (ι : Type)
  | wait
  | wake
  | kill (pid : ℕ)
  | input (x : ι)

/-- The local states of a process. -/
inductive Pc
  | idle | killing (pid : ℕ)
  | waitAcquire | waitTest | waitSleep | waitRelease
  | wakeAcquire | wakeMake | wakeWakeup | wakeRelease
  deriving DecidableEq

/-- The program of every process. -/
def prog (M : Monitor σ ι) (_ : Fin n) : Pc → Instr n Unit Unit σ (Req ι) Pc
  | .idle => .act fun r sh =>
    match r with
    | .wait => (sh, .waitAcquire)
    | .wake => (sh, .wakeAcquire)
    | .kill pid => (sh, .killing pid)
    | .input _ => (sh, .idle)
  | .killing pid => .kill pid fun _ => .idle
  -- acquire(lk); while(!cond) sleep(chan, lk); ..; release(lk)
  | .waitAcquire => .acquire (.mon ()) .waitTest
  | .waitTest => .act fun r sh =>
    if M.cond sh then
      match r with
      | .input x => (M.body x sh, .waitRelease)
      | _ => (sh, .waitRelease)
    else (sh, .waitSleep)
  | .waitSleep => .sleep () () .waitTest
  | .waitRelease => .release (.mon ()) .idle
  -- acquire(lk); ..; wakeup(chan); release(lk)
  | .wakeAcquire => .acquire (.mon ()) .wakeMake
  | .wakeMake => .act fun r sh =>
    match r with
    | .input x => (M.make x sh, .wakeWakeup)
    | _ => (sh, .wakeMake)
  | .wakeWakeup => .wakeup () .wakeRelease
  | .wakeRelease => .release (.mon ()) .idle

/-- The local states at which `lk` is held. -/
def Pc.locked : Pc → Bool
  | .waitTest | .waitSleep | .waitRelease | .wakeMake | .wakeWakeup | .wakeRelease => true
  | _ => false

def held (l : Pc) (m : Lock n Unit) : Prop := m = .mon () ∧ l.locked = true

/-- The local states that have seen the condition false. -/
def Pc.safe : Pc → Bool
  | .waitSleep => true
  | _ => false

/-- The local states that have made the condition true and not called `wakeup` yet. -/
def Pc.owes : Pc → Bool
  | .wakeWakeup => true
  | _ => false

variable {M : Monitor σ ι} {p : Fin n} {l : Pc} {f : Req ι → σ → σ × Pc}

theorem locked_act (h : M.prog p l = .act f) (r : Req ι) (sh : σ) : (f r sh).2.locked = l.locked := by
  cases l <;> cases h
  case idle | wakeMake => cases r <;> rfl
  case waitTest =>
    dsimp only
    split_ifs
    · cases r <;> rfl
    · rfl

/-- Without `lk` nothing changes. -/
theorem act_unlocked (h : M.prog p l = .act f) (hl : l.locked = false) (r : Req ι) (sh : σ) :
    (f r sh).1 = sh := by
  cases l <;> cases h
  case idle => cases r <;> rfl
  all_goals cases hl

theorem disciplined (M : Monitor σ ι) : Disciplined (M.prog (n := n)) held :=
  .of_toggles fun p l => by
    cases hi : M.prog p l with
    | act f => exact locked_act hi
    | _ => cases l <;> cases hi <;> simp [Instr.Toggles, Pc.locked]

/-- What an action made with `lk` does about the condition. -/
theorem cond_act (h : M.prog p l = .act f) (r : Req ι) (sh : σ) :
    ((f r sh).2.safe = true → l.locked = true ∧ M.cond (f r sh).1 = false) ∧
      (l.locked = true → M.cond (f r sh).1 = true → (M.cond sh = true → l.owes = true) →
        (f r sh).2.owes = true) := by
  cases l <;> cases h
  case idle => cases r <;> exact ⟨nofun, nofun⟩
  case waitTest =>
    dsimp only
    split_ifs with hc
    · cases r <;> exact ⟨nofun, fun _ _ ho => absurd (ho hc) nofun⟩
    · exact ⟨fun _ => ⟨rfl, by simpa using hc⟩, fun _ hB => absurd hB hc⟩
  case wakeMake =>
    cases r with
    | input x => exact ⟨nofun, fun _ _ _ => rfl⟩
    | wait | wake | kill => exact ⟨nofun, fun _ hB ho => absurd (ho hB) nofun⟩

/-- Waiters and wakers signal the condition on the channel. -/
theorem signals (M : Monitor σ ι) : Signals (M.prog (n := n)) held () () (fun sh => M.cond sh = true)
    (fun _ _ _ => True) (fun l => l.safe = true) (fun l => l.owes = true) where
  acquire {p l ℓ l'} h := by
    cases l <;> cases h <;> simp [Pc.safe, Pc.owes]
  release {p l ℓ l'} h := by
    cases l <;> cases h <;> simp [Pc.safe, Pc.owes]
  act {p l f} h r sh _ _ := by
    obtain ⟨h1, h2⟩ := cond_act h r sh
    refine ⟨fun hsafe => ⟨⟨rfl, (h1 hsafe).1⟩, by simp [(h1 hsafe).2]⟩, fun hl => ?_, fun hl => h2 hl.2⟩
    rw [act_unlocked h (by simpa [held] using hl)]
    exact id
  sleep {p l d k' l'} h := by
    cases l <;> cases h
    simp [Pc.safe, Pc.owes]
  wakeup {p l d l'} h := by
    cases l <;> cases h
    simp [Pc.safe]
  killed {p l f} h := by cases l <;> simp [prog] at h
  kill {p l pid f} h := by
    cases l <;> cases h
    simp [Pc.safe, Pc.owes]

/-! ## Whole runs -/

variable {s : State n Unit Unit σ Pc} {sh₀ : σ}

theorem reach_lock {G : State n Unit Unit σ Pc → Fin n × Req ι → Prop}
    (hr : Reach (step M.prog) G (start .idle sh₀) s) : LockInv held s :=
  hr.inv (LockInv.start (by simp [held, Pc.locked])) fun _ a _ hl _ hstep =>
    hl.step (disciplined M) (step_move (p := a.1) (i := a.2) hstep)

/-- **`sleep` and `wakeup` lose no wakeup.** For any condition on any data, in every reachable state:
if `lk` is free, no process sleeps on the channel while the condition is true; and the step with
which `sleep` returns to its caller leaves `lk` held by it and its `chan` cleared. -/
theorem no_wakeup_lost (M : Monitor σ ι) (sh₀ : σ)
    (hr : Reach (step M.prog) (fun _ _ => True) (start .idle sh₀) s) :
    (s.lock (.mon ()) = none → ∀ q, (s.procs q).state = .sleeping → (s.procs q).chan = some () →
      M.cond s.sh = false) ∧
    (∀ p r c k l s', (s.procs p).ctl = .sleepReacquire c k l → step M.prog s (p, r) = some s' →
      (s'.procs p).ctl = .run l ∧ s'.lock (.mon k) = some p ∧ (s'.procs p).chan = none) := by
  have hno : ∀ (p : Fin n) (l : Pc) (f : Bool → Pc), M.prog p l = .killed f →
      (f false).owes = true → (f true).owes = true := by
    intro p l f hi
    cases l <;> simp [prog] at hi
  have hclear : ChanCleared (start .idle sh₀ : State n Unit Unit σ Pc) := by
    intro q c k l hq
    cases hq
  refine ⟨fun hfree q hq hc => ?_, fun p r c k l s' => sleep_returns hclear hr⟩
  have hB := no_lost_wakeup' (signals M) (fun s hs => reach_lock hs) (fun _ _ _ _ _ => trivial)
    SleepInv.start (WakeInv.start nofun) hr hfree hq hc hno (by simp [start])
  simpa using hB

/-- A flag that wakers set and waiters clear. -/
def flag : Monitor Bool Unit := ⟨id, fun _ _ => true, fun _ _ => rfl, fun _ _ => false⟩

/-- Process 0 waits for the flag. -/
theorem no_wakeup_lost_flag : ∃ s : State 2 Unit Unit Bool Pc,
    Reach (step flag.prog) (fun _ _ => True) (start .idle false) s ∧ (s.procs 0).state = .sleeping ∧
      flag.cond s.sh = false := by
  obtain ⟨s, hr, hfree, hq, hc⟩ : ∃ s : State 2 Unit Unit Bool Pc,
      Reach (step flag.prog) (fun _ _ => True) (start .idle false) s ∧
      s.lock (.mon ()) = none ∧ (s.procs 0).state = .sleeping ∧ (s.procs 0).chan = some () :=
    exists_reach (List.replicate 8 (0, .wait)) (by decide +kernel)
  exact ⟨s, hr, hq, (no_wakeup_lost flag false hr).1 hfree 0 hq hc⟩

end Monitor

end Xv6
