import Xv6.Thread.Wakeup

/-!
# `sys_sleep` and the clock interrupt

`sys_sleep` of `kernel/sysproc.c` and `clockintr` of `kernel/trap.c`, as a program of the
thread machine. The data is the counter `ticks`. An interrupt runs on top of some process
that holds no lock; here that process is idle.
-/

namespace Xv6.Ticks

open Thread

/-- What a process is asked to do. -/
inductive Req
  | sleep (n : ℤ)
  | tick
  | kill (pid : ℕ)

/-- The local states of a process. -/
inductive Pc
  | idle | killing (pid : ℕ) | ret (v : ℤ)
  | sleepAcquire (n : ℕ) | sleepStart (n : ℕ) | sleepLoop (n : ℕ) (ticks0 : BitVec 32)
  | sleepKilled (n : ℕ) (ticks0 : BitVec 32) | sleepSleep (n : ℕ) (ticks0 : BitVec 32) | sleepRelease (v : ℤ)
  | tickAcquire | tickAct | tickWakeup | tickRelease
  deriving DecidableEq

/-- The program of every process. -/
def prog {m : ℕ} (_ : Fin m) : Pc → Instr m Unit Unit (BitVec 32) Req Pc
  | .idle => .act fun q t =>
    match q with
    -- `if(n < 0) n = 0`
    | .sleep n => (t, .sleepAcquire n.toNat)
    | .tick => (t, .tickAcquire)
    | .kill pid => (t, .killing pid)
  | .killing pid => .kill pid fun found => .ret (if found then 0 else -1)
  | .ret _ => .act fun _ t => (t, .idle)
  -- sys_sleep
  | .sleepAcquire n => .acquire (.mon ()) (.sleepStart n)
  | .sleepStart n => .act fun _ t => (t, .sleepLoop n t)
  | .sleepLoop n ticks0 => .act fun _ t =>
    (t, if (t - ticks0).toNat < n then .sleepKilled n ticks0 else .sleepRelease 0)
  | .sleepKilled n ticks0 => .killed fun b => if b then .sleepRelease (-1) else .sleepSleep n ticks0
  | .sleepSleep n ticks0 => .sleep () () (.sleepLoop n ticks0)
  | .sleepRelease v => .release (.mon ()) (.ret v)
  -- clockintr
  | .tickAcquire => .acquire (.mon ()) .tickAct
  | .tickAct => .act fun _ t => (t + 1, .tickWakeup)
  | .tickWakeup => .wakeup () .tickRelease
  | .tickRelease => .release (.mon ()) .idle

variable {m : ℕ}

def initial : State m Unit Unit (BitVec 32) Pc := start .idle 0

/-- The local states at which `tickslock` is held. -/
def Pc.locked : Pc → Bool
  | .idle | .killing _ | .ret _ | .sleepAcquire _ | .tickAcquire => false
  | _ => true

def held (l : Pc) (k : Lock m Unit) : Prop := k = .mon () ∧ l.locked = true

theorem locked_act {p : Fin m} {l : Pc} {f : Req → BitVec 32 → BitVec 32 × Pc} (h : prog p l = .act f)
    (q : Req) (t : BitVec 32) : (f q t).2.locked = l.locked := by
  cases l <;> cases h
  case idle => cases q <;> rfl
  case sleepLoop =>
    dsimp only
    split_ifs <;> rfl
  all_goals rfl

theorem disciplined : Disciplined (prog (m := m)) held :=
  .of_toggles fun p l => by
    cases hi : prog p l with
    | act f => exact locked_act hi
    | _ => cases l <;> cases hi <;> simp [Instr.Toggles, Pc.locked]

end Xv6.Ticks
