import Xv6.Thread.Wakeup

/-!
# `wait`

`wait` of `kernel/proc.c` as a program of the thread machine, with the part of `exit` that
wakes the parent. `wait` scans the process table under `wait_lock`, taking the lock of each
child in turn. Which slots hold children, and whether a child is a zombie, is up to the
environment (`Req`): fork, exit and reparenting are not part of this model, so the results
hold for any children.
-/

namespace Xv6.Wait

open Thread

/-- What a process is asked to do, and what it finds in the process table. -/
inductive Req
  | wait
  | exit (parent : ℕ)
  | kill (pid : ℕ)
  | noChild
  | child
  | zombie (pid : ℕ)
  | zombieFault
  | alive

/-- The local states of a process in a table of `m` slots. -/
inductive Pc (m : ℕ)
  | idle | killing (pid : ℕ) | ret (v : ℤ)
  | waitAcquire | waitScan (j : ℕ) (havekids : Bool) | waitLock (j : Fin m) | waitLook (j : Fin m)
  | waitNext (j : Fin m) | waitReap (j : Fin m) (v : ℤ)
  | waitKilled | waitSleep | waitRelease (v : ℤ)
  | exitAcquire (parent : Fin m) | exitWakeup (parent : Fin m) | exitRelease | exited
  deriving DecidableEq

/-- The program of process `p`; the channel of `sleep(p, &wait_lock)` is the slot `p`. -/
def prog {m : ℕ} (p : Fin m) : Pc m → Instr m Unit (Fin m) Unit Req (Pc m)
  | .idle => .act fun q u =>
    match q with
    | .wait => (u, .waitAcquire)
    | .exit parent => (u, if h : parent < m then .exitAcquire ⟨parent, h⟩ else .idle)
    | .kill pid => (u, .killing pid)
    | _ => (u, .idle)
  | .killing pid => .kill pid fun found => .ret (if found then 0 else -1)
  | .ret _ => .act fun _ u => (u, .idle)
  -- wait
  | .waitAcquire => .acquire (.mon ()) (.waitScan 0 false)
  | .waitScan j havekids => .act fun q u =>
    (u, if h : j < m then
      match q with
      -- `pp->parent == p`
      | .child => .waitLock ⟨j, h⟩
      | _ => .waitScan (j + 1) havekids
    else if havekids then .waitKilled else .waitRelease (-1))
  | .waitLock j => .acquire (.proc j) (.waitLook j)
  | .waitLook j => .act fun q u =>
    match q with
    | .zombie pid => (u, .waitReap j pid)
    | .zombieFault => (u, .waitReap j (-1))
    | _ => (u, .waitNext j)
  | .waitNext j => .release (.proc j) (.waitScan (j + 1) true)
  | .waitReap j v => .release (.proc j) (.waitRelease v)
  | .waitKilled => .killed fun b => if b then .waitRelease (-1) else .waitSleep
  | .waitSleep => .sleep p () (.waitScan 0 false)
  | .waitRelease v => .release (.mon ()) (.ret v)
  -- exit
  | .exitAcquire parent => .acquire (.mon ()) (.exitWakeup parent)
  | .exitWakeup parent => .wakeup parent .exitRelease
  | .exitRelease => .release (.mon ()) .exited
  | .exited => .act fun _ u => (u, .exited)

variable {m : ℕ}

def initial : State m Unit (Fin m) Unit (Pc m) := start .idle ()

/-- The local states at which `wait_lock` is held. -/
def Pc.locked : Pc m → Bool
  | .idle | .killing _ | .ret _ | .waitAcquire | .exitAcquire _ | .exited => false
  | _ => true

/-- `wait_lock`, and the lock of the child that `wait` looks at. -/
def held (l : Pc m) : Lock m Unit → Prop
  | .mon _ => l.locked = true
  | .proc j => l = .waitLook j ∨ l = .waitNext j ∨ ∃ v, l = .waitReap j v

theorem disciplined : Disciplined (prog (m := m)) held where
  acquire {p l ℓ l'} h k := by
    cases l <;> cases h <;> cases k <;> simp [held, Pc.locked, eq_comm]
  release {p l ℓ l'} h := by
    cases l <;> cases h <;> refine ⟨by simp [held, Pc.locked], fun k => ?_⟩ <;>
      cases k <;> simp [held, Pc.locked, eq_comm]
  act {p l f} h q u k := by
    cases l <;> cases h
    case idle =>
      cases q <;> cases k <;> dsimp only
      all_goals first | rfl | (split_ifs <;> simp [held, Pc.locked]) | simp [held]
    case waitScan j havekids =>
      dsimp only
      split_ifs
      · cases q <;> cases k <;> simp [held, Pc.locked]
      · cases k <;> simp [held, Pc.locked]
      · cases k <;> simp [held, Pc.locked]
    case waitLook j => cases q <;> cases k <;> simp [held, Pc.locked]
    all_goals cases k <;> simp [held, Pc.locked]
  sleep {p l c k l'} h := by
    cases l <;> cases h
    refine ⟨by simp [held, Pc.locked], by simp [held, NoProc], fun k => ?_⟩
    cases k <;> simp [held, Pc.locked]
  wakeup {p l c l'} h := by
    cases l <;> cases h
    refine ⟨by simp [held, NoProc], fun k => ?_⟩
    cases k <;> simp [held, Pc.locked]
  killed {p l f} h := by
    cases l <;> cases h
    refine ⟨by simp [held, NoProc], fun b k => ?_⟩
    cases b <;> cases k <;> simp [held, Pc.locked]
  kill {p l pid f} h := by
    cases l <;> cases h
    refine ⟨by simp [held, NoProc], fun b k => ?_⟩
    cases k <;> simp [held, Pc.locked]

end Xv6.Wait
