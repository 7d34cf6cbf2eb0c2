import Xv6.Lib.Conc
import Xv6.Thread.Machine

/-!
# The life of a process

`fork`, `exit`, `wait`, `kill`, `setkilled` and what they call in `kernel/proc.c`
(`allocproc`, `freeproc`, `reparent`, `sleep`, `wakeup`, the scheduler), as a program with
locks: every slot of the process table has a thread, which runs the process in the slot or,
when there is none to run, the scheduler's visits to the slot. Locks are `p->lock` of each slot
and `wait_lock`. Every `acquire` and `release` is a step, so all interleavings of the code
between them are runs; `allocpid` uses `nextpid` under its own lock and is one action.

* `p->context` says where a process continues when the scheduler switches to it. The
  scheduler takes `p->lock` and the process releases it, or the other way round: here the lock
  is the thread's in both cases.
* What a system call finds out about memory is up to the environment (`Req.fail`): `kalloc` and
  `uvmcopy` in `fork`, `copyout` in `wait`.
* A process at `user` is in user space or in code that does not touch the table.

`Hist` keeps what happened: see `note`.
-/

namespace Xv6.Life

open Function Lib Conc
open Thread (PState Lock)

/-- Where `swtch` continues: `p->context`. -/
inductive Context
  | none | forkret | sleep | zombie
  deriving DecidableEq

/-- The fields of `struct proc` that these functions use; a null `parent` or `chan` is `none`,
and the only channels are the addresses of table slots. -/
structure Slot (n : ℕ) where
  state : PState
  chan : Option (Fin n)
  killed : Bool
  xstate : BitVec 32
  pid : BitVec 32
  parent : Option (Fin n)
  context : Context

/-- `proc[NPROC]`, `nextpid` and `initproc`. -/
structure Table (n : ℕ) where
  proc : Fin n → Slot n
  nextpid : BitVec 32
  initproc : Fin n

variable {n : ℕ}

def Table.set (t : Table n) (j : Fin n) (x : Slot n) : Table n :=
  { t with proc := update t.proc j x }

/-- `freeproc`. -/
def Slot.freeproc (x : Slot n) : Slot n :=
  { x with pid := 0, parent := none, chan := none, killed := false, xstate := 0, state := .unused }

/-- `if(p->state == SLEEPING && p->chan == chan) p->state = RUNNABLE`. -/
def Slot.wake (x : Slot n) (c : Option (Fin n)) : Slot n :=
  if x.state = .sleeping ∧ x.chan = c then { x with state := .runnable } else x

/-- What `kill` does to the slot it finds. -/
def Slot.kill (x : Slot n) : Slot n :=
  if x.state = .sleeping then { x with killed := true, state := .runnable } else { x with killed := true }

/-- What a process does next, and the outcome of allocating or copying memory. -/
inductive Req
  | fork | exit (status : BitVec 32) | wait | kill (pid : BitVec 32) | fault | trap | ok | fail

/-- The caller of `wakeup`, to which it returns: the loop of `reparent` at slot `j`, or `exit`. -/
inductive Caller
  | reparent (status : BitVec 32) (j : ℕ)
  | exit (status : BitVec 32)
  deriving DecidableEq

/-- The local states of a thread. -/
inductive Pc (n : ℕ)
  -- the scheduler
  | sched | schedTest | schedFail | switch | zombieExit
  | forkret | user | ret (v : BitVec 32)
  -- fork
  | allocScan (j : ℕ) | allocLook (j : Fin n) | allocNext (j : Fin n) | allocMem (j : Fin n)
  | forkCopy (j : Fin n) | forkFail (j : Fin n) | forkUnlock (j : Fin n) (pid : BitVec 32)
  | forkWaitLock (j : Fin n) (pid : BitVec 32) | forkParent (j : Fin n) (pid : BitVec 32)
  | forkWaitUnlock (j : Fin n) (pid : BitVec 32) | forkRunLock (j : Fin n) (pid : BitVec 32)
  | forkRun (j : Fin n) (pid : BitVec 32) | forkRunUnlock (j : Fin n) (pid : BitVec 32)
  | forkRet (j : Fin n) (pid : BitVec 32)
  -- exit
  | exit (status : BitVec 32) | initExiting | exitAcquire (status : BitVec 32)
  | reparent (status : BitVec 32) (j : ℕ)
  | wakeScan (c : Option (Fin n)) (k : ℕ) (r : Caller) | wakeTest (c : Option (Fin n)) (k : Fin n) (r : Caller)
  | wakeNext (c : Option (Fin n)) (k : Fin n) (r : Caller)
  | exitLock (status : BitVec 32) | exitZombie (status : BitVec 32) | exitUnlock
  -- wait
  | waitAcquire | waitScan (j : ℕ) (havekids : Bool) | waitLock (j : Fin n) | waitLook (j : Fin n)
  | waitNext (j : Fin n) | waitUnlock (j : Fin n) (v : BitVec 32) (st : Option (BitVec 32))
  | waitRelease (v : BitVec 32)
  | waitKilled | waitTest | waitTested (b : Bool)
  -- sleep, called by wait
  | sleepAcquire | sleepRelease | sleepSet | sleepBack | sleepUnlock | sleepReacquire
  -- kill
  | killScan (pid : BitVec 32) (k : ℕ) | killLook (pid : BitVec 32) (k : Fin n)
  | killNext (pid : BitVec 32) (k : Fin n) | killDone (pid : BitVec 32) (k : Fin n)
  -- usertrap
  | faultLock | faultSet | faultUnlock | trapLock | trapTest | trapUnlock (b : Bool)
  deriving DecidableEq

/-- Where `wakeup` returns to. -/
def Caller.next : Caller → Pc n
  | .reparent st j => .reparent st (j + 1)
  | .exit st => .exitLock st

/-- The program of the thread of slot `p`. -/
def prog (p : Fin n) : Pc n → Instr (Lock n Unit) (Table n) Req (Pc n)
  -- scheduler
  | .sched => .acquire (.proc p) .schedTest
  | .schedTest => .act fun _ t =>
    if (t.proc p).state = .runnable then
      (t.set p { t.proc p with state := .running },
        match (t.proc p).context with
        | .forkret => .forkret
        | .sleep => .sleepBack
        | .zombie | .none => .zombieExit)
    else (t, .schedFail)
  | .schedFail => .release (.proc p) .sched
  | .switch => .release (.proc p) .sched
  | .zombieExit => .halt
  | .forkret => .release (.proc p) .user
  | .user => .act fun r t =>
    match r with
    | .fork => (t, .allocScan 0)
    | .exit status => (t, .exit status)
    | .wait => (t, .waitAcquire)
    | .kill pid => (t, .killScan pid 0)
    | .fault => (t, .faultLock)
    | .trap => (t, .trapLock)
    | _ => (t, .user)
  | .ret _ => .act fun _ t => (t, .user)
  -- allocproc
  | .allocScan j => if h : j < n then .acquire (.proc ⟨j, h⟩) (.allocLook ⟨j, h⟩) else .act fun _ t => (t, .ret (-1))
  | .allocLook j => .act fun _ t =>
    if (t.proc j).state = .unused then
      ({ t.set j { t.proc j with pid := t.nextpid, state := .used } with nextpid := t.nextpid + 1 }, .allocMem j)
    else (t, .allocNext j)
  | .allocNext j => .release (.proc j) (.allocScan (j + 1))
  | .allocMem j => .act fun r t =>
    match r with
    | .fail => (t.set j (t.proc j).freeproc, .forkFail j)
    | _ => (t.set j { t.proc j with context := .forkret }, .forkCopy j)
  -- fork
  | .forkCopy j => .act fun r t =>
    match r with
    | .fail => (t.set j (t.proc j).freeproc, .forkFail j)
    | _ => (t, .forkUnlock j (t.proc j).pid)
  | .forkFail j => .release (.proc j) (.ret (-1))
  | .forkUnlock j pid => .release (.proc j) (.forkWaitLock j pid)
  | .forkWaitLock j pid => .acquire (.mon ()) (.forkParent j pid)
  | .forkParent j pid => .act fun _ t => (t.set j { t.proc j with parent := some p }, .forkWaitUnlock j pid)
  | .forkWaitUnlock j pid => .release (.mon ()) (.forkRunLock j pid)
  | .forkRunLock j pid => .acquire (.proc j) (.forkRun j pid)
  | .forkRun j pid => .act fun _ t => (t.set j { t.proc j with state := .runnable }, .forkRunUnlock j pid)
  | .forkRunUnlock j pid => .release (.proc j) (.forkRet j pid)
  | .forkRet _ pid => .act fun _ t => (t, .ret pid)
  -- exit
  | .exit status => .act fun _ t => (t, if t.initproc = p then .initExiting else .exitAcquire status)
  | .initExiting => .halt
  | .exitAcquire status => .acquire (.mon ()) (.reparent status 0)
  | .reparent status j => .act fun _ t =>
    if h : j < n then
      if (t.proc ⟨j, h⟩).parent = some p then
        (t.set ⟨j, h⟩ { t.proc ⟨j, h⟩ with parent := some t.initproc },
          .wakeScan (some t.initproc) 0 (.reparent status j))
      else (t, .reparent status (j + 1))
    else (t, .wakeScan (t.proc p).parent 0 (.exit status))
  | .exitLock status => .acquire (.proc p) (.exitZombie status)
  | .exitZombie status => .act fun _ t =>
    (t.set p { t.proc p with xstate := status, state := .zombie, context := .zombie }, .exitUnlock)
  | .exitUnlock => .release (.mon ()) .switch
  -- wakeup
  | .wakeScan c k r =>
    if h : k < n then
      if k = p.val then .act fun _ t => (t, .wakeScan c (k + 1) r)
      else .acquire (.proc ⟨k, h⟩) (.wakeTest c ⟨k, h⟩ r)
    else .act fun _ t => (t, r.next)
  | .wakeTest c k r => .act fun _ t => (t.set k ((t.proc k).wake c), .wakeNext c k r)
  | .wakeNext c k r => .release (.proc k) (.wakeScan c (k + 1) r)
  -- wait
  | .waitAcquire => .acquire (.mon ()) (.waitScan 0 false)
  | .waitScan j havekids => .act fun _ t =>
    (t, if h : j < n then
      if (t.proc ⟨j, h⟩).parent = some p then .waitLock ⟨j, h⟩ else .waitScan (j + 1) havekids
    else if havekids then .waitKilled else .waitRelease (-1))
  | .waitLock j => .acquire (.proc j) (.waitLook j)
  | .waitLook j => .act fun r t =>
    if (t.proc j).state = .zombie then
      match r with
      | .fail => (t, .waitUnlock j (-1) none)
      -- the status is what `copyout` has written
      | _ => (t.set j (t.proc j).freeproc, .waitUnlock j (t.proc j).pid (some (t.proc j).xstate))
    else (t, .waitNext j)
  | .waitNext j => .release (.proc j) (.waitScan (j + 1) true)
  | .waitUnlock j v _ => .release (.proc j) (.waitRelease v)
  | .waitRelease v => .release (.mon ()) (.ret v)
  | .waitKilled => .acquire (.proc p) .waitTest
  | .waitTest => .act fun _ t => (t, .waitTested (t.proc p).killed)
  | .waitTested b => .release (.proc p) (if b then .waitRelease (-1) else .sleepAcquire)
  -- sleep(p, &wait_lock)
  | .sleepAcquire => .acquire (.proc p) .sleepRelease
  | .sleepRelease => .release (.mon ()) .sleepSet
  | .sleepSet => .act fun _ t =>
    (t.set p { t.proc p with chan := some p, state := .sleeping, context := .sleep }, .switch)
  | .sleepBack => .act fun _ t => (t.set p { t.proc p with chan := none }, .sleepUnlock)
  | .sleepUnlock => .release (.proc p) .sleepReacquire
  | .sleepReacquire => .acquire (.mon ()) (.waitScan 0 false)
  -- kill
  | .killScan pid k =>
    if h : k < n then .acquire (.proc ⟨k, h⟩) (.killLook pid ⟨k, h⟩) else .act fun _ t => (t, .ret (-1))
  | .killLook pid k => .act fun _ t =>
    if (t.proc k).pid = pid then (t.set k (t.proc k).kill, .killDone pid k) else (t, .killNext pid k)
  | .killNext pid k => .release (.proc k) (.killScan pid (k + 1))
  | .killDone _ k => .release (.proc k) (.ret 0)
  -- usertrap: setkilled on an unexpected trap, then the test of killed
  | .faultLock => .acquire (.proc p) .faultSet
  | .faultSet => .act fun _ t => (t.set p { t.proc p with killed := true }, .faultUnlock)
  | .faultUnlock => .release (.proc p) .trapLock
  | .trapLock => .acquire (.proc p) .trapTest
  | .trapTest => .act fun _ t => (t, .trapUnlock (t.proc p).killed)
  | .trapUnlock b => .release (.proc p) (if b then .exit (-1) else .user)

/-! ## Locks -/

/-- The local states at which `wait_lock` is held. -/
def Pc.waitLocked : Pc n → Bool
  | .forkParent _ _ | .forkWaitUnlock _ _ | .reparent _ _ | .wakeScan _ _ _ | .wakeTest _ _ _
  | .wakeNext _ _ _ | .exitLock _ | .exitZombie _ | .exitUnlock | .waitScan _ _ | .waitLock _
  | .waitLook _ | .waitNext _ | .waitUnlock _ _ _ | .waitRelease _ | .waitKilled | .waitTest
  | .waitTested _ | .sleepAcquire | .sleepRelease => true
  | _ => false

/-- The slot whose lock the thread of slot `p` holds. -/
def Pc.locks (p : Fin n) : Pc n → Option (Fin n)
  | .schedTest | .schedFail | .switch | .zombieExit | .forkret | .exitZombie _ | .exitUnlock | .waitTest
  | .waitTested _ | .sleepRelease | .sleepSet | .sleepBack | .sleepUnlock | .faultSet | .faultUnlock
  | .trapTest | .trapUnlock _ => some p
  | .allocLook j | .allocNext j | .allocMem j | .forkCopy j | .forkFail j | .forkUnlock j _ | .forkRun j _
  | .forkRunUnlock j _ | .wakeTest _ j _ | .wakeNext _ j _ | .waitLook j | .waitNext j | .waitUnlock j _ _
  | .killLook _ j | .killNext _ j | .killDone _ j => some j
  | _ => none

def held (p : Fin n) (l : Pc n) : Lock n Unit → Prop
  | .mon _ => l.waitLocked = true
  | .proc j => l.locks p = some j

/-- An action takes and gives no lock, and is not the one in which `sleep` gives up `wait_lock`. -/
theorem act_locks {p : Fin n} {l : Pc n} {f : Req → Table n → Table n × Pc n} (h : prog p l = .act f)
    (r : Req) (t : Table n) :
    (f r t).2.waitLocked = l.waitLocked ∧ (f r t).2.locks p = l.locks p ∧ (f r t).2 ≠ .sleepSet := by
  cases l <;> simp only [prog, Instr.act.injEq, reduceCtorEq] at h
  case allocScan | killScan =>
    split at h <;> cases h
    exact ⟨rfl, rfl, nofun⟩
  case wakeScan c k r' => cases r' <;> (repeat' split at h) <;> cases h <;> exact ⟨rfl, rfl, nofun⟩
  all_goals
    subst h
    dsimp only
    (repeat' split) <;> exact ⟨rfl, rfl, nofun⟩

theorem disciplined : Disciplined (prog (n := n)) held where
  acquire {p l m l'} h k := by
    cases l <;> simp only [prog, Instr.acquire.injEq, reduceCtorEq] at h
    case allocScan | killScan | wakeScan =>
      (repeat' split at h) <;> cases h
      cases k <;> simp [held, Pc.waitLocked, Pc.locks, eq_comm]
    all_goals
      obtain ⟨rfl, rfl⟩ := h
      cases k <;> simp [held, Pc.waitLocked, Pc.locks, eq_comm]
  release {p l m l'} h := by
    cases l <;> simp only [prog, Instr.release.injEq, reduceCtorEq] at h
    case allocScan | killScan | wakeScan => (repeat' split at h) <;> cases h
    case waitTested b | trapUnlock b =>
      obtain ⟨rfl, rfl⟩ := h
      refine ⟨rfl, fun k => ?_⟩
      cases b <;> cases k <;> simp [held, Pc.waitLocked, Pc.locks, eq_comm]
    all_goals
      obtain ⟨rfl, rfl⟩ := h
      refine ⟨rfl, fun k => ?_⟩
      cases k <;> simp [held, Pc.waitLocked, Pc.locks, eq_comm]
  act {p l f} h r t k := by
    obtain ⟨h1, h2, -⟩ := act_locks h r t
    cases k with
    | mon u => simp only [held, h1]
    | proc j => simp only [held, h2]

/-! ## What happened -/

/-- What is remembered of a process, under its number. -/
inductive Event (n : ℕ)
  /-- `fork` returned `pid` for it. -/
  | forked (id : ℕ) (pid : BitVec 32)
  /-- It called `exit(status)` and became a `ZOMBIE`. -/
  | exited (id : ℕ) (status : BitVec 32)
  /-- `wait` in slot `reaper` returned `pid` and `status` for it, when its `parent` was as given. -/
  | reaped (id : ℕ) (reaper : Fin n) (parent : Option (Fin n)) (pid status : BitVec 32)
  deriving DecidableEq

/-- The history of a run. Processes are numbered, since slots and pids are used again. -/
structure Hist (n : ℕ) where
  /-- The number of the process in a slot, or of the last one. -/
  id : Fin n → ℕ
  /-- The next number. -/
  count : ℕ
  /-- Who is in `fork` with the slot as `np`. -/
  maker : Fin n → Option (Fin n)
  /-- The number of the process that forked the one in the slot. -/
  creator : Fin n → ℕ
  /-- The process in the slot has been given a parent. -/
  given : Fin n → Bool
  /-- The argument of the last call of `exit`. -/
  arg : Fin n → BitVec 32
  /-- `sleep` has released `wait_lock` and not set `SLEEPING` yet. -/
  dozing : Fin n → Bool
  /-- The `kill` call that a process is in. -/
  killing : Fin n → Option (BitVec 32)
  /-- `kill` was called with exactly the pid of the process in the slot, after the pid was
  allocated. -/
  named : Fin n → Bool
  log : List (Event n)

namespace Hist

variable (h : Hist n)

def alloc (p j : Fin n) : Hist n :=
  { h with
    id := update h.id j h.count
    count := h.count + 1
    maker := update h.maker j (some p)
    given := update h.given j false
    named := update h.named j false }

def unmake (j : Fin n) : Hist n := { h with maker := update h.maker j none }

def adopt (p j : Fin n) : Hist n :=
  { h with creator := update h.creator j (h.id p), given := update h.given j true }

def exits (p : Fin n) (status : BitVec 32) : Hist n := { h with arg := update h.arg p status }

def doze (p : Fin n) (b : Bool) : Hist n := { h with dozing := update h.dozing p b }

def call (p : Fin n) (pid : BitVec 32) (t : Table n) : Hist n :=
  { h with
    killing := update h.killing p (some pid)
    named := fun j => h.named j || decide ((t.proc j).pid = pid ∧ (t.proc j).state ≠ .unused) }

def uncall (p : Fin n) : Hist n := { h with killing := update h.killing p none }

def add (e : Event n) : Hist n := { h with log := h.log ++ [e] }

end Hist

/-- What a step of `p` adds to the history. -/
def note (p : Fin n) (l : Pc n) (r : Req) (t : Table n) (h : Hist n) : Hist n :=
  match l with
  | .allocLook j => if (t.proc j).state = .unused then h.alloc p j else h
  | .allocMem j | .forkCopy j =>
    match r with
    | .fail => h.unmake j
    | _ => h
  | .forkParent j _ => h.adopt p j
  | .forkRet j pid => (h.unmake j).add (.forked (h.id j) pid)
  | .trapUnlock true => h.exits p (-1)
  | .exitZombie _ => h.add (.exited (h.id p) (h.arg p))
  | .waitLook j =>
    -- `wait` is about to return `v`, and has copied out `st`
    match (prog p l).target r t l with
    | .waitUnlock _ v (some st) => h.add (.reaped (h.id j) p (t.proc j).parent v st)
    | _ => h
  | .sleepRelease => h.doze p true
  | .sleepSet => h.doze p false
  | .user =>
    match r with
    | .kill pid => h.call p pid t
    | .exit status => h.exits p status
    | _ => h
  | .killScan _ k => if k < n then h else h.uncall p
  | .killDone _ _ => h.uncall p
  | _ => h

/-- After `userinit`: the first process runs in slot `i`, the rest of the table is free. -/
def boot (i : Fin n) : State (Fin n) (Lock n Unit) (Table n) (Pc n) where
  lock _ := none
  pc p := if p = i then .user else .sched
  sh :=
    { proc := fun p =>
        { state := if p = i then .running else .unused
          chan := none, killed := false, xstate := 0
          pid := if p = i then 1 else 0
          parent := none
          context := if p = i then .forkret else .none }
      nextpid := 2
      initproc := i }

/-- Nothing has happened; the number of a slot stands for the process in it. -/
def Hist.boot : Hist n where
  id := Fin.val
  count := n
  maker _ := none
  creator := Fin.val
  given _ := false
  arg _ := 0
  dozing _ := false
  killing _ := none
  named _ := false
  log := []

end Xv6.Life
