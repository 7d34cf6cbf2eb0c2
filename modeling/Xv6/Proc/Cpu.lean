import Xv6.Thread.Machine

/-!
# CPUs, the scheduler and `swtch`

`kernel/proc.c` as it runs on several CPUs: `scheduler`, `sched`, `yield`, `forkret`, `sleep`,
`wakeup`, `kill`, `fork`, `exit` and `wait`, with `c->proc`, `p->context` and `c->context`. A step is
a step of one CPU, which executes the scheduler or a kernel thread. `swtch` stores where the one goes
on and continues the other; a spin-lock belongs to the CPU that took it (`lk->cpu`), so `p->lock` is
taken by the scheduler and released by the thread, or the other way round. The code finds its process
through `c->proc` (`myproc`).

* Between two calls a process is at `user`: user space, or kernel code outside `proc.c`. It holds
  the spin-locks listed there, may take and release any, and may sleep and wake others up. So may
  `exit` while it closes files (`exitFiles`).
* Wherever no spin-lock is held, interrupts are on: a timer interrupt makes the thread `yield`, a
  device interrupt calls `wakeup`, in a thread or in the scheduler. Both go on where they were (`back`).
* A section of code under one `p->lock` that calls nothing is one step.
* What memory allocation and user copies come to is up to the environment (`Input.fail`).

`mycpu()->noff` counts the spin-locks that the CPU holds: `sched` panics if `p->lock` is not the only
one. Two fields of a slot are not in the source and are read by no step: `trans` is the last change of
`p->state`, `maker` is the process that is setting up a `USED` slot.
-/

namespace Xv6.Cpu

open Thread (PState Lock)

variable {m n : ℕ} {K C : Type}

/-- What processes sleep on: addresses of table slots, and others. -/
inductive Chan (n : ℕ) (C : Type)
  | proc (p : Fin n)
  | other (c : C)
  deriving DecidableEq

/-- Where a kernel thread is; `q` is its local variable `p`, got from `myproc()`, and `back` the
place that a call or an interrupt returns to. -/
inductive Pc (n : ℕ) (K C : Type)
  | user (ks : List K)
  -- acquire(k), release(k), with the locks ks held before
  | monLock (k : K) (ks : List K) (back : Pc n K C) | monUnlock (k : K) (ks : List K) (back : Pc n K C)
  | forkret | forkretRelease (q : Fin n)
  -- yield
  | yieldEnter (back : Pc n K C) | yieldAcquire (q : Fin n) (back : Pc n K C)
  | yieldSet (q : Fin n) (back : Pc n K C) | yieldSched (q : Fin n) (back : Pc n K C)
  | yieldBack (q : Fin n) (back : Pc n K C)
  -- sleep(c, k), with the locks ks held besides
  | sleepEnter (c : Chan n C) (k : K) (ks : List K) (back : Pc n K C)
  | sleepAcquire (q : Fin n) (c : Chan n C) (k : K) (ks : List K) (back : Pc n K C)
  | sleepRelease (q : Fin n) (c : Chan n C) (k : K) (ks : List K) (back : Pc n K C)
  | sleepSet (q : Fin n) (c : Chan n C) (k : K) (ks : List K) (back : Pc n K C)
  | sleepSched (q : Fin n) (c : Chan n C) (k : K) (ks : List K) (back : Pc n K C)
  | sleepBack (q : Fin n) (k : K) (back : Pc n K C)
  | sleepUnlock (q : Fin n) (k : K) (back : Pc n K C)
  | sleepReacquire (k : K) (back : Pc n K C)
  -- wakeup(c), with the locks ks held
  | wakeAt (c : Option (Chan n C)) (i : ℕ) (ks : List K) (back : Pc n K C)
  | wakeAcquire (c : Option (Chan n C)) (j : Fin n) (ks : List K) (back : Pc n K C)
  | wakeLook (c : Option (Chan n C)) (j : Fin n) (ks : List K) (back : Pc n K C)
  | wakeRelease (c : Option (Chan n C)) (j : Fin n) (ks : List K) (back : Pc n K C)
  -- kill
  | killAt (pid : ℕ) (i : ℕ) | killLook (pid : ℕ) (j : Fin n)
  | killRelease (pid : ℕ) (j : Fin n) (found : Bool)
  -- fork, allocproc
  | forkEnter | allocAt (q : Fin n) (i : ℕ) | allocLook (q j : Fin n) | allocNext (q j : Fin n)
  | allocMem (q j : Fin n) | forkCopy (q j : Fin n) | forkFail (q j : Fin n) | forkUnlock (q j : Fin n)
  | forkWaitLock (q j : Fin n) | forkParent (q j : Fin n) | forkWaitUnlock (q j : Fin n)
  | forkRunLock (q j : Fin n) | forkRun (q j : Fin n) | forkRunUnlock (q j : Fin n)
  -- exit, reparent
  | exitEnter | exitTest (q : Fin n) | initExiting | exitFiles (q : Fin n) (ks : List K)
  | exitAcquire (q : Fin n) | exitReparent (q : Fin n) (i : ℕ)
  | exitWake (q : Fin n) | exitLock (q : Fin n) | exitSet (q : Fin n) | exitUnlock (q : Fin n)
  | exitSched (q : Fin n) | zombieExit
  -- wait
  | waitEnter | waitAcquire (q : Fin n) | waitScan (q : Fin n) (i : ℕ) (havekids : Bool)
  | waitLock (q j : Fin n) | waitLook (q j : Fin n) | waitNext (q j : Fin n) | waitUnlock (q j : Fin n)
  | waitRelease (q : Fin n) | waitKilled (q : Fin n) | waitTest (q : Fin n) | waitTested (q : Fin n) (b : Bool)
  -- a null or wild pointer
  | crash

/-- Where a scheduler is; `i` and `j` are its loop variable. -/
inductive SPc (n : ℕ) (C : Type)
  | acquire (i : ℕ) | test (j : Fin n) | swtch (j : Fin n) | back (j : Fin n) | release (j : Fin n)
  -- an interrupt that calls wakeup
  | wakeAt (c : Chan n C) (k i : ℕ) | wakeLook (c : Chan n C) (k : Fin n) (i : ℕ)
  | wakeRelease (c : Chan n C) (k : Fin n) (i : ℕ)

/-- What a CPU executes. -/
inductive Code (n : ℕ) (K C : Type)
  | sched (l : SPc n C)
  | thread (l : Pc n K C)

/-- The last change of `p->state`. -/
inductive Trans (n : ℕ) (C : Type)
  | boot | alloc | ready | run | yielded | slept (by_ : Fin n) (c : Chan n C) | woken | killed | exited | freed

/-- The fields of `struct proc` that these functions use. -/
structure Slot (n : ℕ) (K C : Type) where
  state : PState
  chan : Option (Chan n C)
  killed : Bool
  pid : ℕ
  parent : Option (Fin n)
  context : Pc n K C
  trans : Trans n C
  maker : Option (Fin n)

/-- `proc[NPROC]`, `nextpid` and `initproc`. -/
structure Table (n : ℕ) (K C : Type) where
  proc : Fin n → Slot n K C
  nextpid : ℕ
  initproc : Fin n

structure State (m n : ℕ) (K C : Type) where
  table : Table n K C
  lock : Lock n K → Option (Fin m)
  /-- `c->proc`. -/
  cproc : Fin m → Option (Fin n)
  on : Fin m → Code n K C
  /-- `c->context`: the scheduler went to `swtch` for this slot. -/
  saved : Fin m → Fin n
  panic : Option String

/-- Interrupts, what a process at `user` does next, and the outcome of memory allocation. -/
inductive Input (n : ℕ) (K C : Type)
  | timer | intr (c : Chan n C)
  | lock (k : K) | unlock (k : K) | sleep (c : Chan n C) (k : K) | wakeup (c : Chan n C)
  | kill (pid : ℕ) | fork | exit | wait | ok | fail

/-- The next instruction of a thread. -/
inductive Instr (n : ℕ) (K C : Type)
  | acquire (ℓ : Lock n K) (next : Pc n K C)
  | release (ℓ : Lock n K) (next : Pc n K C)
  | act (f : Input n K C → Table n K C → Table n K C × Pc n K C)
  | myproc (next : Option (Fin n) → Pc n K C)
  | sched (q : Fin n) (ks : List K) (next : Pc n K C)
  | panic (msg : String)

def Table.set (t : Table n K C) (j : Fin n) (x : Slot n K C) : Table n K C :=
  { t with proc := Function.update t.proc j x }

/-- `freeproc`. -/
def Slot.freeproc (x : Slot n K C) : Slot n K C :=
  { x with pid := 0, parent := none, chan := none, killed := false, state := .unused,
           trans := .freed, maker := none }

/-- `if(p->state == SLEEPING && p->chan == chan) p->state = RUNNABLE`. -/
def Slot.wake [DecidableEq C] (x : Slot n K C) (c : Option (Chan n C)) : Slot n K C :=
  if x.state = .sleeping ∧ x.chan = c then { x with state := .runnable, trans := .woken } else x

/-- What `kill` does to the slot it finds. -/
def Slot.kill (x : Slot n K C) : Slot n K C :=
  if x.state = .sleeping then { x with killed := true, state := .runnable, trans := .killed }
  else { x with killed := true }

variable [DecidableEq K] [DecidableEq C]

/-- Kernel code outside `proc.c` that holds the locks `ks`: it takes or releases a spin-lock, sleeps
with a lock it holds, or wakes others up. `here` is the place with the locks held there. -/
def within (here : List K → Pc n K C) (ks : List K) : Input n K C → Pc n K C
  | .lock k => .monLock k ks (here (k :: ks))
  | .unlock k => if k ∈ ks then .monUnlock k ks (here (ks.filter (· ≠ k))) else here ks
  | .sleep c k => if k ∈ ks then .sleepEnter c k (ks.filter (· ≠ k)) (here ks) else here ks
  | .wakeup c => .wakeAt (some c) 0 ks (here ks)
  | _ => here ks

/-- The code of the kernel threads; `wl` is `wait_lock`. -/
def prog (wl : K) : Pc n K C → Instr n K C
  | .user ks => .act fun x t =>
    match x with
    | .kill pid => (t, if ks = [] then .killAt pid 0 else .user ks)
    | .fork => (t, if ks = [] then .forkEnter else .user ks)
    | .exit => (t, if ks = [] then .exitEnter else .user ks)
    | .wait => (t, if ks = [] then .waitEnter else .user ks)
    | x => (t, within .user ks x)
  | .monLock k _ back => .acquire (.mon k) back
  | .monUnlock k _ back => .release (.mon k) back
  | .forkret => .myproc fun o => o.elim .crash .forkretRelease
  | .forkretRelease q => .release (.proc q) (.user [])
  | .crash => .panic "kerneltrap"
  -- yield
  | .yieldEnter back => .myproc fun o => o.elim .crash fun q => .yieldAcquire q back
  | .yieldAcquire q back => .acquire (.proc q) (.yieldSet q back)
  | .yieldSet q back => .act fun _ t =>
    (t.set q { t.proc q with state := .runnable, trans := .yielded }, .yieldSched q back)
  | .yieldSched q back => .sched q [] (.yieldBack q back)
  | .yieldBack q back => .release (.proc q) back
  -- sleep
  | .sleepEnter c k ks back => .myproc fun o => o.elim .crash fun q => .sleepAcquire q c k ks back
  | .sleepAcquire q c k ks back => .acquire (.proc q) (.sleepRelease q c k ks back)
  | .sleepRelease q c k ks back => .release (.mon k) (.sleepSet q c k ks back)
  | .sleepSet q c k ks back => .act fun _ t =>
    (t.set q { t.proc q with chan := some c, state := .sleeping, trans := .slept q c }, .sleepSched q c k ks back)
  | .sleepSched q _ k ks back => .sched q ks (.sleepBack q k back)
  | .sleepBack q k back => .act fun _ t => (t.set q { t.proc q with chan := none }, .sleepUnlock q k back)
  | .sleepUnlock q k back => .release (.proc q) (.sleepReacquire k back)
  | .sleepReacquire k back => .acquire (.mon k) back
  -- wakeup
  | .wakeAt c i ks back =>
    if h : i < n then
      .myproc fun o => if o = some ⟨i, h⟩ then .wakeAt c (i + 1) ks back else .wakeAcquire c ⟨i, h⟩ ks back
    else .act fun _ t => (t, back)
  | .wakeAcquire c j ks back => .acquire (.proc j) (.wakeLook c j ks back)
  | .wakeLook c j ks back => .act fun _ t => (t.set j ((t.proc j).wake c), .wakeRelease c j ks back)
  | .wakeRelease c j ks back => .release (.proc j) (.wakeAt c (j + 1) ks back)
  -- kill
  | .killAt pid i =>
    if h : i < n then .acquire (.proc ⟨i, h⟩) (.killLook pid ⟨i, h⟩) else .act fun _ t => (t, .user [])
  | .killLook pid j => .act fun _ t =>
    if (t.proc j).pid = pid then (t.set j (t.proc j).kill, .killRelease pid j true)
    else (t, .killRelease pid j false)
  | .killRelease pid j found => .release (.proc j) (if found then .user [] else .killAt pid (j + 1))
  -- fork
  | .forkEnter => .myproc fun o => o.elim .crash fun q => .allocAt q 0
  | .allocAt q i => if h : i < n then .acquire (.proc ⟨i, h⟩) (.allocLook q ⟨i, h⟩) else .act fun _ t => (t, .user [])
  | .allocLook q j => .act fun _ t =>
    if (t.proc j).state = .unused then
      ({ t.set j { t.proc j with pid := t.nextpid, state := .used, trans := .alloc, maker := some q } with
          nextpid := t.nextpid + 1 }, .allocMem q j)
    else (t, .allocNext q j)
  | .allocNext q j => .release (.proc j) (.allocAt q (j + 1))
  | .allocMem q j => .act fun x t =>
    match x with
    | .fail => (t.set j (t.proc j).freeproc, .forkFail q j)
    | _ => (t.set j { t.proc j with context := .forkret }, .forkCopy q j)
  | .forkCopy q j => .act fun x t =>
    match x with
    | .fail => (t.set j (t.proc j).freeproc, .forkFail q j)
    | _ => (t, .forkUnlock q j)
  | .forkFail _ j => .release (.proc j) (.user [])
  | .forkUnlock q j => .release (.proc j) (.forkWaitLock q j)
  | .forkWaitLock q j => .acquire (.mon wl) (.forkParent q j)
  | .forkParent q j => .act fun _ t => (t.set j { t.proc j with parent := some q }, .forkWaitUnlock q j)
  | .forkWaitUnlock q j => .release (.mon wl) (.forkRunLock q j)
  | .forkRunLock q j => .acquire (.proc j) (.forkRun q j)
  | .forkRun q j => .act fun _ t =>
    (t.set j { t.proc j with state := .runnable, trans := .ready, maker := none }, .forkRunUnlock q j)
  | .forkRunUnlock _ j => .release (.proc j) (.user [])
  -- exit
  | .exitEnter => .myproc fun o => o.elim .crash fun q => .exitTest q
  | .exitTest q => .act fun _ t => (t, if t.initproc = q then .initExiting else .exitFiles q [])
  | .initExiting => .panic "init exiting"
  | .exitFiles q ks => .act fun x t =>
    match x with
    | .ok => (t, if ks = [] then .exitAcquire q else .exitFiles q ks)
    | x => (t, within (.exitFiles q) ks x)
  | .exitAcquire q => .acquire (.mon wl) (.exitReparent q 0)
  | .exitReparent q i => .act fun _ t =>
    if h : i < n then
      if (t.proc ⟨i, h⟩).parent = some q then
        (t.set ⟨i, h⟩ { t.proc ⟨i, h⟩ with parent := some t.initproc },
          .wakeAt (some (.proc t.initproc)) 0 [wl] (.exitReparent q (i + 1)))
      else (t, .exitReparent q (i + 1))
    else (t, .exitWake q)
  | .exitWake q => .act fun _ t => (t, .wakeAt ((t.proc q).parent.map .proc) 0 [wl] (.exitLock q))
  | .exitLock q => .acquire (.proc q) (.exitSet q)
  | .exitSet q => .act fun _ t => (t.set q { t.proc q with state := .zombie, trans := .exited }, .exitUnlock q)
  | .exitUnlock q => .release (.mon wl) (.exitSched q)
  | .exitSched q => .sched q [] .zombieExit
  | .zombieExit => .panic "zombie exit"
  -- wait
  | .waitEnter => .myproc fun o => o.elim .crash fun q => .waitAcquire q
  | .waitAcquire q => .acquire (.mon wl) (.waitScan q 0 false)
  | .waitScan q i havekids => .act fun _ t =>
    (t, if h : i < n then
      if (t.proc ⟨i, h⟩).parent = some q then .waitLock q ⟨i, h⟩ else .waitScan q (i + 1) havekids
    else if havekids then .waitKilled q else .waitRelease q)
  | .waitLock q j => .acquire (.proc j) (.waitLook q j)
  | .waitLook q j => .act fun x t =>
    if (t.proc j).state = .zombie then
      match x with
      | .fail => (t, .waitUnlock q j)
      | _ => (t.set j (t.proc j).freeproc, .waitUnlock q j)
    else (t, .waitNext q j)
  | .waitNext q j => .release (.proc j) (.waitScan q (j + 1) true)
  | .waitUnlock q j => .release (.proc j) (.waitRelease q)
  | .waitRelease _ => .release (.mon wl) (.user [])
  | .waitKilled q => .acquire (.proc q) (.waitTest q)
  | .waitTest q => .act fun _ t => (t, .waitTested q (t.proc q).killed)
  | .waitTested q b =>
    .release (.proc q) (if b then .waitRelease q else .sleepEnter (.proc q) wl [] (.waitScan q 0 false))

/-- The spin-locks other than `p->lock`s that a thread holds. -/
def Pc.mons (wl : K) : Pc n K C → List K
  | .user ks | .monLock _ ks _ | .monUnlock _ ks _ | .exitFiles _ ks => ks
  | .sleepEnter _ k ks _ | .sleepAcquire _ _ k ks _ | .sleepRelease _ _ k ks _ => k :: ks
  | .sleepSet _ _ _ ks _ | .sleepSched _ _ _ ks _ => ks
  | .wakeAt _ _ ks _ | .wakeAcquire _ _ ks _ | .wakeLook _ _ ks _ | .wakeRelease _ _ ks _ => ks
  | .forkParent _ _ | .forkWaitUnlock _ _ | .exitReparent _ _ | .exitWake _ | .exitLock _ | .exitSet _
  | .exitUnlock _ | .waitScan _ _ _ | .waitLock _ _ | .waitLook _ _ | .waitNext _ _ | .waitUnlock _ _
  | .waitRelease _ | .waitKilled _ | .waitTest _ | .waitTested _ _ => [wl]
  | _ => []

/-- The slot whose lock the thread of slot `p` holds. -/
def Pc.slot (p : Fin n) : Pc n K C → Option (Fin n)
  | .forkret | .zombieExit => some p
  | .forkretRelease q | .yieldSet q _ | .yieldSched q _ | .yieldBack q _ | .sleepRelease q _ _ _ _
  | .sleepSet q _ _ _ _ | .sleepSched q _ _ _ _ | .sleepBack q _ _ | .sleepUnlock q _ _ | .exitSet q
  | .exitUnlock q | .exitSched q | .waitTest q | .waitTested q _ => some q
  | .wakeLook _ j _ _ | .wakeRelease _ j _ _ | .killLook _ j | .killRelease _ j _ | .allocLook _ j
  | .allocNext _ j | .allocMem _ j | .forkCopy _ j | .forkFail _ j | .forkUnlock _ j | .forkRun _ j
  | .forkRunUnlock _ j | .waitLook _ j | .waitNext _ j | .waitUnlock _ j => some j
  | _ => none

/-- No spin-lock is held, so interrupts are on. -/
def Pc.quiet (wl : K) (p : Fin n) (l : Pc n K C) : Bool := (l.mons wl).isEmpty && (l.slot p).isNone

variable {wl : K}

/-- CPU `c` goes on at `l`. -/
def State.goto (s : State m n K C) (c : Fin m) (l : Code n K C) : State m n K C :=
  { s with on := Function.update s.on c l }

def State.setLock (s : State m n K C) (ℓ : Lock n K) (o : Option (Fin m)) : State m n K C :=
  { s with lock := Function.update s.lock ℓ o }

/-- `acquire` on CPU `c`; `none` while another CPU holds the lock. -/
def State.acquire (s : State m n K C) (c : Fin m) (ℓ : Lock n K) (l : Code n K C) :
    Option (State m n K C) :=
  match s.lock ℓ with
  | none => some ((s.setLock ℓ (some c)).goto c l)
  | some c' => if c' = c then some { s with panic := some "acquire" } else none

/-- `release` on CPU `c`. -/
def State.release (s : State m n K C) (c : Fin m) (ℓ : Lock n K) (l : Code n K C) : State m n K C :=
  if s.lock ℓ = some c then (s.setLock ℓ none).goto c l else { s with panic := some "release" }

/-- The scheduler of CPU `c`. -/
def schedStep (s : State m n K C) (c : Fin m) (x : Input n K C) : SPc n C → Option (State m n K C)
  | .acquire i =>
    match x with
    | .intr ch => some (s.goto c (.sched (.wakeAt ch 0 i)))
    | _ =>
      if h : i < n then s.acquire c (.proc ⟨i, h⟩) (.sched (.test ⟨i, h⟩))
      else some (s.goto c (.sched (.acquire 0)))
  | .test j =>
    if (s.table.proc j).state = .runnable then
      some ({ s with
        table := s.table.set j { s.table.proc j with state := .running, trans := .run }
        cproc := Function.update s.cproc c (some j) }.goto c (.sched (.swtch j)))
    else some (s.goto c (.sched (.release j)))
  | .swtch j =>
    some ({ s with saved := Function.update s.saved c j }.goto c (.thread (s.table.proc j).context))
  | .back j => some ({ s with cproc := Function.update s.cproc c none }.goto c (.sched (.release j)))
  | .release j => some (s.release c (.proc j) (.sched (.acquire (j + 1))))
  | .wakeAt ch k i =>
    if h : k < n then
      if s.cproc c = some ⟨k, h⟩ then some (s.goto c (.sched (.wakeAt ch (k + 1) i)))
      else s.acquire c (.proc ⟨k, h⟩) (.sched (.wakeLook ch ⟨k, h⟩ i))
    else some (s.goto c (.sched (.acquire i)))
  | .wakeLook ch k i =>
    some ({ s with table := s.table.set k ((s.table.proc k).wake (some ch)) }.goto c
      (.sched (.wakeRelease ch k i)))
  | .wakeRelease ch k i => some (s.release c (.proc k) (.sched (.wakeAt ch (k + 1) i)))

/-- An instruction of the thread that runs on CPU `c`. -/
def exec (s : State m n K C) (c : Fin m) (x : Input n K C) : Instr n K C → Option (State m n K C)
  | .acquire ℓ l => s.acquire c ℓ (.thread l)
  | .release ℓ l => some (s.release c ℓ (.thread l))
  | .act f => some ({ s with table := (f x s.table).1 }.goto c (.thread (f x s.table).2))
  | .myproc g => some (s.goto c (.thread (g (s.cproc c))))
  | .sched q ks l =>
    if s.lock (.proc q) ≠ some c then some { s with panic := some "sched p->lock" }
    else if ks ≠ [] then some { s with panic := some "sched locks" }
    else if (s.table.proc q).state = .running then some { s with panic := some "sched running" }
    else some ({ s with table := s.table.set q { s.table.proc q with context := l } }.goto c
      (.sched (.back (s.saved c))))
  | .panic msg => some { s with panic := some msg }

/-- A step of CPU `c`. -/
def step (wl : K) (s : State m n K C) (a : Fin m × Input n K C) : Option (State m n K C) :=
  if s.panic.isSome then none else
  match s.on a.1 with
  | .sched l => schedStep s a.1 a.2 l
  | .thread l =>
    match a.2, l.quiet wl (s.saved a.1) with
    | .timer, true => some (s.goto a.1 (.thread (.yieldEnter l)))
    | .intr ch, true => some (s.goto a.1 (.thread (.wakeAt (some ch) 0 [] l)))
    | x, _ => exec s a.1 x (prog wl l)

/-- After `userinit`: the first process is `RUNNABLE`, and every CPU enters its scheduler. -/
def initial (p : Fin n) : State m n K C where
  table :=
    { proc := fun q =>
        { state := if q = p then .runnable else .unused
          chan := none
          killed := false
          pid := if q = p then 1 else 0
          parent := none
          context := .forkret
          trans := .boot
          maker := none }
      nextpid := 2
      initproc := p }
  lock _ := none
  cproc _ := none
  on _ := .sched (.acquire 0)
  saved _ := p
  panic := none

end Xv6.Cpu
