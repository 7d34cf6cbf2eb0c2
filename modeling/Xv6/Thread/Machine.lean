import Xv6.Lib.Reach

/-!
# Kernel threads: spin-locks, `sleep`, `wakeup`, `kill`

The part of `kernel/proc.c` that every blocking kernel function rests on, as a machine
on which such functions run. A function is a program: at each local state it names the
next instruction (`Instr`). The machine executes spin-lock operations, `sleep`,
`wakeup`, `killed` and `kill` in the small steps of the source, so that steps of other
processes fall between any two of them:

* `sleep` takes `p->lock`, releases `lk`, sets `chan` and `SLEEPING`, and gives up the
  CPU; the scheduler then releases `p->lock`. Once `RUNNABLE` the process is scheduled
  again with `p->lock` held, clears `chan`, releases `p->lock` and takes `lk` back.
* `wakeup` and `kill` go through the process table, taking one `p->lock` at a time.

A code section under one `p->lock` is one step: the fields it reads and writes are
only used with that lock held. Which process moves next is arbitrary, so preemption
(`yield`) needs no step of its own: it moves between `RUNNING` and `RUNNABLE`, which
no instruction tells apart.
-/

namespace Xv6.Thread

/-- `enum procstate`. -/
inductive PState
  | unused | used | sleeping | runnable | running | zombie
  deriving DecidableEq, Repr

/-- Spin-locks: `p->lock` of each table slot, and named locks such as `pi->lock`. -/
inductive Lock (n : ℕ) (K : Type)
  | proc (p : Fin n)
  | mon (k : K)
  deriving DecidableEq

/-- The next instruction of a kernel function. `K` names its locks, `C` its sleep
channels, `σ` is the data it shares, `ι` what it receives from outside (arguments,
the outcome of a user copy), `L` its local states. -/
inductive Instr (n : ℕ) (K C σ ι L : Type)
  | acquire (ℓ : Lock n K) (next : L)
  | release (ℓ : Lock n K) (next : L)
  | act (f : ι → σ → σ × L)
  | sleep (c : C) (k : K) (next : L)
  | wakeup (c : C) (next : L)
  | killed (next : Bool → L)
  | kill (pid : ℕ) (next : Bool → L)
  | panic (msg : String)

/-- Where a process is: at a local state of its function, or inside one of the
functions of `proc.c` that the function called. -/
inductive Ctl (n : ℕ) (K C L : Type)
  | run (l : L)
  | sleepAcquire (c : C) (k : K) (l : L)
  | sleepRelease (c : C) (k : K) (l : L)
  | sleepSet (c : C) (k : K) (l : L)
  | sleepSwtch (c : C) (k : K) (l : L)
  | sleepOff (c : C) (k : K) (l : L)
  | sleepBack (c : C) (k : K) (l : L)
  | sleepReacquire (c : C) (k : K) (l : L)
  | wakeAt (c : C) (i : ℕ) (l : L)
  | wakeHold (c : C) (i : Fin n) (l : L)
  | killedAcquire (f : Bool → L)
  | killedHold (f : Bool → L)
  | killAt (pid i : ℕ) (f : Bool → L)
  | killHold (pid : ℕ) (i : Fin n) (f : Bool → L)

/-- The fields of `struct proc` that these functions use, and the control point. -/
structure Proc (n : ℕ) (K C L : Type) where
  state : PState
  chan : Option C
  killed : Bool
  pid : ℕ
  ctl : Ctl n K C L

structure State (n : ℕ) (K C σ L : Type) where
  lock : Lock n K → Option (Fin n)
  procs : Fin n → Proc n K C L
  sh : σ
  panic : Option String

variable {n : ℕ} {K C σ ι L : Type}

def State.setLock [DecidableEq K] (s : State n K C σ L) (ℓ : Lock n K) (o : Option (Fin n)) :
    State n K C σ L :=
  { s with lock := Function.update s.lock ℓ o }

def State.setProc (s : State n K C σ L) (p : Fin n) (x : Proc n K C L) : State n K C σ L :=
  { s with procs := Function.update s.procs p x }

/-- Move the control point of `p`. -/
def State.goto (s : State n K C σ L) (p : Fin n) (c : Ctl n K C L) : State n K C σ L :=
  s.setProc p { s.procs p with ctl := c }

/-- All processes at the local state `l`, no lock taken. -/
def start (l : L) (sh : σ) : State n K C σ L where
  lock _ := none
  procs p := { state := .running, chan := none, killed := false, pid := p.val + 1, ctl := .run l }
  sh := sh
  panic := none

variable [DecidableEq K] [DecidableEq C]

/-- `if(p->state == SLEEPING && p->chan == chan) p->state = RUNNABLE`. -/
def Proc.wake (x : Proc n K C L) (c : C) : Proc n K C L :=
  if x.state = .sleeping ∧ x.chan = some c then { x with state := .runnable } else x

/-- What `kill` does to the process it names. -/
def Proc.markKilled (x : Proc n K C L) : Proc n K C L :=
  if x.state = .sleeping then { x with killed := true, state := .runnable }
  else { x with killed := true }

/-- The next step of process `p`, if it is not spinning on a lock or asleep; `x` is what
it receives from outside. A panic stops the machine. -/
def step (prog : Fin n → L → Instr n K C σ ι L) (s : State n K C σ L) (a : Fin n × ι) :
    Option (State n K C σ L) :=
  let p := a.1
  let x := s.procs p
  if s.panic.isSome then none else
  match x.ctl with
  | .run l =>
    match prog p l with
    | .acquire ℓ l' =>
      if s.lock ℓ = none then some ((s.setLock ℓ (some p)).goto p (.run l')) else none
    | .release ℓ l' =>
      if s.lock ℓ = some p then some ((s.setLock ℓ none).goto p (.run l'))
      else some { s with panic := some "release" }
    | .act f => some ({ s with sh := (f a.2 s.sh).1 }.goto p (.run (f a.2 s.sh).2))
    | .sleep c k l' => some (s.goto p (.sleepAcquire c k l'))
    | .wakeup c l' => some (s.goto p (.wakeAt c 0 l'))
    | .killed f => some (s.goto p (.killedAcquire f))
    | .kill pid f => some (s.goto p (.killAt pid 0 f))
    | .panic msg => some { s with panic := some msg }
  | .sleepAcquire c k l =>
    if s.lock (.proc p) = none then
      some ((s.setLock (.proc p) (some p)).goto p (.sleepRelease c k l))
    else none
  | .sleepRelease c k l =>
    if s.lock (.mon k) = some p then some ((s.setLock (.mon k) none).goto p (.sleepSet c k l))
    else some { s with panic := some "release" }
  | .sleepSet c k l =>
    some (s.setProc p { x with chan := some c, state := .sleeping, ctl := .sleepSwtch c k l })
  | .sleepSwtch c k l => some ((s.setLock (.proc p) none).goto p (.sleepOff c k l))
  | .sleepOff c k l =>
    -- the scheduler takes `p->lock` and switches to a `RUNNABLE` process
    if x.state = .runnable ∧ s.lock (.proc p) = none then
      some ((s.setLock (.proc p) (some p)).setProc p
        { x with state := .running, ctl := .sleepBack c k l })
    else none
  | .sleepBack c k l =>
    some ((s.setLock (.proc p) none).setProc p { x with chan := none, ctl := .sleepReacquire c k l })
  | .sleepReacquire _ k l =>
    if s.lock (.mon k) = none then some ((s.setLock (.mon k) (some p)).goto p (.run l)) else none
  | .wakeAt c i l =>
    if h : i < n then
      -- `p != myproc()`
      if i = p.val then some (s.goto p (.wakeAt c (i + 1) l))
      else if s.lock (.proc ⟨i, h⟩) = none then
        some ((s.setLock (.proc ⟨i, h⟩) (some p)).goto p (.wakeHold c ⟨i, h⟩ l))
      else none
    else some (s.goto p (.run l))
  | .wakeHold c i l =>
    some (((s.setLock (.proc i) none).setProc i ((s.procs i).wake c)).goto p (.wakeAt c (i + 1) l))
  | .killedAcquire f =>
    if s.lock (.proc p) = none then some ((s.setLock (.proc p) (some p)).goto p (.killedHold f))
    else none
  | .killedHold f => some ((s.setLock (.proc p) none).goto p (.run (f x.killed)))
  | .killAt pid i f =>
    if h : i < n then
      if s.lock (.proc ⟨i, h⟩) = none then
        some ((s.setLock (.proc ⟨i, h⟩) (some p)).goto p (.killHold pid ⟨i, h⟩ f))
      else none
    else some (s.goto p (.run (f false)))
  | .killHold pid i f =>
    if (s.procs i).pid = pid then
      some (((s.setLock (.proc i) none).setProc i (s.procs i).markKilled).goto p (.run (f true)))
    else some ((s.setLock (.proc i) none).goto p (.killAt pid (i + 1) f))

end Xv6.Thread
