import Xv6.Proc.Life

/-!
# Parents and children

What a step of a thread does to the process table is said once (`Did`), and from it what it
does to the state, the parent and the maker of a slot. The first annotations of the program
(`family`): a thread that runs has a process in state `RUNNING`; a slot being filled by `fork`
belongs to the one process that is in that `fork`; and a parent is alive, since a process
hands its children to `initproc` before it becomes a `ZOMBIE`, under `wait_lock` all the time.
-/

namespace Xv6.Life

open Function Lib Conc
open Thread (PState Lock)

variable {n : ℕ}

/-! ## What a step does -/

/-- The slot that `fork` found and has not made known as a child yet. -/
def Pc.fresh : Pc n → Option (Fin n)
  | .allocMem j | .forkCopy j | .forkUnlock j _ | .forkWaitLock j _ | .forkParent j _ => some j
  | _ => none

/-- The slot that `fork` found and has not made `RUNNABLE` yet. -/
def Pc.making : Pc n → Option (Fin n)
  | .forkWaitUnlock j _ | .forkRunLock j _ | .forkRun j _ => some j
  | l => l.fresh

/-- The slot that `fork` found, until `fork` returns. -/
def Pc.forking : Pc n → Option (Fin n)
  | .forkRunUnlock j _ | .forkRet j _ => some j
  | l => l.making

/-- What a step of `p` at a local state does to the table and the history. -/
inductive Did (p : Fin n) (t : Table n) (h : Hist n) : Pc n → Table n → Hist n → Prop
  | same {l} : Did p t h l t h
  | run : (t.proc p).state = .runnable →
      Did p t h .schedTest (t.set p { t.proc p with state := .running }) h
  | alloc {j} : (t.proc j).state = .unused → Did p t h (.allocLook j)
      { t.set j { t.proc j with pid := t.nextpid, state := .used } with nextpid := t.nextpid + 1 }
      (h.alloc p j)
  | context {j} : Did p t h (.allocMem j) (t.set j { t.proc j with context := .forkret }) h
  | free {l j} : l.fresh = some j → l.locks p = some j → Did p t h l (t.set j (t.proc j).freeproc) (h.unmake j)
  | adopt {j pid} : Did p t h (.forkParent j pid) (t.set j { t.proc j with parent := some p }) (h.adopt p j)
  | ready {j pid} : Did p t h (.forkRun j pid) (t.set j { t.proc j with state := .runnable }) h
  | forked {j pid} : Did p t h (.forkRet j pid) t ((h.unmake j).add (.forked (h.id j) pid))
  | orphan {status j} : (t.proc j).parent = some p → Did p t h (.reparent status j.val)
      (t.set j { t.proc j with parent := some t.initproc }) h
  | wake {c k r} : Did p t h (.wakeTest c k r) (t.set k ((t.proc k).wake c)) h
  | zombie {status} : Did p t h (.exitZombie status)
      (t.set p { t.proc p with xstate := status, state := .zombie, context := .zombie })
      (h.add (.exited (h.id p) (h.arg p)))
  | reap {j} : (t.proc j).state = .zombie → Did p t h (.waitLook j) (t.set j (t.proc j).freeproc)
      (h.add (.reaped (h.id j) p (t.proc j).parent (t.proc j).pid (t.proc j).xstate))
  | release : Did p t h .sleepRelease t (h.doze p true)
  | sleep : Did p t h .sleepSet
      (t.set p { t.proc p with chan := some p, state := .sleeping, context := .sleep }) (h.doze p false)
  | rise : Did p t h .sleepBack (t.set p { t.proc p with chan := none }) h
  | call {pid} : Did p t h .user t (h.call p pid t)
  | exits {l status} : Did p t h l t (h.exits p status)
  | kill {pid k} : (t.proc k).pid = pid → Did p t h (.killLook pid k) (t.set k (t.proc k).kill) h
  | killEnd {pid k} : ¬ k < n → Did p t h (.killScan pid k) t (h.uncall p)
  | killDone {pid k} : Did p t h (.killDone pid k) t (h.uncall p)
  | fault : Did p t h .faultSet (t.set p { t.proc p with killed := true }) h

theorem did (p : Fin n) (l : Pc n) (r : Req) (t : Table n) (h : Hist n) :
    Did p t h l ((prog p l).data r t) (note p l r t h) := by
  cases l
  case schedTest =>
    simp only [prog, Instr.data, note]
    split
    · next hs => exact .run hs
    · exact .same
  case user => cases r <;> first | exact .call | exact .exits | exact .same
  case allocLook j =>
    simp only [prog, Instr.data, note]
    split
    · next hs => exact .alloc hs
    · exact .same
  case allocMem j => cases r <;> first | exact .free rfl rfl | exact .context
  case forkCopy j => cases r <;> first | exact .free rfl rfl | exact .same
  case forkParent => exact .adopt
  case forkRun => exact .ready
  case forkRet => exact .forked
  case reparent status j =>
    simp only [prog, Instr.data, note]
    split
    · split
      · next hj hp => exact .orphan (j := ⟨j, hj⟩) hp
      · exact .same
    · exact .same
  case wakeTest => exact .wake
  case exitZombie => exact .zombie
  case waitLook j =>
    simp only [prog, Instr.data, note, Instr.target]
    split
    · next hs => cases r <;> first | exact .same | exact .reap hs
    · exact .same
  case trapUnlock b => cases b <;> first | exact .same | exact .exits
  case sleepRelease => exact .release
  case sleepSet => exact .sleep
  case sleepBack => exact .rise
  case killScan pid k =>
    by_cases hk : k < n
    · simp only [prog, note, hk, dif_pos, if_true, Instr.data]; exact .same
    · simp only [prog, note, hk, dif_neg, if_false, Instr.data, not_false_eq_true]; exact .killEnd hk
  case killLook pid k =>
    simp only [prog, Instr.data, note]
    split
    · next hp => exact .kill hp
    · exact .same
  case killDone => exact .killDone
  case faultSet => exact .fault
  case allocScan j =>
    simp only [prog, note]
    split <;> exact .same
  case wakeScan c k r' =>
    simp only [prog, note]
    split
    · split <;> exact .same
    · exact .same
  all_goals exact .same

section

variable {p : Fin n} {l l' : Pc n} {m : Lock n Unit} {f : Req → Table n → Table n × Pc n}

theorem Did.of_acquire (hi : prog p l = .acquire m l') (r : Req) (t : Table n) (h : Hist n) :
    Did p t h l t (note p l r t h) := by
  have d := did p l r t h
  rwa [hi] at d

theorem Did.of_release (hi : prog p l = .release m l') (r : Req) (t : Table n) (h : Hist n) :
    Did p t h l t (note p l r t h) := by
  have d := did p l r t h
  rwa [hi] at d

theorem Did.of_act (hi : prog p l = .act f) (r : Req) (t : Table n) (h : Hist n) :
    Did p t h l (f r t).1 (note p l r t h) := by
  have d := did p l r t h
  rwa [hi] at d

end

/-! ## What a thread knows -/

/-- The process of the thread is the one running. -/
def Pc.alive : Pc n → Bool
  | .sched | .schedTest | .schedFail | .switch | .exitUnlock => false
  | _ => true

/-- The slot that `wait` found to be a child. -/
def Pc.child : Pc n → Option (Fin n)
  | .waitLock j | .waitLook j => some j
  | _ => none

/-- `exit` has checked that this is not `initproc`. -/
def Pc.exiting : Pc n → Bool
  | .exitAcquire _ | .reparent _ _ | .wakeScan _ _ _ | .wakeTest _ _ _ | .wakeNext _ _ _ | .exitLock _
  | .exitZombie _ => true
  | _ => false

def Caller.swept (n : ℕ) : Caller → ℕ
  | .reparent _ j => j + 1
  | .exit _ => n

/-- How far `reparent` has come. -/
def Pc.swept : Pc n → ℕ
  | .reparent _ j => j
  | .wakeScan _ _ r | .wakeTest _ _ r | .wakeNext _ _ r => r.swept n
  | .exitLock _ | .exitZombie _ => n
  | _ => 0

structure Knows (p : Fin n) (l : Pc n) (t : Table n) (h : Hist n) : Prop where
  running : l.alive = true → (t.proc p).state = .running
  forking : ∀ j, h.maker j = some p ↔ l.forking = some j
  making : ∀ j, l.making = some j → (t.proc j).state = .used
  fresh : ∀ j, l.fresh = some j → (t.proc j).parent = none
  child : ∀ j, l.child = some j → (t.proc j).parent = some p
  exiting : l.exiting = true → t.initproc ≠ p
  swept : ∀ j : Fin n, j.val < l.swept → (t.proc j).parent ≠ some p

/-- A process that can be switched to, now or later. -/
def Live (s : PState) : Prop := s = .running ∨ s = .runnable ∨ s = .sleeping

/-- The invariant of the process table. -/
structure Family (t : Table n) (h : Hist n) : Prop where
  maker_used : ∀ j p, h.maker j = some p → (t.proc j).state ≠ .unused
  maker_parent : ∀ j p, h.maker j = some p → (t.proc j).parent = none ∨ (t.proc j).parent = some p
  parent_live : ∀ j q, (t.proc j).parent = some q → Live (t.proc q).state
  init_live : Live (t.proc t.initproc).state
  unused_parent : ∀ j, (t.proc j).state = .unused → (t.proc j).parent = none

variable {l : Pc n}

theorem fresh_making {j : Fin n} (h : l.fresh = some j) : l.making = some j := by
  cases l <;> first | exact h | cases h

theorem making_forking {j : Fin n} (h : l.making = some j) : l.forking = some j := by
  cases l <;> first | exact h | cases h

theorem exiting_forking (h : l.exiting = true) : l.forking = none := by
  cases l <;> first | rfl | cases h

section Did

variable {p : Fin n} {l : Pc n} {t t' : Table n} {h h' : Hist n}

variable {j : Fin n}

theorem Knows.maker_of_making (k : Knows p l t h) (hj : l.making = some j) :
    h.maker j = some p := (k.forking j).2 (making_forking hj)

/-- How the state of slot `j` may change, and what changes with it. -/
inductive Turn (p : Fin n) (l : Pc n) (t : Table n) (h : Hist n) (t' : Table n) (h' : Hist n) (j : Fin n) :
    PState → Prop
  | alloc : (t.proc j).state = .unused → h'.id j = h.count → Turn p l t h t' h' j .used
  | free : h.maker j = some p → (t.proc j).state = .used → h'.maker j = none →
      (t'.proc j).parent = none → Turn p l t h t' h' j .unused
  | reap : (t.proc j).state = .zombie → (t.proc j).parent = some p → l.waitLocked = true →
      l.forking = none → (t'.proc j).parent = none → Turn p l t h t' h' j .unused
  | ready : h.maker j = some p → (t.proc j).state = .used → Turn p l t h t' h' j .runnable
  | run : j = p → (t.proc j).state = .runnable → Turn p l t h t' h' j .running
  | wake : (t.proc j).state = .sleeping → Turn p l t h t' h' j .runnable
  | exit {status} : j = p → (t.proc j).state = .running → l = .exitZombie status →
      (∀ i, (t.proc i).parent ≠ some p) → Turn p l t h t' h' j .zombie
  | sleep : j = p → (t.proc j).state = .running → l = .sleepSet → Turn p l t h t' h' j .sleeping

theorem Slot.wake_state (x : Slot n) (c : Option (Fin n)) :
    (x.wake c).state = x.state ∨ x.state = .sleeping ∧ (x.wake c).state = .runnable := by
  unfold Slot.wake
  split
  · next h => exact .inr ⟨h.1, rfl⟩
  · exact .inl rfl

theorem Slot.kill_state (x : Slot n) :
    x.kill.state = x.state ∨ x.state = .sleeping ∧ x.kill.state = .runnable := by
  unfold Slot.kill
  split
  · next h => exact .inr ⟨h, rfl⟩
  · exact .inl rfl

@[simp] theorem Slot.wake_parent (x : Slot n) (c : Option (Fin n)) : (x.wake c).parent = x.parent := by
  unfold Slot.wake; split <;> rfl

@[simp] theorem Slot.kill_parent (x : Slot n) : x.kill.parent = x.parent := by
  unfold Slot.kill; split <;> rfl

@[simp] theorem Slot.wake_killed (x : Slot n) (c : Option (Fin n)) : (x.wake c).killed = x.killed := by
  unfold Slot.wake; split <;> rfl

@[simp] theorem Slot.wake_pid (x : Slot n) (c : Option (Fin n)) : (x.wake c).pid = x.pid := by
  unfold Slot.wake; split <;> rfl

@[simp] theorem Slot.kill_pid (x : Slot n) : x.kill.pid = x.pid := by
  unfold Slot.kill; split <;> rfl

@[simp] theorem Slot.wake_chan (x : Slot n) (c : Option (Fin n)) : (x.wake c).chan = x.chan := by
  unfold Slot.wake; split <;> rfl

@[simp] theorem Slot.kill_chan (x : Slot n) : x.kill.chan = x.chan := by
  unfold Slot.kill; split <;> rfl

@[simp] theorem Slot.wake_xstate (x : Slot n) (c : Option (Fin n)) : (x.wake c).xstate = x.xstate := by
  unfold Slot.wake; split <;> rfl

@[simp] theorem Slot.kill_xstate (x : Slot n) : x.kill.xstate = x.xstate := by
  unfold Slot.kill; split <;> rfl

variable {x : Slot n}

theorem Slot.wake_state_eq {c : Option (Fin n)} {a : PState} (hx : (x.wake c).state = a)
    (ha : a ≠ .runnable := by decide) : x.state = a := by
  rcases x.wake_state c with h0 | ⟨-, h0⟩
  · exact h0 ▸ hx
  · exact absurd (hx.symm.trans h0) ha

theorem Slot.kill_state_eq {a : PState} (hx : x.kill.state = a) (ha : a ≠ .runnable := by decide) :
    x.state = a := by
  rcases x.kill_state with h0 | ⟨-, h0⟩
  · exact h0 ▸ hx
  · exact absurd (hx.symm.trans h0) ha

@[simp] theorem Table.set_self (j : Fin n) (x : Slot n) : (t.set j x).proc j = x := update_self ..

variable {i : Fin n}

theorem Table.set_of_ne (hij : i ≠ j) (x : Slot n) : (t.set j x).proc i = t.proc i :=
  update_of_ne hij _ _

variable {α : Type}

/-- A field of slot `i` after the slot `j` was set. -/
theorem Table.set_cases (g : Slot n → α) (i j : Fin n) (x : Slot n) :
    g ((t.set j x).proc i) = g (t.proc i) ∨ i = j ∧ g ((t.set j x).proc i) = g x := by
  rcases eq_or_ne i j with rfl | hij
  · exact .inr ⟨rfl, by rw [Table.set_self]⟩
  · exact .inl (by rw [Table.set_of_ne hij])

/-- A field that the new content of the slot has in common with the old one. -/
theorem Table.set_eq (g : Slot n → α) (hg : g x = g (t.proc j)) :
    g ((t.set j x).proc i) = g (t.proc i) := by
  rcases Table.set_cases (t := t) g i j x with hx | ⟨rfl, hx⟩
  · exact hx
  · rw [hx, hg]

theorem Table.set_of (g : Slot n → α) {a : α}
    (hg : g x = g (t.proc j)) (ha : g (t.proc i) = a) : g ((t.set j x).proc i) = a :=
  (Table.set_eq g hg).trans ha

theorem Did.initproc (d : Did p t h l t' h') : t'.initproc = t.initproc := by
  cases d <;> rfl

variable (d : Did p t h l t' h') (k : Knows p l t h)

include d k in
/-- **The state of a slot changes only so.** -/
theorem Did.state (j : Fin n) :
    (t'.proc j).state = (t.proc j).state ∨ Turn p l t h t' h' j (t'.proc j).state := by
  cases d with
  | same | forked | release | call | exits | killEnd | killDone => exact .inl rfl
  | run hs =>
    refine (Table.set_cases Slot.state j p _).imp_right ?_
    rintro ⟨rfl, hx⟩
    rw [hx]; exact .run rfl hs
  | @alloc i hs =>
    refine (Table.set_cases Slot.state j i _).imp_right ?_
    rintro ⟨rfl, hx⟩
    exact hx ▸ .alloc hs (update_self ..)
  | @context i | @adopt i pid | @orphan st i hp | rise | fault =>
    exact .inl (Table.set_eq Slot.state rfl)
  | @free l i hf hl =>
    refine (Table.set_cases Slot.state j i _).imp_right ?_
    rintro ⟨rfl, hx⟩
    rw [hx]
    refine .free (k.maker_of_making (fresh_making hf)) (k.making _ (fresh_making hf)) ?_ ?_
    · exact update_self ..
    · rw [Table.set_self]; rfl
  | @ready i pid =>
    refine (Table.set_cases Slot.state j i _).imp_right ?_
    rintro ⟨rfl, hx⟩
    rw [hx]
    exact .ready (k.maker_of_making rfl) (k.making _ rfl)
  | @wake c i r =>
    rcases Table.set_cases (t := t) Slot.state j i ((t.proc i).wake c) with hx | ⟨rfl, hx⟩
    · exact .inl hx
    · rw [hx]
      rcases (t.proc j).wake_state c with hw | ⟨hs, hw⟩
      · exact .inl hw
      · rw [hw]; exact .inr (.wake hs)
  | @kill pid i hp =>
    rcases Table.set_cases (t := t) Slot.state j i (t.proc i).kill with hx | ⟨rfl, hx⟩
    · exact .inl hx
    · rw [hx]
      rcases (t.proc j).kill_state with hw | ⟨hs, hw⟩
      · exact .inl hw
      · rw [hw]; exact .inr (.wake hs)
  | @zombie st =>
    refine (Table.set_cases Slot.state j p _).imp_right ?_
    rintro ⟨rfl, hx⟩
    rw [hx]
    exact .exit rfl (k.running rfl) rfl fun i => k.swept i i.isLt
  | @reap i hs =>
    refine (Table.set_cases Slot.state j i _).imp_right ?_
    rintro ⟨rfl, hx⟩
    rw [hx]
    exact .reap hs (k.child _ rfl) rfl rfl (by rw [Table.set_self]; rfl)
  | sleep =>
    refine (Table.set_cases Slot.state j p _).imp_right ?_
    rintro ⟨rfl, hx⟩
    rw [hx]
    exact .sleep rfl (k.running rfl) rfl

/-- How the parent of slot `j` may change. -/
inductive Hand (p : Fin n) (l : Pc n) (t : Table n) (h : Hist n) (j : Fin n) : Option (Fin n) → Prop
  | adopt : l.waitLocked = true → l.fresh = some j → (t.proc p).state = .running → Hand p l t h j (some p)
  | orphan : l.waitLocked = true → l.exiting = true → j.val = l.swept → (t.proc j).parent = some p →
      Hand p l t h j (some t.initproc)
  | reap : l.waitLocked = true → (t.proc j).state = .zombie → Hand p l t h j none

include d k in
/-- **The parent of a slot changes only so.** -/
theorem Did.parent (j : Fin n) :
    (t'.proc j).parent = (t.proc j).parent ∨ Hand p l t h j (t'.proc j).parent := by
  cases d with
  | same | forked | release | call | exits | killEnd | killDone => exact .inl rfl
  | run hs | @alloc i hs | @context i | @ready i pid | @zombie st | sleep | rise | fault =>
    exact .inl (Table.set_eq Slot.parent rfl)
  | @wake c i r => exact .inl (Table.set_eq Slot.parent (Slot.wake_parent ..))
  | @kill pid i hp => exact .inl (Table.set_eq Slot.parent (Slot.kill_parent _))
  | @free l i hf hl => exact .inl (Table.set_eq Slot.parent (k.fresh i hf).symm)
  | @adopt i pid =>
    refine (Table.set_cases Slot.parent j i _).imp_right ?_
    rintro ⟨rfl, hx⟩
    rw [hx]
    exact .adopt rfl rfl (k.running rfl)
  | @orphan st i hp =>
    refine (Table.set_cases Slot.parent j i _).imp_right ?_
    rintro ⟨rfl, hx⟩
    rw [hx]
    exact .orphan rfl rfl rfl hp
  | @reap i hs =>
    refine (Table.set_cases Slot.parent j i _).imp_right ?_
    rintro ⟨rfl, hx⟩
    rw [hx]
    exact .reap rfl hs

include d k in
/-- Without `wait_lock` no parent changes. -/
theorem Did.parent_eq (hl : ¬ l.waitLocked = true) (j : Fin n) :
    (t'.proc j).parent = (t.proc j).parent := by
  rcases d.parent k j with he | he
  · exact he
  · generalize (t'.proc j).parent = x at *
    cases he with
    | adopt h0 | orphan h0 | reap h0 => exact absurd h0 hl

include d k in
/-- **The maker of a slot changes only so.** -/
theorem Did.maker (j : Fin n) :
    h'.maker j = h.maker j ∨ (t.proc j).state = .unused ∧ (t'.proc j).state = .used ∧ h'.maker j = some p ∨
      h.maker j = some p ∧ h'.maker j = none := by
  cases d with
  | @alloc i hs =>
    rcases eq_or_ne j i with rfl | hj
    · exact .inr (.inl ⟨hs, by simp, update_self ..⟩)
    · exact .inl (update_of_ne hj _ _)
  | @free l i hf hl =>
    rcases eq_or_ne j i with rfl | hj
    · exact .inr (.inr ⟨k.maker_of_making (fresh_making hf), update_self ..⟩)
    · exact .inl (update_of_ne hj _ _)
  | @forked i pid =>
    rcases eq_or_ne j i with rfl | hj
    · exact .inr (.inr ⟨(k.forking j).2 rfl, update_self ..⟩)
    · exact .inl (update_of_ne hj _ _)
  | _ => exact .inl rfl

theorem Table.set_locked {o : Option (Fin n)} (j : Fin n) (ho : o = some i) :
    (t.set i x).proc j = { t.proc j with parent := ((t.set i x).proc j).parent } ∨ o = some j := by
  rcases eq_or_ne j i with rfl | hj
  · exact .inr ho
  · exact .inl (by rw [Table.set_of_ne hj])

/-- **A slot is written with its lock held**, its parent apart. -/
theorem Did.locked (d : Did p t h l t' h') (j : Fin n) :
    t'.proc j = { t.proc j with parent := (t'.proc j).parent } ∨ l.locks p = some j := by
  cases d with
  | same | forked | release | call | exits | killEnd | killDone => exact .inl rfl
  | run | alloc | context | ready | wake | zombie | reap | sleep | rise | kill | fault =>
    exact Table.set_locked j rfl
  | free hf hl => exact Table.set_locked j hl
  | @adopt i | @orphan st i =>
    rcases eq_or_ne j i with rfl | hj
    · exact .inl (by rw [Table.set_self])
    · exact .inl (by rw [Table.set_of_ne hj])

include d k in
/-- A live process stays alive, unless it is `p` and exits. -/
theorem Did.live {q : Fin n} (hq : Live (t.proc q).state) :
    Live (t'.proc q).state ∨ q = p ∧ l.exiting = true ∧ ∀ i, (t.proc i).parent ≠ some p := by
  rcases d.state k q with he | he
  · exact .inl (he ▸ hq)
  · unfold Live at *
    generalize (t'.proc q).state = s at *
    cases he with
    | alloc hs | free _ hs | reap hs => simp [hs] at hq
    | ready | wake | run | sleep => exact .inl (by simp)
    | exit hj _ hl hc => exact .inr ⟨hj, by rw [hl]; rfl, hc⟩

include d k in
/-- A free slot gets no parent. -/
theorem Family.unused_step (hf : Family t h)
    (hu : (t.proc j).state = .unused) : (t'.proc j).parent = none := by
  rcases d.parent k j with he | he
  · rw [he]; exact hf.unused_parent j hu
  · generalize (t'.proc j).parent = x at *
    cases he with
    | adopt _ hfr => rw [k.making j (fresh_making hfr)] at hu; cases hu
    | orphan _ _ _ hp => rw [hf.unused_parent j hu] at hp; cases hp
    | reap => rfl

include d k in
/-- **Every step keeps the family.** -/
theorem Family.step (hf : Family t h) : Family t' h' where
  maker_used j q hq := by
    rcases d.maker k j with hm | ⟨-, hs, -⟩ | ⟨-, hm⟩
    · have hm' : h.maker j = some q := hm ▸ hq
      rcases d.state k j with he | he
      · rw [he]; exact hf.maker_used j q hm'
      · intro hu
        rw [hu] at he
        cases he with
        | free _ _ h0 => rw [h0] at hq; cases hq
        | reap hz hp hl hfk =>
          -- the child of `p` has no other maker, and `p` is not in `fork`
          rcases hf.maker_parent j q hm' with h0 | h0
          · rw [h0] at hp; cases hp
          · rw [hp] at h0
            cases h0
            rw [(k.forking j).1 hm'] at hfk
            cases hfk
    · rw [hs]; decide
    · rw [hm] at hq; cases hq
  maker_parent j q hq := by
    rcases d.maker k j with hm | ⟨hs, -, hm⟩ | ⟨-, hm⟩
    · have hm' : h.maker j = some q := hm ▸ hq
      rcases d.parent k j with he | he
      · rw [he]; exact hf.maker_parent j q hm'
      · generalize (t'.proc j).parent = x at *
        cases he with
        | adopt _ hfr _ =>
          rw [k.maker_of_making (fresh_making hfr)] at hm'
          exact .inr hm'
        | orphan _ hx _ hp =>
          rcases hf.maker_parent j q hm' with h0 | h0
          · rw [h0] at hp; cases hp
          · rw [hp] at h0
            cases h0
            have := (k.forking j).1 hm'
            rw [exiting_forking hx] at this
            cases this
        | reap => exact .inl rfl
    · exact .inl (hf.unused_step d k hs)
    · rw [hm] at hq; cases hq
  parent_live j q hq := by
    rcases d.parent k j with he | he
    · have h0 : (t.proc j).parent = some q := he ▸ hq
      rcases d.live k (hf.parent_live j q h0) with hl | ⟨rfl, -, hc⟩
      · exact hl
      · exact absurd h0 (hc j)
    · rw [hq] at he
      cases he with
      | adopt _ hfr hr =>
        rcases d.live k (.inl hr) with hl | ⟨-, hx, -⟩
        · exact hl
        · have := making_forking (fresh_making hfr)
          rw [exiting_forking hx] at this
          cases this
      | orphan =>
        rcases d.live k hf.init_live with hl | ⟨hi, hx, -⟩
        · exact hl
        · exact absurd hi (k.exiting hx)
  init_live := by
    rw [d.initproc]
    rcases d.live k hf.init_live with hl | ⟨hi, hx, -⟩
    · exact hl
    · exact absurd hi (k.exiting hx)
  unused_parent j hu := by
    rcases d.state k j with he | he
    · exact hf.unused_step d k (he ▸ hu)
    · rw [hu] at he
      cases he with
      | free _ _ _ h0 => exact h0
      | reap _ _ _ _ h0 => exact h0

variable {l' : Pc n}

include d k in
/-- What another thread knows survives. -/
theorem Knows.other {q : Fin n} (hf : Family t h)
    (hq : q ≠ p) (hx : ∀ m, held q l' m → ¬ held p l m) (kq : Knows q l' t h) : Knows q l' t' h' := by
  have hpar : l'.waitLocked = true → ∀ j, (t'.proc j).parent = (t.proc j).parent := fun hl =>
    d.parent_eq k (hx (.mon ()) hl)
  refine ⟨fun ha => ?_, fun j => ?_, fun j hj => ?_, fun j hj => ?_, fun j hj => ?_, fun he => ?_, fun j hj => ?_⟩
  · have hr := kq.running ha
    rcases d.state k q with he | he
    · rw [he]; exact hr
    · generalize (t'.proc q).state = x at *
      cases he with
      | alloc h0 | wake h0 => rw [h0] at hr; cases hr
      | free _ h0 | ready _ h0 => rw [h0] at hr; cases hr
      | reap h0 => rw [h0] at hr; cases hr
      | run h0 | sleep h0 => exact absurd h0 hq
      | exit h0 => exact absurd h0 hq
  · rw [← kq.forking j]
    rcases d.maker k j with hm | ⟨hs, -, hm⟩ | ⟨hm, hm'⟩
    · rw [hm]
    · rw [hm]
      exact iff_of_false (fun h0 => hq (Option.some.inj h0).symm) fun h0 => hf.maker_used j q h0 hs
    · rw [hm, hm']
      exact iff_of_false nofun fun h0 => hq (Option.some.inj h0).symm
  · have hu := kq.making j hj
    have hmk : h.maker j ≠ some p := fun h0 =>
      hq (Option.some.inj ((kq.maker_of_making hj).symm.trans h0))
    rcases d.state k j with he | he
    · rw [he]; exact hu
    · generalize (t'.proc j).state = x at *
      cases he with
      | alloc => rfl
      | wake h0 => rw [h0] at hu; cases hu
      | free h0 | ready h0 => exact absurd h0 hmk
      | reap h0 => rw [h0] at hu; cases hu
      | run _ h0 | sleep _ h0 => rw [h0] at hu; cases hu
      | exit _ h0 => rw [h0] at hu; cases hu
  · have hn := kq.fresh j hj
    rcases d.parent k j with he | he
    · rw [he]; exact hn
    · generalize (t'.proc j).parent = x at *
      cases he with
      | adopt _ h0 =>
        have := k.maker_of_making (fresh_making h0)
        rw [kq.maker_of_making (fresh_making hj)] at this
        exact absurd (Option.some.inj this) hq
      | orphan _ _ _ h0 => rw [h0] at hn; cases hn
      | reap => rfl
  · rw [hpar (by cases l' <;> first | rfl | cases hj)]; exact kq.child j hj
  · rw [d.initproc]; exact kq.exiting he
  · rw [hpar (by cases l' <;> first | rfl | exact absurd hj (Nat.not_lt_zero _))]; exact kq.swept j hj

include d k in
/-- The process of the thread goes on running until it exits or sleeps. -/
theorem Knows.runs (ha : l.alive = true)
    (he : ∀ st, l ≠ .exitZombie st := by rintro _ ⟨⟩) (hs : l ≠ .sleepSet := by rintro ⟨⟩) : (t'.proc p).state = .running := by
  have hr := k.running ha
  rcases d.state k p with h0 | h0
  · rw [h0]; exact hr
  · generalize (t'.proc p).state = x at *
    cases h0 with
    | alloc h0 | wake h0 => rw [h0] at hr; cases hr
    | free _ h0 | ready _ h0 => rw [h0] at hr; cases hr
    | reap h0 => rw [h0] at hr; cases hr
    | run => rfl
    | exit _ _ h0 => exact absurd h0 (he _)
    | sleep _ _ h0 => exact absurd h0 hs

/-- With the table unchanged. -/
theorem Knows.move (k : Knows p l t h) (m : ∀ j, l'.making = some j → l.making = some j := by exact fun _ => id)
    (f : ∀ j, l'.fresh = some j → l.fresh = some j := by exact fun _ => id) (hm : h'.maker = h.maker := by rfl)
    (ha : l'.alive = true → l.alive = true := by exact id) (hf : l'.forking = l.forking := by rfl)
    (hc : ∀ j, l'.child = some j → l.child = some j := by exact fun _ => id)
    (he : l'.exiting = true → l.exiting = true := by exact id) (hs : l'.swept ≤ l.swept := by exact Nat.le_refl _) :
    Knows p l' t h' where
  running h0 := k.running (ha h0)
  forking j := by rw [hm, hf]; exact k.forking j
  making j hj := k.making j (m j hj)
  fresh j hj := k.fresh j (f j hj)
  child j hj := k.child j (hc j hj)
  exiting h0 := k.exiting (he h0)
  swept j hj := k.swept j (Nat.lt_of_lt_of_le hj hs)

/-- Only what the place of the thread asks for has to be shown. -/
theorem Knows.of (ha : l'.alive = true → (t.proc p).state = .running)
    (hf : ∀ j, h.maker j = some p ↔ l'.forking = some j)
    (m : ∀ j, l'.making = some j → (t.proc j).state = .used := by rintro _ ⟨⟩)
    (f : ∀ j, l'.fresh = some j → (t.proc j).parent = none := by rintro _ ⟨⟩)
    (c : ∀ j, l'.child = some j → (t.proc j).parent = some p := by rintro _ ⟨⟩)
    (e : l'.exiting = true → t.initproc ≠ p := by rintro ⟨⟩)
    (s : ∀ j : Fin n, j.val < l'.swept → (t.proc j).parent ≠ some p := by rintro _ ⟨⟩) : Knows p l' t h :=
  ⟨ha, hf, m, f, c, e, s⟩

/-- Outside `fork`, `exit` and the scan of `wait` a thread only knows that its process runs. -/
theorem Knows.plain (ha : l'.alive = true → (t.proc p).state = .running)
    (hm : ∀ j, h.maker j ≠ some p) (hf : l'.forking = none := by rfl) (hc : l'.child = none := by rfl)
    (he : l'.exiting = false := by rfl) (hs : l'.swept = 0 := by rfl) : Knows p l' t h where
  running := ha
  forking j := by rw [hf]; exact iff_of_false (hm j) nofun
  making j hj := by rw [making_forking hj] at hf; cases hf
  fresh j hj := by rw [making_forking (fresh_making hj)] at hf; cases hf
  child j hj := by rw [hc] at hj; cases hj
  exiting h0 := by rw [he] at h0; cases h0
  swept j hj := by rw [hs] at hj; exact absurd hj (Nat.not_lt_zero _)

/-- `fork` failed and gave its slot back. -/
theorem Knows.freed (k : Knows p l t h)
    (d : Did p t h l (t.set j (t.proc j).freeproc) (h.unmake j)) (hl : l.fresh = some j)
    (ha : l.alive = true) : Knows p (.forkFail j) (t.set j (t.proc j).freeproc) (h.unmake j) := by
  refine .plain (fun _ => k.runs d ha ?_ ?_) (fun i h0 => ?_)
  · rintro st rfl; cases hl
  · rintro rfl; cases hl
  · rcases eq_or_ne i j with rfl | hij
    · simp [Hist.unmake] at h0
    · have hm : h.maker i = some p := by simpa [Hist.unmake, hij] using h0
      have := making_forking (fresh_making hl)
      rw [(k.forking i).1 hm] at this
      exact hij (Option.some.inj this)

theorem Knows.no_maker (k : Knows p l t h) (hl : l.forking = none) (j : Fin n) : h.maker j ≠ some p := by
  intro h0
  rw [(k.forking j).1 h0] at hl
  cases hl

/-- Acquiring or releasing a lock, or an action that leaves the table alone. -/
theorem Knows.quiet (k : Knows p l t h) (ha : l'.alive = true → l.alive = true)
    (hm : h'.maker = h.maker := by rfl) (hl : l.forking = none := by rfl) (hf : l'.forking = none := by rfl)
    (hc : l'.child = none := by rfl) (he : l'.exiting = false := by rfl) (hs : l'.swept = 0 := by rfl) :
    Knows p l' t h' :=
  .plain (fun h0 => k.running (ha h0)) (fun j => by rw [hm]; exact k.no_maker hl j) hf hc he hs

end Did

variable {h : Hist n} {p : Fin n} {r : Req} {t : Table n}

theorem Knows.acquire {l' : Pc n} {m : Lock n Unit}
    (hi : prog p l = .acquire m l') (k : Knows p l t h) : Knows p l' t (note p l r t h) := by
  cases l <;> simp only [prog, Instr.acquire.injEq, reduceCtorEq] at hi
  case allocScan =>
    split at hi <;> cases hi
    exact k.quiet id
  case killScan =>
    split at hi <;> cases hi
    refine k.quiet id ?_
    simp only [note]
    split <;> rfl
  case wakeScan =>
    (repeat' split at hi) <;> cases hi
    exact k.move
  case forkWaitLock | forkRunLock | exitLock | waitLock | exitAcquire =>
    obtain ⟨-, rfl⟩ := hi
    exact k.move
  all_goals
    obtain ⟨-, rfl⟩ := hi
    exact k.quiet (by simp [Pc.alive])

theorem Knows.release {l' : Pc n} {m : Lock n Unit}
    (hi : prog p l = .release m l') (k : Knows p l t h) : Knows p l' t (note p l r t h) := by
  cases l <;> simp only [prog, Instr.release.injEq, reduceCtorEq] at hi
  case allocScan | killScan | wakeScan => (repeat' split at hi) <;> cases hi
  case forkUnlock | forkWaitUnlock | forkRunUnlock | wakeNext =>
    obtain ⟨-, rfl⟩ := hi
    exact k.move (by simp [Pc.making, Pc.fresh]) (by simp [Pc.fresh])
  case waitTested b | trapUnlock b =>
    obtain ⟨-, rfl⟩ := hi
    cases b <;> exact k.quiet (by simp [Pc.alive])
  all_goals
    obtain ⟨-, rfl⟩ := hi
    exact k.quiet (by simp [Pc.alive])

/-- The thread itself, after an action. -/
theorem Knows.act {f : Req → Table n → Table n × Pc n} (hi : prog p l = .act f) (hf : Family t h) (k : Knows p l t h) :
    Knows p (f r t).2 (f r t).1 (note p l r t h) := by
  have d := Did.of_act hi r t h
  have hne : ∀ {j : Fin n}, l.alive = true → (t.proc j).state ≠ .running → p ≠ j := by
    rintro j ha h0 rfl
    exact h0 (k.running ha)
  cases l <;> simp only [prog, Instr.act.injEq, reduceCtorEq] at hi
  case schedTest =>
    subst hi
    dsimp only
    split
    · refine .plain (fun _ => by rw [Table.set_self]) (k.no_maker rfl) ?_ ?_ ?_ ?_ <;>
        cases (t.proc p).context <;> rfl
    · exact k.quiet (by rintro ⟨⟩)
  case user => subst hi; cases r <;> exact k.quiet id
  case allocScan j =>
    split at hi <;> cases hi
    exact k.quiet id
  case killScan pid j =>
    split at hi <;> cases hi
    refine k.quiet id ?_
    simp only [note]
    split <;> rfl
  case wakeScan c j r' =>
    cases r' <;> (repeat' split at hi) <;> cases hi <;> exact k.move
  case allocLook j =>
    subst hi
    dsimp only at d ⊢
    split
    · next hs =>
      have hpj : p ≠ j := hne rfl (by rw [hs]; decide)
      simp only [note, hs, if_true] at d ⊢
      refine .of (fun _ => ?_) (fun i => ?_) (m := fun i hi => ?_) (f := fun i hi => ?_)
      · change ((t.set j _).proc p).state = _
        rw [Table.set_of_ne hpj]; exact k.running rfl
      · rcases eq_or_ne i j with rfl | hij
        · simp [Hist.alloc, Pc.forking, Pc.making, Pc.fresh]
        · have := k.no_maker rfl i
          simp [Hist.alloc, Pc.forking, Pc.making, Pc.fresh, hij, hij.symm, this]
      · cases hi
        change ((t.set j _).proc j).state = _
        rw [Table.set_self]
      · cases hi
        change ((t.set j _).proc j).parent = _
        rw [Table.set_self]; exact hf.unused_parent j hs
    · next hs =>
      simp only [note, hs, if_false]
      exact k.quiet id
  case exit st =>
    subst hi
    dsimp only
    split
    · exact k.quiet id
    · next hne => exact .of (fun _ => k.running rfl) k.forking (e := fun _ => hne)
  case allocMem j =>
    subst hi
    cases r with
    | fail => exact k.freed d rfl rfl
    | _ =>
      refine .of (fun _ => ?_) k.forking (m := fun i hi => ?_) (f := fun i hi => ?_)
      · exact Table.set_of Slot.state (by rfl) (k.running rfl)
      · exact Table.set_of Slot.state (by rfl) (k.making i hi)
      · exact Table.set_of Slot.parent (by rfl) (k.fresh i hi)
  case forkCopy j =>
    subst hi
    cases r with
    | fail => exact k.freed d rfl rfl
    | _ => exact k.move
  case forkParent j pid =>
    subst hi
    refine .of (fun _ => ?_) k.forking (m := fun i hi => ?_)
    · exact Table.set_of Slot.state (by rfl) (k.running rfl)
    · exact Table.set_of Slot.state (by rfl) (k.making i hi)
  case forkRun j pid =>
    subst hi
    exact .of (fun _ => k.runs d rfl) k.forking
  case forkRet j pid =>
    subst hi
    refine .plain (fun _ => k.running rfl) (fun i h0 => ?_)
    rcases eq_or_ne i j with rfl | hij
    · simp [note, Hist.unmake, Hist.add] at h0
    · have : h.maker i = some p := by simpa [note, Hist.unmake, Hist.add, hij] using h0
      exact hij (Option.some.inj ((k.forking i).1 this)).symm
  case reparent st j =>
    subst hi
    dsimp only at d ⊢
    split
    · next hj =>
      split
      · refine .of (fun _ => ?_) k.forking (e := fun _ => k.exiting rfl) (s := fun i hi => ?_)
        · exact Table.set_of Slot.state (by rfl) (k.running rfl)
        · rcases eq_or_ne i ⟨j, hj⟩ with rfl | hij
          · rw [Table.set_self]
            exact fun h0 => k.exiting rfl (Option.some.inj h0)
          · rw [Table.set_of_ne hij]
            refine k.swept i ?_
            have hne : i.val ≠ j := fun h0 => hij (Fin.ext h0)
            have hlt : i.val < j + 1 := hi
            show i.val < j
            omega
      · next hp =>
        refine .of (fun _ => k.running rfl) k.forking (e := fun _ => k.exiting rfl) (s := fun i hi => ?_)
        rcases eq_or_ne i ⟨j, hj⟩ with rfl | hij
        · exact hp
        · refine k.swept i ?_
          have hne : i.val ≠ j := fun h0 => hij (Fin.ext h0)
          have hlt : i.val < j + 1 := hi
          show i.val < j
          omega
    · next hj =>
      refine .of (fun _ => k.running rfl) k.forking (e := fun _ => k.exiting rfl) (s := fun i hi => ?_)
      exact k.swept i (show i.val < j by have := i.isLt; omega)
  case wakeTest c j r' =>
    subst hi
    refine .of (fun _ => k.runs d rfl) k.forking (e := fun _ => k.exiting rfl) (s := fun i hi => ?_)
    exact (Table.set_eq Slot.parent (Slot.wake_parent ..)).trans_ne (k.swept i hi)
  case exitZombie st => subst hi; exact .plain (by rintro ⟨⟩) (k.no_maker rfl)
  case waitScan j hk =>
    subst hi
    dsimp only
    split
    · next hj =>
      split
      · next hp =>
        refine .of (fun _ => k.running rfl) k.forking (c := fun i hi => ?_)
        cases hi
        exact hp
      · exact k.quiet id
    · split <;> exact k.quiet id
  case waitLook j =>
    subst hi
    dsimp only at d ⊢
    split
    · next hs =>
      simp only [note, prog, Instr.target, hs, if_true] at d ⊢
      cases r with
      | fail => exact k.quiet id
      | _ => exact .plain (fun _ => k.runs d rfl) (k.no_maker rfl)
    · next hs =>
      simp only [note, prog, Instr.target, hs, if_false]
      exact k.quiet id
  case sleepSet => subst hi; exact .plain (by rintro ⟨⟩) (k.no_maker rfl)
  case sleepBack | faultSet =>
    subst hi
    exact .plain (fun _ => k.runs d rfl) (k.no_maker rfl)
  case killLook pid j =>
    subst hi
    dsimp only at d ⊢
    split
    · next hp =>
      rw [if_pos hp] at d
      exact .plain (fun _ => k.runs d rfl) (k.no_maker rfl)
    · exact k.quiet id
  all_goals subst hi; exact k.quiet id

/-- The thread itself, after any step. -/
theorem Knows.step (hf : Family t h) (k : Knows p l t h) :
    Knows p ((prog p l).target r t l) ((prog p l).data r t) (note p l r t h) := by
  cases hi : prog p l with
  | acquire m l' => exact k.acquire hi
  | release m l' => exact k.release hi
  | act f => exact k.act hi hf
  | halt =>
    cases l <;> simp only [prog, reduceCtorEq] at hi
    case allocScan | killScan | wakeScan => (repeat' split at hi) <;> cases hi
    all_goals exact k

/-! ## The proof -/

/-- **The annotations of the program.** -/
theorem family : Proof (prog (n := n)) note held (fun _ _ _ _ => True) (fun _ _ _ _ _ => True) Family
    (fun _ _ _ => True) Knows :=
  .of_own (fun {p l r t h} _ _ _ hf k => ⟨hf.step (did p l r t h) k, k.step hf⟩) (fun _ _ _ _ _ => trivial)
    (fun {p l r t h _ _} hq hx _ _ _ hf k kq => .other (did p l r t h) k hf hq hx kq) fun _ _ _ _ _ _ => trivial

theorem family_boot (i : Fin n) : Sound held Family (fun _ _ _ => True) Knows (boot i) Hist.boot where
  locks p m := by
    refine iff_of_false (by rintro ⟨⟩) ?_
    simp only [boot]
    split <;> cases m <;> simp [held, Pc.waitLocked, Pc.locks]
  inv :=
    { maker_used := by rintro _ _ ⟨⟩
      maker_parent := by rintro _ _ ⟨⟩
      parent_live := by rintro _ _ ⟨⟩
      init_live := by simp [boot, Live]
      unused_parent := fun _ _ => rfl }
  free _ _ := trivial
  knows q := by
    refine .plain (fun ha => ?_) (by rintro _ ⟨⟩) ?_ ?_ ?_ ?_ <;> simp only [boot] at *
    · split at ha
      · next h0 => simp [h0]
      · cases ha
    all_goals split <;> rfl

/-- **In every reachable state** locks are held where the program says, and the family is well. -/
theorem family_reach {G : State (Fin n) (Lock n Unit) (Table n) (Pc n) × Hist n → Fin n × Req → Prop} {i : Fin n}
    {s : State (Fin n) (Lock n Unit) (Table n) (Pc n)}
    (hr : Reach (step prog note) G (boot i, Hist.boot) (s, h)) :
    Sound held Family (fun _ _ _ => True) Knows s h :=
  family.reach disciplined (fun _ _ _ => trivial) (fun _ _ _ _ _ => trivial) (family_boot i) hr

end Xv6.Life
