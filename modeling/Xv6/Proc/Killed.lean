import Xv6.Proc.Family

/-!
# `kill` and the process it names

`kill` looks for a slot with the given pid, whatever the state of the slot. A free slot has pid
0 (`freeproc`), so `kill(0)` marks the first free slot as killed and reports success; and since
`allocproc` does not reset `killed`, the next child of `fork` is born killed. That is one way for
a child to be killed by a `kill` that did not name it; the other is a `kill` whose search of the
table began before the pid was given out (`kill_unnamed`). In runs with neither, a child that is
killed before it first runs was named by a `kill` called since its pid was given out, and a
`kill` that succeeds has found a process (`kill_names`).
-/

namespace Xv6.Life

open Function Lib Conc
open Thread (PState Lock)

deriving instance DecidableEq for Req

variable {n : ℕ}

/-- The pid that `kill` was called with. -/
def Pc.killing : Pc n → Option (BitVec 32)
  | .killScan pid _ | .killLook pid _ | .killNext pid _ | .killDone pid _ => some pid
  | _ => none

/-- A free slot is not killed, and a process that has not run yet is killed only if named. -/
structure Spared (t : Table n) (h : Hist n) : Prop where
  unused : ∀ j, (t.proc j).state = .unused → (t.proc j).pid = 0 ∧ (t.proc j).killed = false
  used : ∀ j, (t.proc j).state = .used → (t.proc j).killed = true → h.named j = true

/-- What `kill` and `fork` know of it. -/
structure Names (p : Fin n) (l : Pc n) (t : Table n) (h : Hist n) : Prop where
  nonzero : ∀ pid, l.killing = some pid → pid ≠ 0
  calling : ∀ pid, l.killing = some pid → h.killing p = some pid
  named : ∀ pid, l.killing = some pid → ∀ j, (t.proc j).state ≠ .unused → (t.proc j).pid = pid →
    h.named j = true
  ready : ∀ j pid, l = .forkRunUnlock j pid →
    (t.proc j).state = .runnable ∧ ((t.proc j).killed = true → h.named j = true)
  found : ∀ k pid, l = .killDone pid k → (t.proc k).state ≠ .unused ∧ (t.proc k).pid = pid

/-- No call of `kill(0)`, and no pid is given out while a `kill` with it is going on. -/
def Orderly (l : Pc n) (r : Req) (t : Table n) (h : Hist n) : Prop :=
  ¬ (l = .user ∧ r = .kill 0) ∧
    ∀ j q, l = .allocLook j → (t.proc j).state = .unused → h.killing q ≠ some t.nextpid

instance (l : Pc n) (r : Req) (t : Table n) (h : Hist n) : Decidable (Orderly l r t h) :=
  inferInstanceAs (Decidable (_ ∧ _))

section Did

variable {p : Fin n} {l : Pc n} {t t' : Table n} {h h' : Hist n}

/-- Whoever was named stays so, until the slot is used again. -/
theorem Did.named (d : Did p t h l t' h') {j : Fin n} (hj : h.named j = true) :
    h'.named j = true ∨ l = .allocLook j := by
  cases d with
  | @alloc i hs =>
    rcases eq_or_ne j i with rfl | hji
    · exact .inr rfl
    · exact .inl (by simpa [Hist.alloc, hji] using hj)
  | call => exact .inl (by simp [Hist.call, hj])
  | _ => exact .inl hj

variable {q : Fin n}

theorem Did.killing_of_ne (d : Did p t h l t' h') (hq : q ≠ p) :
    h'.killing q = h.killing q := by
  cases d with
  | call | killEnd | killDone => exact update_of_ne hq _ _
  | _ => rfl

theorem Spared.of_set (hs : Spared t h) {i : Fin n} {x : Slot n} (ht : t'.proc = update t.proc i x)
    (u : x.state = .unused → x.pid = 0 ∧ x.killed = false := by rintro ⟨⟩)
    (v : x.state = .used → x.killed = true → h'.named i = true := by rintro ⟨⟩)
    (a : ∀ j, j ≠ i → h.named j = true → h'.named j = true := by exact fun _ _ => id) : Spared t' h' := by
  constructor
  · intro j
    rw [ht]
    rcases eq_or_ne j i with rfl | hj
    · rw [update_self]; exact u
    · rw [update_of_ne hj]; exact hs.unused j
  · intro j
    rw [ht]
    rcases eq_or_ne j i with rfl | hj
    · rw [update_self]; exact v
    · rw [update_of_ne hj]; exact fun h1 h2 => a j hj (hs.used j h1 h2)

/-- **Every step keeps it**: `kill` only marks what it names, and it names no free slot. -/
theorem Spared.step (d : Did p t h l t' h') (k : Knows p l t h) (hn : Names p l t h) (hs : Spared t h) :
    Spared t' h' := by
  cases d with
  | same | forked | release | exits | killEnd | killDone => exact ⟨hs.unused, hs.used⟩
  | call => exact ⟨hs.unused, fun j h1 h2 => by simp [Hist.call, hs.used j h1 h2]⟩
  | run | ready | sleep | zombie => exact hs.of_set rfl
  | @alloc j hu =>
    refine hs.of_set rfl (v := fun _ h0 => ?_) (a := fun i hi h0 => ?_)
    · rw [(hs.unused j hu).2] at h0; cases h0
    · simpa [Hist.alloc, hi] using h0
  | free | reap => exact hs.of_set rfl fun _ => ⟨rfl, rfl⟩
  | @context j | @adopt j | @orphan _ j => exact hs.of_set rfl (hs.unused j) (hs.used j)
  | rise => exact hs.of_set rfl (hs.unused p) (hs.used p)
  | @wake c j =>
    refine hs.of_set rfl (fun h0 => ?_) fun h0 => ?_
    · rw [Slot.wake_pid, Slot.wake_killed]
      exact hs.unused j (Slot.wake_state_eq h0)
    · rw [Slot.wake_killed]
      exact hs.used j (Slot.wake_state_eq h0)
  | @kill pid j hp =>
    refine hs.of_set rfl (fun h0 => ?_) fun h0 _ => ?_
    · -- a free slot has pid 0, and `kill` was not called with 0
      have := (hs.unused j (Slot.kill_state_eq h0)).1
      exact absurd (hp.symm.trans this) (hn.nonzero pid rfl)
    · have hu := Slot.kill_state_eq (a := .used) h0
      exact hn.named pid rfl j (by rw [hu]; decide) hp
  | fault =>
    have hr := k.running rfl
    refine hs.of_set rfl (fun h0 => ?_) fun h0 => ?_ <;>
    · rw [show (t.proc p).state = _ from h0] at hr
      cases hr

/-- Every process with the pid was named. -/
def AllNamed (pid : BitVec 32) (t : Table n) (h : Hist n) : Prop :=
  ∀ j, (t.proc j).state ≠ .unused → (t.proc j).pid = pid → h.named j = true

variable {pid : BitVec 32}

theorem AllNamed.of_set (ha : AllNamed pid t h) {i : Fin n} {x : Slot n} (ht : t'.proc = update t.proc i x)
    (hx : x.state ≠ .unused → x.pid = pid → h'.named i = true)
    (a : ∀ j, j ≠ i → h.named j = true → h'.named j = true := by exact fun _ _ => id) : AllNamed pid t' h' := by
  intro j
  rw [ht]
  rcases eq_or_ne j i with rfl | hj
  · rw [update_self]; exact hx
  · rw [update_of_ne hj]; exact fun h1 h2 => a j hj (ha j h1 h2)

/-- No process gets the pid while a `kill` with it is going on. -/
theorem AllNamed.step (d : Did p t h l t' h') (k : Knows p l t h)
    (hnew : ∀ j, l = .allocLook j → (t.proc j).state = .unused → t.nextpid ≠ pid)
    (ha : AllNamed pid t h) : AllNamed pid t' h' := by
  have hrun : l.alive = true → (t.proc p).pid = pid → h.named p = true := fun hl =>
    ha p (by rw [k.running hl]; decide)
  cases d with
  | same | forked | release | exits | killEnd | killDone => exact ha
  | call => exact fun j h1 h2 => by simp [Hist.call, ha j h1 h2]
  | run hs => exact ha.of_set rfl fun _ => ha p (by rw [hs]; decide)
  | @ready j _ => exact ha.of_set rfl fun _ => ha j (by rw [k.making j rfl]; decide)
  | sleep | zombie | fault => exact ha.of_set rfl fun _ => hrun rfl
  | @alloc j hu =>
    exact ha.of_set rfl (fun _ hp => absurd hp (hnew j rfl hu)) (a := fun i hi h0 => by simpa [Hist.alloc, hi] using h0)
  | free | reap => exact ha.of_set rfl fun h0 => absurd rfl h0
  | @context j | @adopt j | @orphan _ j => exact ha.of_set rfl (ha j)
  | rise => exact ha.of_set rfl (ha p)
  | @wake c j =>
    refine ha.of_set rfl fun h0 => ?_
    rw [Slot.wake_pid]
    exact ha j fun h1 => h0 (by simp [Slot.wake, h1])
  | @kill pid j hp =>
    refine ha.of_set rfl fun h0 => ?_
    rw [Slot.kill_pid]
    exact ha j fun h1 => h0 (by simp [Slot.kill, h1])

theorem Names.other {l' : Pc n} (d : Did p t h l t' h') (k : Knows p l t h) (ho : Orderly l r t h)
    (hq : q ≠ p) (hx : ∀ m, held q l' m → ¬ held p l m) (hn : Names q l' t h) : Names q l' t' h' where
  nonzero := hn.nonzero
  calling pid hl := by rw [d.killing_of_ne hq]; exact hn.calling pid hl
  named pid hl := AllNamed.step d k
    (fun j hj hu h0 => ho.2 j q hj hu (by rw [hn.calling pid hl, h0])) (hn.named pid hl)
  ready j pid hl := by
    subst hl
    have hnl : l.locks p ≠ some j := hx (.proc j) rfl
    obtain ⟨h1, h2⟩ := hn.ready j pid rfl
    rcases d.locked j with he | he
    · rw [he]
      refine ⟨h1, fun h0 => (d.named (h2 h0)).resolve_right ?_⟩
      rintro rfl
      exact hnl rfl
    · exact absurd he hnl
  found j pid hl := by
    subst hl
    rcases d.locked j with he | he
    · rw [he]; exact hn.found j pid rfl
    · exact absurd he (hx (.proc j) rfl)

/-- Outside `kill` and the end of `fork` there is nothing to know. -/
theorem Names.plain (hl : l.killing = none := by rfl) (hr : ∀ j pid, l ≠ .forkRunUnlock j pid := by rintro _ _ ⟨⟩) :
    Names p l t h where
  nonzero pid h0 := by rw [hl] at h0; cases h0
  calling pid h0 := by rw [hl] at h0; cases h0
  named pid h0 := by rw [hl] at h0; cases h0
  ready j pid h0 := absurd h0 (hr j pid)
  found j pid h0 := by rw [h0] at hl; cases hl

end Did

variable {h : Hist n} {j : Fin n} {l : Pc n} {p : Fin n} {pid : BitVec 32} {r : Req} {t : Table n}

/-- A thread is in `kill` from the call on, and remembered to be. -/
theorem killing_target (hl : ((prog p l).target r t l).killing = some pid) :
    l.killing = some pid ∧ (note p l r t h).killing = h.killing ∨ l = .user ∧ r = .kill pid := by
  cases l <;> simp only [prog] at hl
  case user => cases r <;> cases hl; exact .inr ⟨rfl, rfl⟩
  case killScan v k =>
    split at hl
    · next hk => exact .inl ⟨hl, by simp only [note, hk, if_true]⟩
    · cases hl
  case allocScan => split at hl <;> cases hl
  case wakeScan c k r' => cases r' <;> (repeat' split at hl) <;> cases hl
  all_goals
    simp only [Instr.target] at hl
    (repeat' split at hl) <;> first | exact .inl ⟨hl, rfl⟩ | cases hl

theorem forkRunUnlock_target (hl : (prog p l).target r t l = .forkRunUnlock j pid) : l = .forkRun j pid := by
  cases l <;> simp only [prog] at hl
  case forkRun => cases hl; rfl
  case allocScan | killScan => split at hl <;> cases hl
  case wakeScan c k r' => cases r' <;> (repeat' split at hl) <;> cases hl
  all_goals
    simp only [Instr.target] at hl
    (repeat' split at hl) <;> cases hl

theorem killDone_target (hl : (prog p l).target r t l = .killDone pid j) :
    l = .killLook pid j ∧ (t.proc j).pid = pid := by
  cases l <;> simp only [prog] at hl
  case killLook v k =>
    simp only [Instr.target] at hl
    split at hl <;> cases hl
    next hp => exact ⟨rfl, hp⟩
  case allocScan | killScan => split at hl <;> cases hl
  case wakeScan c k r' => cases r' <;> (repeat' split at hl) <;> cases hl
  all_goals
    simp only [Instr.target] at hl
    (repeat' split at hl) <;> cases hl

/-- The thread itself, after a step. -/
theorem Names.step (ho : Orderly l r t h) (k : Knows p l t h) (hs : Spared t h) (hn : Names p l t h) :
    Names p ((prog p l).target r t l) ((prog p l).data r t) (note p l r t h) where
  nonzero pid hl := by
    rcases killing_target (h := h) hl with ⟨h0, -⟩ | ⟨rfl, rfl⟩
    · exact hn.nonzero pid h0
    · rintro rfl
      exact ho.1 ⟨rfl, rfl⟩
  calling pid hl := by
    rcases killing_target (h := h) hl with ⟨h0, h1⟩ | ⟨rfl, rfl⟩
    · rw [h1]; exact hn.calling pid h0
    · exact update_self ..
  named pid hl := by
    rcases killing_target (h := h) hl with ⟨h0, -⟩ | ⟨rfl, rfl⟩
    · refine AllNamed.step (did p l r t h) k (fun j hj _ => ?_) (hn.named pid h0)
      rw [hj] at h0; cases h0
    · intro j h1 h2
      have h1' : (t.proc j).state ≠ .unused := h1
      have h2' : (t.proc j).pid = pid := h2
      simp [note, Hist.call, h1', h2']
  ready j pid hl := by
    obtain rfl := forkRunUnlock_target hl
    simp only [prog, Instr.data, Table.set_self, true_and]
    exact hs.used j (k.making j rfl)
  found j pid hl := by
    obtain ⟨rfl, hp⟩ := killDone_target hl
    simp only [prog, Instr.data, hp, if_true, Table.set_self, Slot.kill_pid]
    -- a free slot has pid 0
    refine ⟨fun h0 => hn.nonzero pid rfl ?_, trivial⟩
    exact hp.symm.trans (hs.unused j (Slot.kill_state_eq h0)).1

/-- **The annotations of `kill`.** -/
theorem spared : Proof (prog (n := n)) note held (fun p l t h => Family t h ∧ Knows p l t h)
    (fun _ => Orderly) Spared (fun _ _ _ => True) Names :=
  .of_own (fun {p l r t h} _ ho hctx hs hn => ⟨hs.step (did p l r t h) hctx.2 hn, hn.step ho hctx.2 hs⟩)
    (fun _ _ _ _ _ => trivial)
    (fun {p l r t h _ _} hq hx ho hctx _ _ _ hnq => .other (did p l r t h) hctx.2 ho hq hx hnq)
    fun _ _ _ _ _ _ => trivial

/-- The first process calls `kill(0)`, which finds the free slot. -/
def killZero : List (Fin 2 × Req) := List.replicate 6 (0, .kill 0)

/-- It then forks. -/
def killZeroFork : List (Fin 2 × Req) := killZero ++ (0, .ok) :: (0, .ok) :: List.replicate 14 (0, .fork)

/-- The first process forks and calls `kill(3)`. Its child makes process 3 when the search is at
the last slot. -/
def killEarly : List (Fin 3 × Req) :=
  List.replicate 17 (0, .fork) ++ List.replicate 3 (1, .ok) ++ List.replicate 7 (0, .kill 3) ++
    List.replicate 12 (1, .fork) ++ List.replicate 3 (0, .ok) ++ List.replicate 5 (1, .fork)

/-- **`kill(0)` succeeds without a process**, and the next child is born killed. So is one whose
pid is given out during a `kill` with that pid. -/
theorem kill_unnamed :
    (∃ x, Reach (step prog note) (fun _ _ => True) (boot (0 : Fin 2), Hist.boot) x ∧
      x.1.pc 0 = .killDone 0 1 ∧ ∀ q, (x.1.sh.proc q).pid = 0 → (x.1.sh.proc q).state = .unused) ∧
    (∃ x, Reach (step prog note) (fun _ _ => True) (boot (0 : Fin 2), Hist.boot) x ∧
      x.1.pc 0 = .forkRunUnlock 1 2 ∧ (x.1.sh.proc 1).killed = true ∧ x.2.named 1 = false) ∧
    ∃ x, Reach (step prog note) (fun x a => ¬ (x.1.pc a.1 = .user ∧ a.2 = .kill 0))
      (boot (0 : Fin 3), Hist.boot) x ∧
      x.1.pc 1 = .forkRunUnlock 2 3 ∧ (x.1.sh.proc 2).killed = true ∧ x.2.named 2 = false :=
  ⟨exists_reach killZero (by decide +kernel), exists_reach killZeroFork (by decide +kernel),
    exists_reach killEarly (by decide +kernel)⟩

/-- **`kill` affects only the process it names**, in every run in which no process calls
`kill(0)` and no pid is given out while a `kill` with it is going on. A child that is killed
when `fork` makes it `RUNNABLE` was named by a `kill` called after its pid was given out, and
`kill` returns 0 only if a process in use has the pid. -/
theorem kill_names {i : Fin n} {s : State (Fin n) (Lock n Unit) (Table n) (Pc n)} {h : Hist n}
    (hr : Reach (step prog note) (fun x a => Orderly (x.1.pc a.1) a.2 x.1.sh x.2) (boot i, Hist.boot) (s, h)) :
    (∀ p j pid, s.pc p = .forkRunUnlock j pid →
      (s.sh.proc j).state = .runnable ∧ ((s.sh.proc j).killed = true → h.named j = true)) ∧
    ∀ p pid k, s.pc p = .killDone pid k → ∃ q, (s.sh.proc q).state ≠ .unused ∧ (s.sh.proc q).pid = pid := by
  have hs : Sound held Spared (fun _ _ _ => True) Names s h := by
    refine spared.reach disciplined (fun y hy q => ?_) (fun y p r _ hg => hg) ?_ hr
    · have := family_reach hy
      exact ⟨this.inv, this.knows q⟩
    · refine ⟨(family_boot i).locks, ⟨fun j hj => ?_, by rintro _ _ ⟨⟩⟩, fun _ _ => trivial, fun q => .plain ?_ ?_⟩
      all_goals simp only [boot] at *
      · split at hj
        · cases hj
        · next hji => simp [hji]
      · split <;> rfl
      · intro j pid
        split <;> rintro ⟨⟩
  refine ⟨fun p j pid hp => ?_, fun p pid k hp => ?_⟩
  · exact (hs.knows p).ready j pid hp
  · exact ⟨k, (hs.knows p).found k pid hp⟩

/-- The first process forks. -/
theorem kill_names_fork : ∃ x : State (Fin 2) (Lock 2 Unit) (Table 2) (Pc 2) × Hist 2,
    x.1.pc 0 = .forkRunUnlock 1 2 ∧ (x.1.sh.proc 1).state = .runnable := by
  obtain ⟨x, hr, hpc⟩ : ∃ x, Reach (step prog note) (fun x a => Orderly (x.1.pc a.1) a.2 x.1.sh x.2)
      (boot (0 : Fin 2), Hist.boot) x ∧ x.1.pc 0 = .forkRunUnlock 1 2 :=
    exists_reach (List.replicate 14 (0, .fork)) (by decide +kernel)
  exact ⟨x, hpc, ((kill_names hr).1 0 1 2 hpc).1⟩

end Xv6.Life
