import Xv6.Thread.Wakeup
import Xv6.Thread.Outline

/-!
# `kernel/sleeplock.c`

`acquiresleep`, `releasesleep` and `holdingsleep` on one sleep-lock, as a program of the thread
machine. The fields of `struct sleeplock` are only used with `lk->lk` held. A process records
whether it is between a completed `acquiresleep` and its `releasesleep` (`mine`); only then may it
call `releasesleep`. It may call the other two at any time, also `acquiresleep` on a lock that it
has already, and then sleeps for ever.

`owner` is not in the source: the process whose `acquiresleep` set `locked` last. No step reads it.

* `outline`: `locked` and `pid` say who the owner is, and the owner is the process with `mine`.
* `signals`: whoever clears `locked` wakes the others before it lets go of `lk->lk`.
* `sleeplock_excludes`: one process at a time, `holdingsleep` tells which, and nobody sleeps on a
  lock that is not taken.
-/

namespace Xv6

open Function

/-- `struct sleeplock`. -/
structure Sleeplock (n : ℕ) where
  locked : Bool
  pid : ℕ
  owner : Option (Fin n)

namespace Sleeplock

open Thread Lib

variable {n : ℕ}

/-- `initsleeplock`. -/
def init : Sleeplock n := ⟨false, 0, none⟩

/-- `lk->locked = 1; lk->pid = myproc()->pid`. -/
def take (pid : Fin n → ℕ) (p : Fin n) (_ : Sleeplock n) : Sleeplock n := ⟨true, pid p, some p⟩

/-- `lk->locked = 0; lk->pid = 0`. -/
def clear (_ : Sleeplock n) : Sleeplock n := ⟨false, 0, none⟩

/-- What a process is asked to do. -/
inductive Req
  | acquiresleep
  | releasesleep
  | holdingsleep
  | kill (pid : ℕ)

/-- The local states of a process. -/
inductive Pc
  | idle (mine : Bool) | killing (pid : ℕ) (mine : Bool)
  | acquireLk (mine : Bool) | acquireTest (mine : Bool) | acquireSleep (mine : Bool) | acquireRelease
  | releaseLk | releaseClear | releaseWakeup | releaseRelease
  | holdingLk (mine : Bool) | holdingTest (mine : Bool) | holdingRelease (mine r : Bool)
  | holdingRet (mine r : Bool)
  deriving DecidableEq

/-- The program of process `p`, whose pid is `pid p`. -/
def prog (pid : Fin n → ℕ) (p : Fin n) : Pc → Instr n Unit Unit (Sleeplock n) Req Pc
  | .idle mine => .act fun r lk =>
    match r with
    | .acquiresleep => (lk, .acquireLk mine)
    -- only the holder calls it
    | .releasesleep => (lk, if mine then .releaseLk else .idle mine)
    | .holdingsleep => (lk, .holdingLk mine)
    | .kill pid => (lk, .killing pid mine)
  | .killing pid mine => .kill pid fun _ => .idle mine
  -- acquiresleep
  | .acquireLk mine => .acquire (.mon ()) (.acquireTest mine)
  | .acquireTest mine => .act fun _ lk =>
    if lk.locked then (lk, .acquireSleep mine) else (lk.take pid p, .acquireRelease)
  | .acquireSleep mine => .sleep () () (.acquireTest mine)
  | .acquireRelease => .release (.mon ()) (.idle true)
  -- releasesleep
  | .releaseLk => .acquire (.mon ()) .releaseClear
  | .releaseClear => .act fun _ lk => (lk.clear, .releaseWakeup)
  | .releaseWakeup => .wakeup () .releaseRelease
  | .releaseRelease => .release (.mon ()) (.idle false)
  -- holdingsleep
  | .holdingLk mine => .acquire (.mon ()) (.holdingTest mine)
  | .holdingTest mine => .act fun _ lk => (lk, .holdingRelease mine (lk.locked && lk.pid == pid p))
  | .holdingRelease mine r => .release (.mon ()) (.holdingRet mine r)
  | .holdingRet mine _ => .act fun _ lk => (lk, .idle mine)

/-- All processes idle, the lock new. -/
def initial (pid : Fin n → ℕ) : State n Unit Unit (Sleeplock n) Pc where
  lock _ := none
  procs p := { state := .running, chan := none, killed := false, pid := pid p, ctl := .run (.idle false) }
  sh := init
  panic := none

/-- The local states at which `lk->lk` is held. -/
def Pc.locked : Pc → Bool
  | .acquireTest _ | .acquireSleep _ | .acquireRelease | .releaseClear | .releaseWakeup
  | .releaseRelease | .holdingTest _ | .holdingRelease _ _ => true
  | _ => false

def held (l : Pc) (m : Lock n Unit) : Prop := m = .mon () ∧ l.locked = true

/-- Between a completed `acquiresleep` and the call of its `releasesleep`. -/
def Pc.between : Pc → Bool
  | .idle mine | .killing _ mine | .acquireLk mine | .acquireTest mine | .acquireSleep mine
  | .holdingLk mine | .holdingTest mine | .holdingRelease mine _ | .holdingRet mine _ => mine
  | _ => false

/-- The local states of the owner. -/
def Pc.owns : Pc → Bool
  | .acquireRelease | .releaseLk | .releaseClear => true
  | l => l.between

theorem locked_act {pid : Fin n → ℕ} {p : Fin n} {l : Pc} {f : Req → Sleeplock n → Sleeplock n × Pc}
    (h : prog pid p l = .act f) (r : Req) (lk : Sleeplock n) : (f r lk).2.locked = l.locked := by
  cases l <;> cases h
  case idle mine => cases r <;> cases mine <;> rfl
  case acquireTest =>
    dsimp only
    split_ifs <;> rfl
  all_goals rfl

theorem disciplined (pid : Fin n → ℕ) : Disciplined (prog pid) held :=
  .of_toggles fun p l => by
    cases hi : prog pid p l with
    | act f => exact locked_act hi
    | _ => cases l <;> cases hi <;> simp [Instr.Toggles, Pc.locked]

/-! ## Who owns the lock -/

/-- **The lock's fields say who owns it.** -/
structure Names (pid : Fin n → ℕ) (lk : Sleeplock n) : Prop where
  locked : lk.locked = true ↔ ∃ p, lk.owner = some p
  pid : ∀ p, lk.owner = some p → lk.pid = pid p

/-- What a process knows: whether it is the owner, and what `holdingsleep` found. -/
structure Knows (pid : Fin n → ℕ) (p : Fin n) (l : Pc) (lk : Sleeplock n) : Prop where
  names : l.locked = true → Names pid lk
  owner : lk.owner = some p ↔ l.owns = true
  answer : ∀ mine r, l = .holdingRelease mine r ∨ l = .holdingRet mine r → (r = true ↔ mine = true)

/-- What it knows asleep. -/
def Asleep (p : Fin n) (l : Pc) (lk : Sleeplock n) : Prop :=
  ∃ mine, l = .acquireTest mine ∧ (lk.owner = some p ↔ mine = true)

section Act

variable {pid : Fin n → ℕ} {p q : Fin n} {l : Pc} {f : Req → Sleeplock n → Sleeplock n × Pc}
variable {lk : Sleeplock n}

theorem Names.take (lk : Sleeplock n) (p : Fin n) : Names pid (lk.take pid p) :=
  ⟨⟨fun _ => ⟨p, rfl⟩, fun _ => rfl⟩, fun q hq => by cases hq; rfl⟩

theorem Names.clear (lk : Sleeplock n) : Names pid lk.clear := ⟨⟨nofun, nofun⟩, nofun⟩

/-- `lk->locked && lk->pid == myproc()->pid` is true for the owner only: pids are distinct. -/
theorem Names.answer (hpid : Injective pid) (h : Names pid lk) :
    (lk.locked && lk.pid == pid p) = true ↔ lk.owner = some p := by
  rw [Bool.and_eq_true, beq_iff_eq, h.locked]
  constructor
  · rintro ⟨⟨q, hq⟩, hp⟩
    rw [hq, hpid ((h.pid q hq).symm.trans hp)]
  · exact fun hp => ⟨⟨p, hp⟩, h.pid p hp⟩

/-- Without `lk->lk` nothing changes. -/
theorem act_unlocked (h : prog pid p l = .act f) (hl : l.locked = false) (r : Req) :
    (f r lk).1 = lk := by
  cases l <;> cases h
  case idle => cases r <;> rfl
  case acquireTest | releaseClear | holdingTest => cases hl
  all_goals rfl

theorem Knows.act (hpid : Injective pid) (h : prog pid p l = .act f)
    (hk : Knows pid p l lk) (r : Req) : Knows pid p (f r lk).2 (f r lk).1 := by
  cases l <;> cases h
  case idle mine =>
    cases r with
    | acquiresleep | holdingsleep | kill => exact ⟨nofun, hk.owner, by simp⟩
    | releasesleep => cases mine <;> exact ⟨nofun, hk.owner, by simp⟩
  case acquireTest mine =>
    dsimp only
    split_ifs with hl
    · exact ⟨fun _ => hk.names rfl, hk.owner, by simp⟩
    · exact ⟨fun _ => Names.take lk p, ⟨fun _ => rfl, fun _ => rfl⟩, by simp⟩
  case releaseClear => exact ⟨fun _ => Names.clear lk, ⟨nofun, nofun⟩, by simp⟩
  case holdingTest mine =>
    refine ⟨fun _ => hk.names rfl, hk.owner, ?_⟩
    rintro m r (h | h)
    · cases h
      rw [(hk.names rfl).answer hpid]
      exact hk.owner
    · cases h
  case holdingRet => exact ⟨nofun, hk.owner, by simp⟩

/-- Nobody else becomes the owner, or stops being it. -/
theorem owner_stable (h : prog pid p l = .act f) (hk : Knows pid p l lk) (r : Req) (hq : q ≠ p) :
    (f r lk).1.owner = some q ↔ lk.owner = some q := by
  cases hl : l.locked with
  | false => rw [act_unlocked h hl]
  | true =>
    cases l <;> cases h
    case true.acquireTest.refl mine =>
      dsimp only
      split_ifs with hl
      · rfl
      · -- it was free
        have hnone : ∀ x, lk.owner ≠ some x := fun x hx => hl ((hk.names rfl).locked.2 ⟨x, hx⟩)
        simp [take, hq.symm, hnone q]
    case true.releaseClear.refl =>
      have hp : lk.owner = some p := hk.owner.2 rfl
      simp [clear, hp, hq.symm]
    case true.holdingTest.refl => rfl
    all_goals cases hl

end Act

theorem outline {pid : Fin n → ℕ} (hpid : Injective pid) :
    Outline (prog pid) held () (fun _ _ _ => True) (fun _ _ _ _ => True) (Names pid) (Knows pid) Asleep where
  acquire {p l ℓ l' lk} h hk hI := by
    cases l <;> cases h <;> exact ⟨fun _ => hI rfl, hk.owner, by simp⟩
  release {p l ℓ l' lk} h hk := by
    cases l <;> cases h <;> refine ⟨fun _ => hk.names rfl, nofun, hk.owner, ?_⟩
    case holdingRelease mine r =>
      rintro m r' (h | h)
      · cases h
      · cases h
        exact hk.answer _ _ (.inl rfl)
    all_goals simp
  act h _ _ hk := hk.act hpid h _
  stable {p l f r lk} h _ _ hk q hq := by
    refine ⟨fun l' hex hk' => ⟨fun hl => ?_, ?_, hk'.answer⟩, ?_⟩
    · have hl0 : l.locked = false := by simpa [held] using hex ⟨rfl, hl⟩
      rw [act_unlocked h hl0]
      exact hk'.names hl
    · rw [owner_stable h hk r hq]
      exact hk'.owner
    · rintro l' ⟨mine, rfl, hm⟩
      exact ⟨mine, rfl, (owner_stable h hk r hq).trans hm⟩
  unlocked {p l f r lk} h hl _ _ _ hI := by
    rw [act_unlocked h (by simpa [held] using hl)]
    exact hI
  sleep {p l c k' l' lk} h hk := by
    cases l <;> cases h
    exact ⟨⟨_, rfl, hk.owner⟩, fun _ => ⟨rfl, hk.names rfl⟩⟩
  back {p l' lk} hw hI := by
    obtain ⟨mine, rfl, hm⟩ := hw
    exact ⟨fun _ => hI ⟨rfl, rfl⟩, hm, by simp⟩
  wakeup {p l c l' lk} h hk := by
    cases l <;> cases h
    exact ⟨fun _ => hk.names rfl, hk.owner, by simp⟩
  killed {p l f lk} h := by cases l <;> simp [prog] at h
  kill {p l x f lk} h hk b := by
    cases l <;> cases h
    exact ⟨nofun, hk.owner, by simp⟩

/-! ## Waiters are woken -/

/-- The local states that have seen the lock taken. -/
def Pc.safe : Pc → Bool
  | .acquireSleep _ => true
  | _ => false

/-- The local states that have cleared `locked` and not called `wakeup` yet. -/
def Pc.owes : Pc → Bool
  | .releaseWakeup => true
  | _ => false

/-- What an action does about `locked`. -/
theorem free_act {pid : Fin n → ℕ} {p : Fin n} {l : Pc} {f : Req → Sleeplock n → Sleeplock n × Pc}
    (h : prog pid p l = .act f) (r : Req) (lk : Sleeplock n) :
    ((f r lk).2.safe = true → l.locked = true ∧ (f r lk).1.locked = true) ∧
      (l.locked = true → (f r lk).1.locked = false → (lk.locked = false → l.owes = true) →
        (f r lk).2.owes = true) := by
  cases l <;> cases h
  case idle mine => cases r <;> cases mine <;> exact ⟨nofun, nofun⟩
  case acquireTest mine =>
    dsimp only
    split_ifs with hl
    · exact ⟨fun _ => ⟨rfl, hl⟩, fun _ hB ho => absurd (ho hB) nofun⟩
    · exact ⟨nofun, fun _ hB _ => by cases hB⟩
  case releaseClear => exact ⟨nofun, fun _ _ _ => rfl⟩
  case holdingTest => exact ⟨nofun, fun _ hB ho => absurd (ho hB) nofun⟩
  case holdingRet => exact ⟨nofun, nofun⟩

/-- The program signals `locked = 0` on the lock. -/
theorem signals (pid : Fin n → ℕ) : Signals (prog pid) held () () (fun lk => lk.locked = false)
    (fun _ _ _ => True) (fun l => l.safe = true) (fun l => l.owes = true) where
  acquire {p l ℓ l'} h := by
    cases l <;> cases h <;> simp [Pc.safe, Pc.owes]
  release {p l ℓ l'} h := by
    cases l <;> cases h <;> simp [Pc.safe, Pc.owes]
  act {p l f} h r lk _ _ := by
    obtain ⟨h1, h2⟩ := free_act h r lk
    refine ⟨fun hsafe => ⟨⟨rfl, (h1 hsafe).1⟩, by simp [(h1 hsafe).2]⟩, fun hl => ?_, fun hl => h2 hl.2⟩
    rw [act_unlocked h (by simpa [held] using hl)]
    exact id
  sleep {p l d k' l'} h := by
    cases l <;> cases h
    simp [Pc.safe, Pc.owes]
  wakeup {p l d l'} h := by
    cases l <;> cases h
    simp [Pc.safe]
  killed {p l f} h := by cases l <;> simp [prog] at h
  kill {p l x f} h := by
    cases l <;> cases h
    simp [Pc.safe, Pc.owes]

/-! ## Whole runs -/

section Run

variable {pid : Fin n → ℕ} {s : State n Unit Unit (Sleeplock n) Pc}
variable {G : State n Unit Unit (Sleeplock n) Pc → Fin n × Req → Prop}

theorem reach_outline (hpid : Injective pid) (hr : Reach (step (prog pid)) G (initial pid) s) :
    LockInv held s ∧ OutlineInv held () (Names pid) (Knows pid) Asleep s := by
  refine (outline hpid).reach (disciplined pid) (fun _ _ _ _ _ => trivial)
    (fun _ _ _ _ _ _ _ _ => trivial) ⟨fun q => ?_, fun q m => ?_⟩ ⟨fun _ => ?_, fun q => ?_⟩ hr
  · trivial
  · simp [initial, Ctl.Holds, held, Pc.locked]
  · exact ⟨⟨by rintro ⟨⟩, by rintro ⟨_, ⟨⟩⟩⟩, by rintro _ ⟨⟩⟩
  · exact ⟨by rintro ⟨⟩, ⟨by rintro ⟨⟩, by rintro ⟨⟩⟩, by simp⟩

/-- A process between `acquiresleep` and `releasesleep` is the owner. -/
theorem between_owner (hpid : Injective pid) (hr : Reach (step (prog pid)) G (initial pid) s)
    {p : Fin n} (hp : (s.procs p).ctl.resume.between = true) : s.sh.owner = some p := by
  have ha := (reach_outline hpid hr).2.asserts p
  refine ha.resume (P := fun l => l.between = true → s.sh.owner = some p) (fun l hk hb => ?_) ?_ hp
  · rw [hk.owner]
    revert hb
    cases l <;> simp [Pc.owns, Pc.between]
  · rintro l ⟨mine, rfl, hm⟩ hb
    exact hm.2 hb

/-- No process sleeps on a lock that is not taken. -/
theorem asleep_locked (hpid : Injective pid) (hr : Reach (step (prog pid)) G (initial pid) s)
    (hfree : s.lock (.mon ()) = none) {q : Fin n} (hq : (s.procs q).state = .sleeping)
    (hc : (s.procs q).chan = some ()) : s.sh.locked = true := by
  have hno : ∀ (p : Fin n) (l : Pc) (f : Bool → Pc), prog pid p l = .killed f →
      (f false).owes = true → (f true).owes = true := by
    intro p l f hi
    cases l <;> simp [prog] at hi
  have hsl : SleepInv (initial pid) := ⟨by simp [initial], by simp [initial]⟩
  have hw : WakeInv () () (fun lk : Sleeplock n => lk.locked = false) (fun l : Pc => l.safe = true)
      (fun l => l.owes = true) (initial pid) :=
    ⟨by simp [initial, Ctl.sleepNext], by simp [initial, Ctl.IsSafe, Pc.safe],
      by simp [initial, Proc.Waiting]⟩
  have hB := no_lost_wakeup' (signals pid) (fun s hs => (reach_outline hpid hs).1)
    (fun _ _ _ _ _ => trivial) hsl hw hr hfree hq hc hno (by simp [initial])
  simpa using hB

/-- **Sleep-locks exclude and do not strand.** For processes with distinct pids, in every reachable
state: at most one is between a completed `acquiresleep` and its `releasesleep`; what `holdingsleep`
returned to a process says whether it is the one; and whenever `lk->lk` is free, no process sleeps on
the lock while `locked = 0`. -/
theorem sleeplock_excludes (hpid : Injective pid)
    (hr : Reach (step (prog pid)) (fun _ _ => True) (initial pid) s) :
    (∀ p q, (s.procs p).ctl.resume.between = true → (s.procs q).ctl.resume.between = true → p = q) ∧
    (∀ p mine r, (s.procs p).ctl = .run (.holdingRet mine r) →
      (r = true ↔ (s.procs p).ctl.resume.between = true)) ∧
    (s.lock (.mon ()) = none → ∀ q, (s.procs q).state = .sleeping → (s.procs q).chan = some () →
      s.sh.locked = true) := by
  refine ⟨fun p q hp hq => ?_, fun p mine r hc => ?_, fun hfree q => asleep_locked hpid hr hfree⟩
  · exact Option.some.inj ((between_owner hpid hr hp).symm.trans (between_owner hpid hr hq))
  · have ha := (reach_outline hpid hr).2.asserts p
    rw [hc] at ha ⊢
    exact ha.answer mine r (.inr rfl)

end Run

/-- Process 0 takes the lock and asks whether it has it; process 1 sleeps on it. -/
def contend : List (Fin 2 × Req) :=
  List.replicate 4 (0, .acquiresleep) ++ List.replicate 8 (1, .acquiresleep) ++
    List.replicate 4 (0, .holdingsleep)

theorem sleeplock_excludes_two : ∃ s : State 2 Unit Unit (Sleeplock 2) Pc,
    Reach (step (prog fun p => p.val + 3)) (fun _ _ => True) (initial fun p => p.val + 3) s ∧
      (s.procs 0).ctl.resume.between = true ∧ (s.procs 1).state = .sleeping ∧ s.sh.locked = true := by
  obtain ⟨s, hr, hfree, hq, hc, hret⟩ : ∃ s : State 2 Unit Unit (Sleeplock 2) Pc,
      Reach (step (prog fun p => p.val + 3)) (fun _ _ => True) (initial fun p => p.val + 3) s ∧
      s.lock (.mon ()) = none ∧ (s.procs 1).state = .sleeping ∧ (s.procs 1).chan = some () ∧
      (s.procs 0).ctl.resume = .holdingRet true true := exists_reach contend (by decide +kernel)
  have hpid : Injective fun p : Fin 2 => p.val + 3 := fun p q h => Fin.ext (by simpa using h)
  exact ⟨s, hr, by rw [hret]; rfl, hq, (sleeplock_excludes hpid hr).2.2 hfree 1 hq hc⟩

end Sleeplock

end Xv6
