import Xv6.Thread.Machine

/-!
# Which process holds which lock

`Move` lists what one step of the machine can do (`step_move`); later proofs go by cases
on it and never unfold `step`.

A program comes with the set of locks it holds at each local state. If its instructions
respect that set (`Disciplined`), then in every reachable state a lock is held by a
process exactly when its control point says so (`LockInv`), also in the middle of
`sleep`, `wakeup`, `killed` and `kill`.
-/

namespace Xv6.Thread

open Function

variable {n : ℕ} {K C σ ι L : Type}

/-! ## Fields after an update -/

section Fields

variable (s : State n K C σ L) (p q : Fin n) (ℓ : Lock n K) (o : Option (Fin n)) (x : Proc n K C L)
  (c : Ctl n K C L)

@[simp] theorem setProc_lock : (s.setProc p x).lock = s.lock := rfl
@[simp] theorem setProc_procs : (s.setProc p x).procs = update s.procs p x := rfl
@[simp] theorem setProc_sh : (s.setProc p x).sh = s.sh := rfl
@[simp] theorem goto_lock : (s.goto p c).lock = s.lock := rfl
@[simp] theorem goto_sh : (s.goto p c).sh = s.sh := rfl
@[simp] theorem goto_self : (s.goto p c).procs p = { s.procs p with ctl := c } := by
  simp [State.goto]
@[simp] theorem goto_of_ne (h : q ≠ p) : (s.goto p c).procs q = s.procs q := by
  simp [State.goto, h]
@[simp] theorem markKilled_ctl : x.markKilled.ctl = x.ctl := by unfold Proc.markKilled; split <;> rfl
@[simp] theorem markKilled_chan : x.markKilled.chan = x.chan := by unfold Proc.markKilled; split <;> rfl
@[simp] theorem markKilled_killed : x.markKilled.killed = true := by unfold Proc.markKilled; split <;> rfl

theorem markKilled_state : x.markKilled.state ≠ .sleeping := by
  unfold Proc.markKilled
  split
  · simp
  · assumption

variable [DecidableEq K]

@[simp] theorem setLock_lock : (s.setLock ℓ o).lock = update s.lock ℓ o := rfl
@[simp] theorem setLock_procs : (s.setLock ℓ o).procs = s.procs := rfl
@[simp] theorem setLock_sh : (s.setLock ℓ o).sh = s.sh := rfl

omit [DecidableEq K]

variable [DecidableEq C] (d : C)

@[simp] theorem wake_ctl : (x.wake d).ctl = x.ctl := by unfold Proc.wake; split <;> rfl
@[simp] theorem wake_chan : (x.wake d).chan = x.chan := by unfold Proc.wake; split <;> rfl
@[simp] theorem wake_killed : (x.wake d).killed = x.killed := by unfold Proc.wake; split <;> rfl

/-- A process that `wakeup` leaves asleep was asleep, on another channel. -/
theorem wake_state (h : (x.wake d).state = .sleeping) : x.state = .sleeping ∧ x.chan ≠ some d := by
  unfold Proc.wake at h
  split at h
  · simp at h
  · rename_i hn
    exact ⟨h, fun hc => hn ⟨h, hc⟩⟩

end Fields

/-! ## Lock ownership -/

/-- The locks a process holds at a control point; `held` says it for its own function. -/
def Ctl.Holds (held : L → Lock n K → Prop) (p : Fin n) : Ctl n K C L → Lock n K → Prop
  | .run l, m => held l m
  | .sleepAcquire _ _ l, m => held l m
  | .sleepRelease _ _ l, m => held l m ∨ m = .proc p
  | .sleepSet _ k l, m => (held l m ∧ m ≠ .mon k) ∨ m = .proc p
  | .sleepSwtch _ k l, m => (held l m ∧ m ≠ .mon k) ∨ m = .proc p
  | .sleepOff _ k l, m => held l m ∧ m ≠ .mon k
  | .sleepBack _ k l, m => (held l m ∧ m ≠ .mon k) ∨ m = .proc p
  | .sleepReacquire _ k l, m => held l m ∧ m ≠ .mon k
  | .wakeAt _ _ l, m => held l m
  | .wakeHold _ j l, m => held l m ∨ m = .proc j
  | .killedAcquire f, m => held (f false) m
  | .killedHold f, m => held (f false) m ∨ m = .proc p
  | .killAt _ _ f, m => held (f false) m
  | .killHold _ j f, m => held (f false) m ∨ m = .proc j

/-- No `p->lock` is held at `l`. -/
def NoProc (held : L → Lock n K → Prop) (l : L) : Prop := ∀ j, ¬ held l (.proc j)

/-- What `sleep`, `wakeup`, `killed` and `kill` were called with. -/
def Ctl.Ok (held : L → Lock n K → Prop) : Ctl n K C L → Prop
  | .run _ => True
  | .sleepAcquire _ k l | .sleepRelease _ k l | .sleepSet _ k l | .sleepSwtch _ k l | .sleepOff _ k l
  | .sleepBack _ k l | .sleepReacquire _ k l => held l (.mon k) ∧ NoProc held l
  | .wakeAt _ _ l | .wakeHold _ _ l => NoProc held l
  | .killedAcquire f | .killedHold f | .killAt _ _ f | .killHold _ _ f =>
    NoProc held (f false) ∧ ∀ b m, held (f b) m ↔ held (f false) m

/-- The instructions of a program respect the locks it claims to hold: `sleep`, `wakeup`,
`killed` and `kill` are called without any `p->lock`, `sleep` with its lock held. -/
structure Disciplined (prog : Fin n → L → Instr n K C σ ι L) (held : L → Lock n K → Prop) : Prop where
  acquire : ∀ {p l ℓ l'}, prog p l = .acquire ℓ l' → ∀ m, held l' m ↔ held l m ∨ m = ℓ
  release : ∀ {p l ℓ l'}, prog p l = .release ℓ l' → held l ℓ ∧ ∀ m, held l' m ↔ held l m ∧ m ≠ ℓ
  act : ∀ {p l f}, prog p l = .act f → ∀ i sh m, held (f i sh).2 m ↔ held l m
  sleep : ∀ {p l c k l'}, prog p l = .sleep c k l' →
    held l (.mon k) ∧ NoProc held l ∧ ∀ m, held l' m ↔ held l m
  wakeup : ∀ {p l c l'}, prog p l = .wakeup c l' → NoProc held l ∧ ∀ m, held l' m ↔ held l m
  killed : ∀ {p l f}, prog p l = .killed f → NoProc held l ∧ ∀ b m, held (f b) m ↔ held l m
  kill : ∀ {p l pid f}, prog p l = .kill pid f → NoProc held l ∧ ∀ b m, held (f b) m ↔ held l m

/-- The instruction at `l`, of a program with the one lock `mon ()`, held where `locked` says. -/
def Instr.Toggles (locked : L → Bool) (l : L) : Instr n Unit C σ ι L → Prop
  | .acquire ℓ l' => ℓ = .mon () ∧ locked l = false ∧ locked l' = true
  | .release ℓ l' => ℓ = .mon () ∧ locked l = true ∧ locked l' = false
  | .act f => ∀ i sh, locked (f i sh).2 = locked l
  | .sleep _ _ l' => locked l = true ∧ locked l' = true
  | .wakeup _ l' => locked l' = locked l
  | .killed f | .kill _ f => ∀ b, locked (f b) = locked l
  | .panic _ => True

/-- Such a program is disciplined. -/
theorem Disciplined.of_toggles {prog : Fin n → L → Instr n Unit C σ ι L} {locked : L → Bool}
    (h : ∀ p l, (prog p l).Toggles locked l) :
    Disciplined prog fun l m => m = .mon () ∧ locked l = true := by
  constructor <;> intro p l <;> have hl := h p l
  case acquire =>
    intro ℓ l' hi m
    rw [hi] at hl
    simp [hl.1, hl.2.1, hl.2.2]
  case release =>
    intro ℓ l' hi
    rw [hi] at hl
    simp [hl.1, hl.2.1, hl.2.2]
  case act =>
    intro f hi i sh m
    rw [hi] at hl
    rw [hl i sh]
  case sleep =>
    intro c k l' hi
    rw [hi] at hl
    simp [NoProc, hl.1, hl.2]
  case wakeup =>
    intro c l' hi
    rw [hi] at hl
    simp [NoProc, show locked l' = locked l from hl]
  case killed | kill =>
    intros
    rename_i hi
    rw [hi] at hl
    exact ⟨fun j hj => (nomatch hj.1), fun b m => by rw [hl b]⟩

/-- **Lock ownership.** A process holds exactly the locks its control point says. -/
structure LockInv (held : L → Lock n K → Prop) (s : State n K C σ L) : Prop where
  ok : ∀ q, (s.procs q).ctl.Ok held
  holder : ∀ q m, s.lock m = some q ↔ (s.procs q).ctl.Holds held q m

variable {held : L → Lock n K → Prop} {s s' : State n K C σ L} {p q : Fin n}

theorem LockInv.start {l : L} {sh : σ} (h : ∀ m, ¬ held l m) :
    LockInv held (start l sh : State n K C σ L) :=
  ⟨fun _ => trivial, fun q m => by simpa [Thread.start, Ctl.Holds] using h m⟩

/-- Two processes never hold one lock. -/
theorem LockInv.unique (h : LockInv held s) {p : Fin n} {m : Lock n K}
    (hp : (s.procs p).ctl.Holds held p m) (hq : (s.procs q).ctl.Holds held q m) : p = q := by
  have h1 := (h.holder p m).2 hp
  rw [(h.holder q m).2 hq] at h1
  exact (Option.some.inj h1).symm

section Steps

variable (h : LockInv held s) (hne : ∀ q, q ≠ p → (s'.procs q).ctl = (s.procs q).ctl)
  (hok : (s'.procs p).ctl.Ok held)
include h hne hok

theorem LockInv.okStep (q : Fin n) : (s'.procs q).ctl.Ok held := by
  rcases eq_or_ne q p with rfl | hq
  · exact hok
  · rw [hne q hq]; exact h.ok q

/-- A step that touches no lock. -/
theorem LockInv.keep (hl : s'.lock = s.lock)
    (hh : ∀ m, (s'.procs p).ctl.Holds held p m ↔ (s.procs p).ctl.Holds held p m) : LockInv held s' := by
  refine ⟨h.okStep hne hok, fun q m => ?_⟩
  rw [hl, h.holder q m]
  rcases eq_or_ne q p with rfl | hq
  · exact (hh m).symm
  · rw [hne q hq]

variable [DecidableEq K]

/-- A step that takes a free lock. -/
theorem LockInv.gain {ℓ : Lock n K} (hf : s.lock ℓ = none) (hl : s'.lock = update s.lock ℓ (some p))
    (hh : ∀ m, (s'.procs p).ctl.Holds held p m ↔ (s.procs p).ctl.Holds held p m ∨ m = ℓ) :
    LockInv held s' := by
  refine ⟨h.okStep hne hok, fun q m => ?_⟩
  rw [hl]
  have hq' : ∀ q, ¬ (s.procs q).ctl.Holds held q ℓ := fun q hq => by
    have := (h.holder q ℓ).2 hq; rw [hf] at this; cases this
  rcases eq_or_ne q p with rfl | hq
  · rw [hh m, ← h.holder q m]
    rcases eq_or_ne m ℓ with rfl | hm
    · simp
    · rw [update_of_ne hm]; simp [hm]
  · rw [hne q hq]
    rcases eq_or_ne m ℓ with rfl | hm
    · simp only [update_self, Option.some.injEq]
      exact ⟨fun he => absurd he.symm hq, fun hq'' => absurd hq'' (hq' q)⟩
    · rw [update_of_ne hm, h.holder q m]

/-- A step that releases a lock its process holds. -/
theorem LockInv.drop {ℓ : Lock n K} (hp : (s.procs p).ctl.Holds held p ℓ)
    (hl : s'.lock = update s.lock ℓ none)
    (hh : ∀ m, (s'.procs p).ctl.Holds held p m ↔ (s.procs p).ctl.Holds held p m ∧ m ≠ ℓ) :
    LockInv held s' := by
  refine ⟨h.okStep hne hok, fun q m => ?_⟩
  rw [hl]
  rcases eq_or_ne m ℓ with rfl | hm
  · simp only [update_self, reduceCtorEq, false_iff]
    rcases eq_or_ne q p with rfl | hq
    · rw [hh m]; exact fun hc => hc.2 rfl
    · rw [hne q hq]
      intro hc
      have h1 := (h.holder q m).2 hc
      rw [(h.holder p m).2 hp] at h1
      cases h1; exact hq rfl
  · rw [update_of_ne hm, h.holder q m]
    rcases eq_or_ne q p with rfl | hq
    · rw [hh m]; exact ⟨fun hc => ⟨hc, hm⟩, fun hc => hc.1⟩
    · rw [hne q hq]

end Steps

variable [DecidableEq K] [DecidableEq C]

/-! ## The steps of the machine -/

/-- What a step of `p` can do. -/
inductive Move (prog : Fin n → L → Instr n K C σ ι L) (s : State n K C σ L) (p : Fin n) (i : ι) :
    State n K C σ L → Prop
  | acquire {l l' ℓ} (hc : (s.procs p).ctl = .run l) (hi : prog p l = .acquire ℓ l')
      (hl : s.lock ℓ = none) : Move prog s p i ((s.setLock ℓ (some p)).goto p (.run l'))
  | release {l l' ℓ} (hc : (s.procs p).ctl = .run l) (hi : prog p l = .release ℓ l')
      (hl : s.lock ℓ = some p) : Move prog s p i ((s.setLock ℓ none).goto p (.run l'))
  | act {l f} (hc : (s.procs p).ctl = .run l) (hi : prog p l = .act f) :
      Move prog s p i ({ s with sh := (f i s.sh).1 }.goto p (.run (f i s.sh).2))
  | sleep {l c k l'} (hc : (s.procs p).ctl = .run l) (hi : prog p l = .sleep c k l') :
      Move prog s p i (s.goto p (.sleepAcquire c k l'))
  | wakeup {l c l'} (hc : (s.procs p).ctl = .run l) (hi : prog p l = .wakeup c l') :
      Move prog s p i (s.goto p (.wakeAt c 0 l'))
  | killed {l f} (hc : (s.procs p).ctl = .run l) (hi : prog p l = .killed f) :
      Move prog s p i (s.goto p (.killedAcquire f))
  | kill {l pid f} (hc : (s.procs p).ctl = .run l) (hi : prog p l = .kill pid f) :
      Move prog s p i (s.goto p (.killAt pid 0 f))
  | panic {l msg} (hc : (s.procs p).ctl = .run l) (hi : prog p l = .panic msg) :
      Move prog s p i { s with panic := some msg }
  | badRelease {msg} (hb : (∃ l l' ℓ, (s.procs p).ctl = .run l ∧ prog p l = .release ℓ l' ∧ s.lock ℓ ≠ some p) ∨
      ∃ c k l, (s.procs p).ctl = .sleepRelease c k l ∧ s.lock (.mon k) ≠ some p) (hm : msg = "release") :
      Move prog s p i { s with panic := some msg }
  | sleepAcquire {c k l} (hc : (s.procs p).ctl = .sleepAcquire c k l) (hl : s.lock (.proc p) = none) :
      Move prog s p i ((s.setLock (.proc p) (some p)).goto p (.sleepRelease c k l))
  | sleepRelease {c k l} (hc : (s.procs p).ctl = .sleepRelease c k l) (hl : s.lock (.mon k) = some p) :
      Move prog s p i ((s.setLock (.mon k) none).goto p (.sleepSet c k l))
  | sleepSet {c k l} (hc : (s.procs p).ctl = .sleepSet c k l) :
      Move prog s p i (s.setProc p
        { s.procs p with chan := some c, state := .sleeping, ctl := .sleepSwtch c k l })
  | sleepSwtch {c k l} (hc : (s.procs p).ctl = .sleepSwtch c k l) :
      Move prog s p i ((s.setLock (.proc p) none).goto p (.sleepOff c k l))
  | sleepOff {c k l} (hc : (s.procs p).ctl = .sleepOff c k l) (hr : (s.procs p).state = .runnable)
      (hl : s.lock (.proc p) = none) :
      Move prog s p i ((s.setLock (.proc p) (some p)).setProc p
        { s.procs p with state := .running, ctl := .sleepBack c k l })
  | sleepBack {c k l} (hc : (s.procs p).ctl = .sleepBack c k l) :
      Move prog s p i ((s.setLock (.proc p) none).setProc p
        { s.procs p with chan := none, ctl := .sleepReacquire c k l })
  | sleepReacquire {c k l} (hc : (s.procs p).ctl = .sleepReacquire c k l) (hl : s.lock (.mon k) = none) :
      Move prog s p i ((s.setLock (.mon k) (some p)).goto p (.run l))
  | wakeSelf {c l} (hc : (s.procs p).ctl = .wakeAt c p.val l) :
      Move prog s p i (s.goto p (.wakeAt c (p.val + 1) l))
  | wakeAt {c l} {j : Fin n} (hc : (s.procs p).ctl = .wakeAt c j.val l) (hj : j ≠ p)
      (hl : s.lock (.proc j) = none) :
      Move prog s p i ((s.setLock (.proc j) (some p)).goto p (.wakeHold c j l))
  | wakeEnd {c j l} (hc : (s.procs p).ctl = .wakeAt c j l) (hj : n ≤ j) :
      Move prog s p i (s.goto p (.run l))
  | wakeHold {c l} {j : Fin n} (hc : (s.procs p).ctl = .wakeHold c j l) :
      Move prog s p i
        (((s.setLock (.proc j) none).setProc j ((s.procs j).wake c)).goto p (.wakeAt c (j.val + 1) l))
  | killedAcquire {f} (hc : (s.procs p).ctl = .killedAcquire f) (hl : s.lock (.proc p) = none) :
      Move prog s p i ((s.setLock (.proc p) (some p)).goto p (.killedHold f))
  | killedHold {f} (hc : (s.procs p).ctl = .killedHold f) :
      Move prog s p i ((s.setLock (.proc p) none).goto p (.run (f (s.procs p).killed)))
  | killAt {pid f} {j : Fin n} (hc : (s.procs p).ctl = .killAt pid j.val f) (hl : s.lock (.proc j) = none) :
      Move prog s p i ((s.setLock (.proc j) (some p)).goto p (.killHold pid j f))
  | killEnd {pid j f} (hc : (s.procs p).ctl = .killAt pid j f) (hj : n ≤ j) :
      Move prog s p i (s.goto p (.run (f false)))
  | killHit {pid f} {j : Fin n} (hc : (s.procs p).ctl = .killHold pid j f) (hp : (s.procs j).pid = pid) :
      Move prog s p i
        (((s.setLock (.proc j) none).setProc j (s.procs j).markKilled).goto p (.run (f true)))
  | killMiss {pid f} {j : Fin n} (hc : (s.procs p).ctl = .killHold pid j f) (hp : (s.procs j).pid ≠ pid) :
      Move prog s p i ((s.setLock (.proc j) none).goto p (.killAt pid (j.val + 1) f))

variable {prog : Fin n → L → Instr n K C σ ι L} {i : ι}

theorem step_panic (h : step prog s (p, i) = some s') : s.panic = none := by
  unfold step at h
  cases hp : s.panic with
  | none => rfl
  | some m => simp [hp] at h

/-- **Every step is a move.** -/
theorem step_move (h : step prog s (p, i) = some s') : Move prog s p i s' := by
  have hpn := step_panic h
  unfold step at h
  simp only at h
  rw [if_neg (by simp [hpn])] at h
  cases hc : (s.procs p).ctl <;> rw [hc] at h
  case run l =>
    simp only at h
    cases hi : prog p l <;> rw [hi] at h
    case acquire =>
      obtain ⟨hl, ⟨⟩⟩ := Option.ite_none_right_eq_some.1 h
      exact .acquire hc hi hl
    case release ℓ l' =>
      simp only at h
      split at h
      · rename_i hl; cases h; exact .release hc hi hl
      · rename_i hl; cases h; exact .badRelease (Or.inl ⟨l, l', ℓ, hc, hi, hl⟩) rfl
    case act => cases h; exact .act hc hi
    case sleep => cases h; exact .sleep hc hi
    case wakeup => cases h; exact .wakeup hc hi
    case killed => cases h; exact .killed hc hi
    case kill => cases h; exact .kill hc hi
    case panic => cases h; exact .panic hc hi
  case sleepAcquire =>
    obtain ⟨hl, ⟨⟩⟩ := Option.ite_none_right_eq_some.1 h
    exact .sleepAcquire hc hl
  case sleepRelease c k l =>
    simp only at h
    split at h
    · rename_i hl; cases h; exact .sleepRelease hc hl
    · rename_i hl; cases h; exact .badRelease (Or.inr ⟨c, k, l, hc, hl⟩) rfl
  case sleepSet => cases h; exact .sleepSet hc
  case sleepSwtch => cases h; exact .sleepSwtch hc
  case sleepOff =>
    obtain ⟨⟨hr, hl⟩, ⟨⟩⟩ := Option.ite_none_right_eq_some.1 h
    exact .sleepOff hc hr hl
  case sleepBack => cases h; exact .sleepBack hc
  case sleepReacquire =>
    obtain ⟨hl, ⟨⟩⟩ := Option.ite_none_right_eq_some.1 h
    exact .sleepReacquire hc hl
  case wakeAt c j l =>
    simp only at h
    split at h
    · rename_i hj
      split at h
      · rename_i hjp; subst hjp; cases h; exact .wakeSelf hc
      · rename_i hjp
        obtain ⟨hl, ⟨⟩⟩ := Option.ite_none_right_eq_some.1 h
        exact .wakeAt (j := ⟨j, hj⟩) hc (fun he => hjp (congrArg Fin.val he)) hl
    · rename_i hj; cases h; exact .wakeEnd hc (Nat.le_of_not_lt hj)
  case wakeHold => cases h; exact .wakeHold hc
  case killedAcquire =>
    obtain ⟨hl, ⟨⟩⟩ := Option.ite_none_right_eq_some.1 h
    exact .killedAcquire hc hl
  case killedHold => cases h; exact .killedHold hc
  case killAt pid j f =>
    simp only at h
    split at h
    · rename_i hj
      obtain ⟨hl, ⟨⟩⟩ := Option.ite_none_right_eq_some.1 h
      exact .killAt (j := ⟨j, hj⟩) hc hl
    · rename_i hj; cases h; exact .killEnd hc (Nat.le_of_not_lt hj)
  case killHold pid j f =>
    simp only at h
    split at h
    · rename_i hp; cases h; exact .killHit hc hp
    · rename_i hp; cases h; exact .killMiss hc hp

variable {G : State n K C σ L → Fin n × ι → Prop} {s₀ : State n K C σ L}

/-- A message that no reachable control point is about to panic with is not the machine's. -/
theorem no_panic {msg : String}
    (h : ∀ s, Lib.Reach (step prog) G s₀ s → ∀ q l, (s.procs q).ctl = .run l → prog q l ≠ .panic msg)
    (h0 : s₀.panic = none) (hne : msg ≠ "release") (hr : Lib.Reach (step prog) G s₀ s) :
    s.panic ≠ some msg := by
  refine hr.inv' (I := fun s => s.panic ≠ some msg) (by simp [h0]) ?_
  rintro s ⟨p, x⟩ s' hreach - - hstep
  have hnone := step_panic hstep
  cases step_move hstep with
  | panic hc hi =>
    rintro ⟨⟩
    exact h s hreach p _ hc hi
  | badRelease hb hm =>
    rintro ⟨⟩
    exact hne hm
  | _ => simpa using hnone ▸ nofun

/-- What a step does to another process: nothing, or `wakeup`'s or `kill`'s update. -/
theorem Move.proc_of_ne (h : Move prog s p i s') (hq : q ≠ p) :
    s'.procs q = s.procs q ∨
      (∃ c l, (s.procs p).ctl = .wakeHold c q l ∧ s'.procs q = (s.procs q).wake c) ∨
      (∃ pid f, (s.procs p).ctl = .killHold pid q f ∧ (s.procs q).pid = pid ∧
        s'.procs q = (s.procs q).markKilled) := by
  cases h with
  | wakeHold hc =>
    rename_i c l j
    rcases eq_or_ne q j with rfl | hj
    · exact Or.inr (Or.inl ⟨c, l, hc, by simp [State.goto, hq]⟩)
    · left; simp [State.goto, hq, hj]
  | killHit hc hp =>
    rename_i pid f j
    rcases eq_or_ne q j with rfl | hj
    · exact Or.inr (Or.inr ⟨pid, f, hc, hp, by simp [State.goto, hq]⟩)
    · left; simp [State.goto, hq, hj]
  | _ => left; simp [State.goto, hq]

/-- A step moves no control point but its own. -/
theorem Move.ctl_of_ne (h : Move prog s p i s') (hq : q ≠ p) :
    (s'.procs q).ctl = (s.procs q).ctl := by
  rcases h.proc_of_ne hq with he | ⟨c, l, -, he⟩ | ⟨pid, f, -, -, he⟩ <;> simp [he]

/-- A process inside `killed` was called by its program. -/
theorem killed_from
    (h0 : ∀ q f, (s₀.procs q).ctl ≠ .killedAcquire f ∧ (s₀.procs q).ctl ≠ .killedHold f)
    (hr : Lib.Reach (step prog) G s₀ s) (q : Fin n) (f : Bool → L)
    (hf : (s.procs q).ctl = .killedAcquire f ∨ (s.procs q).ctl = .killedHold f) :
    ∃ l, prog q l = .killed f := by
  revert q f
  refine hr.inv (I := fun s => ∀ q f, (s.procs q).ctl = .killedAcquire f ∨ (s.procs q).ctl = .killedHold f →
    ∃ l, prog q l = .killed f) (fun q f hf => hf.elim (absurd · (h0 q f).1) (absurd · (h0 q f).2)) ?_
  rintro s ⟨p, x⟩ s' hI - hstep q f hf
  have hm := step_move hstep
  rcases eq_or_ne q p with rfl | hq
  · cases hm with
    | @killed l g hc hi =>
      refine ⟨l, ?_⟩
      simp only [goto_self, Ctl.killedAcquire.injEq, reduceCtorEq, or_false] at hf
      rw [← hf]; exact hi
    | @killedAcquire g hc hl =>
      simp only [goto_self, Ctl.killedHold.injEq, reduceCtorEq, false_or] at hf
      exact hI q f (Or.inl (hf ▸ hc))
    | panic hc hi => exact hI q f hf
    | badRelease hb hm => exact hI q f hf
    | _ => simp [State.goto] at hf
  · rw [hm.ctl_of_ne hq] at hf
    exact hI q f hf

/-- A program that never calls `killed` is never inside it. -/
theorem no_killed
    (h : ∀ p l f, prog p l ≠ .killed f)
    (h0 : ∀ q f, (s₀.procs q).ctl ≠ .killedAcquire f ∧ (s₀.procs q).ctl ≠ .killedHold f)
    (hr : Lib.Reach (step prog) G s₀ s) (q : Fin n) (f : Bool → L) :
    (s.procs q).ctl ≠ .killedAcquire f ∧ (s.procs q).ctl ≠ .killedHold f := by
  refine ⟨fun hf => ?_, fun hf => ?_⟩
  · obtain ⟨l, hl⟩ := killed_from h0 hr q f (Or.inl hf)
    exact h q l f hl
  · obtain ⟨l, hl⟩ := killed_from h0 hr q f (Or.inr hf)
    exact h q l f hl

/-- **Every step keeps lock ownership.** -/
theorem LockInv.step (hd : Disciplined prog held) (h : LockInv held s) (hm : Move prog s p i s') :
    LockInv held s' := by
  have hne := fun q (hq : q ≠ p) => hm.ctl_of_ne hq
  have hok := h.ok p
  have hself : ∀ m, s.lock m = some p ↔ (s.procs p).ctl.Holds held p m := h.holder p
  -- `proc q` is none of the locks held at a local state from which `sleep` and the like are called
  have hnp : ∀ {l : L} {m : Lock n K} {j : Fin n}, NoProc held l →
      (held l m ↔ (held l m ∨ m = .proc j) ∧ m ≠ .proc j) := by
    intro l m j hl
    rcases eq_or_ne m (.proc j) with rfl | hm
    · simp [hl j]
    · simp [hm]
  cases hm with
  | acquire hc hi hl =>
    refine h.gain hne (by simp [Ctl.Ok]) hl rfl fun m => ?_
    simpa [Ctl.Holds, hc] using hd.acquire hi m
  | release hc hi hl =>
    refine h.drop hne (by simp [Ctl.Ok]) (by rw [hc]; exact (hd.release hi).1) rfl fun m => ?_
    simpa [Ctl.Holds, hc] using (hd.release hi).2 m
  | act hc hi =>
    refine h.keep hne (by simp [Ctl.Ok]) rfl fun m => ?_
    simpa [Ctl.Holds, hc] using hd.act hi i s.sh m
  | sleep hc hi =>
    obtain ⟨h1, h2, h3⟩ := hd.sleep hi
    refine h.keep hne ?_ rfl fun m => ?_
    · simpa [Ctl.Ok, NoProc, h3] using And.intro h1 h2
    · simpa [Ctl.Holds, hc] using h3 m
  | wakeup hc hi =>
    obtain ⟨h2, h3⟩ := hd.wakeup hi
    refine h.keep hne ?_ rfl fun m => ?_
    · simpa [Ctl.Ok, NoProc, h3] using h2
    · simpa [Ctl.Holds, hc] using h3 m
  | killed hc hi =>
    obtain ⟨h2, h3⟩ := hd.killed hi
    refine h.keep hne ?_ rfl fun m => ?_
    · simpa [Ctl.Ok, NoProc, h3] using h2
    · simpa [Ctl.Holds, hc] using h3 false m
  | kill hc hi =>
    obtain ⟨h2, h3⟩ := hd.kill hi
    refine h.keep hne ?_ rfl fun m => ?_
    · simpa [Ctl.Ok, NoProc, h3] using h2
    · simpa [Ctl.Holds, hc] using h3 false m
  | panic hc hi | badRelease hb hm => exact h.keep hne hok rfl fun m => Iff.rfl
  | sleepAcquire hc hl | sleepOff hc hr hl | wakeAt hc hj hl | killedAcquire hc hl | killAt hc hl =>
    rw [hc] at hok
    exact h.gain hne (by simpa [Ctl.Ok] using hok) hl rfl fun m => by simp [Ctl.Holds, hc]
  | sleepRelease hc hl =>
    rw [hc] at hok
    refine h.drop hne (by simpa [Ctl.Ok] using hok) (by rw [hc]; exact Or.inl hok.1) rfl fun m => ?_
    simp only [goto_self, Ctl.Holds, hc, or_and_right]
    refine or_congr Iff.rfl ⟨fun he => ⟨he, by simp [he]⟩, fun he => he.1⟩
  | sleepSet hc =>
    rw [hc] at hok
    refine h.keep hne (by simpa [Ctl.Ok] using hok) rfl fun m => ?_
    simp [Ctl.Holds, hc]
  | sleepSwtch hc | sleepBack hc =>
    rw [hc] at hok
    refine h.drop hne (by simpa [Ctl.Ok] using hok) (by rw [hc]; exact Or.inr rfl) rfl fun m => ?_
    simp only [goto_self, setProc_procs, update_self, Ctl.Holds, hc, or_and_right, and_assoc, and_not_self,
      or_false]
    exact and_congr_right fun hl => ⟨fun hk => ⟨hk, fun he => hok.2 p (he ▸ hl)⟩, fun hk => hk.1⟩
  | sleepReacquire hc hl =>
    rw [hc] at hok
    refine h.gain hne (by simp [Ctl.Ok]) hl rfl fun m => ?_
    simp only [goto_self, Ctl.Holds, hc]
    rename_i k l
    rcases eq_or_ne m (.mon k) with rfl | hm
    · simp [hok.1]
    · simp [hm]
  | wakeSelf hc =>
    rw [hc] at hok
    exact h.keep hne (by simpa [Ctl.Ok] using hok) rfl fun m => by simp [Ctl.Holds, hc]
  | wakeEnd hc hj | killEnd hc hj =>
    exact h.keep hne (by simp [Ctl.Ok]) rfl fun m => by simp [Ctl.Holds, hc]
  | wakeHold hc =>
    rw [hc] at hok
    refine h.drop hne (by simpa [Ctl.Ok] using hok) (by rw [hc]; exact Or.inr rfl) rfl fun m => ?_
    simpa [Ctl.Holds, hc] using hnp hok
  | killedHold hc | killHit hc hp =>
    rw [hc] at hok
    refine h.drop hne (by simp [Ctl.Ok]) (by rw [hc]; exact Or.inr rfl) rfl fun m => ?_
    simpa [Ctl.Holds, hc, hok.2] using hnp hok.1
  | killMiss hc hp =>
    rw [hc] at hok
    refine h.drop hne (by simpa [Ctl.Ok] using hok) (by rw [hc]; exact Or.inr rfl) rfl fun m => ?_
    simpa [Ctl.Holds, hc] using hnp hok.1

end Xv6.Thread
