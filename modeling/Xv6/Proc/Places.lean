import Xv6.Proc.Cpu

/-!
# What a kernel thread knows about the process table

Where a thread is on a CPU, `p->state` is what the thread has just set it to (`Pc.expects`), its local
variable `p` is its own process, and the places that calls and interrupts return to fit the spin-locks
held (`Pc.WF`). Where no CPU runs it, its saved context holds `p->lock` again when it is resumed
(`Parked`). `acquire_ok`, `release_ok`, `myproc_ok`, `sched_ok` and `act_ok` say what an instruction
does to this: an action changes the thread's own slot, or one whose lock it holds and that is not
`RUNNING` (`Effect`).
-/

namespace Xv6.Cpu

open Thread (PState Lock)

variable {m n : ℕ} {K C : Type} {wl : K} {p q : Fin n}

/-! ### What a thread knows -/

/-- `p->state` while the thread of `p` is at this place. -/
def Pc.expects : Pc n K C → PState
  | .yieldSched _ _ => .runnable
  | .sleepSched _ _ _ _ _ => .sleeping
  | .exitUnlock _ | .exitSched _ => .zombie
  | _ => .running

/-- The slot that `fork` is setting up, and whether its context is set. -/
def Pc.child : Pc n K C → Option (Fin n × Bool)
  | .allocMem _ j => some (j, false)
  | .forkCopy _ j | .forkUnlock _ j | .forkWaitLock _ j | .forkParent _ j | .forkWaitUnlock _ j
  | .forkRunLock _ j | .forkRun _ j => some (j, true)
  | .monLock _ _ b | .monUnlock _ _ b | .yieldEnter b | .yieldAcquire _ b | .yieldSet _ b
  | .yieldSched _ b | .yieldBack _ b | .sleepEnter _ _ _ b | .sleepAcquire _ _ _ _ b
  | .sleepRelease _ _ _ _ b | .sleepSet _ _ _ _ b | .sleepSched _ _ _ _ b | .sleepBack _ _ b
  | .sleepUnlock _ _ b | .sleepReacquire _ b | .wakeAt _ _ _ b | .wakeAcquire _ _ _ b
  | .wakeLook _ _ _ b | .wakeRelease _ _ _ b => b.child
  | _ => none

/-- A place to return to with the locks `ks`, and no `p->lock`, held. -/
def Pc.Returns (wl : K) (p : Fin n) (ks : List K) (l : Pc n K C) : Prop :=
  l.slot p = none ∧ ∀ k, k ∈ l.mons wl ↔ k ∈ ks

/-- The spin-locks that the thread of `p` holds at a place. -/
def Pc.Holds (wl : K) (p : Fin n) (l : Pc n K C) : Lock n K → Prop
  | .mon k => k ∈ l.mons wl
  | .proc j => l.slot p = some j

/-- Slot `j` is being set up by `p`. -/
structure Made (t : Table n K C) (p j : Fin n) (ready : Bool) : Prop where
  used : (t.proc j).state = .used
  maker : (t.proc j).maker = some p
  ready : ready = true → (t.proc j).context = .forkret

/-- Both agree in the fields that the invariant reads. -/
structure Same (x y : Slot n K C) : Prop where
  state : y.state = x.state
  chan : y.chan = x.chan
  trans : y.trans = x.trans
  context : y.context = x.context
  maker : y.maker = x.maker

theorem Same.rfl {x : Slot n K C} : Same x x := ⟨Eq.refl _, Eq.refl _, Eq.refl _, Eq.refl _, Eq.refl _⟩

variable {t t' : Table n K C} {l l' : Pc n K C} {j : Fin n}

theorem Made.frame {r : Bool} (h : Made t p j r) (hs : Same (t.proc j) (t'.proc j)) :
    Made t' p j r :=
  ⟨hs.state.trans h.used, hs.maker.trans h.maker, fun hr => hs.context.trans (h.ready hr)⟩

theorem expects_ne_used : l.expects ≠ .used := by
  cases l <;> exact nofun

theorem Pc.Returns.expects {ks : List K} (h : l.Returns wl p ks) : l.expects = .running := by
  have hs := h.1
  cases l <;> first | rfl | exact nomatch hs

theorem holds_of_mon {k : K} (hs : l'.slot p = l.slot p)
    (hk : ∀ k', k' ∈ l'.mons wl ↔ k' = k ∨ k' ∈ l.mons wl) (ℓ : Lock n K) :
    l'.Holds wl p ℓ ↔ ℓ = .mon k ∨ l.Holds wl p ℓ := by
  cases ℓ with
  | mon k' => simp only [Pc.Holds, hk, Lock.mon.injEq]
  | proc j => simp only [Pc.Holds, hs, reduceCtorEq, false_or]

theorem holds_of_proc {j : Fin n} (hs : l.slot p = none) (hs' : l'.slot p = some j)
    (hk : ∀ k, k ∈ l'.mons wl ↔ k ∈ l.mons wl) (ℓ : Lock n K) :
    l'.Holds wl p ℓ ↔ ℓ = .proc j ∨ l.Holds wl p ℓ := by
  cases ℓ with
  | mon k' => simp only [Pc.Holds, hk, reduceCtorEq, false_or]
  | proc i =>
    simp only [Pc.Holds, hs, hs', Option.some.injEq, Lock.proc.injEq, reduceCtorEq, or_false,
      eq_comm]

theorem holds_of_eq (hs : l'.slot p = l.slot p) (hk : ∀ k, k ∈ l'.mons wl ↔ k ∈ l.mons wl)
    (ℓ : Lock n K) : l'.Holds wl p ℓ ↔ l.Holds wl p ℓ := by
  cases ℓ with
  | mon k => exact hk k
  | proc j => simp only [Pc.Holds, hs]

/-- What is held after `release`, from what `acquire` adds. -/
theorem holds_release {ℓ : Lock n K} (h : ∀ ℓ', l.Holds wl p ℓ' ↔ ℓ' = ℓ ∨ l'.Holds wl p ℓ')
    (hn : ¬ l'.Holds wl p ℓ) :
    l.Holds wl p ℓ ∧ ∀ ℓ', l'.Holds wl p ℓ' ↔ l.Holds wl p ℓ' ∧ ℓ' ≠ ℓ := by
  refine ⟨(h ℓ).2 (.inl rfl), fun ℓ' => ⟨fun h' => ⟨(h ℓ').2 (.inr h'), ?_⟩, ?_⟩⟩
  · rintro rfl
    exact hn h'
  · rintro ⟨h', hne⟩
    exact ((h ℓ').1 h').resolve_left hne

theorem set_proc_of_ne {i : Fin n} (x : Slot n K C) (h : i ≠ j) : (t.set j x).proc i = t.proc i :=
  Function.update_of_ne h _ _

@[simp]
theorem set_proc_self (x : Slot n K C) : (t.set j x).proc j = x := Function.update_self _ _ _

theorem set_same_of_ne {i : Fin n} (x : Slot n K C) (h : i ≠ j) :
    Same (t.proc i) ((t.set j x).proc i) := by
  rw [set_proc_of_ne x h]
  exact .rfl

theorem set_same {x : Slot n K C} (h : Same (t.proc j) x) (i : Fin n) :
    Same (t.proc i) ((t.set j x).proc i) := by
  obtain rfl | hne := eq_or_ne i j
  · rwa [set_proc_self]
  · exact set_same_of_ne x hne

/-- Slot `j`, which no CPU runs, changes its state under its lock; a `USED` one is changed by the
process that sets it up. -/
structure Turn (t t' : Table n K C) (p : Option (Fin n)) (j : Fin n) : Prop where
  idle : (t.proc j).state ≠ .running
  mine : (t.proc j).state = .used → (t.proc j).maker = p
  idle' : (t'.proc j).state ≠ .running
  awake : (t'.proc j).state ≠ .sleeping
  runnable : (t'.proc j).state = .runnable →
    (t'.proc j).context = (t.proc j).context ∧
      ((t.proc j).state = .sleeping ∨ (t.proc j).context = .forkret)

theorem kill_turn {o : Option (Fin n)} :
    Same (t.proc j) (t.proc j).kill ∨ Turn t (t.set j (t.proc j).kill) o j := by
  unfold Slot.kill
  split
  case isTrue h =>
    right
    constructor <;> simp [h]
  case isFalse => exact .inl ⟨rfl, rfl, rfl, rfl, rfl⟩

variable [DecidableEq K]

/-- The local variable `p` is the thread's own process, and calls return with the right locks. -/
def Pc.WF (wl : K) (p : Fin n) : Pc n K C → Prop
  | .monLock k ks b => b.Returns wl p (k :: ks) ∧ b.WF wl p
  | .monUnlock k ks b => k ∈ ks ∧ b.Returns wl p (ks.filter (· ≠ k)) ∧ b.WF wl p
  | .yieldEnter b => b.Returns wl p [] ∧ b.WF wl p
  | .yieldAcquire q b | .yieldSet q b | .yieldSched q b | .yieldBack q b =>
    q = p ∧ b.Returns wl p [] ∧ b.WF wl p
  | .sleepEnter _ k ks b => k ∉ ks ∧ b.Returns wl p (k :: ks) ∧ b.WF wl p
  | .sleepAcquire q _ k ks b | .sleepRelease q _ k ks b | .sleepSet q _ k ks b
  | .sleepSched q _ k ks b => q = p ∧ k ∉ ks ∧ b.Returns wl p (k :: ks) ∧ b.WF wl p
  | .sleepBack q k b | .sleepUnlock q k b => q = p ∧ b.Returns wl p [k] ∧ b.WF wl p
  | .sleepReacquire k b => b.Returns wl p [k] ∧ b.WF wl p
  | .wakeAt _ _ ks b | .wakeAcquire _ _ ks b | .wakeLook _ _ ks b | .wakeRelease _ _ ks b =>
    b.Returns wl p ks ∧ b.WF wl p
  | .forkretRelease q | .allocAt q _ | .allocLook q _ | .allocNext q _ | .allocMem q _
  | .forkCopy q _ | .forkFail q _ | .forkUnlock q _ | .forkWaitLock q _ | .forkParent q _
  | .forkWaitUnlock q _ | .forkRunLock q _ | .forkRun q _ | .forkRunUnlock q _ | .exitTest q
  | .exitFiles q _ | .exitAcquire q | .exitReparent q _ | .exitWake q | .exitLock q | .exitSet q
  | .exitUnlock q | .exitSched q | .waitAcquire q | .waitScan q _ _ | .waitLock q _ | .waitLook q _
  | .waitNext q _ | .waitUnlock q _ | .waitRelease q | .waitKilled q | .waitTest q
  | .waitTested q _ => q = p
  | _ => True

/-- A place at which the scheduler may resume the thread of `p`: `p->lock` is held, and no other. -/
structure Pc.Resumes (wl : K) (p : Fin n) (l : Pc n K C) : Prop where
  slot : l.slot p = some p
  mons : l.mons wl = []
  expects : l.expects = .running

/-- What the thread of `p` relies on at a place, its own state apart. -/
structure Live (wl : K) (t : Table n K C) (p : Fin n) (l : Pc n K C) : Prop where
  wf : l.WF wl p
  made : ∀ j r, l.child = some (j, r) → Made t p j r

/-- The thread of `p` waits in `swtch`. -/
structure Parked (wl : K) (t : Table n K C) (p : Fin n) : Prop where
  live : Live wl t p (t.proc p).context
  resumes : (t.proc p).context.Resumes wl p

/-- A thread keeps what it relies on while the slots that it sets up are left alone. -/
theorem Live.frame (h : Live wl t p l)
    (hs : ∀ j, (t.proc j).state = .used → (t.proc j).maker = some p → Same (t.proc j) (t'.proc j)) :
    Live wl t' p l :=
  ⟨h.wf, fun j r hc => (h.made j r hc).frame (hs j (h.made j r hc).used (h.made j r hc).maker)⟩

theorem Parked.frame (h : Parked wl t p) (hp : (t'.proc p).context = (t.proc p).context)
    (hs : ∀ j, (t.proc j).state = .used → (t.proc j).maker = some p → Same (t.proc j) (t'.proc j)) :
    Parked wl t' p := by
  refine ⟨?_, ?_⟩ <;> rw [hp]
  · exact h.live.frame hs
  · exact h.resumes

/-- A new process is resumed at `forkret`. -/
theorem parked_forkret (h : (t.proc p).context = .forkret) : Parked wl t p := by
  refine ⟨?_, ?_⟩ <;> rw [h]
  · exact ⟨trivial, fun _ _ hc => nomatch hc⟩
  · exact ⟨rfl, rfl, rfl⟩

/-- While the state is not `RUNNING`, the thread holds its own lock. -/
theorem slot_of_expects (hw : l.WF wl p) (h : l.expects ≠ .running) : l.slot p = some p := by
  cases l <;> first
    | exact absurd rfl h
    | exact congrArg some hw.1
    | exact congrArg some hw

/-! ### Instructions -/

/-- The thread of `p` moves from `l` to `l'` and knows no less. -/
structure Goes (wl : K) (p : Fin n) (l l' : Pc n K C) : Prop where
  wf : l'.WF wl p
  expects : l'.expects = l.expects
  child : l'.child = l.child

theorem Goes.live {t t' : Table n K C} (h : Goes wl p l l') (hl : Live wl t p l)
    (hs : ∀ j, (t.proc j).state = .used → (t.proc j).maker = some p → Same (t.proc j) (t'.proc j)) :
    Live wl t' p l' :=
  ⟨h.wf, fun j r hc => (hl.frame hs).made j r (h.child ▸ hc)⟩

/-- What an action of the thread of `p` does to the table: it changes its own slot, or one whose lock
it holds and that is not `RUNNING`. -/
structure Effect (wl : K) (t t' : Table n K C) (p : Fin n) (l l' : Pc n K C) (j : Fin n) : Prop where
  same : ∀ i, i ≠ j → Same (t.proc i) (t'.proc i)
  live : Live wl t' p l'
  own : (t'.proc p).state = l'.expects
  holds : ∀ ℓ, l'.Holds wl p ℓ ↔ l.Holds wl p ℓ
  slept : (t'.proc p).state = .sleeping →
    ∃ c, (t'.proc p).chan = some c ∧ (t'.proc p).trans = .slept p c
  turn : j = p ∨ Same (t.proc j) (t'.proc j) ∨ l.slot p = some j ∧ Turn t t' (some p) j

/-- An action that changes nothing the invariant reads. -/
theorem Effect.keep (hg : Goes wl p l l') (hl : Live wl t p l) (hs : (t.proc p).state = l.expects)
    (k : ∀ ℓ, l'.Holds wl p ℓ ↔ l.Holds wl p ℓ := by exact fun _ => .rfl)
    (s : ∀ i, Same (t.proc i) (t'.proc i) := by exact fun _ => .rfl)
    (hr : l.expects = .running := by rfl) : ∃ j, Effect wl t t' p l l' j := by
  have hown : (t'.proc p).state = l'.expects := by rw [(s p).state, hs, hg.expects]
  refine ⟨p, fun i _ => s i, hg.live hl fun j _ _ => s j, hown, k, fun h => ?_, .inl rfl⟩
  rw [hown, hg.expects, hr] at h
  exact nomatch h

/-- An action that changes the thread's own slot. -/
theorem Effect.self {x : Slot n K C} (hw : l'.WF wl p) (hc : l'.child = l.child)
    (hh : ∀ ℓ, l'.Holds wl p ℓ ↔ l.Holds wl p ℓ) (hl : Live wl t p l)
    (hs : (t.proc p).state = l.expects) (hx : x.state = l'.expects)
    (hslept : x.state = .sleeping → ∃ c, x.chan = some c ∧ x.trans = .slept p c) :
    ∃ j, Effect wl t (t.set p x) p l l' j := by
  have hne : ∀ i, (t.proc i).state = .used → i ≠ p := by
    rintro i hi rfl
    exact expects_ne_used (hs.symm.trans hi)
  refine ⟨p, fun i => set_same_of_ne x, ⟨hw, fun j r hj => ?_⟩, ?_, hh, ?_, .inl rfl⟩
  · exact (hl.frame fun i hi _ => set_same_of_ne x (hne i hi)).made j r (hc ▸ hj)
  · rwa [set_proc_self]
  · rwa [set_proc_self]

/-- An action that changes a slot under its lock. -/
theorem Effect.other (hw : l'.WF wl p) (hs : (t.proc p).state = l.expects)
    (ht : Turn t t' (some p) j) (hc : ∀ i r, l'.child = some (i, r) → Made t' p i r)
    (he : l'.expects = .running := by rfl) (hr : l.expects = .running := by rfl)
    (hh : ∀ ℓ, l'.Holds wl p ℓ ↔ l.Holds wl p ℓ := by exact fun _ => .rfl)
    (hsame : ∀ i, i ≠ j → Same (t.proc i) (t'.proc i) := by exact fun _ => set_same_of_ne _)
    (hj : l.slot p = some j := by rfl) : ∃ j, Effect wl t t' p l l' j := by
  have hne : p ≠ j := by
    rintro rfl
    exact ht.idle (hs.trans hr)
  have hown : (t'.proc p).state = .running := by rw [(hsame p hne).state, hs, hr]
  refine ⟨j, hsame, ⟨hw, hc⟩, hown.trans he.symm, hh, fun h => ?_, .inr (.inr ⟨hj, ht⟩)⟩
  rw [hown] at h
  exact nomatch h

/-- Kernel code outside `proc.c` keeps to the locks that it says it holds. -/
theorem within_ok (wl : K) (p : Fin n) (here : List K → Pc n K C)
    (hslot : ∀ ks, (here ks).slot p = none) (hmons : ∀ ks, (here ks).mons wl = ks)
    (hwf : ∀ ks, (here ks).WF wl p) (hchild : ∀ ks, (here ks).child = none) (ks : List K)
    (x : Input n K C) :
    Goes wl p (here ks) (within here ks x) ∧
      ∀ ℓ, (within here ks x).Holds wl p ℓ ↔ (here ks).Holds wl p ℓ := by
  have hret : ∀ ks, (here ks).Returns wl p ks := fun ks =>
    ⟨hslot ks, fun k => by rw [hmons]⟩
  have hrun : ∀ ks, (here ks).expects = .running := fun ks => (hret ks).expects
  have hid : Goes wl p (here ks) (here ks) ∧ ∀ ℓ, (here ks).Holds wl p ℓ ↔ (here ks).Holds wl p ℓ :=
    ⟨⟨hwf ks, rfl, rfl⟩, fun _ => Iff.rfl⟩
  unfold within
  split
  · refine ⟨⟨⟨hret _, hwf _⟩, (hrun ks).symm, ?_⟩, holds_of_eq (hslot ks).symm fun k => ?_⟩
    · exact (hchild _).trans (hchild ks).symm
    · rw [hmons]
      rfl
  · split
    case isFalse => exact hid
    case isTrue hk =>
      refine ⟨⟨⟨hk, hret _, hwf _⟩, (hrun ks).symm, ?_⟩, holds_of_eq (hslot ks).symm fun k => ?_⟩
      · exact (hchild _).trans (hchild ks).symm
      · rw [hmons]
        rfl
  · split
    case isFalse => exact hid
    case isTrue c k hk =>
      have hmem : ∀ k', k' ∈ k :: ks.filter (· ≠ k) ↔ k' ∈ ks := by
        intro k'
        rw [List.mem_cons, List.mem_filter, decide_eq_true_eq]
        refine ⟨?_, fun h => (eq_or_ne k' k).imp_right fun hne => ⟨h, hne⟩⟩
        rintro (rfl | h)
        · exact hk
        · exact h.1
      refine ⟨⟨⟨?_, ⟨hslot ks, fun k' => ?_⟩, hwf _⟩, (hrun ks).symm, ?_⟩,
        holds_of_eq (hslot ks).symm fun k' => ?_⟩
      · simp
      · rw [hmons]
        exact (hmem k').symm
      · exact rfl
      · rw [hmons]
        exact hmem k'
  · refine ⟨⟨⟨hret _, hwf _⟩, (hrun ks).symm, rfl⟩, holds_of_eq (hslot ks).symm fun k => ?_⟩
    rw [hmons]
    rfl
  · exact hid

variable [DecidableEq C]

omit [DecidableEq K] in
/-- `wakeup` and `kill` touch a slot's state only if it is `SLEEPING`. -/
theorem wake_turn {c : Option (Chan n C)} {o : Option (Fin n)} :
    Same (t.proc j) ((t.proc j).wake c) ∨
      (t.proc j).state = .sleeping ∧ Turn t (t.set j ((t.proc j).wake c)) o j := by
  unfold Slot.wake
  split
  case isTrue h =>
    refine .inr ⟨h.1, ?_⟩
    constructor <;> simp [h.1]
  case isFalse => exact .inl .rfl

/-- `acquire` adds its lock, and nothing else changes. -/
theorem acquire_ok {ℓ : Lock n K} (h : prog wl l = .acquire ℓ l') (hw : l.WF wl p) :
    Goes wl p l l' ∧ ∀ ℓ', l'.Holds wl p ℓ' ↔ ℓ' = ℓ ∨ l.Holds wl p ℓ' := by
  cases l <;> simp only [prog] at h <;> try split at h
  all_goals cases h
  case monLock =>
    exact ⟨⟨hw.2, hw.1.expects, rfl⟩,
      holds_of_mon hw.1.1 fun k' => (hw.1.2 k').trans List.mem_cons⟩
  case sleepReacquire =>
    exact ⟨⟨hw.2, hw.1.expects, rfl⟩, holds_of_mon hw.1.1 fun k' => (hw.1.2 k').trans List.mem_cons⟩
  all_goals first
    | exact ⟨⟨hw, rfl, rfl⟩, holds_of_proc rfl rfl fun _ => Iff.rfl⟩
    | exact ⟨⟨hw, rfl, rfl⟩, holds_of_mon rfl fun _ => List.mem_cons⟩

/-- `release` gives up a lock that is held. -/
theorem release_ok {ℓ : Lock n K} (h : prog wl l = .release ℓ l') (hw : l.WF wl p) :
    Goes wl p l l' ∧ l.Holds wl p ℓ ∧ ∀ ℓ', l'.Holds wl p ℓ' ↔ l.Holds wl p ℓ' ∧ ℓ' ≠ ℓ := by
  cases l <;> simp only [prog] at h <;> try split at h
  all_goals cases h
  case monUnlock k ks =>
    obtain ⟨hk, hr, hb⟩ := hw
    have hmem : ∀ k', k' ∈ l'.mons wl ↔ k' ∈ ks ∧ k' ≠ k := fun k' =>
      (hr.2 k').trans (by rw [List.mem_filter, decide_eq_true_eq])
    refine ⟨⟨hb, hr.expects, rfl⟩, holds_release (holds_of_mon hr.1.symm fun k' => ?_) ?_⟩
    · rw [hmem]
      refine ⟨fun h' => (eq_or_ne k' k).imp_right fun hne => ⟨h', hne⟩, ?_⟩
      rintro (rfl | h')
      · exact hk
      · exact h'.1
    · exact fun h' => ((hmem k).1 h').2 rfl
  case sleepRelease =>
    exact ⟨⟨hw, rfl, rfl⟩, holds_release (holds_of_mon rfl fun _ => List.mem_cons) hw.2.1⟩
  case yieldBack =>
    obtain ⟨rfl, hr, hb⟩ := hw
    refine ⟨⟨hb, hr.expects, rfl⟩, holds_release (holds_of_proc hr.1 rfl fun k => (hr.2 k).symm) ?_⟩
    exact fun h' => nomatch hr.1.symm.trans h'
  case sleepUnlock =>
    exact ⟨⟨hw.2, rfl, rfl⟩, holds_release (holds_of_proc rfl rfl fun _ => Iff.rfl) nofun⟩
  case forkWaitUnlock | exitUnlock | waitRelease =>
    exact ⟨⟨by first | exact hw | trivial, rfl, rfl⟩,
      holds_release (holds_of_mon rfl fun _ => List.mem_cons) List.not_mem_nil⟩
  case waitTested.isFalse =>
    exact ⟨⟨⟨List.not_mem_nil, ⟨rfl, fun _ => Iff.rfl⟩, hw⟩, rfl, rfl⟩,
      holds_release (holds_of_proc rfl rfl fun _ => Iff.rfl) nofun⟩
  all_goals
    exact ⟨⟨by first | exact hw | trivial, rfl, rfl⟩,
      holds_release (holds_of_proc rfl rfl fun _ => Iff.rfl) nofun⟩

/-- `myproc` returns the thread's own process. -/
theorem myproc_ok {g : Option (Fin n) → Pc n K C} (h : prog wl l = .myproc g) (hw : l.WF wl p) :
    Goes wl p l (g (some p)) ∧ ∀ ℓ, (g (some p)).Holds wl p ℓ ↔ l.Holds wl p ℓ := by
  cases l <;> simp only [prog] at h <;> try split at h
  all_goals cases h
  case wakeAt =>
    dsimp only
    split <;> exact ⟨⟨hw, rfl, rfl⟩, fun _ => .rfl⟩
  case yieldEnter | sleepEnter => exact ⟨⟨⟨rfl, hw⟩, rfl, rfl⟩, fun _ => .rfl⟩
  all_goals exact ⟨⟨rfl, rfl, rfl⟩, fun _ => .rfl⟩

/-- `sched` is called with `p->lock` held and `p->state` changed. -/
theorem sched_ok {ks : List K} (h : prog wl l = .sched q ks l') (hw : l.WF wl p) :
    q = p ∧ l.slot p = some p ∧ l.mons wl = ks ∧ l.expects ≠ .running ∧ l'.Resumes wl p ∧
      l'.child = l.child ∧ (ks = [] → l'.WF wl p) := by
  cases l <;> simp only [prog] at h <;> try split at h
  all_goals cases h
  case yieldSched =>
    obtain ⟨rfl, hb⟩ := hw
    exact ⟨rfl, rfl, rfl, nofun, ⟨rfl, rfl, rfl⟩, rfl, fun _ => ⟨rfl, hb⟩⟩
  case sleepSched =>
    obtain ⟨rfl, -, hr, hb⟩ := hw
    refine ⟨rfl, rfl, rfl, nofun, ⟨rfl, rfl, rfl⟩, rfl, ?_⟩
    rintro rfl
    exact ⟨rfl, hr, hb⟩
  case exitSched =>
    obtain rfl := hw
    exact ⟨rfl, rfl, rfl, nofun, ⟨rfl, rfl, rfl⟩, rfl, fun _ => trivial⟩

/-- Every action of a thread changes its own slot, or one under its lock. -/
theorem act_ok {f : Input n K C → Table n K C → Table n K C × Pc n K C} (h : prog wl l = .act f)
    (hl : Live wl t p l) (hs : (t.proc p).state = l.expects) (x : Input n K C) :
    ∃ j, Effect wl t (f x t).1 p l (f x t).2 j := by
  have hw := hl.wf
  cases l <;> simp only [prog] at h
  all_goals try cases h
  all_goals try dsimp only
  case user ks =>
    have hcall : ∀ l' : Pc n K C, l'.WF wl p → l'.expects = .running → l'.child = none →
        l'.mons wl = [] → l'.slot p = none →
        ∃ j, Effect wl t t p (.user ks) (if ks = [] then l' else .user ks) j := by
      intro l' hw' he hc hm hsl
      split
      case isTrue hks =>
        refine Effect.keep ⟨hw', he, hc⟩ hl hs (holds_of_eq hsl fun k => ?_)
        rw [hm, hks]
        rfl
      case isFalse => exact Effect.keep ⟨trivial, rfl, rfl⟩ hl hs
    split
    case h_5 =>
      have hin := within_ok (C := C) wl p .user (fun _ => rfl) (fun _ => rfl) (fun _ => trivial)
        (fun _ => rfl) ks
      exact Effect.keep (hin _).1 hl hs (hin _).2
    all_goals exact hcall _ trivial rfl rfl rfl rfl
  case exitFiles q ks =>
    obtain rfl : q = p := hw
    split
    · split
      case isTrue hks =>
        refine Effect.keep ⟨rfl, rfl, rfl⟩ hl hs (holds_of_eq rfl fun k => ?_)
        rw [hks]
        rfl
      case isFalse => exact Effect.keep ⟨rfl, rfl, rfl⟩ hl hs
    · have hin := within_ok (C := C) wl q (.exitFiles q) (fun _ => rfl) (fun _ => rfl) (fun _ => rfl)
        (fun _ => rfl) ks
      exact Effect.keep (hin _).1 hl hs (hin _).2
  case yieldSet =>
    obtain ⟨rfl, hb⟩ := hw
    exact Effect.self ⟨rfl, hb⟩ rfl (fun _ => .rfl) hl hs rfl nofun
  case sleepSet q c k ks b =>
    obtain ⟨rfl, hb⟩ := hw
    exact Effect.self ⟨rfl, hb⟩ rfl (fun _ => .rfl) hl hs rfl
      fun _ => ⟨c, rfl, rfl⟩
  case sleepBack =>
    obtain ⟨rfl, hb⟩ := hw
    refine Effect.self ⟨rfl, hb⟩ rfl (fun _ => .rfl) hl hs hs fun h => ?_
    exact nomatch hs.symm.trans h
  case wakeAt =>
    split at h
    · cases h
    · cases h
      exact Effect.keep ⟨hw.2, hw.1.expects, rfl⟩ hl hs (holds_of_eq hw.1.1 hw.1.2)
  case wakeLook c j ks b =>
    obtain hx | ⟨hj, hx⟩ := wake_turn (t := t) (j := j) (c := c) (o := some p)
    · exact Effect.keep ⟨hw, rfl, rfl⟩ hl hs (s := set_same hx)
    · refine Effect.other hw hs hx fun i r hc => ?_
      have hm := hl.made i r hc
      refine hm.frame (set_same_of_ne _ ?_)
      rintro rfl
      exact nomatch hm.used.symm.trans hj
  case killAt =>
    split at h
    · cases h
    · cases h
      exact Effect.keep ⟨trivial, rfl, rfl⟩ hl hs
  case killLook pid j =>
    split
    · obtain hx | hx := kill_turn (t := t) (j := j) (o := some p)
      · exact Effect.keep ⟨hw, rfl, rfl⟩ hl hs (s := set_same hx)
      · exact Effect.other hw hs hx nofun
    · exact Effect.keep ⟨hw, rfl, rfl⟩ hl hs
  case allocAt =>
    split at h
    · cases h
    · cases h
      exact Effect.keep ⟨trivial, rfl, rfl⟩ hl hs
  case allocLook q j =>
    obtain rfl : q = p := hw
    split
    case isTrue hj =>
      refine Effect.other (j := j) rfl hs ?_ ?_
      · constructor <;> simp [hj]
      · rintro i r ⟨⟩
        constructor <;> simp
    case isFalse => exact Effect.keep ⟨rfl, rfl, rfl⟩ hl hs
  case allocMem q j =>
    obtain rfl : q = p := hw
    have hm := hl.made j false rfl
    split
    · refine Effect.other (j := j) rfl hs ?_ nofun
      constructor <;> simp [Slot.freeproc, hm.used, hm.maker]
    · refine Effect.other (j := j) rfl hs ?_ ?_
      · constructor <;> simp [hm.used, hm.maker]
      · rintro i r ⟨⟩
        constructor <;> simp [hm.used, hm.maker]
  case forkCopy q j =>
    obtain rfl : q = p := hw
    have hm := hl.made j true rfl
    split
    · refine Effect.other (j := j) rfl hs ?_ nofun
      constructor <;> simp [Slot.freeproc, hm.used, hm.maker]
    · exact Effect.keep ⟨rfl, rfl, rfl⟩ hl hs
  case forkParent =>
    exact Effect.keep ⟨hw, rfl, rfl⟩ hl hs (s := set_same ⟨rfl, rfl, rfl, rfl, rfl⟩)
  case forkRun q j =>
    obtain rfl : q = p := hw
    have hm := hl.made j true rfl
    refine Effect.other (j := j) rfl hs ?_ nofun
    constructor <;> simp [hm.used, hm.maker, hm.ready]
  case exitTest =>
    split <;>
      exact Effect.keep ⟨by first | exact hw | trivial, rfl, rfl⟩ hl hs
  case exitReparent =>
    split
    · split
      · exact Effect.keep ⟨⟨⟨rfl, fun _ => Iff.rfl⟩, hw⟩, rfl, rfl⟩ hl hs (s := set_same ⟨rfl, rfl, rfl, rfl, rfl⟩)
      · exact Effect.keep ⟨hw, rfl, rfl⟩ hl hs
    · exact Effect.keep ⟨hw, rfl, rfl⟩ hl hs
  case exitWake =>
    exact Effect.keep ⟨⟨⟨rfl, fun _ => Iff.rfl⟩, hw⟩, rfl, rfl⟩ hl hs
  case exitSet =>
    obtain rfl := hw
    exact Effect.self rfl rfl (fun _ => .rfl) hl hs rfl nofun
  case waitScan =>
    split_ifs <;>
      exact Effect.keep ⟨hw, rfl, rfl⟩ hl hs
  case waitLook q j =>
    split
    case isTrue hj =>
      split
      · exact Effect.keep ⟨hw, rfl, rfl⟩ hl hs
      · refine Effect.other (j := j) hw hs ?_ nofun
        constructor <;> simp [Slot.freeproc, hj]
    case isFalse => exact Effect.keep ⟨hw, rfl, rfl⟩ hl hs
  case waitTest =>
    exact Effect.keep ⟨hw, rfl, rfl⟩ hl hs

end Xv6.Cpu
