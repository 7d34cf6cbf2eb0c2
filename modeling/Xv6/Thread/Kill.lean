import Xv6.Thread.Wakeup

/-!
# Killed processes and `sleep`

A killable wait tests `killed` and then calls `sleep`. `kill` sets `p->killed` and wakes the
victim if it is `SLEEPING`, under `p->lock` alone. The test gives `p->lock` back, and `sleep`
takes it again, so a `kill` that comes in between finds nobody to wake.

`Win l sh` says that a process at the local state `l` has passed its last test and will call
`sleep` (`Tests`). If no `kill` hits a process in there (`KillsAwake`), no killed process
is asleep (`no_killed_sleeper`).
-/

namespace Xv6.Thread

open Function Lib

variable {n : ℕ} {K C σ ι L : Type} [DecidableEq K] [DecidableEq C]
variable {prog : Fin n → L → Instr n K C σ ι L} {s s' : State n K C σ L} {p q : Fin n} {i : ι}
variable {held : L → Lock n K → Prop} {Win : L → σ → Prop}

/-- Every `sleep` is called from `Win`, and `Win` is entered only by a test of `killed` that
came out false. -/
structure Tests (prog : Fin n → L → Instr n K C σ ι L) (held : L → Lock n K → Prop)
    (Win : L → σ → Prop) : Prop where
  sleep : ∀ {p l c k l'}, prog p l = .sleep c k l' → ∀ sh, Win l sh ∧ ¬ Win l' sh
  acquire : ∀ {p l ℓ l'}, prog p l = .acquire ℓ l' → ∀ sh, Win l' sh → Win l sh
  release : ∀ {p l ℓ l'}, prog p l = .release ℓ l' → ∀ sh, Win l' sh → Win l sh
  act : ∀ {p l f}, prog p l = .act f → ∀ x sh, Win (f x sh).2 (f x sh).1 → Win l sh
  /-- Nobody else puts a process into `Win`. -/
  stable : ∀ {p l f}, prog p l = .act f → ∀ x sh l', (∀ m, held l' m → ¬ held l m) →
    Win l' (f x sh).1 → Win l' sh
  wakeup : ∀ {p l c l'}, prog p l = .wakeup c l' → ∀ sh, Win l' sh → Win l sh
  killed : ∀ {p l f}, prog p l = .killed f → ∀ sh, ¬ Win (f true) sh
  kill : ∀ {p l pid f}, prog p l = .kill pid f → ∀ b sh, ¬ Win (f b) sh

/-- The instruction at `l` sleeps only where `doze` says, and comes to such a place only by a test of
`killed` that came out false. -/
def Instr.Rests (doze : L → Prop) (l : L) : Instr n K C σ ι L → Prop
  | .sleep _ _ l' => doze l ∧ ¬ doze l'
  | .acquire _ l' | .release _ l' | .wakeup _ l' => ¬ doze l'
  | .act f => ∀ x sh, ¬ doze (f x sh).2
  | .killed f => ¬ doze (f true)
  | .kill _ f => ∀ b, ¬ doze (f b)
  | .panic _ => True

omit [DecidableEq K] [DecidableEq C] in
/-- A program of such instructions, whatever the data. -/
theorem Tests.of_rests {doze : L → Prop} (h : ∀ p l, (prog p l).Rests doze l) :
    Tests prog held fun l _ => doze l := by
  have hr : ∀ {p l i}, prog p l = i → i.Rests doze l := fun hi => hi ▸ h _ _
  exact {
    sleep := fun hi _ => hr hi
    acquire := fun hi _ hd => absurd hd (hr hi)
    release := fun hi _ hd => absurd hd (hr hi)
    act := fun hi x sh hd => absurd hd (hr hi x sh)
    stable := fun _ _ _ _ _ hd => hd
    wakeup := fun hi _ hd => absurd hd (hr hi)
    killed := fun hi _ => hr hi
    kill := fun hi b _ => hr hi b }

/-- Between the test of `killed` and `acquire(&p->lock)` in `sleep`. -/
def Ctl.BeforeSleep (Win : L → σ → Prop) (sh : σ) : Ctl n K C L → Prop
  | .run l | .wakeAt _ _ l | .wakeHold _ _ l => Win l sh
  | .sleepAcquire _ _ _ => True
  | _ => False

/-- Between the test of `killed` and giving up the CPU. -/
def Ctl.Dozes (Win : L → σ → Prop) (sh : σ) : Ctl n K C L → Prop
  | .sleepRelease _ _ _ | .sleepSet _ _ _ | .sleepSwtch _ _ _ => True
  | c => c.BeforeSleep Win sh

/-- The local state of a process that is not inside a function of `proc.c`. -/
def Ctl.pc : Ctl n K C L → Option L
  | .run l => some l
  | _ => none

omit [DecidableEq K] [DecidableEq C] in
theorem Ctl.pc_eq_some {c : Ctl n K C L} {l : L} : c.pc = some l ↔ c = .run l := by
  cases c <;> simp [Ctl.pc]

/-- If the next step is the one in which `kill` marks its victim, the victim is not about to sleep. -/
def KillsAwake (Win : L → σ → Prop) (s : State n K C σ L) (a : Fin n × ι) : Prop :=
  ∀ pid j f, (s.procs a.1).ctl = .killHold pid j f → (s.procs j).pid = pid →
    ¬ (s.procs j).ctl.BeforeSleep Win s.sh

/-- What is known of the continuations that control points carry. -/
def Ctl.NextOk (Win : L → σ → Prop) : Ctl n K C L → Prop
  | .sleepAcquire _ _ l | .sleepRelease _ _ l | .sleepSet _ _ l | .sleepSwtch _ _ l | .sleepOff _ _ l
  | .sleepBack _ _ l | .sleepReacquire _ _ l => ∀ sh, ¬ Win l sh
  | .killedAcquire f | .killedHold f => ∀ sh, ¬ Win (f true) sh
  | .killAt _ _ f | .killHold _ _ f => ∀ b sh, ¬ Win (f b) sh
  | _ => True

/-- **A killed process does not doze.** -/
structure KillInv (Win : L → σ → Prop) (s : State n K C σ L) : Prop where
  next : ∀ q, (s.procs q).ctl.NextOk Win
  killed : ∀ q, (s.procs q).killed = true →
    ¬ (s.procs q).ctl.Dozes Win s.sh ∧ (s.procs q).state ≠ .sleeping

omit [DecidableEq K] [DecidableEq C] in
theorem KillInv.start {l : L} {sh : σ} : KillInv Win (start l sh : State n K C σ L) :=
  ⟨fun _ => trivial, fun _ hk => by cases hk⟩

/-- Other processes: a step may mark them killed, but not while they are about to sleep. -/
theorem KillInv.other (hl : LockInv held s) (hg : KillsAwake Win s (p, i)) (h : KillInv Win s)
    (hm : Move prog s p i s') (hq : q ≠ p)
    (hsh : (s.procs q).ctl.Dozes Win s'.sh → (s.procs q).ctl.Dozes Win s.sh)
    (hk : (s'.procs q).killed = true) :
    ¬ (s'.procs q).ctl.Dozes Win s'.sh ∧ (s'.procs q).state ≠ .sleeping := by
  have hctl := hm.ctl_of_ne hq
  rw [hctl]
  rcases hm.proc_of_ne hq with he | ⟨c, l, -, he⟩ | ⟨pid, f, hc, hpid, he⟩
  · rw [he] at hk ⊢
    obtain ⟨h1, h2⟩ := h.killed q hk
    exact ⟨fun hd => h1 (hsh hd), h2⟩
  · rw [he, wake_killed] at hk
    obtain ⟨h1, h2⟩ := h.killed q hk
    exact ⟨fun hd => h1 (hsh hd), fun hst => h2 (wake_state _ _ (he ▸ hst)).1⟩
  · refine ⟨fun hd => ?_, by rw [he]; exact markKilled_state _⟩
    have hd' := hsh hd
    -- `p` holds the victim's lock, so the victim is not inside `sleep` with it
    have hmine : (s.procs p).ctl.Holds held p (.proc q) := by rw [hc]; exact Or.inr rfl
    have hno : ¬ (s.procs q).ctl.Holds held q (.proc q) := fun hh => hq (hl.unique hh hmine)
    have hb := hg pid q f hc hpid
    cases hcq : (s.procs q).ctl with
    | sleepRelease c k l | sleepSet c k l | sleepSwtch c k l => rw [hcq] at hno; exact hno (Or.inr rfl)
    | _ => rw [hcq] at hd' hb; exact hb hd'

/-- A step of `p` itself that leaves its `killed` and its state alone. -/
theorem KillInv.self (hl : LockInv held s) (hg : KillsAwake Win s (p, i)) (h : KillInv Win s)
    (hm : Move prog s p i s') (hkill : (s'.procs p).killed = true →
      ¬ (s'.procs p).ctl.Dozes Win s.sh ∧ (s'.procs p).state ≠ .sleeping)
    (hnext : (s'.procs p).ctl.NextOk Win := by simp [Ctl.NextOk]) (hsh : s'.sh = s.sh := by rfl) :
    KillInv Win s' := by
  refine ⟨fun q => ?_, fun q hk => ?_⟩
  · rcases eq_or_ne q p with rfl | hq
    · exact hnext
    · rw [hm.ctl_of_ne hq]; exact h.next q
  · rcases eq_or_ne q p with rfl | hq
    · rw [hsh]; exact hkill hk
    · exact h.other hl hg hm hq (by rw [hsh]; exact id) hk

omit [DecidableEq K] [DecidableEq C] in
/-- An action of `p` does not make another process doze. -/
theorem Tests.dozes (ht : Tests prog held Win) (hl : LockInv held s) {l : L} {f : ι → σ → σ × L}
    (hc : (s.procs p).ctl = .run l) (hi : prog p l = .act f) (hq : q ≠ p)
    (hd : (s.procs q).ctl.Dozes Win (f i s.sh).1) : (s.procs q).ctl.Dozes Win s.sh := by
  have hex : ∀ l', (∀ m, held l' m → (s.procs q).ctl.Holds held q m) → ∀ m, held l' m → ¬ held l m :=
    fun l' hl' m h1 h2 =>
      hq (hl.unique (hl' m h1) (show (s.procs p).ctl.Holds held p m by rw [hc]; exact h2))
  cases hcq : (s.procs q).ctl with
  | run l' | wakeAt c j l' =>
    rw [hcq] at hd hex
    exact ht.stable hi i s.sh l' (hex l' fun _ => id) hd
  | wakeHold c j l' =>
    rw [hcq] at hd hex
    exact ht.stable hi i s.sh l' (hex l' fun _ => Or.inl) hd
  | _ => rw [hcq] at hd; exact hd

theorem KillInv.step (ht : Tests prog held Win) (hl : LockInv held s) (hg : KillsAwake Win s (p, i))
    (h : KillInv Win s) (hm : Move prog s p i s') : KillInv Win s' := by
  have hm' := hm
  have hn := h.next p
  have hk := h.killed p
  cases hm with
  | acquire hc hi hf =>
    rw [hc] at hk
    refine h.self hl hg hm' ?_
    simp only [goto_self, setLock_procs]
    exact fun hkp => ⟨fun hd => (hk hkp).1 (ht.acquire hi _ hd), (hk hkp).2⟩
  | release hc hi hf =>
    rw [hc] at hk
    refine h.self hl hg hm' ?_
    simp only [goto_self, setLock_procs]
    exact fun hkp => ⟨fun hd => (hk hkp).1 (ht.release hi _ hd), (hk hkp).2⟩
  | act hc hi =>
    refine ⟨fun q => ?_, fun q hkq => ?_⟩
    · rcases eq_or_ne q p with rfl | hq
      · simp [Ctl.NextOk]
      · rw [hm'.ctl_of_ne hq]; exact h.next q
    · rcases eq_or_ne q p with rfl | hq
      · rw [hc] at hk
        simp only [goto_self] at hkq ⊢
        exact ⟨fun hd => (hk hkq).1 (ht.act hi i s.sh hd), (hk hkq).2⟩
      · exact h.other hl hg hm' hq (ht.dozes hl hc hi hq) hkq
  | sleep hc hi =>
    rw [hc] at hk
    refine h.self hl hg hm' ?_ ?_
    · -- it was in `Win`, so it was not killed
      simp only [goto_self]
      exact fun hkp => absurd (ht.sleep hi s.sh).1 (hk hkp).1
    · simp only [goto_self]
      exact fun sh => (ht.sleep hi sh).2
  | wakeup hc hi =>
    rw [hc] at hk
    refine h.self hl hg hm' ?_
    simp only [goto_self]
    exact fun hkp => ⟨fun hd => (hk hkp).1 (ht.wakeup hi _ hd), (hk hkp).2⟩
  | killed hc hi =>
    refine h.self hl hg hm' ?_ (by simpa [Ctl.NextOk] using ht.killed hi)
    simp only [goto_self]
    exact fun hkp => ⟨fun hd => hd, (hk hkp).2⟩
  | kill hc hi =>
    refine h.self hl hg hm' ?_ (by simpa [Ctl.NextOk] using ht.kill hi)
    simp only [goto_self]
    exact fun hkp => ⟨fun hd => hd, (hk hkp).2⟩
  | panic hc hi | badRelease hb hm => exact ⟨h.next, h.killed⟩
  | sleepAcquire hc hf | sleepRelease hc hf | sleepSet hc | sleepSwtch hc =>
    rw [hc] at hk hn
    refine h.self hl hg hm' ?_ (by simpa [Ctl.NextOk] using hn)
    simp only [goto_self, setLock_procs, setProc_procs, update_self]
    exact fun hkp => absurd trivial (hk hkp).1
  | sleepOff hc hr hf =>
    rw [hc] at hn
    refine h.self hl hg hm' ?_ (by simpa [Ctl.NextOk] using hn)
    simp only [setProc_procs, update_self]
    exact fun hkp => ⟨fun hd => hd, by simp⟩
  | sleepReacquire hc hf =>
    rw [hc] at hn
    refine h.self hl hg hm' ?_
    simp only [goto_self, setLock_procs]
    exact fun hkp => ⟨fun hd => hn _ hd, (hk hkp).2⟩
  | wakeSelf hc | wakeEnd hc hj | wakeAt hc hj hf =>
    rw [hc] at hk
    refine h.self hl hg hm' ?_
    simp only [goto_self, setLock_procs]
    exact fun hkp => hk hkp
  | wakeHold hc =>
    rename_i c l j
    rw [hc] at hk
    refine h.self hl hg hm' ?_
    simp only [goto_self, setProc_procs, setLock_procs]
    rcases eq_or_ne p j with rfl | hj
    · simp only [update_self, wake_killed]
      exact fun hkp => ⟨(hk hkp).1, fun hst => (hk hkp).2 (wake_state _ _ hst).1⟩
    · rw [update_of_ne hj]
      exact hk
  | sleepBack hc | killedAcquire hc hf | killAt hc hf | killMiss hc hp =>
    rw [hc] at hn
    refine h.self hl hg hm' ?_ (by simpa [Ctl.NextOk] using hn)
    simp only [goto_self, setLock_procs, setProc_procs, update_self]
    exact fun hkp => ⟨fun hd => hd, (hk hkp).2⟩
  | killedHold hc =>
    rw [hc] at hn
    refine h.self hl hg hm' ?_
    simp only [goto_self, setLock_procs]
    intro hkp
    rw [hkp]
    exact ⟨fun hd => hn _ hd, (hk hkp).2⟩
  | killEnd hc hj =>
    rw [hc] at hn
    refine h.self hl hg hm' ?_
    simp only [goto_self]
    exact fun hkp => ⟨fun hd => hn _ _ hd, (hk hkp).2⟩
  | killHit hc hp =>
    rename_i pid f j
    rw [hc] at hn
    refine h.self hl hg hm' ?_
    simp only [goto_self, setProc_procs, setLock_procs]
    rcases eq_or_ne p j with rfl | hj
    · simp only [update_self]
      exact fun _ => ⟨fun hd => hn _ _ hd, markKilled_state _⟩
    · rw [update_of_ne hj]
      exact fun hkp => ⟨fun hd => hn _ _ hd, (hk hkp).2⟩

/-- **No killed process is asleep**, in any run in which no `kill` hits a process between its
test of `killed` and `sleep`. -/
theorem no_killed_sleeper {l : L} {sh : σ} (hd : Disciplined prog held) (hl : ∀ m, ¬ held l m)
    (ht : Tests prog held Win) (hr : Reach (step prog) (KillsAwake Win) (start l sh) s) (q : Fin n) :
    ¬ ((s.procs q).state = .sleeping ∧ (s.procs q).killed = true) := by
  have hinv : LockInv held s ∧ KillInv Win s := by
    refine hr.inv (I := fun s => LockInv held s ∧ KillInv Win s) ⟨.start hl, .start⟩ ?_
    rintro s ⟨p, x⟩ s' ⟨hlk, hk⟩ hg hstep
    have hm := step_move hstep
    exact ⟨hlk.step hd hm, hk.step ht hlk hg hm⟩
  exact fun ⟨hst, hk⟩ => (hinv.2.killed q hk).2 hst

end Xv6.Thread
