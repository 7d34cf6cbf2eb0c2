import Xv6.Proc.Places

/-!
# A process runs on at most one CPU

Between `acquire(&p->lock)` on one side of `swtch` and `release(&p->lock)` on the other, `p->state`
and `c->proc` do not fit together. What does hold at every step is said per place of the code; the
invariant `Inv` collects it for every CPU and every slot. A step changes at most one slot that others
read. It is the thread's own, or one whose lock it holds and which no CPU runs, so the other threads
keep what they know (`Inv.step`, `Inv.change`).

* `inv_step`: every step of every CPU keeps the invariant.
* `one_cpu`: where `p->lock` is free, `p` is `RUNNING` exactly if exactly one CPU has it as `c->proc`.
-/

namespace Xv6.Cpu

open Function (update update_eq_self update_of_ne update_self)
open Thread (PState Lock)

variable {m n : ℕ} {K C : Type} {wl : K} {p q : Fin n}

/-! ### The invariant -/

/-- The slot whose lock a scheduler holds. -/
def SPc.slot : SPc n C → Option (Fin n)
  | .test j | .swtch j | .back j | .release j | .wakeLook _ j _ | .wakeRelease _ j _ => some j
  | _ => none

/-- The spin-locks that a CPU holds; `p` is the process whose thread it runs. -/
def Code.Holds (wl : K) (p : Fin n) : Code n K C → Lock n K → Prop
  | .thread l, ℓ => l.Holds wl p ℓ
  | .sched l, .proc j => l.slot = some j
  | .sched _, .mon _ => False

/-- `c->proc`, from where CPU `c` is. -/
def Code.proc (p : Fin n) : Code n K C → Option (Fin n)
  | .sched (.swtch j) | .sched (.back j) => some j
  | .sched _ => none
  | .thread _ => some p

/-- No CPU runs `p`, the one that has just left it apart. -/
def Resting (s : State m n K C) (p : Fin n) : Prop :=
  ∀ c, s.cproc c = some p → s.on c = .sched (.back p)

variable [DecidableEq K]

/-- What holds of a process that no CPU runs. -/
structure RestOk (wl : K) (t : Table n K C) (p : Fin n) : Prop where
  idle : (t.proc p).state ≠ .running
  parked : (t.proc p).state = .runnable ∨ (t.proc p).state = .sleeping → Parked wl t p

/-- A sleeping process is asleep by its own call of `sleep`. -/
def Slept (t : Table n K C) (p : Fin n) : Prop :=
  (t.proc p).state = .sleeping → ∃ c, (t.proc p).chan = some c ∧ (t.proc p).trans = .slept p c

structure Inv (wl : K) (s : State m n K C) : Prop where
  locks : ∀ ℓ c, s.lock ℓ = some c ↔ (s.on c).Holds wl (s.saved c) ℓ
  cproc : ∀ c, s.cproc c = (s.on c).proc (s.saved c)
  uniq : ∀ c c' p, s.cproc c = some p → s.cproc c' = some p → c = c'
  live : ∀ c l, s.on c = .thread l → Live wl s.table (s.saved c) l
  own : ∀ c l, s.on c = .thread l → (s.table.proc (s.saved c)).state = l.expects
  swtch : ∀ c j, s.on c = .sched (.swtch j) →
    (s.table.proc j).state = .running ∧ Parked wl s.table j
  rest : ∀ p, Resting s p → RestOk wl s.table p
  slept : ∀ p, Slept s.table p

section invariant

variable {s s' : State m n K C} {c : Fin m}

variable {t : Table n K C}

omit [DecidableEq K] in
theorem Slept.frame {t' : Table n K C} (h : Slept t p) (hs : Same (t.proc p) (t'.proc p)) :
    Slept t' p := by
  intro hp
  rw [hs.chan, hs.trans]
  exact h (hs.state ▸ hp)

theorem RestOk.frame {t' : Table n K C} (h : RestOk wl t p) (hp : Same (t.proc p) (t'.proc p))
    (hs : ∀ j, (t.proc j).state = .used → (t.proc j).maker = some p → Same (t.proc j) (t'.proc j)) :
    RestOk wl t' p := by
  refine ⟨hp.state ▸ h.idle, fun hr => (h.parked ?_).frame hp.context hs⟩
  rwa [hp.state] at hr

/-- A step that takes CPU `c` to `l`, with the thread of `q` and `c->proc` as given, keeps the
invariant if it does so for `c` and for the slots it changes: those are not run by other CPUs, and a
slot that is being set up is changed by the one who does it. -/
theorem Inv.step (hi : Inv wl s) {k : Lock n K → Option (Fin m)} {l : Code n K C}
    {o : Option (Fin n)} (hmine : ∀ ℓ, k ℓ = some c ↔ l.Holds wl q ℓ)
    (hlock : ∀ ℓ c', c' ≠ c → (k ℓ = some c' ↔ s.lock ℓ = some c')) (hcp : o = l.proc q)
    (huniq : ∀ c' p, c' ≠ c → o = some p → s.cproc c' ≠ some p)
    (hsame : ∀ c' p, c' ≠ c → s.cproc c' = some p → Same (s.table.proc p) (t.proc p))
    (hmade : ∀ j p, (s.table.proc j).state = .used → (s.table.proc j).maker = some p →
      s.cproc c = some p ∨ Same (s.table.proc j) (t.proc j))
    (hlive : ∀ l', l = .thread l' → Live wl t q l' ∧ (t.proc q).state = l'.expects)
    (hswtch : ∀ j, l = .sched (.swtch j) → (t.proc j).state = .running ∧ Parked wl t j)
    (hrest : ∀ p, (o = some p → l = .sched (.back p)) →
      (∀ c', c' ≠ c → s.cproc c' = some p → s.on c' = .sched (.back p)) →
      RestOk wl t p ∨ s.cproc c ≠ some p ∧ Same (s.table.proc p) (t.proc p))
    (hslept : ∀ p, Slept t p ∨ Same (s.table.proc p) (t.proc p)) :
    Inv wl { s with
      table := t, lock := k, on := update s.on c l, saved := update s.saved c q
      cproc := update s.cproc c o } := by
  have hframe : ∀ p, s.cproc c ≠ some p → ∀ j, (s.table.proc j).state = .used →
      (s.table.proc j).maker = some p → Same (s.table.proc j) (t.proc j) :=
    fun p hp j hu hm => (hmade j p hu hm).resolve_left hp
  -- a process on another CPU is not the one on `c`
  have hne : ∀ c' p, c' ≠ c → s.cproc c' = some p → s.cproc c ≠ some p :=
    fun c' p hc hp h => hc (hi.uniq c' c p hp h)
  constructor <;> dsimp only
  case locks =>
    intro ℓ c'
    obtain rfl | hc := eq_or_ne c' c
    · rw [update_self, update_self, hmine]
    · rw [update_of_ne hc, update_of_ne hc, hlock ℓ c' hc, hi.locks]
  case cproc =>
    intro c'
    obtain rfl | hc := eq_or_ne c' c
    · rw [update_self, update_self, update_self, hcp]
    · rw [update_of_ne hc, update_of_ne hc, update_of_ne hc, hi.cproc]
  case uniq =>
    intro c₁ c₂ p h₁ h₂
    obtain rfl | hc₁ := eq_or_ne c₁ c <;> obtain rfl | hc₂ := eq_or_ne c₂ c₁
    · rfl
    · rw [update_self] at h₁
      rw [update_of_ne hc₂] at h₂
      exact absurd h₂ (huniq c₂ p hc₂ h₁)
    · rfl
    · rw [update_of_ne hc₁] at h₁
      obtain rfl | hc := eq_or_ne c₂ c
      · rw [update_self] at h₂
        exact absurd h₁ (huniq c₁ p hc₁ h₂)
      · rw [update_of_ne hc] at h₂
        exact hi.uniq c₁ c₂ p h₁ h₂
  case live =>
    intro c' l' hl
    obtain rfl | hc := eq_or_ne c' c
    · rw [update_self] at hl ⊢
      exact (hlive l' hl).1
    · rw [update_of_ne hc] at hl ⊢
      have hp : s.cproc c' = some (s.saved c') := by rw [hi.cproc, hl]; rfl
      exact (hi.live c' l' hl).frame (hframe _ (hne c' _ hc hp))
  case own =>
    intro c' l' hl
    obtain rfl | hc := eq_or_ne c' c
    · rw [update_self] at hl ⊢
      exact (hlive l' hl).2
    · rw [update_of_ne hc] at hl ⊢
      have hp : s.cproc c' = some (s.saved c') := by rw [hi.cproc, hl]; rfl
      rw [(hsame c' _ hc hp).state]
      exact hi.own c' l' hl
  case swtch =>
    intro c' j hj
    obtain rfl | hc := eq_or_ne c' c
    · rw [update_self] at hj
      exact hswtch j hj
    · rw [update_of_ne hc] at hj
      have hp : s.cproc c' = some j := by rw [hi.cproc, hj]; rfl
      have hs := hsame c' j hc hp
      obtain ⟨hr, hk⟩ := hi.swtch c' j hj
      exact ⟨hs.state.trans hr, hk.frame hs.context (hframe j (hne c' j hc hp))⟩
  case rest =>
    intro p hp
    have hc : o = some p → l = .sched (.back p) := by simpa only [update_self] using hp c
    have hothers : ∀ c', c' ≠ c → s.cproc c' = some p → s.on c' = .sched (.back p) :=
      fun c' hc => by simpa only [update_of_ne hc] using hp c'
    obtain h | ⟨hne, hs⟩ := hrest p hc hothers
    · exact h
    · refine (hi.rest p fun c' h => ?_).frame hs (hframe p hne)
      obtain rfl | hc := eq_or_ne c' c
      · exact absurd h hne
      · exact hothers c' hc h
  case slept => exact fun p => (hslept p).elim id fun h => (hi.slept p).frame h

variable {j : Fin n}

/-- No other CPU runs a process that is not `RUNNING` and whose lock is taken here. -/
theorem Inv.not_on (hi : Inv wl s) (hj : s.lock (.proc j) = some c)
    (hr : (s.table.proc j).state ≠ .running) {c' : Fin m} (hc : c' ≠ c) : s.cproc c' ≠ some j := by
  intro hp
  have hnot : ¬ (s.on c').Holds wl (s.saved c') (.proc j) := fun h =>
    hc (Option.some.inj (((hi.locks _ _).2 h).symm.trans hj))
  rw [hi.cproc] at hp
  cases hl : s.on c' with
  | thread l =>
    obtain rfl : s.saved c' = j := Option.some.inj (by rwa [hl] at hp)
    rw [hi.own c' l hl] at hr
    rw [hl] at hnot
    exact hnot (slot_of_expects (hi.live c' l hl).wf hr)
  | sched l =>
    rw [hl] at hp hnot
    cases l with
    | swtch i =>
      cases hp
      exact hr (hi.swtch c' j hl).1
    | back i =>
      cases hp
      exact hnot rfl
    | _ => exact nomatch hp

/-- A step of CPU `c` that stays with its process, or with the scheduler. -/
theorem Inv.change (hi : Inv wl s) {lock : Lock n K → Option (Fin m)} {l : Code n K C}
    (hmine : ∀ ℓ, lock ℓ = some c ↔ l.Holds wl (s.saved c) ℓ)
    (hlock : ∀ ℓ c', c' ≠ c → (lock ℓ = some c' ↔ s.lock ℓ = some c'))
    (hl : ∀ i, l ≠ .sched (.swtch i) ∧ l ≠ .sched (.back i))
    (hproc : s.cproc c = l.proc (s.saved c))
    (hsame : ∀ i, i ≠ j → Same (s.table.proc i) (t.proc i))
    (hj : (s.cproc c = some j ∧ (s.table.proc j).state ≠ .used ∧ Slept t j) ∨
      Same (s.table.proc j) (t.proc j) ∨
      s.lock (.proc j) = some c ∧ Turn s.table t (s.cproc c) j)
    (hlive : ∀ l', l = .thread l' →
      Live wl t (s.saved c) l' ∧ (t.proc (s.saved c)).state = l'.expects) :
    Inv wl { s with table := t, lock := lock, on := update s.on c l } := by
  suffices h : Inv wl { s with
      table := t, lock, on := update s.on c l, saved := update s.saved c (s.saved c)
      cproc := update s.cproc c (s.cproc c) } by
    simpa only [update_eq_self] using h
  refine hi.step hmine hlock hproc (fun c' p hc hp h => hc (hi.uniq c' c p h hp)) ?_ ?_ hlive
    (fun i h => absurd h (hl i).1) ?_ ?_
  · intro c' p hc hp
    obtain rfl | hne := eq_or_ne p j
    · obtain ⟨h, -⟩ | h | ⟨h, ht⟩ := hj
      · exact absurd (hi.uniq c' c p hp h) hc
      · exact h
      · exact absurd hp (hi.not_on h ht.idle hc)
    · exact hsame p hne
  · intro i p hu hm
    obtain rfl | hne := eq_or_ne i j
    · obtain ⟨-, h, -⟩ | h | ⟨-, ht⟩ := hj
      · exact absurd hu h
      · exact .inr h
      · exact .inl ((ht.mine hu).symm.trans hm)
    · exact .inr (hsame i hne)
  · intro p hp hothers
    have hcp : s.cproc c ≠ some p := fun h => (hl p).2 (hp h)
    obtain rfl | hne := eq_or_ne p j
    · obtain ⟨h, -⟩ | h | ⟨-, ht⟩ := hj
      · exact absurd h hcp
      · exact .inr ⟨hcp, h⟩
      · refine .inl ⟨ht.idle', fun h => ?_⟩
        have hr : Resting s p := fun c' h => by
          obtain rfl | hc := eq_or_ne c' c
          · exact absurd h hcp
          · exact hothers c' hc h
        obtain ⟨hctx, hs | hf⟩ := ht.runnable (h.resolve_right ht.awake)
        · refine ((hi.rest p hr).parked (.inr hs)).frame hctx fun i hu _ => hsame i ?_
          rintro rfl
          exact nomatch hs.symm.trans hu
        · exact parked_forkret (hctx.trans hf)
    · exact .inr ⟨hcp, hsame p hne⟩
  · intro p
    obtain rfl | hne := eq_or_ne p j
    · obtain ⟨-, -, h⟩ | h | ⟨-, ht⟩ := hj
      · exact .inl h
      · exact .inr h
      · exact .inl fun h => absurd h ht.awake
    · exact .inr (hsame p hne)

/-- The invariant, and `sched` has not panicked over `p->lock` or `p->state`. -/
structure Ok (wl : K) (s : State m n K C) : Prop where
  inv : Inv wl s
  lock : s.panic ≠ some "sched p->lock"
  running : s.panic ≠ some "sched running"

/-- The place that a step of `c` goes on at: with the same `c->proc`, not about to switch, and with
what the thread there relies on. -/
structure Place (wl : K) (s : State m n K C) (c : Fin m) (l : Code n K C) : Prop where
  plain : ∀ i, l ≠ .sched (.swtch i) ∧ l ≠ .sched (.back i)
  proc : s.cproc c = l.proc (s.saved c)
  live : ∀ l', l = .thread l' →
    Live wl s.table (s.saved c) l' ∧ (s.table.proc (s.saved c)).state = l'.expects

theorem Ok.of_inv {s' : State m n K C} (hi : Inv wl s') (hp : s'.panic = none) : Ok wl s' :=
  ⟨hi, by rw [hp]; exact nofun, by rw [hp]; exact nofun⟩

theorem Inv.panicked (hi : Inv wl s) {msg : String} (h₁ : msg ≠ "sched p->lock")
    (h₂ : msg ≠ "sched running") : Ok wl { s with panic := some msg } :=
  ⟨⟨hi.locks, hi.cproc, hi.uniq, hi.live, hi.own, hi.swtch, hi.rest, hi.slept⟩,
    fun h => h₁ (Option.some.inj h), fun h => h₂ (Option.some.inj h)⟩

variable (hi : Inv wl s) (hs : s.panic = none)

include hi hs

/-- CPU `c` goes on at a place with the locks that it has. -/
theorem Inv.goto {l : Code n K C} (hl : Place wl s c l)
    (hh : ∀ ℓ, l.Holds wl (s.saved c) ℓ ↔ (s.on c).Holds wl (s.saved c) ℓ) :
    Ok wl (s.goto c l) := by
  refine .of_inv (hi.change (j := s.saved c) (fun ℓ => ?_) (fun _ _ _ => .rfl) hl.plain hl.proc
    (fun _ _ => .rfl) (.inr (.inl .rfl)) hl.live) hs
  rw [hh, hi.locks]

/-- CPU `c` changes one lock, which no other CPU has, and goes on at a place. -/
theorem Inv.relock {ℓ : Lock n K} {l : Code n K C}
    (hl : Place wl s c l) {o : Option (Fin m)} (ho : ∀ c' ≠ c, o ≠ some c' ∧ s.lock ℓ ≠ some c')
    (hself : l.Holds wl (s.saved c) ℓ ↔ o = some c)
    (hh : ∀ ℓ' ≠ ℓ, l.Holds wl (s.saved c) ℓ' ↔ (s.on c).Holds wl (s.saved c) ℓ') :
    Ok wl ((s.setLock ℓ o).goto c l) := by
  refine .of_inv (hi.change (j := s.saved c) (fun ℓ' => ?_) (fun ℓ' c' hc => ?_) hl.plain hl.proc
    (fun _ _ => .rfl) (.inr (.inl .rfl)) hl.live) hs
  all_goals obtain rfl | hne := eq_or_ne ℓ' ℓ
  · simp only [State.setLock, update_self, hself]
  · simp only [State.setLock, update_of_ne hne, hh ℓ' hne, hi.locks]
  · simp only [State.setLock, update_self, ho c' hc]
  · simp only [State.setLock, update_of_ne hne]

/-- CPU `c` takes a lock, unless it has it already. -/
theorem Inv.acquire {ℓ : Lock n K} {l : Code n K C}
    (hl : Place wl s c l)
    (hh : ∀ ℓ', l.Holds wl (s.saved c) ℓ' ↔ ℓ' = ℓ ∨ (s.on c).Holds wl (s.saved c) ℓ')
    (h : s.acquire c ℓ l = some s') : Ok wl s' := by
  unfold State.acquire at h
  split at h
  case h_1 hfree =>
    cases h
    refine hi.relock hs hl (fun c' hc => ⟨?_, ?_⟩) (by simp [hh]) fun ℓ' hne => by simp [hh, hne]
    · simpa using hc.symm
    · rw [hfree]
      exact nofun
  case h_2 =>
    split at h
    · cases h
      exact hi.panicked (by decide) (by decide)
    · cases h

/-- CPU `c` gives up a lock. -/
theorem Inv.release {ℓ : Lock n K} {l : Code n K C}
    (hl : Place wl s c l)
    (hh : ∀ ℓ', l.Holds wl (s.saved c) ℓ' ↔ (s.on c).Holds wl (s.saved c) ℓ' ∧ ℓ' ≠ ℓ) :
    Ok wl (s.release c ℓ l) := by
  unfold State.release
  split
  case isTrue hheld =>
    refine hi.relock hs hl (fun c' hc => ⟨nofun, ?_⟩) (by simp [hh]) fun ℓ' hne => by simp [hh, hne]
    rw [hheld]
    simpa using hc.symm
  case isFalse => exact hi.panicked (by decide) (by decide)

/-! ### Steps -/

omit hs in
theorem Inv.cproc_thread {l : Pc n K C} (hl : s.on c = .thread l) :
    s.cproc c = some (s.saved c) := by
  rw [hi.cproc, hl]
  rfl

omit hs in
theorem Inv.place {l l' : Pc n K C} (hl : s.on c = .thread l)
    (hg : Goes wl (s.saved c) l l') : Place wl s c (.thread l') := by
  refine ⟨fun i => ⟨nofun, nofun⟩, hi.cproc_thread hl, ?_⟩
  rintro _ ⟨⟩
  exact ⟨hg.live (hi.live c l hl) fun _ _ _ => .rfl, (hi.own c l hl).trans hg.expects.symm⟩

/-- An action of a thread. -/
theorem Inv.act {l l' : Pc n K C} (hl : s.on c = .thread l) (he : Effect wl s.table t (s.saved c) l l' j) :
    Ok wl ({ s with table := t }.goto c (.thread l')) := by
  have hcp := hi.cproc_thread hl
  have hheld : ∀ ℓ, (s.on c).Holds wl (s.saved c) ℓ ↔ l.Holds wl (s.saved c) ℓ := by
    rw [hl]
    exact fun _ => Iff.rfl
  refine .of_inv (hi.change (fun ℓ => ?_) (fun _ _ _ => .rfl) (fun i => ⟨nofun, nofun⟩) hcp he.same
    ?_ ?_) hs
  · rw [hi.locks, hheld]
    exact (he.holds ℓ).symm
  · obtain rfl | h | ⟨hj, ht⟩ := he.turn
    · refine .inl ⟨hcp, ?_, he.slept⟩
      rw [hi.own c l hl]
      exact expects_ne_used
    · exact .inr (.inl h)
    · refine .inr (.inr ⟨(hi.locks _ _).2 ((hheld _).2 hj), ?_⟩)
      rwa [hcp]
  · rintro _ ⟨⟩
    exact ⟨he.live, he.own⟩

/-- `swtch` to the scheduler: the thread that leaves has changed its state and holds its lock only. -/
theorem Inv.sched {l l' : Pc n K C} (hl : s.on c = .thread l)
    (hslot : l.slot (s.saved c) = some (s.saved c)) (hmons : l.mons wl = [])
    (hne : l.expects ≠ .running) (hr : l'.Resumes wl (s.saved c)) (hchild : l'.child = l.child)
    (hwf : l'.WF wl (s.saved c)) :
    Ok wl ({ s with
      table := s.table.set (s.saved c) { s.table.proc (s.saved c) with context := l' } }.goto c
        (.sched (.back (s.saved c)))) := by
  have hcp := hi.cproc_thread hl
  have hused : ∀ i, (s.table.proc i).state = .used → i ≠ s.saved c := by
    rintro i hi' rfl
    exact expects_ne_used ((hi.own c l hl).symm.trans hi')
  have hst := hi.step (c := c) (q := s.saved c) (o := s.cproc c) (k := s.lock)
    (l := .sched (.back (s.saved c)))
    (t := s.table.set (s.saved c) { s.table.proc (s.saved c) with context := l' }) (fun ℓ => ?_)
    (fun _ _ _ => .rfl) hcp (fun c' p hc hp h => hc (hi.uniq c' c p h hp)) (fun c' p hc hp => ?_)
    (fun j p hu _ => .inr (set_same_of_ne _ (hused j hu))) nofun nofun (fun p hp _ => ?_) fun p => ?_
  · rw [update_eq_self, update_eq_self] at hst
    exact .of_inv hst hs
  · rw [hi.locks, hl]
    cases ℓ with
    | mon k => simp only [Code.Holds, Pc.Holds, hmons, List.not_mem_nil]
    | proc j => simp only [Code.Holds, Pc.Holds, hslot, SPc.slot]
  · refine set_same_of_ne _ ?_
    rintro rfl
    exact hc (hi.uniq c' c _ hp hcp)
  · obtain rfl | hne' := eq_or_ne p (s.saved c)
    · refine .inl ⟨?_, fun _ => ⟨⟨?_, fun j r hj => ?_⟩, ?_⟩⟩ <;> simp only [set_proc_self] at *
      · rw [hi.own c l hl]
        exact hne
      · exact hwf
      · have hm := (hi.live c l hl).made j r (hchild ▸ hj)
        exact hm.frame (set_same_of_ne _ (hused j hm.used))
      · exact hr
    · refine .inr ⟨fun h => ?_, set_same_of_ne _ hne'⟩
      exact hne' (Option.some.inj (hcp.symm.trans h)).symm
  · obtain rfl | hne' := eq_or_ne p (s.saved c)
    · left
      simp only [Slept, set_proc_self]
      exact hi.slept _
    · exact .inr (set_same_of_ne _ hne')

section

variable [DecidableEq C]

omit hi hs in
/-- No place of the code panics with a message of `sched`. -/
theorem prog_panic {l : Pc n K C} {msg : String} (h : prog wl l = .panic msg) :
    msg ≠ "sched p->lock" ∧ msg ≠ "sched running" := by
  cases l <;> simp only [prog] at h <;> try split at h
  all_goals cases h
  all_goals exact ⟨by decide, by decide⟩

/-- An instruction of a thread keeps the invariant. -/
theorem exec_ok {l : Pc n K C} (hl : s.on c = .thread l)
    {x : Input n K C} (h : exec s c x (prog wl l) = some s') : Ok wl s' := by
  have hw := (hi.live c l hl).wf
  have hheld : ∀ ℓ, (s.on c).Holds wl (s.saved c) ℓ ↔ l.Holds wl (s.saved c) ℓ := by
    rw [hl]
    exact fun _ => Iff.rfl
  cases hp : prog wl l with
  | acquire ℓ l' =>
    rw [hp] at h
    obtain ⟨hg, hh⟩ := acquire_ok hp hw
    refine hi.acquire hs (hi.place hl hg) (fun ℓ' => ?_) h
    rw [hheld]
    exact hh ℓ'
  | release ℓ l' =>
    rw [hp] at h
    cases h
    obtain ⟨hg, -, hh⟩ := release_ok hp hw
    refine hi.release hs (hi.place hl hg) fun ℓ' => ?_
    rw [hheld]
    exact hh ℓ'
  | act f =>
    rw [hp] at h
    cases h
    obtain ⟨j, he⟩ := act_ok hp (hi.live c l hl) (hi.own c l hl) x
    exact hi.act hs hl he
  | myproc g =>
    rw [hp] at h
    cases h
    obtain ⟨hg, hh⟩ := myproc_ok hp hw
    rw [hi.cproc_thread hl]
    refine hi.goto hs (hi.place hl hg) fun ℓ => ?_
    rw [hheld]
    exact hh ℓ
  | sched q ks l' =>
    rw [hp] at h
    obtain ⟨rfl, hslot, hmons, hne, hr, hchild, hwf⟩ := sched_ok hp hw
    have hlock : s.lock (.proc (s.saved c)) = some c := (hi.locks _ _).2 ((hheld _).2 hslot)
    have hstate : (s.table.proc (s.saved c)).state ≠ .running := by rwa [hi.own c l hl]
    simp only [exec, hlock, hstate, ne_eq, not_true, if_false] at h
    split at h
    · cases h
      exact hi.panicked (by decide) (by decide)
    case isFalse hks =>
      cases h
      have hnil := not_not.1 hks
      exact hi.sched hs hl hslot (hmons.trans hnil) hne hr hchild (hwf hnil)
  | panic msg =>
    rw [hp] at h
    cases h
    exact hi.panicked (prog_panic hp).1 (prog_panic hp).2

end

variable {l l' : SPc n C}

omit hs in
/-- The scheduler goes on with `c->proc` null. -/
theorem Inv.sched_place (hl : s.on c = .sched l)
    (h : (.sched l : Code n K C).proc (s.saved c) = none)
    (h' : ∀ p, (.sched l' : Code n K C).proc p = none) : Place wl s c (.sched l') := by
  refine ⟨fun i => ⟨?_, ?_⟩, ?_, nofun⟩
  · rintro ⟨⟩
    exact nomatch h' i
  · rintro ⟨⟩
    exact nomatch h' i
  · rw [hi.cproc, hl, h, h']

omit [DecidableEq K] hi hs in
theorem sched_holds_acquire (h : l.slot = none) (h' : l'.slot = some j)
    (ℓ : Lock n K) : (.sched l' : Code n K C).Holds wl p ℓ ↔
      ℓ = .proc j ∨ (.sched l : Code n K C).Holds wl p ℓ := by
  cases ℓ with
  | mon k => simp only [Code.Holds, reduceCtorEq, or_false]
  | proc i =>
    simp only [Code.Holds, h, h', Option.some.injEq, Lock.proc.injEq, reduceCtorEq, or_false, eq_comm]

omit [DecidableEq K] hi hs in
theorem sched_holds_release (h : l.slot = some j) (h' : l'.slot = none)
    (ℓ : Lock n K) : (.sched l' : Code n K C).Holds wl p ℓ ↔
      (.sched l : Code n K C).Holds wl p ℓ ∧ ℓ ≠ .proc j := by
  cases ℓ with
  | mon k => simp only [Code.Holds, false_and]
  | proc i =>
    simp only [Code.Holds, h, h', Option.some.injEq, Lock.proc.injEq, reduceCtorEq, ne_eq, false_iff,
      not_and, not_not, eq_comm, imp_self]

omit [DecidableEq K] hi hs in
theorem sched_holds_same (h : l'.slot = l.slot) (ℓ : Lock n K) :
    (.sched l' : Code n K C).Holds wl p ℓ ↔ (.sched l : Code n K C).Holds wl p ℓ := by
  cases ℓ with
  | mon k => rfl
  | proc i => simp only [Code.Holds, h]

/-- The scheduler chooses a `RUNNABLE` process. -/
theorem Inv.run (hl : s.on c = .sched (.test j))
    (hj : (s.table.proc j).state = .runnable) :
    Ok wl ({ s with
      table := s.table.set j { s.table.proc j with state := .running, trans := .run }
      cproc := update s.cproc c (some j) }.goto c (.sched (.swtch j))) := by
  have hcp : s.cproc c = none := by
    rw [hi.cproc, hl]
    rfl
  have hlock : s.lock (.proc j) = some c := by
    rw [hi.locks, hl]
    rfl
  have hon : ∀ c', s.cproc c' ≠ some j := by
    intro c'
    obtain rfl | hc := eq_or_ne c' c
    · rw [hcp]
      exact nofun
    · exact hi.not_on hlock (by rw [hj]; exact nofun) hc
  have hused : ∀ i, (s.table.proc i).state = .used → i ≠ j := by
    rintro i hu rfl
    exact nomatch hu.symm.trans hj
  have hparked := (hi.rest j fun c' h => absurd h (hon c')).parked (.inl hj)
  have hst := hi.step (c := c) (q := s.saved c) (o := some j) (k := s.lock) (l := .sched (.swtch j))
    (t := s.table.set j { s.table.proc j with state := .running, trans := .run }) (fun ℓ => ?_)
    (fun _ _ _ => .rfl) rfl (fun c' p _ hp => Option.some.inj hp ▸ hon c') (fun c' p _ hp => ?_)
    (fun i p hu _ => .inr (set_same_of_ne _ (hused i hu))) nofun (fun i h => ?_) (fun p hp _ => ?_)
    fun p => ?_
  · rw [update_eq_self] at hst
    exact .of_inv hst hs
  · rw [hi.locks, hl]
    exact (sched_holds_same (by rfl) ℓ).symm
  · refine set_same_of_ne _ ?_
    rintro rfl
    exact hon c' hp
  · cases h
    refine ⟨?_, hparked.frame ?_ fun i hu _ => set_same_of_ne _ (hused i hu)⟩ <;>
      simp only [set_proc_self]
  · refine .inr ⟨by rw [hcp]; exact nofun, set_same_of_ne _ ?_⟩
    rintro rfl
    exact nomatch hp rfl
  · obtain rfl | hne := eq_or_ne p j
    · left
      simp only [Slept, set_proc_self]
      exact nofun
    · exact .inr (set_same_of_ne _ hne)

/-- `swtch` to the chosen process. -/
theorem Inv.resume
    (hl : s.on c = .sched (.swtch j)) :
    Ok wl ({ s with saved := update s.saved c j }.goto c
      (.thread (s.table.proc j).context)) := by
  obtain ⟨hrun, hparked⟩ := hi.swtch c j hl
  have hcp : s.cproc c = some j := by
    rw [hi.cproc, hl]
    rfl
  have hst := hi.step (c := c) (q := j) (o := s.cproc c) (k := s.lock) (t := s.table)
    (l := .thread (s.table.proc j).context) (fun ℓ => ?_) (fun _ _ _ => .rfl) hcp
    (fun c' p hc hp h => hc (hi.uniq c' c p h hp)) (fun _ _ _ _ => .rfl) (fun _ _ _ _ => .inr .rfl)
    (fun l h => ?_) nofun (fun p hp _ => .inr ⟨fun h => absurd (hp h) nofun, .rfl⟩) fun _ => .inr .rfl
  · rw [update_eq_self] at hst
    exact .of_inv hst hs
  · rw [hi.locks, hl]
    cases ℓ with
    | mon k => simp only [Code.Holds, Pc.Holds, hparked.resumes.mons, List.not_mem_nil]
    | proc i => simp only [Code.Holds, Pc.Holds, hparked.resumes.slot, SPc.slot]
  · cases h
    exact ⟨hparked.live, by rw [hrun, hparked.resumes.expects]⟩

/-- Back in the scheduler, `c->proc` is cleared. -/
theorem Inv.left (hl : s.on c = .sched (.back j)) :
    Ok wl ({ s with cproc := update s.cproc c none }.goto c (.sched (.release j))) := by
  have hcp : s.cproc c = some j := by
    rw [hi.cproc, hl]
    rfl
  have hst := hi.step (c := c) (q := s.saved c) (o := none) (k := s.lock) (t := s.table)
    (l := .sched (.release j)) (fun ℓ => ?_) (fun _ _ _ => .rfl) rfl nofun (fun _ _ _ _ => .rfl)
    (fun _ _ _ _ => .inr .rfl) nofun nofun (fun p _ hothers => .inl (hi.rest p fun c' h => ?_))
    fun _ => .inr .rfl
  · rw [update_eq_self] at hst
    exact .of_inv hst hs
  · rw [hi.locks, hl]
    exact (sched_holds_same (by rfl) ℓ).symm
  · obtain rfl | hc := eq_or_ne c' c
    · cases hcp.symm.trans h
      exact hl
    · exact hothers c' hc h

variable [DecidableEq C]

/-- A step of a scheduler keeps the invariant. -/
theorem schedStep_ok (hl : s.on c = .sched l)
    {x : Input n K C} (h : schedStep s c x l = some s') : Ok wl s' := by
  have hnone : (.sched l : Code n K C).proc (s.saved c) = none → s.cproc c = none := by
    rw [hi.cproc, hl]
    exact id
  -- the three kinds of moves without a switch
  have hgo : ∀ l' : SPc n C, (.sched l : Code n K C).proc (s.saved c) = none →
      (∀ p, (.sched l' : Code n K C).proc p = none) → l'.slot = l.slot →
      Ok wl (s.goto c (.sched l')) := by
    intro l' h₁ h₂ h₃
    refine hi.goto hs (hi.sched_place hl h₁ h₂) fun ℓ => ?_
    rw [hl]
    exact sched_holds_same h₃ ℓ
  have hacq : ∀ (j : Fin n) (l' : SPc n C), (.sched l : Code n K C).proc (s.saved c) = none →
      (∀ p, (.sched l' : Code n K C).proc p = none) → l.slot = none → l'.slot = some j →
      s.acquire c (.proc j) (.sched l') = some s' → Ok wl s' := by
    intro j l' h₁ h₂ h₃ h₄
    refine hi.acquire hs (hi.sched_place hl h₁ h₂) fun ℓ => ?_
    rw [hl]
    exact sched_holds_acquire h₃ h₄ ℓ
  have hrel : ∀ (j : Fin n) (l' : SPc n C), (.sched l : Code n K C).proc (s.saved c) = none →
      (∀ p, (.sched l' : Code n K C).proc p = none) → l.slot = some j → l'.slot = none →
      Ok wl (s.release c (.proc j) (.sched l')) := by
    intro j l' h₁ h₂ h₃ h₄
    refine hi.release hs (hi.sched_place hl h₁ h₂) fun ℓ => ?_
    rw [hl]
    exact sched_holds_release h₃ h₄ ℓ
  cases l with
  | acquire i =>
    simp only [schedStep] at h
    split at h
    · cases h
      exact hgo _ rfl (fun _ => rfl) rfl
    · split at h
      · exact hacq _ _ rfl (fun _ => by rfl) rfl (by rfl) h
      · cases h
        exact hgo _ rfl (fun _ => rfl) rfl
  | test j =>
    simp only [schedStep] at h
    split at h
    case isTrue hj =>
      cases h
      exact hi.run hs hl hj
    case isFalse =>
      cases h
      exact hgo _ rfl (fun _ => rfl) rfl
  | swtch j =>
    cases h
    exact hi.resume hs hl
  | back j =>
    cases h
    exact hi.left hs hl
  | release j =>
    cases h
    exact hrel _ _ rfl (fun _ => rfl) rfl rfl
  | wakeAt ch k i =>
    simp only [schedStep] at h
    split at h
    · split at h
      · cases h
        exact hgo _ rfl (fun _ => rfl) rfl
      · exact hacq _ _ rfl (fun _ => by rfl) rfl (by rfl) h
    · cases h
      exact hgo _ rfl (fun _ => rfl) rfl
  | wakeLook ch k i =>
    cases h
    have hlock : s.lock (.proc k) = some c := by
      rw [hi.locks, hl]
      rfl
    refine .of_inv (hi.change (j := k) (fun ℓ => ?_) (fun _ _ _ => .rfl) (fun i => ⟨nofun, nofun⟩)
      (hnone rfl) (fun i => set_same_of_ne _) ?_ nofun) hs
    · rw [hi.locks, hl]
      exact (sched_holds_same (by rfl) ℓ).symm
    · obtain hx | ⟨-, hx⟩ := wake_turn (t := s.table) (j := k) (c := some ch) (o := s.cproc c)
      · exact .inr (.inl (set_same hx k))
      · exact .inr (.inr ⟨hlock, hx⟩)
  | wakeRelease ch k i =>
    cases h
    exact hrel _ _ rfl (fun _ => rfl) rfl rfl

omit [DecidableEq C] in
/-- An interrupt that finds interrupts on enters the kernel from a place to return to. -/
theorem Inv.interrupt {l l' : Pc n K C}
    (hl : s.on c = .thread l) (hq : l.quiet wl (s.saved c) = true)
    (hl' : l' = .yieldEnter l ∨ ∃ ch, l' = .wakeAt ch 0 [] l) : Ok wl (s.goto c (.thread l')) := by
  have hq' : l.mons wl = [] ∧ l.slot (s.saved c) = none := by
    simpa [Pc.quiet] using hq
  have hret : l.Returns wl (s.saved c) [] := ⟨hq'.2, fun k => by rw [hq'.1]⟩
  have hw := (hi.live c l hl).wf
  have hheld : ∀ ℓ, (s.on c).Holds wl (s.saved c) ℓ ↔ l.Holds wl (s.saved c) ℓ := by
    rw [hl]
    exact fun _ => Iff.rfl
  have hkeep : ∀ ℓ, l'.Holds wl (s.saved c) ℓ ↔ l.Holds wl (s.saved c) ℓ := by
    refine holds_of_eq ?_ fun k => ?_
    · rw [hq'.2]
      obtain rfl | ⟨ch, rfl⟩ := hl' <;> rfl
    · rw [hq'.1]
      obtain rfl | ⟨ch, rfl⟩ := hl' <;> rfl
  refine hi.goto hs (hi.place hl ?_) fun ℓ => (hkeep ℓ).trans (hheld ℓ).symm
  obtain rfl | ⟨ch, rfl⟩ := hl' <;> exact ⟨⟨hret, hw⟩, hret.expects.symm, rfl⟩

omit hi hs

/-- Every step of every CPU keeps the invariant. -/
theorem inv_step {a : Fin m × Input n K C} (ho : Ok wl s) (h : step wl s a = some s') : Ok wl s' := by
  have hi := ho.inv
  unfold step at h
  split at h
  · cases h
  case isFalse hp =>
    have hs : s.panic = none := by simpa using hp
    split at h
    case h_1 l hl => exact schedStep_ok hi hs hl h
    case h_2 l hl =>
      split at h
      case h_1 hq =>
        cases h
        exact hi.interrupt hs hl hq (.inl rfl)
      case h_2 hq =>
        cases h
        exact hi.interrupt hs hl hq (.inr ⟨_, rfl⟩)
      case h_3 => exact exec_ok hi hs hl h

omit [DecidableEq C] in
/-- After `userinit` one process waits in `forkret`, and every CPU is in its scheduler. -/
theorem inv_initial (p₀ : Fin n) : Ok wl (initial p₀ : State m n K C) := by
  refine .of_inv ?_ rfl
  constructor
  case locks =>
    intro ℓ c
    cases ℓ <;> exact ⟨nofun, nofun⟩
  case cproc => exact fun _ => rfl
  case uniq => exact fun _ _ _ h => nomatch h
  case live => exact fun _ _ h => nomatch h
  case own => exact fun _ _ h => nomatch h
  case swtch => exact fun _ _ h => nomatch h
  case rest =>
    refine fun p _ => ⟨?_, fun _ => parked_forkret rfl⟩
    simp only [initial]
    split <;> exact nofun
  case slept =>
    intro p h
    simp only [initial] at h
    split at h <;> cases h

end invariant

/-! ### Every interleaving -/

section runs

variable [DecidableEq C] {s : State m n K C}

theorem reach_ok {p₀ : Fin n} (hr : Lib.Reach (step wl) (fun _ _ => True) (initial p₀) s) : Ok wl s :=
  hr.inv (inv_initial p₀) fun _ _ _ ho _ h => inv_step ho h

omit [DecidableEq C] in
/-- Where `p->lock` is free, the CPU that has `p` as `c->proc` runs it. -/
theorem Inv.running (hi : Inv wl s) (hfree : s.lock (.proc p) = none) {c : Fin m}
    (hc : s.cproc c = some p) : (s.table.proc p).state = .running := by
  have hnot : ¬ (s.on c).Holds wl (s.saved c) (.proc p) := fun h =>
    nomatch hfree.symm.trans ((hi.locks _ _).2 h)
  rw [hi.cproc] at hc
  cases hl : s.on c with
  | thread l =>
    rw [hl] at hc hnot
    obtain rfl : s.saved c = p := Option.some.inj hc
    rw [hi.own c l hl]
    by_contra hne
    exact hnot (slot_of_expects (hi.live c l hl).wf hne)
  | sched l =>
    rw [hl] at hc hnot
    cases l with
    | swtch i | back i =>
      cases hc
      exact absurd rfl hnot
    | _ => exact nomatch hc

/-- **A process runs on at most one CPU.** In every state of every interleaving of the CPUs' steps:
where `p->lock` is free, `p` is `RUNNING` exactly if there is exactly one CPU with `c->proc = p`, no
CPU has `c->proc = p` if it is in any other state, and a process that sleeps on a channel went to
sleep on it by its own call. `sched` never finds `p->lock` free or `p` `RUNNING`. -/
theorem one_cpu (wl : K) (p₀ : Fin n)
    (hr : Lib.Reach (step wl) (fun _ _ => True) (initial p₀) s) :
    (∀ p, s.lock (.proc p) = none →
      ((s.table.proc p).state = .running ↔ ∃! c, s.cproc c = some p) ∧
      ((s.table.proc p).state ≠ .running → ∀ c, s.cproc c ≠ some p) ∧
      (∀ ch, (s.table.proc p).state = .sleeping → (s.table.proc p).chan = some ch →
        (s.table.proc p).trans = .slept p ch)) ∧
    s.panic ≠ some "sched p->lock" ∧ s.panic ≠ some "sched running" := by
  have ho := reach_ok hr
  have hi := ho.inv
  refine ⟨fun p hfree => ⟨⟨fun hrun => ?_, ?_⟩, fun hne c hc => ?_, fun ch hs hch => ?_⟩, ho.lock, ho.running⟩
  · obtain ⟨c, hc⟩ : ∃ c, s.cproc c = some p := by
      by_contra hno
      exact (hi.rest p fun c hc => absurd ⟨c, hc⟩ hno).idle hrun
    exact ⟨c, hc, fun c' hc' => hi.uniq c' c p hc' hc⟩
  · rintro ⟨c, hc, -⟩
    exact hi.running hfree hc
  · exact hne (hi.running hfree hc)
  · obtain ⟨c, hc, ht⟩ := hi.slept p hs
    cases hc.symm.trans hch
    exact ht

/-- CPU 1 runs the first process, which has left `forkret`. -/
theorem one_cpu_first : ∃ s : State 2 2 Unit Unit,
    Lib.Reach (step ()) (fun _ _ => True) (initial 0) s ∧ (s.table.proc 0).state = .running ∧
      ∃! c, s.cproc c = some 0 := by
  obtain ⟨s, hr, hfree, hrun⟩ : ∃ s : State 2 2 Unit Unit,
      Lib.Reach (step ()) (fun _ _ => True) (initial 0) s ∧ s.lock (.proc 0) = none ∧
      (s.table.proc 0).state = .running :=
    Lib.exists_reach (List.replicate 5 (1, .ok)) (by decide +kernel)
  exact ⟨s, hr, hrun, ((one_cpu () 0 hr).1 0 hfree).1.1 hrun⟩

end runs

end Xv6.Cpu
