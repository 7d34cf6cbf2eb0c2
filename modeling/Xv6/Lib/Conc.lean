import Xv6.Lib.Reach

/-!
# Programs with locks, and how to prove them

Threads share data and run a program: at each local state it names the next instruction
(`Instr`), which takes a lock, releases one, or makes one action on the data. Which thread
moves next is arbitrary. A history `h` can be kept beside the state (`step` passes it to
`note`); no step reads it.

The proof rule (`Proof`) has four kinds of annotations. `I` holds all the time; `R m` is what
a lock `m` guards, true whenever `m` is free; `J p l` is what thread `p` knows at the local
state `l`. Each instruction is checked once for the thread that makes it; what another thread
knows must survive it (`stable`), where two threads never hold the same lock, and so must what
the locks guard that the thread does not hold (`guard`). `Ctx` is what an earlier proof knows
of a thread already.

* `LockInv.step`: a lock is held exactly where the program says (`Disciplined`).
* `Proof.reach`: the annotations are true in every reachable state.
-/

namespace Lib.Conc

open Function

variable {P M σ ι L H : Type*}

/-- The next instruction of a thread; `ι` is what it receives from outside. -/
inductive Instr (M σ ι L : Type*)
  | acquire (m : M) (next : L)
  | release (m : M) (next : L)
  | act (f : ι → σ → σ × L)
  | halt

structure State (P M σ L : Type*) where
  lock : M → Option P
  pc : P → L
  sh : σ

/-- The data after the instruction. -/
def Instr.data (i : Instr M σ ι L) (x : ι) (sh : σ) : σ :=
  match i with
  | .act f => (f x sh).1
  | _ => sh

/-- The local state after the instruction. -/
def Instr.target (i : Instr M σ ι L) (x : ι) (sh : σ) (l : L) : L :=
  match i with
  | .acquire _ l' | .release _ l' => l'
  | .act f => (f x sh).2
  | .halt => l

/-- All threads at the local state `l`, no lock taken. -/
def start (l : P → L) (sh : σ) : State P M σ L := ⟨fun _ => none, l, sh⟩

section Step

variable [DecidableEq P] [DecidableEq M]

/-- The next step of thread `p`, unless it halted or waits for a lock. -/
def next (prog : P → L → Instr M σ ι L) (s : State P M σ L) (a : P × ι) : Option (State P M σ L) :=
  match prog a.1 (s.pc a.1) with
  | .acquire m l =>
    if s.lock m = none then
      some ⟨update s.lock m (some a.1), update s.pc a.1 l, s.sh⟩
    else none
  | .release m l =>
    if s.lock m = some a.1 then
      some ⟨update s.lock m none, update s.pc a.1 l, s.sh⟩
    else none
  | .act f => some ⟨s.lock, update s.pc a.1 (f a.2 s.sh).2, (f a.2 s.sh).1⟩
  | .halt => none

/-- The step, with the history. -/
def step (prog : P → L → Instr M σ ι L) (note : P → L → ι → σ → H → H) (x : State P M σ L × H)
    (a : P × ι) : Option (State P M σ L × H) :=
  (next prog x.1 a).map fun s' => (s', note a.1 (x.1.pc a.1) a.2 x.1.sh x.2)

end Step

/-- What a step does. -/
inductive Move [DecidableEq P] [DecidableEq M] (prog : P → L → Instr M σ ι L) (s : State P M σ L) (p : P)
    (x : ι) : State P M σ L → Prop
  | acquire {m : M} {l : L} : prog p (s.pc p) = .acquire m l → s.lock m = none →
      Move prog s p x ⟨update s.lock m (some p), update s.pc p l, s.sh⟩
  | release {m : M} {l : L} : prog p (s.pc p) = .release m l → s.lock m = some p →
      Move prog s p x ⟨update s.lock m none, update s.pc p l, s.sh⟩
  | act {f : ι → σ → σ × L} : prog p (s.pc p) = .act f →
      Move prog s p x ⟨s.lock, update s.pc p (f x s.sh).2, (f x s.sh).1⟩

/-- Locks are taken and released as `held` says. -/
structure Disciplined (prog : P → L → Instr M σ ι L) (held : P → L → M → Prop) : Prop where
  acquire : ∀ {p l m l'}, prog p l = .acquire m l' → ∀ k, held p l' k ↔ held p l k ∨ k = m
  release : ∀ {p l m l'}, prog p l = .release m l' →
    held p l m ∧ ∀ k, held p l' k ↔ held p l k ∧ k ≠ m
  act : ∀ {p l f}, prog p l = .act f → ∀ x sh k, held p (f x sh).2 k ↔ held p l k

/-- A lock is held by the thread whose local state holds it. -/
def LockInv (held : P → L → M → Prop) (s : State P M σ L) : Prop :=
  ∀ p m, s.lock m = some p ↔ held p (s.pc p) m

variable {p : P} {s : State P M σ L}

theorem LockInv.unique {held : P → L → M → Prop} (h : LockInv held s) {q : P} {m : M}
    (hp : held p (s.pc p) m) (hq : held q (s.pc q) m) : p = q :=
  Option.some.inj (((h p m).2 hp).symm.trans ((h q m).2 hq))

theorem LockInv.start {held : P → L → M → Prop} {l : P → L} {sh : σ} (h : ∀ p m, ¬ held p (l p) m) :
    LockInv held (start l sh) := fun p m => ⟨nofun, fun hh => absurd hh (h p m)⟩

variable [DecidableEq P] [DecidableEq M]
variable {prog : P → L → Instr M σ ι L} {note : P → L → ι → σ → H → H} {held : P → L → M → Prop}

variable {s' : State P M σ L} {x : ι}

theorem next_move (h : next prog s (p, x) = some s') :
    Move prog s p x s' := by
  unfold next at h
  dsimp only at h
  cases hi : prog p (s.pc p) with
  | acquire m l =>
    rw [hi] at h
    dsimp only at h
    split at h
    · next hm => cases h; exact .acquire hi hm
    · cases h
  | release m l =>
    rw [hi] at h
    dsimp only at h
    split at h
    · next hm => cases h; exact .release hi hm
    · cases h
  | act f => rw [hi] at h; cases h; exact .act hi
  | halt => rw [hi] at h; cases h

/-- Only the thread that moves changes its local state. -/
theorem Move.pc_of_ne {q : P} (h : Move prog s p x s') (hq : q ≠ p) :
    s'.pc q = s.pc q := by
  cases h <;> exact update_of_ne hq _ _

theorem Move.sh_eq (h : Move prog s p x s') :
    s'.sh = (prog p (s.pc p)).data x s.sh := by
  cases h with
  | acquire hi _ | release hi _ | act hi => rw [hi]; rfl

theorem Move.pc_eq (h : Move prog s p x s') :
    s'.pc = update s.pc p ((prog p (s.pc p)).target x s.sh (s.pc p)) := by
  cases h with
  | acquire hi _ | release hi _ | act hi => rw [hi]; rfl

/-- **A lock is held exactly where the program says.** -/
theorem LockInv.step (hd : Disciplined prog held)
    (h : LockInv held s) (hm : Move prog s p x s') : LockInv held s' := by
  intro q m
  cases hm with
  | @acquire m' l hi hf =>
    dsimp only
    rcases eq_or_ne q p with rfl | hq
    · have hk := hd.acquire hi m
      rw [update_self, hk, ← h q m]
      rcases eq_or_ne m m' with rfl | hmm
      · simp
      · simp [hmm]
    · rw [update_of_ne hq, ← h q m]
      rcases eq_or_ne m m' with rfl | hmm
      · simp [hf, hq.symm]
      · simp [hmm]
  | @release m' l hi hf =>
    dsimp only
    rcases eq_or_ne q p with rfl | hq
    · have hk := (hd.release hi).2 m
      rw [update_self, hk, ← h q m]
      rcases eq_or_ne m m' with rfl | hmm
      · simp
      · simp [hmm]
    · rw [update_of_ne hq, ← h q m]
      rcases eq_or_ne m m' with rfl | hmm
      · simp [hf, hq.symm]
      · simp [hmm]
  | act hi =>
    dsimp only
    rcases eq_or_ne q p with rfl | hq
    · rw [update_self, hd.act hi, ← h q m]
    · rw [update_of_ne hq, ← h q m]

omit [DecidableEq P] [DecidableEq M] in
/-- The annotations of a program. -/
structure Proof (prog : P → L → Instr M σ ι L) (note : P → L → ι → σ → H → H) (held : P → L → M → Prop)
    (Ctx : P → L → σ → H → Prop) (ok : P → L → ι → σ → H → Prop) (I : σ → H → Prop)
    (R : M → σ → H → Prop) (J : P → L → σ → H → Prop) : Prop where
  acquire : ∀ {p l m l' x sh h}, prog p l = .acquire m l' → ¬ held p l m → ok p l x sh h → Ctx p l sh h →
    I sh h → J p l sh h → R m sh h → I sh (note p l x sh h) ∧ J p l' sh (note p l x sh h)
  release : ∀ {p l m l' x sh h}, prog p l = .release m l' → ok p l x sh h → Ctx p l sh h → I sh h →
    J p l sh h → I sh (note p l x sh h) ∧ R m sh (note p l x sh h) ∧ J p l' sh (note p l x sh h)
  act : ∀ {p l f x sh h}, prog p l = .act f → ok p l x sh h → Ctx p l sh h → I sh h → J p l sh h →
    I (f x sh).1 (note p l x sh h) ∧ J p (f x sh).2 (f x sh).1 (note p l x sh h)
  stable : ∀ {p l x sh h q l'}, q ≠ p → (∀ m, held q l' m → ¬ held p l m) → ok p l x sh h →
    Ctx p l sh h → Ctx q l' sh h → I sh h → J p l sh h → J q l' sh h →
    J q l' ((prog p l).data x sh) (note p l x sh h)
  guard : ∀ {p l x sh h m}, ¬ held p l m → ok p l x sh h → Ctx p l sh h → I sh h → J p l sh h →
    R m sh h → R m ((prog p l).data x sh) (note p l x sh h)

/-- **The annotations are true.** -/
structure Sound (held : P → L → M → Prop) (I : σ → H → Prop) (R : M → σ → H → Prop)
    (J : P → L → σ → H → Prop) (s : State P M σ L) (h : H) : Prop where
  locks : LockInv held s
  inv : I s.sh h
  free : ∀ m, s.lock m = none → R m s.sh h
  knows : ∀ q, J q (s.pc q) s.sh h

variable {Ctx : P → L → σ → H → Prop} {ok : P → L → ι → σ → H → Prop} {I : σ → H → Prop}
variable {R : M → σ → H → Prop} {J : P → L → σ → H → Prop}

omit [DecidableEq P] [DecidableEq M] in
/-- All instructions of a thread can be treated alike: one step keeps what holds all the time and
what the thread knows, given what a lock that it takes guards. -/
theorem Proof.of_own
    (own : ∀ {p l x sh h}, (∀ {m l'}, prog p l = .acquire m l' → ¬ held p l m ∧ R m sh h) → ok p l x sh h →
      Ctx p l sh h → I sh h → J p l sh h → I ((prog p l).data x sh) (note p l x sh h) ∧
        J p ((prog p l).target x sh l) ((prog p l).data x sh) (note p l x sh h))
    (release : ∀ {p l m l' x sh h}, prog p l = .release m l' → ok p l x sh h → Ctx p l sh h → I sh h →
      J p l sh h → R m sh (note p l x sh h))
    (stable : ∀ {p l x sh h q l'}, q ≠ p → (∀ m, held q l' m → ¬ held p l m) → ok p l x sh h →
      Ctx p l sh h → Ctx q l' sh h → I sh h → J p l sh h → J q l' sh h →
      J q l' ((prog p l).data x sh) (note p l x sh h))
    (guard : ∀ {p l x sh h m}, ¬ held p l m → ok p l x sh h → Ctx p l sh h → I sh h → J p l sh h →
      R m sh h → R m ((prog p l).data x sh) (note p l x sh h)) : Proof prog note held Ctx ok I R J where
  acquire {p l m l' x sh h} hi hn hok hc hI hJ hR := by
    have := own (x := x) (fun h' => by rw [hi] at h'; cases h'; exact ⟨hn, hR⟩) hok hc hI hJ
    rwa [hi] at this
  release {p l m l' x sh h} hi hok hc hI hJ := by
    have := own (x := x) (fun h' => by rw [hi] at h'; cases h') hok hc hI hJ
    rw [hi] at this
    exact ⟨this.1, release hi hok hc hI hJ, this.2⟩
  act {p l f x sh h} hi hok hc hI hJ := by
    have := own (x := x) (fun h' => by rw [hi] at h'; cases h') hok hc hI hJ
    rwa [hi] at this
  stable := stable
  guard := guard

/-- **Every step keeps the annotations.** -/
theorem Sound.step {h : H} (hd : Disciplined prog held)
    (hP : Proof prog note held Ctx ok I R J) (hs : Sound held I R J s h)
    (hctx : ∀ q, Ctx q (s.pc q) s.sh h) (hok : ok p (s.pc p) x s.sh h) (hm : Move prog s p x s') :
    Sound held I R J s' (note p (s.pc p) x s.sh h) := by
  have hl' := hs.locks.step hd hm
  have hJ := hs.knows p
  -- the other threads
  have hother : ∀ q, q ≠ p → J q (s'.pc q) s'.sh (note p (s.pc p) x s.sh h) := by
    intro q hq
    rw [hm.pc_of_ne hq, hm.sh_eq]
    refine hP.stable hq (fun m hqm hpm => ?_) hok (hctx p) (hctx q) hs.inv hJ (hs.knows q)
    exact hq (hs.locks.unique hqm hpm)
  -- the locks that were free before
  have hguard : ∀ m, s.lock m = none → R m s'.sh (note p (s.pc p) x s.sh h) := by
    intro m hf
    rw [hm.sh_eq]
    refine hP.guard (fun hh => ?_) hok (hctx p) hs.inv hJ (hs.free m hf)
    rw [(hs.locks p m).2 hh] at hf
    cases hf
  have hself : ∀ {l : L}, s'.pc p = l → J p l s'.sh (note p (s.pc p) x s.sh h) →
      ∀ q, J q (s'.pc q) s'.sh (note p (s.pc p) x s.sh h) := by
    intro l hl hj q
    rcases eq_or_ne q p with rfl | hq
    · rw [hl]; exact hj
    · exact hother q hq
  cases hm with
  | @acquire m l hi hf =>
    have hnot : ¬ held p (s.pc p) m := fun hh => by rw [(hs.locks p m).2 hh] at hf; cases hf
    obtain ⟨h1, h2⟩ := hP.acquire (x := x) hi hnot hok (hctx p) hs.inv hJ (hs.free m hf)
    refine ⟨hl', h1, fun k hk => hguard k ?_, hself (update_self ..) h2⟩
    rcases eq_or_ne k m with rfl | hne
    · exact hf
    · simpa [hne] using hk
  | @release m l hi hf =>
    obtain ⟨h1, h2, h3⟩ := hP.release (x := x) hi hok (hctx p) hs.inv hJ
    refine ⟨hl', h1, fun k hk => ?_, hself (update_self ..) h3⟩
    rcases eq_or_ne k m with rfl | hne
    · exact h2
    · exact hguard k (by simpa [hne] using hk)
  | act hi =>
    obtain ⟨h1, h2⟩ := hP.act hi hok (hctx p) hs.inv hJ
    exact ⟨hl', h1, hguard, hself (update_self ..) h2⟩

/-- **Proved annotations are true in every reachable state.** -/
theorem Proof.reach {G : State P M σ L × H → P × ι → Prop} {x₀ x : State P M σ L × H}
    (hP : Proof prog note held Ctx ok I R J) (hd : Disciplined prog held)
    (hctx : ∀ y, Reach (Conc.step prog note) G x₀ y → ∀ q, Ctx q (y.1.pc q) y.1.sh y.2)
    (hok : ∀ y p i, Reach (Conc.step prog note) G x₀ y → G y (p, i) →
      ok p (y.1.pc p) i y.1.sh y.2)
    (h0 : Sound held I R J x₀.1 x₀.2) (hr : Reach (Conc.step prog note) G x₀ x) :
    Sound held I R J x.1 x.2 := by
  refine hr.inv' (I := fun y => Sound held I R J y.1 y.2) h0 ?_
  rintro y ⟨p, i⟩ y' hy hs hg hstep
  unfold Conc.step at hstep
  obtain ⟨s', hs', rfl⟩ := Option.map_eq_some_iff.1 hstep
  exact hs.step hd hP (hctx y hy) (hok y p i hy hg) (next_move hs')

end Lib.Conc
