import Xv6.Thread.Outline

/-!
# Histories

What a run did over time is not in its states: which values were stored, by whom, in which
order. `stepNoted` is the machine with a history beside its state, to which every action adds
what `note` says; the machine itself never reads it. An invariant that relates the history to
the data is proved by an outline of the program whose actions write the history as one more
piece of shared data (`noting`):

* `step_noting`: that program takes the same steps.
* `reach_noting`: so every run with a history is one of its runs.
* `Disciplined.noting`: it takes the same locks.

A history with an entry for each process, changed by its own actions alone, is a `tally`. What
it says at each local state needs no outline: `Tallied.reach`.
-/

namespace Xv6.Thread

open Function Lib

variable {n : ℕ} {K C σ ι L H : Type}

/-- The instruction, with its action adding to the history. -/
def Instr.noting (note : ι → σ → H → H) : Instr n K C σ ι L → Instr n K C (σ × H) ι L
  | .acquire ℓ l => .acquire ℓ l
  | .release ℓ l => .release ℓ l
  | .act f => .act fun i x => (((f i x.1).1, note i x.1 x.2), (f i x.1).2)
  | .sleep c k l => .sleep c k l
  | .wakeup c l => .wakeup c l
  | .killed f => .killed f
  | .kill pid f => .kill pid f
  | .panic msg => .panic msg

def noting (prog : Fin n → L → Instr n K C σ ι L) (note : Fin n → L → ι → σ → H → H) :
    Fin n → L → Instr n K C (σ × H) ι L :=
  fun p l => (prog p l).noting (note p l)

/-- The state with a history as part of the shared data. -/
@[reducible] def State.keeping (s : State n K C σ L) (h : H) : State n K C (σ × H) L where
  lock := s.lock
  procs := s.procs
  sh := (s.sh, h)
  panic := s.panic

/-- The state without its history. -/
def State.forget (s : State n K C (σ × H) L) : State n K C σ L where
  lock := s.lock
  procs := s.procs
  sh := s.sh.1
  panic := s.panic

/-- The history after the step `a`: an action is noted, nothing else is. -/
def noted (prog : Fin n → L → Instr n K C σ ι L) (note : Fin n → L → ι → σ → H → H)
    (s : State n K C σ L) (a : Fin n × ι) (h : H) : H :=
  match (s.procs a.1).ctl with
  | .run l =>
    match prog a.1 l with
    | .act _ => note a.1 l a.2 s.sh h
    | _ => h
  | _ => h

section Instr

variable {note : ι → σ → H → H} {i : Instr n K C σ ι L} {l : L}

@[simp] theorem noting_eq_acquire {ℓ : Lock n K} : i.noting note = .acquire ℓ l ↔ i = .acquire ℓ l := by
  cases i <;> simp [Instr.noting]

@[simp] theorem noting_eq_release {ℓ : Lock n K} : i.noting note = .release ℓ l ↔ i = .release ℓ l := by
  cases i <;> simp [Instr.noting]

@[simp] theorem noting_eq_sleep {c : C} {k : K} : i.noting note = .sleep c k l ↔ i = .sleep c k l := by
  cases i <;> simp [Instr.noting]

@[simp] theorem noting_eq_wakeup {c : C} : i.noting note = .wakeup c l ↔ i = .wakeup c l := by
  cases i <;> simp [Instr.noting]

@[simp] theorem noting_eq_killed {f : Bool → L} : i.noting note = .killed f ↔ i = .killed f := by
  cases i <;> simp [Instr.noting]

@[simp] theorem noting_eq_kill {pid : ℕ} {f : Bool → L} :
    i.noting note = .kill pid f ↔ i = .kill pid f := by
  cases i <;> simp [Instr.noting]

theorem noting_eq_act {g : ι → σ × H → (σ × H) × L} :
    i.noting note = .act g ↔
      ∃ f, i = .act f ∧ g = fun r x => (((f r x.1).1, note r x.1 x.2), (f r x.1).2) := by
  cases i <;> simp [Instr.noting, eq_comm]

end Instr

/-- It takes the same locks. -/
theorem Disciplined.noting {prog : Fin n → L → Instr n K C σ ι L} {note : Fin n → L → ι → σ → H → H}
    {held : L → Lock n K → Prop} (hd : Disciplined prog held) : Disciplined (noting prog note) held where
  acquire h := hd.acquire (noting_eq_acquire.1 h)
  release h := hd.release (noting_eq_release.1 h)
  act {p l g} h i x m := by
    obtain ⟨f, hf, rfl⟩ := noting_eq_act.1 h
    exact hd.act hf i x.1 m
  sleep h := hd.sleep (noting_eq_sleep.1 h)
  wakeup h := hd.wakeup (noting_eq_wakeup.1 h)
  killed h := hd.killed (noting_eq_killed.1 h)
  kill h := hd.kill (noting_eq_kill.1 h)

variable [DecidableEq K] [DecidableEq C]

/-- The machine with a history beside its state. -/
def stepNoted (prog : Fin n → L → Instr n K C σ ι L) (note : Fin n → L → ι → σ → H → H)
    (x : State n K C σ L × H) (a : Fin n × ι) : Option (State n K C σ L × H) :=
  (step prog x.1 a).map fun s' => (s', noted prog note x.1 a x.2)

variable {prog : Fin n → L → Instr n K C σ ι L} {note : Fin n → L → ι → σ → H → H}

/-- **The same steps**, whether the history is part of the data or not. -/
theorem step_noting (s : State n K C σ L) (h : H) (a : Fin n × ι) :
    step (noting prog note) (s.keeping h) a =
      (step prog s a).map fun s' => s'.keeping (noted prog note s a h) := by
  unfold step noted
  dsimp only [State.keeping]
  cases hc : (s.procs a.1).ctl with
  | run l =>
    simp only [noting]
    cases prog a.1 l <;> simp only [Instr.noting] <;> repeat' split
    all_goals rfl
  | _ =>
    dsimp only
    repeat' split
    all_goals rfl

/-- **A run with a history is a run of the program that writes it.** -/
theorem reach_noting {G : State n K C σ L × H → Fin n × ι → Prop} {x₀ x : State n K C σ L × H}
    (hr : Reach (stepNoted prog note) G x₀ x) :
    Reach (step (noting prog note)) (fun s a => G (s.forget, s.sh.2) a) (x₀.1.keeping x₀.2)
      (x.1.keeping x.2) := by
  induction hr with
  | refl => exact .refl
  | @tail x y a hr hg hs ih =>
    unfold stepNoted at hs
    obtain ⟨s', hs', rfl⟩ := Option.map_eq_some_iff.1 hs
    refine ih.tail (a := a) hg ?_
    rw [step_noting, hs']
    rfl

/-! ## What one process did -/

section Tally

variable {T : Type}

/-- The history that has an entry for each process; an action changes that of its process. -/
def tally (add : Fin n → L → ι → σ → T → T) : Fin n → L → ι → σ → (Fin n → T) → Fin n → T :=
  fun p l i sh h => update h p (add p l i sh (h p))

/-- Where an instruction other than an action goes on. -/
def Instr.Next : Instr n K C σ ι L → L → Prop
  | .acquire _ l | .release _ l | .sleep _ _ l | .wakeup _ l => fun l' => l' = l
  | .killed f | .kill _ f => fun l' => ∃ b, l' = f b
  | .act _ | .panic _ => fun _ => False

/-- `N l t` may be said of the entry `t` of a process at `l`: its own steps keep it. -/
structure Tallied (prog : Fin n → L → Instr n K C σ ι L) (add : Fin n → L → ι → σ → T → T)
    (N : L → T → Prop) : Prop where
  act : ∀ {p l f i sh t}, prog p l = .act f → N l t → N (f i sh).2 (add p l i sh t)
  next : ∀ {p l l' t}, (prog p l).Next l' → N l t → N l' t

variable {add : Fin n → L → ι → σ → T → T} {N : L → T → Prop}

omit [DecidableEq K] [DecidableEq C] in
/-- As an outline: nothing is known of the data, and the entry of `p` is its own. -/
theorem Tallied.outline [Subsingleton K] (ht : Tallied prog add N) (held : L → Lock n K → Prop) (k : K) :
    Outline (noting prog (tally add)) held k (fun _ _ _ => True) (fun _ _ _ _ => True) (fun _ => True)
      (fun p l x => N l (x.2 p)) (fun p l x => N l (x.2 p)) where
  acquire hi hJ _ := by
    rw [noting, noting_eq_acquire] at hi
    exact ht.next (by rw [hi]; rfl) hJ
  release hi hJ := by
    rw [noting, noting_eq_release] at hi
    exact ⟨fun _ => trivial, ht.next (by rw [hi]; rfl) hJ⟩
  act hi _ _ hJ := by
    obtain ⟨f, hf, rfl⟩ := noting_eq_act.1 hi
    dsimp only [tally]
    rw [update_self]
    exact ht.act hf hJ
  stable hi _ _ _ q hq := by
    obtain ⟨f, hf, rfl⟩ := noting_eq_act.1 hi
    dsimp only [tally]
    rw [update_of_ne hq]
    exact ⟨fun _ _ h => h, fun _ h => h⟩
  unlocked _ _ _ _ _ _ := trivial
  sleep hi hJ := by
    rw [noting, noting_eq_sleep] at hi
    exact ⟨ht.next (by rw [hi]; rfl) hJ, fun _ => ⟨Subsingleton.elim _ _, trivial⟩⟩
  back hW _ := hW
  wakeup hi hJ := by
    rw [noting, noting_eq_wakeup] at hi
    exact ht.next (by rw [hi]; rfl) hJ
  killed hi hJ b := by
    rw [noting, noting_eq_killed] at hi
    exact ht.next (by rw [hi]; exact ⟨b, rfl⟩) hJ
  kill hi hJ b := by
    rw [noting, noting_eq_kill] at hi
    exact ht.next (by rw [hi]; exact ⟨b, rfl⟩) hJ

/-- **The entries say so in every run**, from any data and any local state `l₀`. -/
theorem Tallied.reach [Subsingleton K] (ht : Tallied prog add N) {held : L → Lock n K → Prop}
    (hd : Disciplined prog held) (k : K) {l₀ : L} {sh : σ} {t₀ : T} (hl : ∀ m, ¬ held l₀ m)
    (h0 : N l₀ t₀) {G : State n K C σ L × (Fin n → T) → Fin n × ι → Prop}
    {x : State n K C σ L × (Fin n → T)}
    (hr : Reach (stepNoted prog (tally add)) G (start l₀ sh, fun _ => t₀) x) {p : Fin n} {l : L}
    (hp : (x.1.procs p).ctl = .run l) : N l (x.2 p) := by
  have ho := (ht.outline held k).reach hd.noting (fun _ _ _ _ _ => trivial)
    (fun _ _ _ _ _ _ _ _ => trivial) (LockInv.start hl) (.start trivial fun _ => h0) (reach_noting hr)
  have hN := ho.2.asserts p
  rwa [show ((x.1.keeping x.2).procs p).ctl = .run l from hp] at hN

end Tally

end Xv6.Thread
