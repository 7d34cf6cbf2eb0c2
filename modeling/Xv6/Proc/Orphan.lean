import Xv6.Proc.Family

/-!
# Orphans

Processes are numbered (`Hist.id`), so that it makes sense to ask whether the process that
forked another one is still there. Whenever `wait_lock` is free the parent of a process is the
one that forked it or, if that one has exited, `initproc` (`Kin`). While `exit` holds
`wait_lock` its own children may already be with `initproc`: they are excused until it has
become a `ZOMBIE`.
-/

namespace Xv6.Life

open Function Lib Conc
open Thread (PState Lock)

variable {n : ℕ}

/-- The numbers of processes. -/
structure Numbered (t : Table n) (h : Hist n) : Prop where
  inj : ∀ i j, h.id i = h.id j → i = j
  lt : ∀ j, h.id j < h.count
  creator_lt : ∀ j, h.creator j < h.count
  /-- A process that has not run yet has forked nobody. -/
  used : ∀ j, (t.proc j).state = .used → ∀ i, h.creator i ≠ h.id j

/-- The process with number `g` is not alive. -/
def Gone (t : Table n) (h : Hist n) (g : ℕ) : Prop := ∀ c, h.id c = g → ¬ Live (t.proc c).state

/-- The parent of a process forked it, or is `initproc` and the one that forked it is gone. The
children of `x` are excused. -/
def Kin (t : Table n) (h : Hist n) (x : Option ℕ) : Prop :=
  ∀ j q, (t.proc j).parent = some q →
    h.id q = h.creator j ∨ q = t.initproc ∧ (Gone t h (h.creator j) ∨ x = some (h.creator j))

variable {h : Hist n}

theorem Kin.mono {t : Table n} (hk : Kin t h none) (x : Option ℕ) : Kin t h x := by
  intro j q hq
  rcases hk j q hq with h0 | ⟨h0, h1 | h1⟩
  · exact .inl h0
  · exact .inr ⟨h0, .inl h1⟩
  · cases h1

/-- Whose children are excused while `p` is at `l`. -/
def Pc.excuse (h : Hist n) (p : Fin n) (l : Pc n) : Option ℕ := if l.exiting then some (h.id p) else none

/-- What a thread knows while it holds `wait_lock`. -/
def Minds (p : Fin n) (l : Pc n) (t : Table n) (h : Hist n) : Prop :=
  l.waitLocked = true → Kin t h (l.excuse h p)

section Did

variable {p : Fin n} {l : Pc n} {t t' : Table n} {h h' : Hist n}

theorem Did.id (d : Did p t h l t' h') (j : Fin n) :
    h'.id j = h.id j ∧ h.count ≤ h'.count ∨
      (t.proc j).state = .unused ∧ h'.id j = h.count ∧ h'.count = h.count + 1 ∧ l.locks p = some j := by
  cases d with
  | @alloc i hs =>
    rcases eq_or_ne j i with rfl | hj
    · exact .inr ⟨hs, update_self .., rfl, rfl⟩
    · exact .inl ⟨update_of_ne hj _ _, Nat.le_succ _⟩
  | _ => exact .inl ⟨rfl, Nat.le_refl _⟩

theorem Did.count (d : Did p t h l t' h') : h.count ≤ h'.count := by
  cases d <;> first | exact Nat.le_succ _ | exact Nat.le_refl _

theorem Did.creator (d : Did p t h l t' h') (j : Fin n) :
    h'.creator j = h.creator j ∨ ∃ pid, l = .forkParent j pid ∧ h' = h.adopt p j := by
  cases d with
  | @adopt i pid =>
    rcases eq_or_ne j i with rfl | hj
    · exact .inr ⟨pid, rfl, rfl⟩
    · exact .inl (update_of_ne hj _ _)
  | _ => exact .inl rfl

variable (d : Did p t h l t' h') (k : Knows p l t h)

include d k in
/-- No child gets another parent, except in `fork` and `reparent`. -/
theorem Did.hands :
    (∀ j, (t'.proc j).parent = (t.proc j).parent ∨ (t'.proc j).parent = none) ∧ h'.creator = h.creator ∨
      (∃ j pid, l = .forkParent j pid ∧ t' = t.set j { t.proc j with parent := some p } ∧ h' = h.adopt p j) ∨
      ∃ j st, l = .reparent st j.val ∧ (t.proc j).parent = some p ∧
        t' = t.set j { t.proc j with parent := some t.initproc } ∧ h' = h := by
  cases d with
  | same | forked | release | call | exits | killEnd | killDone => exact .inl ⟨fun _ => .inl rfl, rfl⟩
  | run | alloc | context | ready | zombie | sleep | rise | fault =>
    exact .inl ⟨fun _ => .inl (Table.set_eq Slot.parent rfl), rfl⟩
  | wake => exact .inl ⟨fun _ => .inl (Table.set_eq Slot.parent (Slot.wake_parent ..)), rfl⟩
  | kill => exact .inl ⟨fun _ => .inl (Table.set_eq Slot.parent (Slot.kill_parent _)), rfl⟩
  | free hf => exact .inl ⟨fun _ => .inl (Table.set_eq Slot.parent (k.fresh _ hf).symm), rfl⟩
  | reap =>
    refine .inl ⟨fun j => (Table.set_cases Slot.parent j _ _).imp_right ?_, rfl⟩
    rintro ⟨-, h0⟩
    exact h0
  | adopt => exact .inr (.inl ⟨_, _, rfl, rfl, rfl⟩)
  | orphan hp => exact .inr (.inr ⟨_, _, rfl, hp, rfl, rfl⟩)

include d k in
theorem Numbered.step (hn : Numbered t h) : Numbered t' h' where
  inj i j hij := by
    rcases d.id i with ⟨hi, -⟩ | ⟨-, hi, -, hli⟩ <;> rcases d.id j with ⟨hj, -⟩ | ⟨-, hj, -, hlj⟩
    · exact hn.inj i j (by rw [← hi, ← hj]; exact hij)
    · have := hn.lt i
      omega
    · have := hn.lt j
      omega
    · rw [hli] at hlj; exact Option.some.inj hlj
  lt j := by
    rcases d.id j with ⟨hj, hc⟩ | ⟨-, hj, hc, -⟩
    · have := hn.lt j
      omega
    · omega
  creator_lt j := by
    have hc := d.count
    rcases d.creator j with hj | ⟨pid, -, rfl⟩
    · have := hn.creator_lt j
      omega
    · simpa [Hist.adopt] using hn.lt p
  used j hu i := by
    rcases d.creator i with hi | ⟨pid, rfl, rfl⟩
    · rw [hi]
      rcases d.id j with ⟨hj, -⟩ | ⟨-, hj, -⟩
      · rw [hj]
        rcases d.state k j with he | he
        · exact hn.used j (he ▸ hu) i
        · rw [hu] at he
          cases he with
          | alloc _ h0 => rw [← hj, h0]; exact Nat.ne_of_lt (hn.creator_lt i)
      · rw [hj]; exact Nat.ne_of_lt (hn.creator_lt i)
    · -- the one that forks is running
      have hr := k.runs d rfl
      intro h0
      have hpj : p = j := hn.inj p j (by simpa [Hist.adopt] using h0)
      rw [← hpj, hr] at hu
      cases hu

include d k in
/-- A process that is gone stays so. -/
theorem Gone.step (hn : Numbered t h) {i : Fin n}
    (hg : Gone t h (h.creator i)) : Gone t' h' (h.creator i) := by
  intro c hc hlive
  rcases d.id c with ⟨hi, -⟩ | ⟨-, hi, -⟩
  · rw [hi] at hc
    have hdead := hg c hc
    rcases d.state k c with he | he
    · rw [he] at hlive; exact hdead hlive
    · generalize (t'.proc c).state = x at *
      cases he with
      | ready _ hu => exact hn.used c hu i hc.symm
      | run _ h0 => exact hdead (.inr (.inl h0))
      | wake h0 => exact hdead (.inr (.inr h0))
      | sleep _ h0 => exact hdead (.inl h0)
      | alloc | free | reap | exit => simp [Live] at hlive
  · have := hn.creator_lt i
    omega

variable {x : Option ℕ}

include d k in
/-- A step that hands over no child. -/
theorem Kin.keep (hf : Family t h)
    (hn : Numbered t h) (hpar : ∀ j, (t'.proc j).parent = (t.proc j).parent ∨ (t'.proc j).parent = none)
    (hcr : h'.creator = h.creator) (hk : Kin t h x) : Kin t' h' x := by
  intro j q hq
  have hq0 : (t.proc j).parent = some q := by
    rcases hpar j with h0 | h0
    · exact h0 ▸ hq
    · rw [h0] at hq; cases hq
  have hid : h'.id q = h.id q := by
    rcases d.id q with ⟨hi, -⟩ | ⟨hu, -⟩
    · exact hi
    · have := hf.parent_live j q hq0
      simp [Live, hu] at this
  rw [hid, hcr, d.initproc]
  rcases hk j q hq0 with h0 | ⟨h0, h1 | h1⟩
  · exact .inl h0
  · exact .inr ⟨h0, .inl (h1.step d k hn)⟩
  · exact .inr ⟨h0, .inr h1⟩

include d k in
/-- Without `wait_lock` no child is handed over. -/
theorem Kin.unlocked (hf : Family t h)
    (hn : Numbered t h) (hl : ¬ l.waitLocked = true) (hk : Kin t h x) : Kin t' h' x := by
  rcases d.hands k with ⟨hpar, hcr⟩ | ⟨j, pid, rfl, -⟩ | ⟨j, st, rfl, -⟩
  · exact hk.keep d k hf hn hpar hcr
  · exact absurd rfl hl
  · exact absurd rfl hl

/-- A running process keeps its number. -/
theorem Did.id_of_running (d : Did p t h l t' h') {q : Fin n} (hq : (t.proc q).state = .running) :
    h'.id q = h.id q := by
  rcases d.id q with ⟨hi, -⟩ | ⟨hu, -⟩
  · exact hi
  · rw [hu] at hq; cases hq

/-- One child is handed over. -/
theorem Kin.set {j q : Fin n} {y : Slot n} (d : Did p t h l (t.set j y) h')
    (k : Knows p l t h) (hn : Numbered t h) (hid : h'.id = h.id) (hy : y.parent = some q)
    (hcr : ∀ i, i ≠ j → h'.creator i = h.creator i)
    (hq : h.id q = h'.creator j ∨ q = t.initproc ∧ x = some (h'.creator j)) (hk : Kin t h x) :
    Kin (t.set j y) h' x := by
  intro i q' hq'
  rcases eq_or_ne i j with rfl | hij
  · rw [Table.set_self, hy] at hq'
    cases hq'
    rw [hid]
    exact hq.imp_right fun h0 => ⟨h0.1, .inr h0.2⟩
  · rw [Table.set_of_ne hij] at hq'
    rw [hid, hcr i hij]
    rcases hk i q' hq' with h0 | ⟨h0, h1 | h1⟩
    · exact .inl h0
    · exact .inr ⟨h0, .inl (h1.step d k hn)⟩
    · exact .inr ⟨h0, .inr h1⟩

include d k in
/-- `p` itself may hand over a child: in `fork` one to itself, in `exit` one to `initproc`. -/
theorem Kin.own (hf : Family t h) (hn : Numbered t h)
    (hk : Kin t h (l.excuse h p)) : Kin t' h' (l.excuse h p) := by
  rcases d.hands k with ⟨hpar, hcr⟩ | ⟨j, pid, rfl, rfl, rfl⟩ | ⟨j, st, rfl, hp, rfl, rfl⟩
  · exact hk.keep d k hf hn hpar hcr
  · refine hk.set d k hn rfl rfl (fun i hi => update_of_ne hi _ _) (.inl ?_)
    simp [Hist.adopt]
  · refine hk.set d k hn rfl rfl (fun _ _ => rfl) (.inr ⟨rfl, ?_⟩)
    rcases hk j p hp with h0 | ⟨h0, -⟩
    · rw [← h0]; rfl
    · exact absurd h0.symm (k.exiting rfl)

/-- Once it is a `ZOMBIE` its children need no excuse. -/
theorem Kin.exit {st : BitVec 32} (d : Did p t h (.exitZombie st) t' h') (k : Knows p (.exitZombie st) t h)
    (hn : Numbered t h) (hz : (t'.proc p).state = .zombie) (hk : Kin t' h' (some (h.id p))) :
    Kin t' h' none := by
  intro j q hq
  rcases hk j q hq with h0 | ⟨h0, h1 | h1⟩
  · exact .inl h0
  · exact .inr ⟨h0, .inl h1⟩
  · refine .inr ⟨h0, .inl fun c hc => ?_⟩
    have hcp : c = p := (hn.step d k).inj c p (by
      rw [hc, d.id_of_running (k.running rfl)]; exact (Option.some.inj h1).symm)
    rw [hcp, hz]
    simp [Live]

end Did

variable {l : Pc n} {p : Fin n}

/-- After an action `exit` still holds `wait_lock` and is not done, unless it became a `ZOMBIE`. -/
theorem act_exiting {f : Req → Table n → Table n × Pc n} (hi : prog p l = .act f)
    (r : Req) (t : Table n) (hl : l.waitLocked = true) :
    (f r t).2.exiting = l.exiting ∨ (∃ st, l = .exitZombie st) ∧ (f r t).2.exiting = false ∧
      ((f r t).1.proc p).state = .zombie := by
  cases l <;> simp only [prog, Instr.act.injEq, reduceCtorEq] at hi
  case exitZombie st => subst hi; exact .inr ⟨⟨st, rfl⟩, rfl, by simp⟩
  case wakeScan c j r' => cases r' <;> (repeat' split at hi) <;> cases hi <;> exact .inl rfl
  case reparent | waitScan | waitLook | forkParent | wakeTest | waitTest =>
    subst hi
    dsimp only
    (repeat' split) <;> exact .inl rfl
  all_goals cases hl

variable {l' : Pc n}

theorem acquire_exiting {m : Lock n Unit} (hi : prog p l = .acquire m l') :
    l'.exiting = l.exiting ∧ ∀ r t h, note p l r t h = h := by
  cases l <;> simp only [prog, Instr.acquire.injEq, reduceCtorEq] at hi
  case allocScan | wakeScan =>
    (repeat' split at hi) <;> cases hi
    exact ⟨rfl, fun _ _ _ => rfl⟩
  case killScan pid j =>
    split at hi <;> simp only [Instr.acquire.injEq, reduceCtorEq] at hi
    next hj =>
    obtain ⟨rfl, rfl⟩ := hi
    exact ⟨rfl, fun _ _ _ => if_pos hj⟩
  all_goals
    obtain ⟨rfl, rfl⟩ := hi
    exact ⟨rfl, fun _ _ _ => rfl⟩

theorem release_exiting {m : Lock n Unit} (hi : prog p l = .release m l') :
    (m = .mon () → l.exiting = false) ∧ (l'.waitLocked = true → l'.exiting = l.exiting) := by
  cases l <;> simp only [prog, Instr.release.injEq, reduceCtorEq] at hi
  case allocScan | killScan | wakeScan => (repeat' split at hi) <;> cases hi
  case waitTested b | trapUnlock b =>
    obtain ⟨rfl, rfl⟩ := hi
    cases b <;> exact ⟨by rintro ⟨⟩, fun _ => rfl⟩
  all_goals
    obtain ⟨rfl, rfl⟩ := hi
    simp [Pc.exiting, Pc.waitLocked]

theorem exiting_alive (h : l.exiting = true) : l.alive = true := by
  cases l <;> first | rfl | cases h

theorem Did.excuse {q : Fin n} {t t' : Table n} {h' : Hist n} (d : Did p t h l t' h')
    (k : Knows q l' t h) : l'.excuse h' q = l'.excuse h q := by
  unfold Pc.excuse
  split
  · next he => rw [d.id_of_running (k.running (exiting_alive he))]
  · rfl

/-- **The annotations of `reparent`.** -/
theorem kinship : Proof (prog (n := n)) note held (fun p l t h => Family t h ∧ Knows p l t h)
    (fun _ _ _ _ _ => True) Numbered (fun m t h => m = .mon () → Kin t h none) Minds where
  acquire {p l m l' r t h} hi _ _ hctx hn hm hR := by
    obtain ⟨hex, hnote⟩ := acquire_exiting hi
    rw [hnote r t h]
    refine ⟨hn, fun hl => ?_⟩
    rcases (disciplined.acquire hi (.mon ())).1 hl with h0 | h0
    · have := hm h0
      unfold Pc.excuse at *
      rwa [hex]
    · exact (hR h0.symm).mono _
  release {p l m l' r t h} hi _ hctx hn hm := by
    have d := Did.of_release hi r t h
    obtain ⟨hheld, hrel⟩ := disciplined.release hi
    obtain ⟨hmon, hex⟩ := release_exiting hi
    refine ⟨hn.step d hctx.2, fun h0 => ?_, fun hl => ?_⟩
    · subst h0
      have := (hm hheld).own d hctx.2 hctx.1 hn
      unfold Pc.excuse at this
      rwa [hmon rfl] at this
    · have := (hm ((hrel (.mon ())).1 hl).1).own d hctx.2 hctx.1 hn
      rw [← d.excuse hctx.2] at this
      unfold Pc.excuse at *
      rwa [hex hl]
  act {p l f r t h} hi _ hctx hn hm := by
    have d := Did.of_act hi r t h
    refine ⟨hn.step d hctx.2, fun hl => ?_⟩
    rw [(act_locks hi r t).1] at hl
    have hk := (hm hl).own d hctx.2 hctx.1 hn
    rcases act_exiting hi r t hl with he | ⟨⟨st, rfl⟩, he, hz⟩
    · rw [← d.excuse hctx.2] at hk
      unfold Pc.excuse at *
      rwa [he]
    · have := hk.exit d hctx.2 hn hz
      unfold Pc.excuse
      rwa [he]
  stable {p l r t h q l'} hq hx _ hctx hctx' hn _ hm hl := by
    have d := did p l r t h
    rw [d.excuse hctx'.2]
    exact (hm hl).unlocked d hctx.2 hctx.1 hn (hx (.mon ()) hl)
  guard {p l r t h m} hl _ hctx hn _ hR hm := by
    subst hm
    exact (hR rfl).unlocked (did p l r t h) hctx.2 hctx.1 hn hl

theorem kinship_boot (i : Fin n) :
    Sound held Numbered (fun m t h => m = .mon () → Kin t h none) Minds (boot i) Hist.boot where
  locks := (family_boot i).locks
  inv :=
    { inj := fun _ _ h => Fin.ext h
      lt := fun j => j.isLt
      creator_lt := fun j => j.isLt
      used := fun j hj => by
        simp only [boot] at hj
        split at hj <;> cases hj }
  free _ _ _ := nofun
  knows q := by
    intro _
    exact nofun

theorem kinship_reach {G : State (Fin n) (Lock n Unit) (Table n) (Pc n) × Hist n → Fin n × Req → Prop} {i : Fin n}
    {s : State (Fin n) (Lock n Unit) (Table n) (Pc n)}
    (hr : Reach (step prog note) G (boot i, Hist.boot) (s, h)) :
    Sound held Numbered (fun m t h => m = .mon () → Kin t h none) Minds s h :=
  kinship.reach disciplined (fun _ hy q => ⟨(family_reach hy).inv, (family_reach hy).knows q⟩)
    (fun _ _ _ _ _ => trivial) (kinship_boot i) hr

end Xv6.Life
