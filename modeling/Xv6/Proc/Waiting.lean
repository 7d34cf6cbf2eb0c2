import Xv6.Proc.Orphan

/-!
# No parent sleeps on a zombie

`exit` calls `wakeup(p->parent)` before it becomes a `ZOMBIE`, and `reparent` may hand a process
that is one already to `initproc`. Both happen with `wait_lock` held, and `wait` gives it up
only inside `sleep`, with its own `p->lock` held until it is `SLEEPING`. So whenever
`wait_lock` is free nobody is asleep in `wait` with a `ZOMBIE` child (`Clear`):

* while `reparent` wakes `initproc`, the scan of `wakeup` has not passed its slot yet;
* after the scan of `exit` has passed the parent, the parent is not asleep and cannot fall
  asleep, since it would need `wait_lock` to look again.
-/

namespace Xv6.Life

open Function Lib Conc
open Thread (PState Lock)

variable {n : ℕ}

/-- Sleeping in `wait`, or about to: `wait_lock` has been released for it. -/
def Asleep (t : Table n) (h : Hist n) (u : Fin n) : Prop := (t.proc u).state = .sleeping ∨ h.dozing u = true

/-- Nobody is asleep who has a `ZOMBIE` child, except `c` that a `wakeup` at slot `k` will get to. -/
def Clear (t : Table n) (h : Hist n) (c : Option (Fin n)) (k : ℕ) : Prop :=
  ∀ u z, Asleep t h u → (t.proc z).state = .zombie → (t.proc z).parent = some u → c = some u ∧ k ≤ u.val

/-- The slots that `wait` has looked at. -/
def Pc.scanned : Pc n → ℕ
  | .waitScan j _ => j
  | .waitLock j | .waitLook j => j
  | .waitNext j => j + 1
  | .waitKilled | .waitTest | .waitTested false | .sleepAcquire | .sleepRelease => n
  | _ => 0

/-- Whom `reparent` is waking, and how far it has come. -/
def Pc.pending : Pc n → Option (Fin n) × ℕ
  | .wakeScan c k (.reparent _ _) => (c, k)
  | .wakeTest c k (.reparent _ _) => (c, k)
  | .wakeNext c k (.reparent _ _) => (c, k + 1)
  | _ => (none, 0)

/-- How far `exit` has come with waking the parent. -/
def Pc.woken : Pc n → ℕ
  | .wakeScan _ k (.exit _) => k
  | .wakeTest _ k (.exit _) => k
  | .wakeNext _ k (.exit _) => k + 1
  | .exitLock _ | .exitZombie _ => n
  | _ => 0

/-- The channel of `wakeup(p->parent)`. -/
def Pc.wakes : Pc n → Option (Option (Fin n))
  | .wakeScan c _ (.exit _) | .wakeTest c _ (.exit _) | .wakeNext c _ (.exit _) => some c
  | _ => none

/-- What a thread knows of sleepers and zombies. -/
structure Watches (p : Fin n) (l : Pc n) (t : Table n) (h : Hist n) : Prop where
  dozes : h.dozing p = true ↔ l = .sleepSet
  quiet : ∀ u, l.locks p = some u → l = .sleepSet ∨ h.dozing u = false
  scan : ∀ z : Fin n, z.val < l.scanned → (t.proc z).parent = some p → (t.proc z).state ≠ .zombie
  clear : l.waitLocked = true → Clear t h l.pending.1 l.pending.2
  wakes : ∀ c, l.wakes = some c → c = (t.proc p).parent
  woken : ∀ u, (t.proc p).parent = some u → u.val < l.woken → ¬ Asleep t h u

/-- A sleeper in `wait` sleeps on its own slot. -/
def Beds (t : Table n) (_ : Hist n) : Prop := ∀ u, (t.proc u).state = .sleeping → (t.proc u).chan = some u

/-- What the locks guard. -/
def Rests (m : Lock n Unit) (t : Table n) (h : Hist n) : Prop :=
  match m with
  | .mon _ => Clear t h none 0
  | .proc u => h.dozing u = false

section Did

variable {p : Fin n} {l : Pc n} {t t' : Table n} {h h' : Hist n}

variable (d : Did p t h l t' h') (k : Knows p l t h)

include d k in
theorem Beds.step (hb : Beds t h) : Beds t' h' := by
  have key : ∀ {j : Fin n} {x : Slot n} {t' : Table n}, t'.proc = update t.proc j x →
      (x.state = .sleeping → x.chan = some j) → Beds t' h' := by
    intro j x t' ht hx u
    rw [ht]
    rcases eq_or_ne u j with rfl | hu
    · rw [update_self]; exact hx
    · rw [update_of_ne hu]; exact hb u
  cases d with
  | same | forked | release | call | exits | killEnd | killDone => exact hb
  | run | ready | alloc | free | zombie | reap => exact key rfl nofun
  | @context j | @adopt j | @orphan _ j => exact key rfl (hb j)
  | fault => exact key rfl (hb p)
  | sleep => exact key rfl fun _ => rfl
  | rise =>
    refine key rfl fun h0 => ?_
    rw [show (t.proc p).state = _ from k.running rfl] at h0
    cases h0
  | @wake c j =>
    refine key rfl fun h0 => ?_
    rw [Slot.wake_chan]
    exact hb j (Slot.wake_state_eq h0)
  | @kill pid j hp =>
    refine key rfl fun h0 => ?_
    rw [Slot.kill_chan]
    exact hb j (Slot.kill_state_eq h0)

theorem Did.dozing (d : Did p t h l t' h') (u : Fin n) :
    h'.dozing u = h.dozing u ∨ u = p ∧ (l = .sleepRelease ∧ h'.dozing u = true ∨ l = .sleepSet ∧ h'.dozing u = false) := by
  cases d with
  | release =>
    rcases eq_or_ne u p with rfl | hu
    · exact .inr ⟨rfl, .inl ⟨rfl, update_self ..⟩⟩
    · exact .inl (update_of_ne hu _ _)
  | sleep =>
    rcases eq_or_ne u p with rfl | hu
    · exact .inr ⟨rfl, .inr ⟨rfl, update_self ..⟩⟩
    · exact .inl (update_of_ne hu _ _)
  | _ => exact .inl rfl

include d k in
/-- Nobody else falls asleep. -/
theorem Did.asleep (hw : Watches p l t h) {u : Fin n}
    (ha : Asleep t' h' u) : Asleep t h u ∨ u = p ∧ l = .sleepRelease := by
  rcases ha with hs | hd
  · rcases d.state k u with he | he
    · exact .inl (.inl (he ▸ hs))
    · rw [hs] at he
      cases he with
      | sleep hu _ hl => exact .inl (.inr (hu ▸ hw.dozes.2 hl))
  · rcases d.dozing u with he | ⟨rfl, ⟨hl, -⟩ | ⟨-, he⟩⟩
    · exact .inl (.inr (he ▸ hd))
    · exact .inr ⟨rfl, hl⟩
    · rw [he] at hd; cases hd

include d k in
theorem Did.zombie_of {z : Fin n}
    (hz : (t'.proc z).state = .zombie) : (t.proc z).state = .zombie ∨ z = p ∧ ∃ st, l = .exitZombie st := by
  rcases d.state k z with he | he
  · exact .inl (he ▸ hz)
  · rw [hz] at he
    cases he with
    | exit hzp _ hl => exact .inr ⟨hzp, _, hl⟩

include d k in
/-- A step by which nobody falls asleep, exits or is handed to `initproc`. -/
theorem Did.steady (hw : Watches p l t h)
    (h1 : l ≠ .sleepRelease := by rintro ⟨⟩) (h2 : ∀ st, l ≠ .exitZombie st := by rintro _ ⟨⟩)
    (h3 : ∀ st j, l ≠ .reparent st j := by rintro _ _ ⟨⟩) :
    (∀ u, Asleep t' h' u → Asleep t h u) ∧
      ∀ z u, (t'.proc z).state = .zombie → (t'.proc z).parent = some u →
        (t.proc z).state = .zombie ∧ (t.proc z).parent = some u := by
  refine ⟨fun u hu => (d.asleep k hw hu).resolve_right fun h0 => h1 h0.2, fun z u hz hp => ?_⟩
  have hz0 : (t.proc z).state = .zombie := (d.zombie_of k hz).resolve_right fun ⟨_, st, h0⟩ => h2 st h0
  refine ⟨hz0, ?_⟩
  rcases d.hands k with ⟨hpar, -⟩ | ⟨j, pid, rfl, rfl, -⟩ | ⟨j, st, rfl, -⟩
  · rcases hpar z with h0 | h0
    · exact h0 ▸ hp
    · rw [h0] at hp; cases hp
  · -- a new child is not a `ZOMBIE`
    have hzj : z ≠ j := by
      rintro rfl
      rw [k.making z rfl] at hz0
      cases hz0
    rwa [Table.set_of_ne hzj] at hp
  · exact absurd rfl (h3 _ _)

include d k in
/-- Without `wait_lock` every step is of this kind. -/
theorem Did.calm (hw : Watches p l t h)
    (hl : ¬ l.waitLocked = true) :
    (∀ u, Asleep t' h' u → Asleep t h u) ∧
      ∀ z u, (t'.proc z).state = .zombie → (t'.proc z).parent = some u →
        (t.proc z).state = .zombie ∧ (t.proc z).parent = some u := by
  refine d.steady k hw ?_ ?_ ?_
  · rintro rfl; exact hl rfl
  · rintro st rfl; exact hl rfl
  · rintro st j rfl; exact hl rfl

theorem Clear.keep {c : Option (Fin n)} {i : ℕ}
    (hs : (∀ u, Asleep t' h' u → Asleep t h u) ∧
      ∀ z u, (t'.proc z).state = .zombie → (t'.proc z).parent = some u →
        (t.proc z).state = .zombie ∧ (t.proc z).parent = some u) (hc : Clear t h c i) : Clear t' h' c i := by
  intro u z hu hzs hzp
  obtain ⟨h1, h2⟩ := hs.2 z u hzs hzp
  exact hc u z (hs.1 u hu) h1 h2

theorem scanned_locked {l : Pc n} (h : 0 < l.scanned) : l.waitLocked = true := by
  cases l <;> first | rfl | exact absurd h (Nat.lt_irrefl _)

theorem woken_locked {l : Pc n} (h : 0 < l.woken) : l.waitLocked = true := by
  cases l <;> first | rfl | exact absurd h (Nat.lt_irrefl _)

theorem wakes_locked {l : Pc n} {c : Option (Fin n)} (h : l.wakes = some c) : l.waitLocked = true := by
  cases l <;> first | rfl | cases h

include d k in
/-- What another thread has seen stays true. -/
theorem Watches.other {q : Fin n} {l' : Pc n} (hw : Watches p l t h) (hq : q ≠ p) (hx : ∀ m, held q l' m → ¬ held p l m) (hwq : Watches q l' t h) :
    Watches q l' t' h' := by
  have hcalm : l'.waitLocked = true → _ := fun hl => d.calm k hw (hx (.mon ()) hl)
  have hpar : l'.waitLocked = true → (t'.proc q).parent = (t.proc q).parent := fun hl =>
    d.parent_eq k (hx (.mon ()) hl) q
  constructor
  · rw [← hwq.dozes]
    rcases d.dozing q with he | ⟨h0, -⟩
    · rw [he]
    · exact absurd h0 hq
  · intro u hu
    refine (hwq.quiet u hu).imp_right fun h0 => ?_
    rcases d.dozing u with he | ⟨rfl, ⟨rfl, -⟩ | ⟨-, he⟩⟩
    · rw [he]; exact h0
    · exact absurd rfl (hx (.proc u) hu)
    · exact he
  · intro z hz hzp hzs
    obtain ⟨h1, h2⟩ := (hcalm (scanned_locked (by omega))).2 z q hzs hzp
    exact hwq.scan z hz h2 h1
  · exact fun hl => (hwq.clear hl).keep (hcalm hl)
  · intro c hc
    rw [hpar (wakes_locked hc)]; exact hwq.wakes c hc
  · intro u hu hlt ha
    have hl := woken_locked (l := l') (by omega)
    rw [hpar hl] at hu
    exact hwq.woken u hu hlt ((hcalm hl).1 u ha)

/-- Only what the place of the thread asks for has to be shown. -/
theorem Watches.of {l' : Pc n} (hd : h.dozing p = true ↔ l' = .sleepSet)
    (hq : ∀ u, l'.locks p = some u → h.dozing u = false)
    (hc : l'.waitLocked = true → Clear t h l'.pending.1 l'.pending.2)
    (s : ∀ z : Fin n, z.val < l'.scanned → (t.proc z).parent = some p → (t.proc z).state ≠ .zombie := by rintro _ ⟨⟩)
    (w : ∀ c, l'.wakes = some c → c = (t.proc p).parent := by rintro _ ⟨⟩)
    (k : ∀ u, (t.proc p).parent = some u → u.val < l'.woken → ¬ Asleep t h u := by rintro _ _ ⟨⟩) : Watches p l' t h :=
  ⟨hd, fun u hu => .inr (hq u hu), s, hc, w, k⟩

/-- Outside `exit` and the scan of `wait` there is only `wait_lock` to mind. -/
theorem Watches.plain {l' : Pc n} (hd : h.dozing p = false) (hs : l' ≠ .sleepSet)
    (hq : ∀ u, l'.locks p = some u → h.dozing u = false) (hc : l'.waitLocked = true → Clear t h none 0)
    (h1 : l'.scanned = 0 := by rfl) (h2 : l'.pending = (none, 0) := by rfl) (h3 : l'.wakes = none := by rfl)
    (h4 : l'.woken = 0 := by rfl) : Watches p l' t h where
  dozes := by rw [hd]; exact iff_of_false nofun hs
  quiet u hu := .inr (hq u hu)
  scan z hz := by rw [h1] at hz; exact absurd hz (Nat.not_lt_zero _)
  clear hl := by rw [h2]; exact hc hl
  wakes c h0 := by rw [h3] at h0; cases h0
  woken u _ hu := by rw [h4] at hu; exact absurd hu (Nat.not_lt_zero _)

/-- Without `wait_lock` there is nothing to mind. -/
theorem Watches.unlocked {l' : Pc n} (hl : l'.waitLocked = false) (hd : h.dozing p = false) (hs : l' ≠ .sleepSet)
    (hq : ∀ u, l'.locks p = some u → h.dozing u = false) : Watches p l' t h := by
  have hz : ∀ {a : ℕ}, (0 < a → l'.waitLocked = true) → a = 0 := fun h0 =>
    Nat.eq_zero_of_not_pos fun h1 => by rw [h0 h1] at hl; cases hl
  refine .plain hd hs hq (fun h0 => by rw [hl] at h0; cases h0) (hz scanned_locked) ?_ ?_ (hz woken_locked)
  · cases l' <;> first | rfl | cases hl
  · cases hw : l'.wakes with
    | none => rfl
    | some c => rw [wakes_locked hw] at hl; cases hl

/-- A running process that does not doze off is not asleep. -/
theorem Watches.awake (k : Knows p l t h) (hw : Watches p l t h) (ha : l.alive = true) (hs : l ≠ .sleepSet) :
    ¬ Asleep t h p := by
  rintro (h0 | h0)
  · rw [k.running ha] at h0; cases h0
  · exact hs (hw.dozes.1 h0)

/-- The slot that `wakeup` has just visited is not asleep on that channel. -/
theorem not_asleep_wake {j : Fin n} (hb : Beds t h) (hd : h.dozing j = false) :
    ¬ Asleep (t.set j ((t.proc j).wake (some j))) h j := by
  rintro (h0 | h0)
  · rw [Table.set_self] at h0
    have hs := Slot.wake_state_eq (a := .sleeping) h0
    simp [Slot.wake, hs, hb j hs] at h0
  · rw [hd] at h0; cases h0

end Did

theorem Watches.act {p : Fin n} {l : Pc n} {f : Req → Table n → Table n × Pc n} {r : Req} {t : Table n}
    {h : Hist n} (hi : prog p l = .act f) (k : Knows p l t h) (hb : Beds t h) (hw : Watches p l t h) :
    Watches p (f r t).2 (f r t).1 (note p l r t h) := by
  have d := Did.of_act hi r t h
  obtain ⟨hlock, hproc, hne⟩ := act_locks hi r t
  by_cases hls : l = .sleepSet
  · subst hls
    have hd : (note p .sleepSet r t h).dozing p = false := update_self ..
    refine .unlocked hlock hd hne fun u hu => ?_
    rw [hproc] at hu
    cases hu
    exact hd
  -- nobody dozes off in an action
  have hdz : ∀ u, (note p l r t h).dozing u = h.dozing u := by
    intro u
    rcases d.dozing u with he | ⟨-, ⟨rfl, -⟩ | ⟨h0, -⟩⟩
    · exact he
    · simp [prog] at hi
    · exact absurd h0 hls
  have hd : (note p l r t h).dozing p = false := by
    rw [hdz]
    simpa using fun h0 => hls (hw.dozes.1 h0)
  have hq : ∀ u, (f r t).2.locks p = some u → (note p l r t h).dozing u = false := by
    intro u hu
    rw [hdz]
    exact (hw.quiet u (hproc ▸ hu)).resolve_left hls
  have hdozes : (note p l r t h).dozing p = true ↔ (f r t).2 = .sleepSet := by
    rw [hd]; exact iff_of_false Bool.false_ne_true hne
  by_cases hl : l.waitLocked = true
  swap
  · exact .unlocked (by rw [hlock]; simpa using hl) hd hne hq
  have hclear := hw.clear hl
  cases l <;> simp only [prog, Instr.act.injEq, reduceCtorEq] at hi
  case forkParent j pid =>
    subst hi
    exact .plain hd hne hq (fun _ => hclear.keep (d.steady k hw))
  case waitTest =>
    subst hi
    refine .of hdozes hq (fun _ => hclear) fun z hz => hw.scan z ?_
    dsimp only at hz
    cases hk : (t.proc p).killed
    · exact z.isLt
    · exact z.isLt
  case waitScan j hk =>
    subst hi
    have hscan : ∀ z : Fin n, z.val < j → _ := hw.scan
    dsimp only at hd hne hq hdozes ⊢
    split
    · next hj =>
      simp only [hj, dif_pos] at hd hne hq hdozes
      split
      · next hp =>
        simp only [hp, if_true] at hne hq hdozes
        exact .of hdozes hq (fun _ => hclear) hscan
      · next hp =>
        simp only [hp, if_false] at hne hq hdozes
        refine .of hdozes hq (fun _ => hclear) fun z hz => ?_
        rcases Nat.lt_succ_iff_lt_or_eq.1 hz with h0 | h0
        · exact hscan z h0
        · intro h1
          exact absurd (Fin.ext (b := ⟨j, hj⟩) h0 ▸ h1) hp
    · next hj =>
      simp only [hj, dif_neg, not_false_eq_true] at hne hq hdozes
      cases hk with
      | true =>
        exact .of hdozes hq (fun _ => hclear) fun z _ => hscan z (by omega)
      | false => exact .plain hd hne hq (fun _ => hclear)
  case waitLook j =>
    subst hi
    have hkeep := hclear.keep (d.steady k hw)
    dsimp only at d hd hne hq hdozes hkeep ⊢
    split
    · next hz =>
      simp only [hz, if_true] at d hne hq hdozes hkeep
      cases r <;> exact .plain hd hne hq (fun _ => hkeep)
    · next hz =>
      simp only [hz, if_false] at d hne hq hdozes hkeep
      refine .of hdozes hq (fun _ => hkeep) fun z h0 h1 => ?_
      rcases Nat.lt_succ_iff_lt_or_eq.1 h0 with h2 | h2
      · exact hw.scan z h2 h1
      · rw [Fin.ext h2]; exact hz
  case reparent st j =>
    subst hi
    dsimp only at d hd hne hq hdozes ⊢
    split
    · next hj =>
      simp only [hj, dif_pos] at d hne hq hdozes
      split
      · next hp =>
        simp only [hp, if_true] at d hne hq hdozes
        refine .of hdozes hq fun _ u z hu hz hzp => ?_
        -- only the child that was handed over can be a `ZOMBIE` whose new parent sleeps
        rw [Table.set_eq Slot.state (by rfl)] at hz
        have hu0 : Asleep t h u := by
          rcases hu with h0 | h0
          · exact .inl ((Table.set_eq Slot.state (by rfl)).symm.trans h0)
          · exact .inr h0
        rcases eq_or_ne z ⟨j, hj⟩ with rfl | hzj
        · rw [Table.set_self] at hzp
          exact ⟨hzp, Nat.zero_le _⟩
        · rw [Table.set_of_ne hzj] at hzp
          cases (hclear u z hu0 hz hzp).1
      · next hp =>
        simp only [hp, if_false] at d hne hq hdozes
        exact .plain hd hne hq (fun _ => hclear)
    · next hj =>
      simp only [hj, dif_neg, not_false_eq_true] at d hne hq hdozes
      refine .of hdozes hq (fun _ => hclear) (w := fun c hc => ?_)
      exact (Option.some.inj hc).symm
  case wakeScan c i r' =>
    have hawake : ¬ Asleep t h p := hw.awake k rfl (by rintro ⟨⟩)
    split at hi
    · split at hi <;> simp only [Instr.act.injEq, reduceCtorEq] at hi
      next hin hip =>
      subst hi
      cases r' with
      | reparent st j =>
        refine .of hdozes hq fun _ u z hu hz hzp => ?_
        obtain ⟨h1, h2⟩ := hclear u z hu hz hzp
        have hup : u.val ≠ i := by
          rintro h0
          rw [Fin.ext (h0.trans hip)] at hu
          exact hawake hu
        exact ⟨h1, show i + 1 ≤ u.val by have : i ≤ u.val := h2; omega⟩
      | exit st =>
        refine .of hdozes hq (fun _ => hclear) (w := hw.wakes) (k := fun u hu hlt ha => ?_)
        rcases Nat.lt_succ_iff_lt_or_eq.1 hlt with h0 | h0
        · exact hw.woken u hu h0 ha
        · rw [Fin.ext (h0.trans hip)] at ha
          exact hawake ha
    · next hin =>
      cases hi
      cases r' with
      | reparent st j =>
        refine .plain hd hne hq (fun _ u z hu hz hzp => ?_)
        have : i ≤ u.val := (hclear u z hu hz hzp).2
        have := u.isLt
        omega
      | exit st =>
        refine .of hdozes hq (fun _ => hclear) (k := fun u hu _ => ?_)
        exact hw.woken u hu (show u.val < i by have := u.isLt; omega)
  case wakeTest c j r' =>
    subst hi
    have hs := d.steady k hw
    have hvisit : c = some j → ¬ Asleep (t.set j ((t.proc j).wake c)) h j := by
      rintro rfl
      exact not_asleep_wake hb ((hw.quiet j rfl).resolve_left (by rintro ⟨⟩))
    cases r' with
    | reparent st i =>
      refine .of hdozes hq fun _ u z hu hz hzp => ?_
      obtain ⟨h1, h2⟩ := hclear.keep hs u z hu hz hzp
      have huj : u ≠ j := by
        rintro rfl
        exact hvisit h1 hu
      have : j.val ≤ u.val := h2
      have : u.val ≠ j.val := fun h0 => huj (Fin.ext h0)
      exact ⟨h1, show j.val + 1 ≤ u.val by omega⟩
    | exit st =>
      have hpar : ((t.set j ((t.proc j).wake c)).proc p).parent = (t.proc p).parent :=
        Table.set_eq Slot.parent (Slot.wake_parent ..)
      refine .of hdozes hq (fun _ => hclear.keep hs) (w := fun c' hc' => ?_) (k := fun u hu hlt ha => ?_)
      · exact (hw.wakes c' hc').trans hpar.symm
      · have hu0 := hpar.symm.trans hu
        rcases Nat.lt_succ_iff_lt_or_eq.1 hlt with h0 | h0
        · exact hw.woken u hu0 h0 (hs.1 u ha)
        · rw [Fin.ext h0] at ha hu0
          exact hvisit ((hw.wakes c rfl).trans hu0) ha
  case exitZombie st =>
    subst hi
    refine .plain hd hne hq (fun _ u z hu hz hzp => ?_)
    have hu0 := (d.asleep k hw hu).resolve_right fun h0 => by cases h0.2
    rw [Table.set_eq Slot.parent (by rfl)] at hzp
    rcases d.zombie_of k hz with h0 | ⟨rfl, -⟩
    · cases (hclear u z hu0 h0 hzp).1
    · exact absurd hu0 (hw.woken u hzp u.isLt)
  all_goals cases hl

theorem acquire_watch {p : Fin n} {l l' : Pc n} {m : Lock n Unit} (hi : prog p l = .acquire m l') :
    l ≠ .sleepSet ∧ l' ≠ .sleepSet ∧ l'.scanned ≤ l.scanned ∧ l'.pending = l.pending ∧
      (m = .mon () → l.pending = (none, 0)) ∧ l'.wakes = l.wakes ∧ l'.woken = l.woken := by
  cases l <;> simp only [prog, Instr.acquire.injEq, reduceCtorEq] at hi
  case allocScan j | killScan pid j =>
    split at hi <;> cases hi
    exact ⟨by rintro ⟨⟩, by rintro ⟨⟩, Nat.zero_le _, rfl, fun _ => rfl, rfl, rfl⟩
  case wakeScan c j r' =>
    split at hi
    · split at hi <;> cases hi
      cases r' <;> exact ⟨by rintro ⟨⟩, by rintro ⟨⟩, Nat.zero_le _, rfl, by rintro ⟨⟩, rfl, rfl⟩
    · cases hi
  all_goals
    obtain ⟨-, rfl⟩ := hi
    exact ⟨by rintro ⟨⟩, by rintro ⟨⟩, Nat.le_refl _, rfl, fun _ => rfl, rfl, rfl⟩

theorem release_watch {p : Fin n} {l l' : Pc n} {m : Lock n Unit} (hi : prog p l = .release m l') :
    l ≠ .sleepSet ∧ (l' = .sleepSet ↔ l = .sleepRelease) ∧ (l = .sleepRelease → m = .mon ()) ∧
      l'.scanned ≤ l.scanned ∧ l'.pending = l.pending ∧ (m = .mon () → l.pending = (none, 0)) ∧
      l'.wakes = l.wakes ∧ l'.woken = l.woken := by
  cases l <;> simp only [prog, Instr.release.injEq, reduceCtorEq] at hi
  case allocScan | killScan | wakeScan => (repeat' split at hi) <;> cases hi
  case waitTested b | trapUnlock b =>
    obtain ⟨rfl, rfl⟩ := hi
    cases b <;> simp [Pc.scanned, Pc.pending, Pc.wakes, Pc.woken]
  case wakeNext c j r' =>
    obtain ⟨rfl, rfl⟩ := hi
    cases r' <;> simp [Pc.scanned, Pc.pending, Pc.wakes, Pc.woken]
  all_goals
    obtain ⟨rfl, rfl⟩ := hi
    simp [Pc.scanned, Pc.pending, Pc.wakes, Pc.woken]

/-- **The annotations of `sleep` and `wakeup`.** -/
theorem waiting : Proof (prog (n := n)) note held (fun p l t h => Family t h ∧ Knows p l t h)
    (fun _ _ _ _ _ => True) Beds Rests Watches where
  acquire {p l m l' r t h} hi _ _ hctx hb hw hR := by
    rw [(acquire_exiting hi).2 r t h]
    obtain ⟨h1, h2, h3, h4, hmon, h5, h6⟩ := acquire_watch hi
    refine ⟨hb, iff_of_false (fun h0 => h1 (hw.dozes.1 h0)) h2, fun u hu => .inr ?_, fun z hz => hw.scan z ?_,
      fun hl => ?_, fun c hc => hw.wakes c (h5 ▸ hc), fun u hu hlt => hw.woken u hu (h6 ▸ hlt)⟩
    · rcases (disciplined.acquire hi (.proc u)).1 hu with h0 | h0
      · exact (hw.quiet u h0).resolve_left h1
      · subst h0; exact hR
    · exact Nat.lt_of_lt_of_le hz h3
    · rw [h4]
      rcases (disciplined.acquire hi (.mon ())).1 hl with h0 | h0
      · exact hw.clear h0
      · subst h0
        rw [hmon rfl]
        exact hR
  release {p l m l' r t h} hi _ hctx hb hw := by
    have d := Did.of_release hi r t h
    obtain ⟨h1, h2, h3, h4, h5, h6, h7, h8⟩ := release_watch hi
    obtain ⟨hheld, hrel⟩ := disciplined.release hi
    have hp : h.dozing p = false := by simpa using fun h0 => h1 (hw.dozes.1 h0)
    by_cases hsr : l = .sleepRelease
    · subst hsr
      have hm := h3 rfl
      have hl' := h2.2 rfl
      subst hm hl'
      refine ⟨hb, fun u z hu hz hzp => ?_, ?_⟩
      · -- `p` has looked at all its children and found no `ZOMBIE`
        rcases d.asleep hctx.2 hw hu with h0 | ⟨rfl, -⟩
        · exact hw.clear rfl u z h0 hz hzp
        · exact absurd hz (hw.scan z z.isLt hzp)
      · refine ⟨iff_of_true (update_self ..) rfl, fun _ _ => .inl rfl, nofun, nofun, nofun, nofun⟩
    · have hdz : ∀ u, (note p l r t h).dozing u = h.dozing u := by
        intro u
        rcases d.dozing u with he | ⟨-, ⟨h0, -⟩ | ⟨h0, -⟩⟩
        · exact he
        · exact absurd h0 hsr
        · exact absurd h0 h1
      have hs : (∀ u, Asleep t (note p l r t h) u → Asleep t h u) := fun u h0 =>
        h0.imp_right fun h0 => (hdz u) ▸ h0
      have hkeep : ∀ {c i}, Clear t h c i → Clear t (note p l r t h) c i := fun hc =>
        hc.keep ⟨hs, fun _ _ hz hzp => ⟨hz, hzp⟩⟩
      refine ⟨hb, ?_, ?_, fun u hu => .inr ?_, fun z hz => hw.scan z (Nat.lt_of_lt_of_le hz h4), fun hl => ?_,
        fun c hc => hw.wakes c (h7 ▸ hc), fun u hu hlt ha => hw.woken u hu (h8 ▸ hlt) (hs u ha)⟩
      · cases m with
        | mon u =>
          have := hw.clear hheld
          rw [h6 rfl] at this
          exact hkeep this
        | proc u => exact (hdz u).trans ((hw.quiet u hheld).resolve_left h1)
      · rw [hdz, hp]
        exact iff_of_false nofun fun h0 => hsr (h2.1 h0)
      · rw [hdz]
        exact (hw.quiet u ((hrel (.proc u)).1 hu).1).resolve_left h1
      · rw [h5]
        exact hkeep (hw.clear ((hrel (.mon ())).1 hl).1)
  act hi _ hctx hb hw := ⟨hb.step (.of_act hi _ _ _) hctx.2, hw.act hi hctx.2 hb⟩
  stable {p l r t h q l'} hq hx _ hctx _ _ hw hwq := .other (did p l r t h) hctx.2 hw hq hx hwq
  guard {p l r t h m} hl _ hctx _ hw hR := by
    have d := did p l r t h
    cases m with
    | mon u => exact Clear.keep (d.calm hctx.2 hw hl) hR
    | proc u =>
      rcases d.dozing u with he | ⟨rfl, ⟨rfl, -⟩ | ⟨-, he⟩⟩
      · exact he.trans hR
      · exact absurd rfl hl
      · exact he

theorem waiting_boot (i : Fin n) : Sound held Beds Rests Watches (boot i) Hist.boot where
  locks := (family_boot i).locks
  inv u h0 := by
    simp only [boot] at h0
    split at h0 <;> cases h0
  free m _ := by
    cases m with
    | mon u => rintro _ _ _ _ ⟨⟩
    | proc u => rfl
  knows q := by
    refine .unlocked ?_ rfl ?_ fun u _ => rfl <;> simp only [boot] <;> split <;> first | rfl | rintro ⟨⟩

theorem waiting_reach {G : State (Fin n) (Lock n Unit) (Table n) (Pc n) × Hist n → Fin n × Req → Prop} {i : Fin n}
    {s : State (Fin n) (Lock n Unit) (Table n) (Pc n)} {h : Hist n}
    (hr : Reach (step prog note) G (boot i, Hist.boot) (s, h)) : Sound held Beds Rests Watches s h :=
  waiting.reach disciplined (fun _ hy q => ⟨(family_reach hy).inv, (family_reach hy).knows q⟩)
    (fun _ _ _ _ _ => trivial) (waiting_boot i) hr

end Xv6.Life
