import Xv6.Proc.Waiting

/-!
# `exit` and `wait`

The protocol as a whole. Every process that exits is reaped at most once, by the process that
is its parent then, and `wait` reports the pid that `fork` returned for it and the status that
it gave to `exit`. The log of a run says so (`Records`): what it knows about a process number
has to agree with the slot that holds the process (`Records.slot`).

* `exit_wait`: the three parts, in every reachable state.
-/

namespace Xv6.Life

open Function Lib Conc
open Thread (PState Lock)

variable {n : ℕ}

/-- The number of the process that an event is about. -/
def Event.id : Event n → ℕ
  | .forked g _ | .exited g _ | .reaped g _ _ _ _ => g

def Event.reapedId : Event n → Option ℕ
  | .reaped g _ _ _ _ => some g
  | _ => none

/-- What the log says about the process with number `g` agrees with the slot `j` that it is in. -/
structure Agrees (log : List (Event n)) (init j : Fin n) (x : Slot n) (g : ℕ) (mk : Option (Fin n))
    (given : Bool) : Prop where
  zombie : x.state = .zombie → .exited g x.xstate ∈ log
  exited : ∀ st, .exited g st ∈ log → x.state = .zombie ∨ x.state = .unused
  forked : x.state ≠ .unused → j ≠ init → mk = none → .forked g x.pid ∈ log
  unmade : ∀ v, .forked g v ∈ log → x.state ≠ .unused → mk = none
  reaped : ∀ q par v st, .reaped g q par v st ∈ log → x.state = .unused
  child : given = true → x.state ≠ .unused → x.parent ≠ none
  made : x.state ≠ .unused → x.state ≠ .used → j ≠ init → given = true

structure Records (t : Table n) (h : Hist n) : Prop where
  slot : ∀ j, Agrees h.log t.initproc j (t.proc j) (h.id j) (h.maker j) (h.given j)
  lt : ∀ e ∈ h.log, e.id < h.count
  reaped : ∀ g q par v st, .reaped g q par v st ∈ h.log →
    par = some q ∧ .exited g st ∈ h.log ∧ .forked g v ∈ h.log
  once : (h.log.filterMap Event.reapedId).Nodup
  exits : ∀ g a b, .exited g a ∈ h.log → .exited g b ∈ h.log → a = b
  forks : ∀ g a b, .forked g a ∈ h.log → .forked g b ∈ h.log → a = b

/-- The value that `fork` will return. -/
def Pc.forkPid : Pc n → Option (Fin n × BitVec 32)
  | .forkUnlock j v | .forkWaitLock j v | .forkParent j v | .forkWaitUnlock j v | .forkRunLock j v
  | .forkRun j v | .forkRunUnlock j v | .forkRet j v => some (j, v)
  | _ => none

/-- The argument of the `exit` that a process is in. -/
def Pc.exitArg : Pc n → Option (BitVec 32)
  | .exit st | .exitAcquire st | .reparent st _ | .exitLock st | .exitZombie st => some st
  | .wakeScan _ _ r | .wakeTest _ _ r | .wakeNext _ _ r =>
    match r with
    | .reparent st _ | .exit st => some st
  | _ => none

/-- The slot that `fork` has made known as a child. -/
def Pc.adopted : Pc n → Option (Fin n)
  | .forkWaitUnlock j _ | .forkRunLock j _ | .forkRun j _ | .forkRunUnlock j _ | .forkRet j _ => some j
  | _ => none

/-- What the local variables of `fork`, `exit` and `wait` hold. -/
structure Returns (p : Fin n) (l : Pc n) (t : Table n) (h : Hist n) : Prop where
  pid : ∀ j v, l.forkPid = some (j, v) → (t.proc j).pid = v
  given : ∀ j, l.adopted = some j → h.given j = true
  arg : ∀ st, l.exitArg = some st → h.arg p = st
  waited : ∀ j v o, l = .waitUnlock j v o →
    o = none ∧ v = -1 ∨ ∃ st, o = some st ∧ .reaped (h.id j) p (some p) v st ∈ h.log
  returns : ∀ v, l = .waitRelease v → v = -1 ∨ ∃ g st, .reaped g p (some p) v st ∈ h.log

/-- A slot with a process in it that `fork` has made and that has not exited. -/
def Active (s : PState) : Prop := s ≠ .zombie ∧ s ≠ .unused ∧ s ≠ .used

section Agrees

variable {log : List (Event n)} {init j : Fin n} {x x' : Slot n} {g : ℕ} {mk : Option (Fin n)} {given : Bool}

theorem Agrees.congr (ha : Agrees log init j x g mk given) (h1 : x'.state = x.state)
    (h2 : x'.xstate = x.xstate) (h3 : x'.pid = x.pid) (h4 : x.parent ≠ none → x'.parent ≠ none) :
    Agrees log init j x' g mk given where
  zombie := by rw [h1, h2]; exact ha.zombie
  exited := by rw [h1]; exact ha.exited
  forked := by rw [h1, h3]; exact ha.forked
  unmade := by rw [h1]; exact ha.unmade
  reaped := by rw [h1]; exact ha.reaped
  child hg := by rw [h1]; exact fun h0 => h4 (ha.child hg h0)
  made := by rw [h1]; exact ha.made

/-- A process that has not exited is only known to have been forked. -/
theorem Agrees.active (ha : Agrees log init j x g mk given) (hx : Active x.state) (hx' : Active x'.state)
    (h3 : x'.pid = x.pid) (h4 : x'.parent = x.parent) : Agrees log init j x' g mk given where
  zombie h0 := absurd h0 hx'.1
  exited st h0 := by rcases ha.exited st h0 with h1 | h1 <;> simp [Active, h1] at hx
  forked _ := by rw [h3]; exact ha.forked hx.2.1
  unmade v h0 _ := ha.unmade v h0 hx.2.1
  reaped q par v st h0 := absurd (ha.reaped q par v st h0) hx.2.1
  child hg _ := by rw [h4]; exact ha.child hg hx.2.1
  made _ _ := ha.made hx.2.1 hx.2.2

theorem Agrees.unused (hx : x.state = .unused) : Agrees log init j x g mk given where
  zombie h0 := by rw [hx] at h0; cases h0
  exited _ _ := .inr hx
  forked h0 := absurd hx h0
  unmade _ _ h0 := absurd hx h0
  reaped _ _ _ _ _ := hx
  child _ h0 := absurd hx h0
  made h0 := absurd hx h0

/-- A new number is not in the log. -/
theorem Agrees.fresh (hl : ∀ e ∈ log, e.id < g) (hx : x.state = .used) (hm : mk ≠ none) :
    Agrees log init j x g mk false where
  zombie h0 := by rw [hx] at h0; cases h0
  exited _ h0 := absurd (hl _ h0) (Nat.lt_irrefl g)
  forked _ _ h0 := absurd h0 hm
  unmade _ h0 := absurd (hl _ h0) (Nat.lt_irrefl g)
  reaped _ _ _ _ h0 := absurd (hl _ h0) (Nat.lt_irrefl g)
  child := nofun
  made _ h0 := absurd hx h0

/-- An event about another process. -/
theorem Agrees.append {e : Event n} (ha : Agrees log init j x g mk given) (he : e.id ≠ g) :
    Agrees (log ++ [e]) init j x g mk given := by
  have key : ∀ {e' : Event n}, e'.id = g → e' ∈ log ++ [e] → e' ∈ log := by
    intro e' h1 h2
    rcases List.mem_append.1 h2 with h0 | h0
    · exact h0
    · rw [List.mem_singleton.1 h0] at h1
      exact absurd h1 he
  exact
    { zombie := fun h0 => List.mem_append_left _ (ha.zombie h0)
      exited := fun st h0 => ha.exited st (key rfl h0)
      forked := fun h0 h1 h2 => List.mem_append_left _ (ha.forked h0 h1 h2)
      unmade := fun v h0 => ha.unmade v (key rfl h0)
      reaped := fun q par v st h0 => ha.reaped q par v st (key rfl h0)
      child := ha.child
      made := ha.made }

end Agrees

section Did

variable {p : Fin n} {l : Pc n} {t t' : Table n} {h h' : Hist n}

variable {i : Fin n} {x : Slot n}

/-- A step that writes one slot and nothing into the log. -/
theorem Records.of_set (hr : Records t h) (ht : t'.proc = update t.proc i x)
    (hi : t'.initproc = t.initproc) (hlog : h'.log = h.log) (hc : h.count ≤ h'.count)
    (hother : ∀ j, j ≠ i → h'.id j = h.id j ∧ h'.maker j = h.maker j ∧ h'.given j = h.given j)
    (hx : Agrees h.log t.initproc i x (h'.id i) (h'.maker i) (h'.given i)) : Records t' h' := by
  refine ⟨fun j => ?_, ?_, ?_, ?_, ?_, ?_⟩
  · rw [hlog, hi, ht]
    rcases eq_or_ne j i with rfl | hj
    · rw [update_self]; exact hx
    · rw [update_of_ne hj, (hother j hj).1, (hother j hj).2.1, (hother j hj).2.2]; exact hr.slot j
  all_goals rw [hlog]
  · exact fun e he => Nat.lt_of_lt_of_le (hr.lt e he) hc
  · exact hr.reaped
  · exact hr.once
  · exact hr.exits
  · exact hr.forks

/-- A step that leaves numbers, makers and the log alone. -/
theorem Records.of_set' (hr : Records t h)
    (hx : Agrees h.log t.initproc i (t.proc i) (h.id i) (h.maker i) (h.given i) →
      Agrees h.log t.initproc i x (h.id i) (h.maker i) (h.given i))
    (hh : (h'.log, h'.count, h'.id, h'.maker, h'.given) = (h.log, h.count, h.id, h.maker, h.given)) :
    Records (t.set i x) h' := by
  simp only [Prod.mk.injEq] at hh
  obtain ⟨h1, h2, h3, h4, h5⟩ := hh
  refine hr.of_set rfl rfl h1 (Nat.le_of_eq h2.symm) (fun j _ => ⟨by rw [h3], by rw [h4], by rw [h5]⟩) ?_
  rw [h3, h4, h5]
  exact hx (hr.slot i)

/-- A step that adds an event about the process in slot `i`. -/
theorem Records.of_add (hr : Records t h) (hn : Numbered t h) {e : Event n}
    (he : e.id = h.id i) (ht : ∀ j, j ≠ i → t'.proc j = t.proc j) (hxi : t'.proc i = x)
    (hi : t'.initproc = t.initproc) (hlog : h'.log = h.log ++ [e]) (hc : h'.count = h.count) (hid : h'.id = h.id)
    (hm : ∀ j, j ≠ i → h'.maker j = h.maker j) (hg : h'.given = h.given)
    (hx : Agrees (h.log ++ [e]) t.initproc i x (h.id i) (h'.maker i) (h.given i))
    (hre : ∀ g q par v st, e = .reaped g q par v st →
      par = some q ∧ .exited g st ∈ h.log ∧ .forked g v ∈ h.log ∧ ∀ q par v st, .reaped g q par v st ∉ h.log)
    (hex : ∀ g a, e = .exited g a → ∀ b, .exited g b ∉ h.log)
    (hfk : ∀ g a, e = .forked g a → ∀ b, .forked g b ∉ h.log) : Records t' h' := by
  refine ⟨fun j => ?_, ?_, ?_, ?_, ?_, ?_⟩
  · rw [hlog, hi, hid, hg]
    rcases eq_or_ne j i with rfl | hj
    · rw [hxi]; exact hx
    · rw [ht j hj, hm j hj]
      refine (hr.slot j).append fun h0 => hj (hn.inj j i ?_)
      rw [← h0, he]
  all_goals rw [hlog]
  · rw [hc]
    intro e' he'
    rcases List.mem_append.1 he' with h0 | h0
    · exact hr.lt e' h0
    · rw [List.mem_singleton.1 h0, he]; exact hn.lt i
  · intro g q par v st h0
    rcases List.mem_append.1 h0 with h0 | h0
    · obtain ⟨h1, h2, h3⟩ := hr.reaped g q par v st h0
      exact ⟨h1, List.mem_append_left _ h2, List.mem_append_left _ h3⟩
    · obtain ⟨h1, h2, h3, -⟩ := hre g q par v st (List.mem_singleton.1 h0).symm
      exact ⟨h1, List.mem_append_left _ h2, List.mem_append_left _ h3⟩
  · rw [List.filterMap_append, List.nodup_append]
    refine ⟨hr.once, by rw [List.filterMap_cons]; split <;> simp, fun g hg g' hg' => ?_⟩
    rintro rfl
    obtain ⟨e1, he1, h1⟩ := List.mem_filterMap.1 hg
    cases e with
    | reaped g2 q par v st =>
      obtain rfl : g = g2 := by simpa [Event.reapedId] using hg'
      cases e1 with
      | reaped g3 q' par' v' st' =>
        obtain rfl : g3 = g := by simpa [Event.reapedId] using h1
        exact (hre g3 q par v st rfl).2.2.2 q' par' v' st' he1
      | _ => cases h1
    | _ => simp [Event.reapedId] at hg'
  · intro g a b ha hb
    rcases List.mem_append.1 ha with ha | ha <;> rcases List.mem_append.1 hb with hb | hb
    · exact hr.exits g a b ha hb
    · exact absurd ha (hex g b (List.mem_singleton.1 hb).symm a)
    · exact absurd hb (hex g a (List.mem_singleton.1 ha).symm b)
    · have := (List.mem_singleton.1 ha).trans (List.mem_singleton.1 hb).symm
      cases this
      rfl
  · intro g a b ha hb
    rcases List.mem_append.1 ha with ha | ha <;> rcases List.mem_append.1 hb with hb | hb
    · exact hr.forks g a b ha hb
    · exact absurd ha (hfk g b (List.mem_singleton.1 hb).symm a)
    · exact absurd hb (hfk g a (List.mem_singleton.1 ha).symm b)
    · have := (List.mem_singleton.1 ha).trans (List.mem_singleton.1 hb).symm
      cases this
      rfl

variable {j : Fin n}

/-- `fork` returns: its child has no other `fork` to wait for. -/
theorem Records.fork {v : BitVec 32} (hr : Records t h) (hn : Numbered t h)
    (hv : (t.proc j).pid = v) (hm : h.maker j ≠ none) (hu : (t.proc j).state ≠ .unused) :
    Records t ((h.unmake j).add (.forked (h.id j) v)) := by
  have hnew : ∀ b, .forked (h.id j) b ∉ h.log := fun b h0 => hm ((hr.slot j).unmade b h0 hu)
  refine hr.of_add (e := .forked (h.id j) v) hn rfl (fun _ _ => rfl) rfl rfl rfl rfl rfl
    (fun i hi => update_of_ne hi _ _) rfl ?_ nofun nofun ?_
  · have ha := hr.slot j
    have key : ∀ {e' : Event n}, (∀ b, e' ≠ .forked (h.id j) b) → e' ∈ h.log ++ [.forked (h.id j) v] →
        e' ∈ h.log := by
      intro e' h1 h2
      rcases List.mem_append.1 h2 with h0 | h0
      · exact h0
      · exact absurd (List.mem_singleton.1 h0) (h1 v)
    refine ⟨fun h0 => List.mem_append_left _ (ha.zombie h0), fun st h0 => ha.exited st (key nofun h0),
      fun _ _ _ => List.mem_append_right _ (by rw [hv]; exact List.mem_singleton_self _),
      fun _ _ _ => update_self .., fun q par v' st h0 => ha.reaped q par v' st (key nofun h0), ha.child, ha.made⟩
  · intro g a h0 b
    cases h0
    exact hnew b

/-- `exit`: the process had not exited before. -/
theorem Records.exit (hr : Records t h) (hn : Numbered t h) (hp : Active (t.proc p).state) :
    Records (t.set p { t.proc p with xstate := h.arg p, state := .zombie, context := .zombie })
      (h.add (.exited (h.id p) (h.arg p))) := by
  have ha := hr.slot p
  have hnew : ∀ b, .exited (h.id p) b ∉ h.log := fun b h0 => by
    rcases ha.exited b h0 with h1 | h1 <;> simp [Active, h1] at hp
  have key : ∀ {e' : Event n}, (∀ b, e' ≠ .exited (h.id p) b) → e' ∈ h.log ++ [.exited (h.id p) (h.arg p)] →
      e' ∈ h.log := by
    intro e' h1 h2
    rcases List.mem_append.1 h2 with h0 | h0
    · exact h0
    · exact absurd (List.mem_singleton.1 h0) (h1 _)
  refine hr.of_add (e := .exited (h.id p) (h.arg p)) hn rfl (fun j hj => Table.set_of_ne hj _) (Table.set_self ..) rfl rfl rfl
    rfl (fun _ _ => rfl) rfl ⟨fun _ => ?_, fun _ _ => .inl rfl, fun _ h1 h2 => ?_, fun v h0 _ => ?_,
      fun q par v st' h0 => ?_, fun hg _ => ha.child hg hp.2.1, fun _ _ => ha.made hp.2.1 hp.2.2⟩ nofun ?_ nofun
  · exact List.mem_append_right _ (List.mem_singleton_self _)
  · exact List.mem_append_left _ (ha.forked hp.2.1 h1 h2)
  · exact ha.unmade v (key nofun h0) hp.2.1
  · exact absurd (ha.reaped q par v st' (key nofun h0)) hp.2.1
  · intro g a h0 b
    cases h0
    exact hnew b

/-- `wait` reaps a `ZOMBIE` child. -/
theorem Records.reap (hr : Records t h) (hn : Numbered t h) (hz : (t.proc j).state = .zombie)
    (hp : (t.proc j).parent = some p) (hi : j ≠ t.initproc) (hm : h.maker j = none) :
    Records (t.set j (t.proc j).freeproc)
      (h.add (.reaped (h.id j) p (t.proc j).parent (t.proc j).pid (t.proc j).xstate)) := by
  have ha := hr.slot j
  refine hr.of_add (e := .reaped (h.id j) p (t.proc j).parent (t.proc j).pid (t.proc j).xstate) hn rfl
    (fun i hi => Table.set_of_ne hi _) (Table.set_self ..) rfl rfl rfl rfl (fun _ _ => rfl) rfl (.unused rfl) ?_ nofun nofun
  intro g q par v st h0
  cases h0
  refine ⟨hp, ha.zombie hz, ha.forked (by rw [hz]; exact nofun) hi hm, fun q par v st h0 => ?_⟩
  have := ha.reaped q par v st h0
  rw [hz] at this
  cases this

/-- **Every step keeps the records.** -/
theorem Records.step (d : Did p t h l t' h') (k : Knows p l t h) (hf : Family t h) (hn : Numbered t h)
    (hret : Returns p l t h) (hr : Records t h) : Records t' h' := by
  have hrun : l.alive = true → Active (t.proc p).state := fun ha => by
    rw [k.running ha]; exact ⟨nofun, nofun, nofun⟩
  have hsleep : ∀ {x : Slot n}, x.state = .sleeping → Active x.state := fun h0 => by
    rw [h0]; exact ⟨nofun, nofun, nofun⟩
  have hrunnable : ∀ {x : Slot n}, x.state = .runnable → Active x.state := fun h0 => by
    rw [h0]; exact ⟨nofun, nofun, nofun⟩
  cases d with
  | same | release | call | exits | killEnd | killDone => exact ⟨hr.slot, hr.lt, hr.reaped, hr.once, hr.exits, hr.forks⟩
  | run hs => exact hr.of_set' (fun ha => ha.active (hrunnable hs) ⟨nofun, nofun, nofun⟩ rfl rfl) rfl
  | @ready j pid =>
    have hu := k.making j rfl
    have hne : (t.proc j).state ≠ .unused := by rw [hu]; exact nofun
    refine hr.of_set' (fun ha => ⟨nofun, fun st h0 => ?_, fun _ => ha.forked hne, fun v h0 _ => ha.unmade v h0 hne,
      fun q par v st h0 => absurd (ha.reaped q par v st h0) hne, fun hg _ => ha.child hg hne,
      fun _ _ _ => hret.given j rfl⟩) rfl
    rcases ha.exited st h0 with h1 | h1 <;> (rw [hu] at h1; cases h1)
  | sleep => exact hr.of_set' (fun ha => ha.active (hrun rfl) ⟨nofun, nofun, nofun⟩ rfl rfl) rfl
  | context | rise | fault => exact hr.of_set' (fun ha => ha.congr rfl rfl rfl id) rfl
  | orphan => exact hr.of_set' (fun ha => ha.congr rfl rfl rfl fun _ => nofun) rfl
  | @adopt j =>
    have ha := hr.slot j
    exact hr.of_set rfl rfl rfl (Nat.le_refl _) (fun i hi => ⟨rfl, rfl, update_of_ne hi _ _⟩)
      ⟨ha.zombie, ha.exited, ha.forked, ha.unmade, ha.reaped, fun _ _ => nofun, fun _ _ _ => update_self ..⟩
  | @wake c j =>
    refine hr.of_set' (fun ha => ?_) rfl
    have hpar := (t.proc j).wake_parent c
    rcases (t.proc j).wake_state c with h0 | ⟨h1, h2⟩
    · exact ha.congr h0 (Slot.wake_xstate ..) (Slot.wake_pid ..) hpar.trans_ne
    · exact ha.active (hsleep h1) (hrunnable h2) (Slot.wake_pid ..) hpar
  | @kill pid j hp =>
    refine hr.of_set' (fun ha => ?_) rfl
    have hpar := (t.proc j).kill_parent
    rcases (t.proc j).kill_state with h0 | ⟨h1, h2⟩
    · exact ha.congr h0 (Slot.kill_xstate _) (Slot.kill_pid _) hpar.trans_ne
    · exact ha.active (hsleep h1) (hrunnable h2) (Slot.kill_pid _) hpar
  | @alloc j hs =>
    refine hr.of_set rfl rfl rfl (Nat.le_succ _) (fun i hi => ⟨?_, ?_, ?_⟩) ?_
    · exact update_of_ne hi _ _
    · exact update_of_ne hi _ _
    · exact update_of_ne hi _ _
    · have h1 : (h.alloc p j).id j = h.count := update_self ..
      have h2 : (h.alloc p j).maker j = some p := update_self ..
      have h3 : (h.alloc p j).given j = false := update_self ..
      rw [h1, h2, h3]
      exact .fresh hr.lt rfl nofun
  | @free l j =>
    exact hr.of_set rfl rfl rfl (Nat.le_refl _) (fun i hi => ⟨rfl, update_of_ne hi _ _, rfl⟩) (.unused rfl)
  | @forked j v =>
    have hm := (k.forking j).2 rfl
    exact hr.fork hn (hret.pid j v rfl) (by rw [hm]; exact nofun) (hf.maker_used j p hm)
  | @zombie st =>
    obtain rfl := hret.arg st rfl
    exact hr.exit hn (hrun rfl)
  | @reap j hz =>
    have hp := k.child j rfl
    refine hr.reap hn hz hp ?_ ?_
    · rintro rfl
      have := hf.init_live
      rw [hz] at this
      simp [Live] at this
    · cases hm : h.maker j with
      | none => rfl
      | some q =>
        -- its maker would be its parent, which is in `wait`
        rcases hf.maker_parent j q hm with h0 | h0
        · rw [h0] at hp; cases hp
        · rw [hp] at h0
          cases h0
          exact absurd hm (k.no_maker rfl j)

theorem Did.pid (d : Did p t h l t' h') (j : Fin n) :
    (t'.proc j).pid = (t.proc j).pid ∨ (t.proc j).state = .unused ∨ (t'.proc j).state = .unused := by
  cases d with
  | same | forked | release | call | exits | killEnd | killDone => exact .inl rfl
  | run | context | adopt | ready | orphan | zombie | sleep | rise | fault =>
    exact .inl (Table.set_eq Slot.pid rfl)
  | wake => exact .inl (Table.set_eq Slot.pid (Slot.wake_pid ..))
  | kill => exact .inl (Table.set_eq Slot.pid (Slot.kill_pid _))
  | @alloc i hs =>
    refine (Table.set_cases Slot.pid j i _).imp_right ?_
    rintro ⟨rfl, -⟩
    exact .inl hs
  | @free _ i | @reap i =>
    rcases eq_or_ne j i with rfl | hj
    · exact .inr (.inr (by rw [Table.set_self]; rfl))
    · exact .inl (by rw [Table.set_of_ne hj])

theorem forkPid_forking {v : BitVec 32} (hl : l.forkPid = some (j, v)) : l.forking = some j := by
  cases l <;> cases hl <;> rfl

/-- The pid of a process that `fork` has not returned for does not change. -/
theorem Did.pid_eq {q : Fin n} (d : Did p t h l t' h') (hf : Family t h) (hf' : Family t' h')
    (hm : h.maker j = some q) (hm' : h'.maker j = some q) : (t'.proc j).pid = (t.proc j).pid := by
  rcases d.pid j with h0 | h0 | h0
  · exact h0
  · exact absurd h0 (hf.maker_used j q hm)
  · exact absurd h0 (hf'.maker_used j q hm')

theorem Did.arg_of_ne {q : Fin n} (d : Did p t h l t' h') (hq : q ≠ p) : h'.arg q = h.arg q := by
  cases d with
  | exits => exact update_of_ne hq _ _
  | _ => rfl

/-- A child remains one until its slot is used again. -/
theorem Did.given (d : Did p t h l t' h') (hu : (t.proc j).state ≠ .unused) (hg : h.given j = true) :
    h'.given j = true := by
  cases d with
  | @alloc i hs =>
    have hji : j ≠ i := by rintro rfl; exact hu hs
    exact (update_of_ne hji _ _).trans hg
  | @adopt i =>
    rcases eq_or_ne j i with rfl | hji
    · exact update_self ..
    · exact (update_of_ne hji _ _).trans hg
  | _ => exact hg

theorem Did.log (d : Did p t h l t' h') {e : Event n} (he : e ∈ h.log) : e ∈ h'.log := by
  cases d with
  | forked | zombie | reap => exact List.mem_append_left _ he
  | _ => exact he

end Did

variable {h : Hist n} {j : Fin n} {l : Pc n} {p : Fin n} {r : Req} {st v : BitVec 32} {t : Table n}

/-- `fork` reads the pid once, under `np->lock`, and carries it. -/
theorem forkPid_target (hv : ((prog p l).target r t l).forkPid = some (j, v)) :
    l.forkPid = some (j, v) ∨ (t.proc j).pid = v ∧ (prog p l).data r t = t := by
  cases l <;> simp only [prog] at hv
  case forkCopy i =>
    cases r <;> cases hv
    all_goals exact .inr ⟨rfl, rfl⟩
  case allocScan | killScan => split at hv <;> cases hv
  case wakeScan c k r' => cases r' <;> (repeat' split at hv) <;> cases hv
  all_goals
    simp only [Instr.target] at hv
    (repeat' split at hv) <;> first | exact .inl hv | cases hv

theorem adopted_target (hj : ((prog p l).target r t l).adopted = some j) :
    l.adopted = some j ∨ (note p l r t h).given j = true := by
  cases l <;> simp only [prog] at hj
  case forkParent => cases hj; exact .inr (update_self ..)
  case allocScan | killScan => split at hj <;> cases hj
  case wakeScan c k r' => cases r' <;> (repeat' split at hj) <;> cases hj
  all_goals
    simp only [Instr.target] at hj
    (repeat' split at hj) <;> first | exact .inl hj | cases hj

theorem adopted_forking (hj : l.adopted = some j) : l.forking = some j := by
  cases l <;> cases hj <;> rfl

/-- `exit` carries its argument. -/
theorem exitArg_target (hs : ((prog p l).target r t l).exitArg = some st) :
    (note p l r t h).arg p = st ∨ l.exitArg = some st ∧ (note p l r t h).arg = h.arg := by
  cases l <;> simp only [prog] at hs
  case user => cases r <;> cases hs; exact .inl (update_self ..)
  case trapUnlock b => cases b <;> cases hs; exact .inl (update_self ..)
  case allocScan | killScan => split at hs <;> cases hs
  case wakeScan c k r' => cases r' <;> (repeat' split at hs) <;> exact .inr ⟨hs, rfl⟩
  all_goals
    simp only [Instr.target] at hs
    (repeat' split at hs) <;> first | exact .inr ⟨hs, rfl⟩ | cases hs

/-- `wait` has a value other than -1 when it has reaped a child. -/
theorem waited_target {o : Option (BitVec 32)} (hw : (prog p l).target r t l = .waitUnlock j v o) :
    l = .waitLook j ∧ (o = none ∧ v = -1 ∨
      ∃ st, o = some st ∧ note p l r t h = h.add (.reaped (h.id j) p (t.proc j).parent v st)) := by
  have hw' := hw
  cases l <;> simp only [prog] at hw
  case waitLook i =>
    simp only [Instr.target] at hw
    split at hw
    · cases r with
      | fail => cases hw; exact ⟨rfl, .inl ⟨rfl, rfl⟩⟩
      | _ => cases hw; exact ⟨rfl, .inr ⟨_, rfl, by simp only [note, hw']⟩⟩
    · cases hw
  case allocScan | killScan => split at hw <;> cases hw
  case wakeScan c k r' => cases r' <;> (repeat' split at hw) <;> cases hw
  all_goals
    simp only [Instr.target] at hw
    (repeat' split at hw) <;> cases hw

theorem returns_target (hw : (prog p l).target r t l = .waitRelease v) :
    v = -1 ∨ ∃ j o, l = .waitUnlock j v o := by
  cases l <;> simp only [prog] at hw
  case waitUnlock j v o => cases hw; exact .inr ⟨j, o, rfl⟩
  case allocScan | killScan => split at hw <;> cases hw
  case wakeScan c k r' => cases r' <;> (repeat' split at hw) <;> cases hw
  all_goals
    simp only [Instr.target] at hw
    (repeat' split at hw) <;> cases hw
  all_goals exact .inl rfl

/-- What the proofs before this one know. -/
structure Known (p : Fin n) (l : Pc n) (t : Table n) (h : Hist n) : Prop where
  family : Family t h
  numbered : Numbered t h
  knows : Knows p l t h

theorem Known.used (hc : Known p l t h) (hj : l.forking = some j) : (t.proc j).state ≠ .unused :=
  hc.family.maker_used j p ((hc.knows.forking j).2 hj)

/-- What the thread itself has in its variables after a step. -/
theorem Returns.step (hc : Known p l t h) (hret : Returns p l t h) :
    Returns p ((prog p l).target r t l) ((prog p l).data r t) (note p l r t h) where
  pid j v hj := by
    have d := did p l r t h
    have hk := hc.knows.step (r := r) hc.family
    rcases forkPid_target hj with h0 | ⟨h0, h1⟩
    · rw [d.pid_eq hc.family (hc.family.step d hc.knows) ((hc.knows.forking j).2 (forkPid_forking h0))
        ((hk.forking j).2 (forkPid_forking hj))]
      exact hret.pid j v h0
    · rw [h1]; exact h0
  given j hj := by
    rcases adopted_target (h := h) hj with h0 | h0
    · exact (did p l r t h).given (hc.used (adopted_forking h0)) (hret.given j h0)
    · exact h0
  arg st hs := by
    rcases exitArg_target hs with h0 | ⟨h0, h1⟩
    · exact h0
    · rw [h1]; exact hret.arg st h0
  waited j v o hw := by
    obtain ⟨rfl, h0 | ⟨st, hst, h0⟩⟩ := waited_target (h := h) hw
    · exact .inl h0
    · rw [h0, hc.knows.child j rfl]
      exact .inr ⟨st, hst, List.mem_append_right _ (List.mem_singleton_self _)⟩
  returns v hw := by
    rcases returns_target hw with h0 | ⟨j, o, rfl⟩
    · exact .inl h0
    · rcases hret.waited j v o rfl with ⟨-, h0⟩ | ⟨st, -, h0⟩
      · exact .inl h0
      · exact .inr ⟨_, st, h0⟩

/-- **The annotations of the log.** -/
theorem records : Proof (prog (n := n)) note held Known (fun _ _ _ _ _ => True) Records (fun _ _ _ => True)
    Returns := by
  refine .of_own (fun {p l r t h} _ _ hc hr hret => ?_) (fun _ _ _ _ _ => trivial)
    (fun {p l r t h q l'} hq hx _ hc hcq _ _ hret => ?_) fun _ _ _ _ _ _ => trivial
  · exact ⟨hr.step (did p l r t h) hc.knows hc.family hc.numbered hret, hret.step hc⟩
  · have d := did p l r t h
    refine ⟨fun j v hj => ?_, fun j hj => d.given (hcq.used (adopted_forking hj)) (hret.given j hj),
      fun st hs => by rw [d.arg_of_ne hq]; exact hret.arg st hs, ?_, fun v hv => ?_⟩
    · have hfk := forkPid_forking hj
      have hkq' : Knows q l' _ _ := .other d hc.knows hc.family hq hx hcq.knows
      rw [d.pid_eq hc.family (hc.family.step d hc.knows) ((hcq.knows.forking j).2 hfk) ((hkq'.forking j).2 hfk)]
      exact hret.pid j v hj
    · rintro j v o rfl
      rcases d.id j with ⟨h0, -⟩ | ⟨-, -, -, h0⟩
      · rw [h0]
        exact (hret.waited j v o rfl).imp_right fun ⟨st, h1, h2⟩ => ⟨st, h1, d.log h2⟩
      · exact absurd h0 (hx (.proc j) rfl)
    · exact (hret.returns v hv).imp_right fun ⟨g, st, h0⟩ => ⟨g, st, d.log h0⟩

theorem records_boot (i : Fin n) : Sound held Records (fun _ _ _ => True) Returns (boot i) Hist.boot where
  locks := (family_boot i).locks
  inv :=
    { slot := fun j => by
        by_cases hj : j = i
        · exact ⟨by simp [boot, hj], nofun, fun _ h0 => absurd hj h0, nofun, nofun, nofun, fun _ _ h0 => absurd hj h0⟩
        · exact .unused (by simp [boot, hj])
      lt := nofun
      reaped := nofun
      once := .nil
      exits := nofun
      forks := nofun }
  free _ _ := trivial
  knows q := by
    simp only [boot]
    split <;> exact ⟨by rintro _ _ ⟨⟩, by rintro _ ⟨⟩, by rintro _ ⟨⟩, by rintro _ _ _ ⟨⟩, by rintro _ ⟨⟩⟩

/-- **The protocol of `exit` and `wait`.** In every reachable state, whenever `wait_lock` is
free:

* a process that has been given a parent has one, and so has every process but `initproc` that
  `fork` has made `RUNNABLE`; the parent is neither free nor a `ZOMBIE`, and it is the process that
  forked it, or `initproc` if that one is not alive any more;
* no process sleeps in `wait` while it has a `ZOMBIE` child.

And at any time every process has been reaped at most once; whoever was reaped was so by its
parent, with the one pid that `fork` returned for it and the one status it gave to `exit`: these
are what `wait` is about to return and has copied out, and what `wait` returns otherwise is -1. -/
theorem exit_wait {G : State (Fin n) (Lock n Unit) (Table n) (Pc n) × Hist n → Fin n × Req → Prop} {i : Fin n}
    {s : State (Fin n) (Lock n Unit) (Table n) (Pc n)} {h : Hist n}
    (hr : Reach (step prog note) G (boot i, Hist.boot) (s, h)) :
    (s.lock (.mon ()) = none →
      (∀ j, (s.sh.proc j).state ≠ .unused →
        (h.given j = true ∨ (s.sh.proc j).state ≠ .used ∧ j ≠ s.sh.initproc → ∃ q, (s.sh.proc j).parent = some q) ∧
        ∀ q, (s.sh.proc j).parent = some q → (s.sh.proc q).state ≠ .unused ∧ (s.sh.proc q).state ≠ .zombie ∧
          (h.id q = h.creator j ∨ q = s.sh.initproc ∧ ∀ c, h.id c = h.creator j → ¬ Live (s.sh.proc c).state)) ∧
      ∀ p z, (s.sh.proc p).state = .sleeping → (s.sh.proc p).chan = some p → (s.sh.proc z).state = .zombie →
        (s.sh.proc z).parent ≠ some p) ∧
    (h.log.filterMap Event.reapedId).Nodup ∧
    (∀ g q par v st, .reaped g q par v st ∈ h.log →
      par = some q ∧ (∀ st', .exited g st' ∈ h.log ↔ st' = st) ∧ ∀ v', .forked g v' ∈ h.log ↔ v' = v) ∧
    (∀ p j v st, s.pc p = .waitUnlock j v (some st) → .reaped (h.id j) p (some p) v st ∈ h.log) ∧
    ∀ p v, s.pc p = .waitRelease v → v = -1 ∨ ∃ g st, .reaped g p (some p) v st ∈ h.log := by
  have hf := family_reach hr
  have hk := kinship_reach hr
  have hw := waiting_reach hr
  have hrec : Sound held Records (fun _ _ _ => True) Returns s h :=
    records.reach disciplined (fun _ hy q => ⟨(family_reach hy).inv, (kinship_reach hy).inv, (family_reach hy).knows q⟩)
      (fun _ _ _ _ _ => trivial) (records_boot i) hr
  refine ⟨fun hfree => ⟨fun j hj => ⟨fun hg => ?_, fun q hp => ?_⟩, fun p z hp _ hz hzp => ?_⟩,
    hrec.inv.once, fun g q par v st h0 => ?_, fun p j v st hp => ?_, fun p => (hrec.knows p).returns⟩
  · have ha := hrec.inv.slot j
    exact Option.ne_none_iff_exists'.1 (ha.child (hg.elim id fun h0 => ha.made hj h0.1 h0.2) hj)
  · have hlive := hf.inv.parent_live j q hp
    refine ⟨fun h0 => by simp [Live, h0] at hlive, fun h0 => by simp [Live, h0] at hlive, ?_⟩
    rcases hk.free _ hfree rfl j q hp with h0 | ⟨h0, h1 | h1⟩
    · exact .inl h0
    · exact .inr ⟨h0, h1⟩
    · cases h1
  · cases (hw.free _ hfree p z (.inl hp) hz hzp).1
  · obtain ⟨h1, h2, h3⟩ := hrec.inv.reaped g q par v st h0
    refine ⟨h1, fun st' => ⟨fun h4 => hrec.inv.exits g st' st h4 h2, fun h4 => h4 ▸ h2⟩, fun v' => ⟨fun h4 => ?_, fun h4 => h4 ▸ h3⟩⟩
    exact hrec.inv.forks g v' v h4 h3
  · rcases (hrec.knows p).waited j v _ hp with ⟨h0, -⟩ | ⟨st', h0, h1⟩
    · cases h0
    · cases h0
      exact h1

/-- The first process forks, its child exits with status 7, and it waits. -/
def forkExitWait : List (Fin 2 × Req) :=
  List.replicate 17 (0, .fork) ++ List.replicate 18 (1, .exit 7) ++ List.replicate 6 (0, .wait)

theorem exit_wait_child : ∃ x : State (Fin 2) (Lock 2 Unit) (Table 2) (Pc 2) × Hist 2,
    x.1.pc 0 = .waitUnlock 1 2 (some 7) ∧ .reaped 2 0 (some 0) 2 7 ∈ x.2.log ∧
      ∀ st, .exited 2 st ∈ x.2.log ↔ st = 7 := by
  obtain ⟨x, hr, hpc, hid⟩ : ∃ x, Reach (step prog note) (fun _ _ => True) (boot (0 : Fin 2), Hist.boot) x ∧
      x.1.pc 0 = .waitUnlock 1 2 (some 7) ∧ x.2.id 1 = 2 := exists_reach forkExitWait (by decide +kernel)
  obtain ⟨-, -, hlog, hret, -⟩ := exit_wait hr
  have hmem := hret 0 1 2 7 hpc
  rw [hid] at hmem
  exact ⟨x, hpc, hmem, (hlog 2 0 (some 0) 2 7 hmem).2.1⟩

end Xv6.Life
