import Xv6.Pipe.Ends

/-!
# Writers of a pipe, and its last close

`pipewrite` sleeps on `&pi->nwrite` while the pipe is full. Whoever takes a byte out, or closes the
read end, calls `wakeup(&pi->nwrite)` with `pi->lock` still held, also where `copyout` failed; a
reader that leaves because it was killed has taken nothing.

* `writers_signalled`: so the pipe signals `Writable` on `&pi->nwrite`.
* `reach_ends`: the accounts of `Xv6.Pipe.Ends` in every reachable state.
* `no_writer_stranded`: no writer sleeps on a pipe that has room or no reader, and the page is freed
  once, by the `pipeclose` that closed the second end, with nobody left inside.
-/

namespace Xv6.Pipe

open Thread Lib

variable {n : ℕ}

/-- Nobody should wait to write: there is room, or nobody will read. -/
def Writable (pi : Pipe) : Prop := ¬ pi.Full ∨ pi.readopen = false

/-- The local states that have seen the pipe full and open for reading. -/
def FPc.full : FPc n → Bool
  | .pipe (.writeFull _ _ _) | .pipe (.writeSleep _ _) => true
  | _ => false

/-- The local states that may have made room, or closed the read end, and not called `wakeup` yet. -/
def FPc.owes : FPc n → Bool
  | .pipe (.readCopy _ _) | .pipe (.readWakeup _) => true
  | .pipe (.closeWakeup w) => !w
  | _ => false

/-- The local state of `pipewrite` that has found room. -/
def FPc.room : FPc n → Bool
  | .pipe (.writeCopy _ _ _) => true
  | _ => false

section Act

variable {p : Fin n} {l : FPc n} {g : FReq n → Ends n → Ends n × FPc n} {e : Ends n}

/-- Without `pi->lock` nothing is written or read, and no end closed. -/
theorem act_unlocked' (h : fileProg p l = .act g) (hl : l.holds ≠ some .pipe) (r : FReq n) :
    ((g r e).1.pipe.Full ↔ e.pipe.Full) ∧ (g r e).1.pipe.readopen = e.pipe.readopen := by
  cases acts h with
  | @pipe l f hf hne =>
    have hl' : l.locked = false := by
      by_contra hc
      exact hl (by simp [FPc.holds, hc])
    cases l <;> simp only [prog, Instr.act.injEq, reduceCtorEq] at hf <;> subst hf
    case idle => exact absurd rfl hne
    case ret | closeFree => exact ⟨Iff.rfl, rfl⟩
    all_goals cases hl'
  | idle h =>
    rcases idle_act h r e with he | ⟨_, he⟩ | ⟨_, -, he⟩ | ⟨_, -, he⟩ | ⟨_, -, he⟩ | ⟨_, _, -, he⟩ <;>
      rw [he] <;> exact ⟨Iff.rfl, rfl⟩
  | dupTest | closeTest =>
    dsimp only
    split_ifs <;> exact ⟨Iff.rfl, rfl⟩
  | dupInstall => exact ⟨Iff.rfl, rfl⟩

/-- What an action of `pipe.c` made with `pi->lock` does about `Writable`. -/
theorem writable_act {l : Pc} {f : Req → Pipe → Pipe × Pc} (h : prog p l = .act f) (hl : l.locked = true)
    (r : Req) (pi : Pipe) (hs : l.seesOpen = true → pi.readopen = true)
    (hroom : (FPc.pipe l : FPc n).room = true → ¬ pi.Full) :
    ((FPc.pipe (f r pi).2 : FPc n).full = true → ¬ Writable (f r pi).1) ∧
      (Writable (f r pi).1 → (Writable pi → (FPc.pipe l : FPc n).owes = true) →
        (FPc.pipe (f r pi).2 : FPc n).owes = true) := by
  cases l <;> cases h
  case writeTest i m dirty =>
    dsimp only
    split_ifs with hf
    · refine ⟨fun _ hB => ?_, fun hB ho => absurd (ho hB) nofun⟩
      rcases hB with hB | hB
      · exact hB hf
      · rw [hs rfl] at hB
        cases hB
    · exact ⟨nofun, fun hB ho => absurd (ho hB) nofun⟩
  case writeCopy i m dirty =>
    cases r with
    -- it found room, so nobody was waiting
    | copied ch => exact ⟨nofun, fun _ ho => absurd (ho (Or.inl (hroom rfl))) nofun⟩
    | _ => exact ⟨nofun, fun hB ho => absurd (ho hB) nofun⟩
  case writeLoop | readLoop =>
    dsimp only
    split_ifs <;> exact ⟨nofun, fun hB ho => absurd (ho hB) nofun⟩
  case readCopy i m =>
    dsimp only
    split_ifs
    · exact ⟨nofun, fun _ _ => rfl⟩
    · cases r <;> exact ⟨nofun, fun _ _ => rfl⟩
    · exact ⟨nofun, fun _ _ => rfl⟩
  case closeSet w =>
    cases w with
    | false => exact ⟨nofun, fun _ _ => rfl⟩
    | true => exact ⟨nofun, fun hB ho => absurd (ho hB) nofun⟩
  case closeTest =>
    dsimp only
    split_ifs <;> exact ⟨nofun, fun hB ho => absurd (ho hB) nofun⟩
  all_goals cases hl

theorem room_act (h : fileProg p l = .act g) (r : FReq n) (hr : (g r e).2.room = true) :
    ¬ (g r e).1.pipe.Full := by
  cases acts h with
  | @pipe l f hf hne =>
    cases l <;> simp only [prog, Instr.act.injEq, reduceCtorEq] at hf <;> subst hf
    case writeTest i m dirty =>
      dsimp only at hr ⊢
      split_ifs at hr ⊢ with hfull
      · cases hr
      · exact hfull
    case writeCopy => cases hc : r.toReq <;> simp only [hc] at hr <;> cases hr
    case writeLoop | readLoop | closeTest =>
      dsimp only at hr
      split_ifs at hr <;> cases hr
    case readCopy =>
      dsimp only at hr
      split_ifs at hr
      · cases hr
      · cases hc : r.toReq <;> simp only [hc] at hr <;> cases hr
      · cases hr
    case idle => exact absurd rfl hne
    all_goals cases hr
  | idle h =>
    rcases idle_act h r e with he | ⟨_, he⟩ | ⟨_, -, he⟩ | ⟨_, -, he⟩ | ⟨_, -, he⟩ | ⟨_, _, -, he⟩ <;>
      (rw [he] at hr; cases hr)
  | dupTest | closeTest =>
    dsimp only at hr
    split_ifs at hr <;> cases hr
  | dupInstall => cases hr

end Act

/-- A writer that found room still has it when it deposits its byte. -/
theorem room_outline : Outline (fileProg (n := n)) fheld Key.pipe (fun _ _ _ => True)
    (fun _ _ _ _ => True) (fun _ => True) (fun _ l e => l.room = true → ¬ e.pipe.Full)
    (fun _ l _ => l.room = false) where
  acquire {p l ℓ l' e} h hk _ := by
    cases l with
    | pipe l => cases l <;> cases h <;> exact nofun
    | dupAcquire w q | closeAcquire w => cases h; exact nofun
    | _ => cases h
  release {p l ℓ l' e} h hk := by
    refine ⟨fun _ => trivial, ?_⟩
    cases l with
    | pipe l => cases l <;> cases h <;> exact nofun
    | dupRelease w q | closeRelease | closeLast w => cases h; exact nofun
    | _ => cases h
  act h _ _ _ := room_act h _
  stable {p l g r e} h _ _ _ q hq := by
    refine ⟨fun l' hex hk' hr' => ?_, fun _ => id⟩
    have hheld : l'.holds = some Key.pipe := by
      cases l' with
      | pipe l => cases l <;> first | rfl | cases hr'
      | _ => cases hr'
    have hl : l.holds ≠ some .pipe := fun hh => hex (fheld_mon.2 hheld) (fheld_mon.2 hh)
    rw [(act_unlocked' h hl r).1]
    exact hk' hr'
  unlocked _ _ _ _ _ _ := trivial
  sleep {p l c k' l' e} h hk := by
    cases l with
    | pipe l =>
      cases l <;> cases h <;> exact ⟨rfl, fun _ => ⟨rfl, trivial⟩⟩
    | _ => cases h
  back hw _ hl := by rw [hw] at hl; cases hl
  wakeup {p l c l' e} h hk := by
    cases l with
    | pipe l => cases l <;> cases h <;> exact nofun
    | _ => cases h
  killed {p l f e} h hk b := by
    cases l with
    | pipe l =>
      cases l <;> cases h <;> cases b <;> exact nofun
    | _ => cases h
  kill {p l pid f e} h hk b := by
    cases l with
    | pipe l =>
      cases l <;> cases h
      exact nofun
    | _ => cases h

/-- What is known at a local state of a reachable state. -/
def FSees (p : Fin n) (l : FPc n) (e : Ends n) : Prop :=
  FKnows p l e ∧ (l.room = true → ¬ e.pipe.Full)

/-- **The pipe signals `Writable`** on `&pi->nwrite`. -/
theorem writers_signalled : Signals (fileProg (n := n)) fheld Key.pipe Chan.nwrite
    (fun e => Writable e.pipe) FSees (fun l => l.full = true) (fun l => l.owes = true) where
  acquire {p l ℓ l'} h := by
    cases l with
    | pipe l =>
      cases l <;> cases h <;> simp [FPc.full, FPc.owes]
    | dupAcquire w q | closeAcquire w => cases h; simp [FPc.full, FPc.owes]
    | _ => cases h
  release {p l ℓ l'} h := by
    cases l with
    | pipe l =>
      cases l <;> cases h <;> simp [FPc.full, FPc.owes]
    | dupRelease w q | closeRelease | closeLast w => cases h; simp [FPc.full, FPc.owes]
    | _ => cases h
  act {p l g} h r e hs _ := by
    rw [fheld_mon]
    by_cases hl : l.holds = some .pipe
    · cases acts h with
      | @pipe l f hf hne =>
        have hlock : l.locked = true := by simpa [FPc.holds] using hl
        obtain ⟨h1, h2⟩ := writable_act hf hlock r.toReq e.pipe hs.1.sees hs.2
        exact ⟨fun hf => ⟨hl, h1 hf⟩, fun hn => absurd hl hn, fun _ => h2⟩
      | idle => cases hl
      | dupTest => cases hl
      | dupInstall => cases hl
      | closeTest => cases hl
    · obtain ⟨h1, h2⟩ := act_unlocked' (e := e) h hl r
      refine ⟨fun hf => ?_, fun _ hB => ?_, fun hh => absurd hh hl⟩
      · -- a state that has seen the pipe full holds the lock
        have hheld : (g r e).2.holds = some Key.pipe := by
          revert hf
          cases (g r e).2 with
          | pipe l => cases l <;> simp [FPc.full, FPc.holds, Pc.locked]
          | _ => rintro ⟨⟩
        exact absurd ((holds_act h r e).symm.trans hheld) hl
      · rwa [Writable, h1, h2] at hB
  sleep {p l d k' l'} h := by
    cases l with
    | pipe l =>
      cases l <;> cases h <;> simp [FPc.full, FPc.owes]
    | _ => cases h
  wakeup {p l d l'} h := by
    cases l with
    | pipe l =>
      cases l <;> cases h
      case pipe.closeWakeup.refl w => cases w <;> simp [FPc.full, FPc.owes]
      all_goals simp [FPc.full, FPc.owes]
    | _ => cases h
  killed {p l f} h := by
    cases l with
    | pipe l =>
      cases l <;> cases h <;> simp [FPc.full, FPc.owes]
    | _ => cases h
  kill {p l pid f} h := by
    cases l with
    | pipe l =>
      cases l <;> cases h
      simp [FPc.full, FPc.owes]
    | _ => cases h

/-- A process that asks whether it was killed owes nothing. -/
theorem killed_owes {p : Fin n} {l : FPc n} {f : Bool → FPc n} (h : fileProg p l = .killed f) :
    ¬ (f false).owes = true := by
  cases l with
  | pipe l =>
    cases l <;> cases h <;> exact nofun
  | _ => cases h

/-! ## Whole runs -/

section Run

variable {p₀ : Fin n} {s : State n Key Chan (Ends n) (FPc n)}
variable {G : State n Key Chan (Ends n) (FPc n) → Fin n × FReq n → Prop}

variable (hr : Reach (step fileProg) G (made p₀) s)

include hr

theorem reach_ends : LockInv fheld s ∧
    OutlineInv fheld Key.pipe Accounts (fun p l e => Accounts e ∧ FKnows p l e) FAsleep s := by
  have hnew : Accounts (Ends.new p₀) := by
    refine ⟨fun w => ?_, fun w => ?_, fun w hw => ?_, ?_, Nat.zero_le _, by rintro ⟨⟩⟩
    · simp [Ends.new]
    · simp [Ends.new]
    · cases w <;> cases hw
    · simp [Ends.new, Shut, new]
  refine foutline.reach fdisciplined (fun _ _ _ _ _ => trivial) (fun _ _ _ _ _ _ _ _ => trivial)
    (LockInv.start fun m => ?_) (OutlineInv.start hnew fun q => ⟨hnew, ?_⟩) hr
  · simp [fheld, FPc.holds, Pc.locked]
  · exact ⟨fun w => rfl, by rintro _ ⟨⟩, by rintro _ ⟨⟩, ⟨by rintro ⟨⟨⟩, -⟩, by rintro ⟨⟩⟩, by rintro ⟨⟩,
      by rintro ⟨⟩, by rintro ⟨⟩⟩

theorem reach_accounts : Accounts s.sh :=
  (reach_ends hr).2.always (fun _ _ _ _ hk => hk.1) (reach_ends hr).1

/-- What each process knows where it is, or will go on. -/
theorem reach_knows (p : Fin n) :
    FKnows p (s.procs p).ctl.resume s.sh :=
  ((reach_ends hr).2.asserts p).resume (P := fun l => FKnows p l s.sh) (fun _ hk => hk.2)
    (fun _ hw => hw.2.1)

/-- With both ends closed nobody is inside `piperead` or `pipewrite`. -/
theorem nobody_inside (hs : s.sh.pipe.Shut) (p : Fin n) :
    (s.procs p).ctl.resume.uses = none := by
  have ha := reach_accounts hr
  have hk := reach_knows hr p
  have hopen : ∀ w, s.sh.pipe.isOpen w = false := by
    intro w
    cases w
    · exact hs.1
    · exact hs.2
  cases hu : (s.procs p).ctl.resume.uses with
  | none => rfl
  | some w =>
    have hpos : 0 < s.sh.owned p w := by
      rw [hk.owned w]
      exact Nat.add_pos_left (hk.uses w hu) _
    have h0 := ha.shut w (hopen w)
    have := ha.ref_pos hpos
    omega

theorem reach_room {p : Fin n} {l : FPc n}
    (hc : (s.procs p).ctl = .run l) : FSees p l s.sh := by
  have h0 : Fin n → (FPc.pipe .idle : FPc n).room = true → ¬ (Ends.new p₀).pipe.Full :=
    fun _ h => absurd h Bool.false_ne_true
  have hroom := (room_outline.reach fdisciplined (fun _ _ _ _ _ => trivial)
    (fun _ _ _ _ _ _ _ _ => trivial) (LockInv.start (by simp [fheld, FPc.holds, Pc.locked]))
    (OutlineInv.start trivial h0) hr).2.asserts p
  have hk := (reach_ends hr).2.asserts p
  rw [hc] at hroom hk
  exact ⟨hk.2, hroom⟩

omit hr

/-- **Pipe writers and closers are not stranded.** In every reachable state: if `pi->lock` is free,
no process sleeps on `&pi->nwrite` while the pipe has room or its read end is closed. The page is
freed at most once; a process about to free it is the one whose `pipeclose` closed the second end,
and nobody is then inside `piperead` or `pipewrite`, nor ever after; and with both ends closed the
page has been freed, or that process is still on its way there. -/
theorem no_writer_stranded (hr : Reach (step fileProg) (fun _ _ => True) (made p₀) s) :
    (s.lock (.mon .pipe) = none → ∀ q, (s.procs q).state = .sleeping →
      (s.procs q).chan = some .nwrite →
        ¬ (s.sh.pipe.nwrite ≠ s.sh.pipe.nread + BitVec.ofNat 32 pipesize ∨ s.sh.pipe.readopen = false)) ∧
    s.sh.pipe.freed ≤ 1 ∧
    (∀ p, (s.procs p).ctl = .run (.pipe .closeFree) → s.sh.last = some p ∧ s.sh.pipe.freed = 0 ∧
      s.sh.pipe.Shut ∧ ∀ q, (s.procs q).ctl.resume.uses = none) ∧
    (s.sh.pipe.freed = 1 → s.sh.pipe.Shut ∧ ∀ q, (s.procs q).ctl.resume.uses = none) ∧
    (s.sh.pipe.Shut → s.sh.pipe.freed = 1 ∨
      ∃ p, s.sh.last = some p ∧ (s.procs p).ctl.resume.Frees s.sh.pipe) := by
  have ha := reach_accounts hr
  refine ⟨fun hfree q hq hc => ?_, ha.freed, fun p hp => ?_, fun hf => ?_, fun hs => ?_⟩
  · have hB : ¬ Writable s.sh.pipe :=
      no_lost_wakeup' writers_signalled (fun s hs => (reach_ends hs).1)
        (fun s hs p l hl => reach_room hs hl) SleepInv.start (WakeInv.start nofun) hr hfree hq hc
        (fun _ _ _ hi ho => absurd ho (killed_owes hi)) (by simp [made, start])
    rw [Writable, Full] at hB
    exact hB
  · have hk := reach_knows hr p
    rw [hp] at hk
    have hlast := hk.frees.2 trivial
    have hs := ha.last.2 ⟨p, hlast.1⟩
    exact ⟨hlast.1, hlast.2, hs, nobody_inside hr hs⟩
  · have hs := ha.freed_shut hf
    exact ⟨hs, nobody_inside hr hs⟩
  · obtain ⟨p, hp⟩ := ha.last.1 hs
    by_cases hf : s.sh.pipe.freed = 1
    · exact .inl hf
    · have h0 : s.sh.pipe.freed = 0 := by
        have := ha.freed
        omega
      exact .inr ⟨p, hp, (reach_knows hr p).frees.1 ⟨hp, h0⟩⟩

end Run

/-- Process 0 closes both ends of its pipe. -/
def closeBoth : List (Fin 1 × FReq 1) :=
  List.replicate 11 (0, .pipe (.close true)) ++ List.replicate 12 (0, .pipe (.close false))

theorem no_writer_stranded_closed : ∃ s : State 1 Key Chan (Ends 1) (FPc 1),
    Reach (step fileProg) (fun _ _ => True) (made 0) s ∧ s.sh.pipe.freed = 1 ∧ s.sh.pipe.Shut := by
  obtain ⟨s, hr, hobs⟩ : ∃ s : State 1 Key Chan (Ends 1) (FPc 1),
      Reach (step fileProg) (fun _ _ => True) (made 0) s ∧ s.sh.pipe.freed = 1 :=
    exists_reach closeBoth (by decide +kernel)
  exact ⟨s, hr, hobs, ((no_writer_stranded hr).2.2.2.1 hobs).1⟩

end Xv6.Pipe
