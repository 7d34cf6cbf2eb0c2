import Xv6.Pipe.Prog
import Xv6.Thread.Outline

/-!
# Readers of a pipe and the data they wait for

`piperead` sleeps on `&pi->nread` while the pipe is empty and open for writing. Every exit
of `pipewrite` calls `wakeup(&pi->nread)` except the one it takes when it finds itself
killed (or the read end closed) at the top of its loop.

* `reader_stranded`: killed between two bytes, a writer leaves a reader asleep on data.
* `no_reader_stranded`: that is the only way. In runs without such an exit under the eyes of
  a waiting reader, no reader sleeps on available data or on a closed pipe.

The other early exit does no harm: having deposited a byte, the writer has seen the read
end open and kept `pi->lock` since (`Pc.seesOpen`).
-/

namespace Xv6.Pipe

open Thread Lib

variable {n : ℕ}

/-- Nobody should wait for input: there is some, or there will be none. -/
def Readable (pi : Pipe) : Prop := pi.nread ≠ pi.nwrite ∨ pi.writeopen = false

instance (pi : Pipe) : Decidable pi.Readable := inferInstanceAs (Decidable (_ ∨ _))

/-- The local states that have seen the pipe not to be readable. -/
def Pc.safe : Pc → Bool
  | .readKilled _ | .readSleep _ => true
  | _ => false

/-- The local states that may have made the pipe readable and not called `wakeup` yet. -/
def Pc.owes : Pc → Bool
  | .writeLoop _ _ dirty | .writeKilled _ _ dirty | .writeTest _ _ dirty | .writeFull _ _ dirty
  | .writeCopy _ _ dirty | .writeWakeup _ dirty => dirty
  | .closeWakeup w => w
  | _ => false

/-- The local states of `pipewrite` that have seen the read end open. -/
def Pc.seesOpen : Pc → Bool
  | .writeLoop _ _ dirty => dirty
  | .writeKilled _ _ _ | .writeTest _ _ _ | .writeCopy _ _ _ => true
  | _ => false

/-- What a local state knows of the read end. -/
def SeesOpen (_ : Fin n) (l : Pc) (pi : Pipe) : Prop := l.seesOpen = true → pi.readopen = true

theorem seesOpen_locked {l : Pc} (h : l.seesOpen = true) : l.locked = true := by
  cases l <;> first | rfl | cases h

section Act

variable {p : Fin n} {l : Pc} {f : Req → Pipe → Pipe × Pc}

/-- Without `pi->lock` only the count of `kfree` calls changes. -/
theorem act_unlocked (h : prog p l = .act f) (hl : l.locked = false) (r : Req) (pi : Pipe) :
    (f r pi).1.readopen = pi.readopen ∧ ((f r pi).1.Readable ↔ pi.Readable) := by
  cases l <;> cases h
  case idle => cases r <;> exact ⟨rfl, Iff.rfl⟩
  case ret | closeFree => exact ⟨rfl, Iff.rfl⟩
  all_goals cases hl

theorem seesOpen_act (h : prog p l = .act f) (r : Req) (pi : Pipe) (hs : SeesOpen p l pi) :
    SeesOpen p (f r pi).2 (f r pi).1 := by
  cases l <;> cases h
  case writeLoop i m dirty =>
    dsimp only
    split_ifs with hi hr
    · exact nofun
    · exact fun _ => by simpa using hr
    · exact nofun
  case writeTest i m dirty =>
    dsimp only
    split_ifs
    · exact nofun
    · exact hs
  case writeCopy i m dirty =>
    cases r with
    | copied ch => exact fun _ => hs rfl
    | _ => exact nofun
  case idle => cases r <;> exact nofun
  case readLoop | closeTest =>
    dsimp only
    split_ifs <;> exact nofun
  case readCopy =>
    dsimp only
    split_ifs
    · exact nofun
    · cases r <;> exact nofun
    · exact nofun
  all_goals exact nofun

end Act

theorem outline : Outline (prog (n := n)) held () (fun _ _ _ => True) (fun _ _ _ _ => True)
    (fun _ => True) SeesOpen (fun _ l _ => l.seesOpen = false) where
  acquire {p l ℓ l' pi} h hs _ := by
    cases l <;> cases h <;> exact nofun
  release {p l ℓ l' pi} h hs := by
    cases l <;> cases h <;> exact ⟨fun _ => trivial, nofun⟩
  act h _ _ hs := seesOpen_act h _ _ hs
  stable {p l f r pi} h _ _ hs q hq := by
    refine ⟨fun l' hex hs' hl' => ?_, fun _ => id⟩
    have hl : l.locked = false := by simpa [held] using hex ⟨rfl, seesOpen_locked hl'⟩
    rw [(act_unlocked h hl r pi).1]
    exact hs' hl'
  unlocked _ _ _ _ _ _ := trivial
  sleep {p l c k' l' pi} h hs := by
    cases l <;> cases h <;> exact ⟨rfl, fun _ => ⟨rfl, trivial⟩⟩
  back hw _ hl := by rw [hw] at hl; cases hl
  wakeup {p l c l' pi} h hs := by
    cases l <;> cases h <;> exact nofun
  killed {p l f pi} h hs b := by
    cases l <;> cases h
    case writeKilled =>
      cases b with
      | true => exact nofun
      | false => exact fun _ => hs rfl
    case readKilled => cases b <;> exact nofun
  kill {p l pid f pi} h hs b := by
    cases l <;> cases h
    exact nofun

/-- What an action does about `Readable`. -/
theorem readable_act {p : Fin n} {l : Pc} {f : Req → Pipe → Pipe × Pc} (h : prog p l = .act f) (r : Req)
    (pi : Pipe) (hs : SeesOpen p l pi) :
    ((f r pi).2.safe = true → l.locked = true ∧ ¬ (f r pi).1.Readable) ∧
      (l.locked = true → (f r pi).1.Readable → (pi.Readable → l.owes = true) → (f r pi).2.owes = true) := by
  cases l <;> cases h
  case writeLoop i m dirty =>
    dsimp only
    split_ifs with hi hr
    · refine ⟨nofun, fun _ hB ho => ?_⟩
      -- having deposited a byte it has seen the read end open
      rw [hs (ho hB)] at hr
      cases hr
    · exact ⟨nofun, fun _ hB ho => ho hB⟩
    · exact ⟨nofun, fun _ hB ho => ho hB⟩
  case writeTest i m dirty =>
    dsimp only
    split_ifs <;> exact ⟨nofun, fun _ hB ho => ho hB⟩
  case writeCopy i m dirty =>
    cases r with
    | copied ch => exact ⟨nofun, fun _ _ _ => rfl⟩
    | _ => exact ⟨nofun, fun _ hB ho => ho hB⟩
  case readLoop m =>
    dsimp only
    split_ifs with he
    · exact ⟨fun _ => ⟨rfl, by simp [Readable, he.1, he.2]⟩, fun _ hB ho => absurd (ho hB) (by simp [Pc.owes])⟩
    · exact ⟨nofun, fun _ hB ho => absurd (ho hB) (by simp [Pc.owes])⟩
  case readCopy i m =>
    dsimp only
    split_ifs with hi he
    · exact ⟨nofun, fun _ hB ho => absurd (ho hB) (by simp [Pc.owes])⟩
    · -- it found data, so the pipe was readable before
      cases r <;> exact ⟨nofun, fun _ _ ho => absurd (ho (Or.inl he)) (by simp [Pc.owes])⟩
    · exact ⟨nofun, fun _ hB ho => absurd (ho hB) (by simp [Pc.owes])⟩
  case closeSet w =>
    cases w with
    | true => exact ⟨nofun, fun _ _ _ => rfl⟩
    | false => exact ⟨nofun, fun _ hB ho => absurd (ho hB) (by simp [Pc.owes])⟩
  case closeTest =>
    dsimp only
    split_ifs <;> exact ⟨nofun, fun _ hB ho => absurd (ho hB) (by simp [Pc.owes])⟩
  case idle => cases r <;> exact ⟨nofun, nofun⟩
  all_goals exact ⟨nofun, nofun⟩

/-- The program signals `Readable` on `&pi->nread`. -/
theorem signals : Signals (prog (n := n)) held () Chan.nread Readable SeesOpen
    (fun l => l.safe = true) (fun l => l.owes = true) where
  acquire {p l ℓ l'} h := by
    cases l <;> cases h <;> simp [Pc.safe, Pc.owes]
  release {p l ℓ l'} h := by
    cases l <;> cases h <;> simp [Pc.safe, Pc.owes]
  act {p l f} h r pi hs _ := by
    obtain ⟨h1, h2⟩ := readable_act h r pi hs
    refine ⟨fun hsafe => ⟨⟨rfl, (h1 hsafe).1⟩, (h1 hsafe).2⟩, fun hl => ?_, fun hl => h2 hl.2⟩
    exact (act_unlocked h (by simpa [held] using hl) r pi).2.1
  sleep {p l d k' l'} h := by
    cases l <;> cases h <;> simp [Pc.safe, Pc.owes]
  wakeup {p l d l'} h := by
    cases l <;> cases h
    case closeWakeup w => cases w <;> simp [Pc.safe, Pc.owes]
    all_goals simp [Pc.safe, Pc.owes]
  killed {p l f} h := by
    cases l <;> cases h <;>
      simp [Pc.safe, Pc.owes]
  kill {p l pid f} h := by
    cases l <;> cases h
    simp [Pc.safe, Pc.owes]

/-! ## Whole runs -/

theorem reach_outline {G : State n Unit Chan Pipe Pc → Fin n × Req → Prop} {s : State n Unit Chan Pipe Pc}
    (hr : Reach (step prog) G initial s) :
    LockInv held s ∧ OutlineInv held () (fun _ => True) SeesOpen (fun _ l _ => l.seesOpen = false) s := by
  refine outline.reach disciplined (fun _ _ _ _ _ => trivial) (fun _ _ _ _ _ _ _ _ => trivial)
    (LockInv.start fun m => ?_) (OutlineInv.start trivial fun _ hl => ?_) hr
  · simp [held, Pc.locked]
  · cases hl

/-- `p` learns in `pipewrite` that it was killed, with a byte deposited that it has not
called `wakeup(&pi->nread)` for. -/
def KilledDirty (s : State n Unit Chan Pipe Pc) (p : Fin n) : Prop :=
  ∃ f, (s.procs p).ctl = .killedHold f ∧ (s.procs p).killed = true ∧ (f false).owes = true

/-- A process has given up `pi->lock` to sleep on `&pi->nread` and was not woken. -/
def ReaderWaits (s : State n Unit Chan Pipe Pc) : Prop := ∃ q, (s.procs q).Waiting Chan.nread

/-- **No reader sleeps on available data**, nor on a pipe closed for writing, in any run in
which no writer leaves killed and dirty while a reader waits. -/
theorem no_reader_stranded {s : State n Unit Chan Pipe Pc} {q : Fin n}
    (hr : Reach (step prog) (fun s a => KilledDirty s a.1 → ¬ ReaderWaits s) initial s)
    (hfree : s.lock (.mon ()) = none) (hq : (s.procs q).state = .sleeping)
    (hc : (s.procs q).chan = some Chan.nread) : ¬ (s.sh.nread ≠ s.sh.nwrite ∨ s.sh.writeopen = false) := by
  refine no_lost_wakeup signals (fun s hs => (reach_outline hs).1) (fun s hs p l hl => ?_)
    SleepInv.start (WakeInv.start nofun) hr hfree hq hc fun s p x f q _ hg hctl hk ho hw => ?_
  · have hsees := (reach_outline hs).2.asserts p
    rw [hl] at hsees
    exact hsees
  · exact absurd ⟨q, hw⟩ (hg ⟨f, hctl, hk, ho⟩)

/-- A reader asleep on an empty pipe. -/
theorem no_reader_stranded_empty : ∃ s : State 1 Unit Chan Pipe Pc,
    (s.procs 0).state = .sleeping ∧ ¬ (s.sh.nread ≠ s.sh.nwrite ∨ s.sh.writeopen = false) := by
  obtain ⟨s, hr, hfree, hq, hc⟩ : ∃ s : State 1 Unit Chan Pipe Pc,
      Reach (step prog) (fun s a => (s.procs a.1).killed = false) initial s ∧
      s.lock (.mon ()) = none ∧ (s.procs 0).state = .sleeping ∧ (s.procs 0).chan = some Chan.nread :=
    exists_reach (List.replicate 11 (0, .read 1)) (by decide +kernel)
  -- nobody was killed on the way
  have hguard : ∀ (s : State 1 Unit Chan Pipe Pc) (a : Fin 1 × Req), (s.procs a.1).killed = false →
      KilledDirty s a.1 → ¬ ReaderWaits s := by
    rintro s a hk ⟨f, -, hk', -⟩
    rw [hk] at hk'; cases hk'
  exact ⟨s, hq, no_reader_stranded (hr.mono hguard) hfree hq hc⟩

/-! ## A stranded reader -/

/-- Process 0 reads an empty pipe and sleeps; process 1 starts to write two bytes and has
written one; process 2 kills process 1, which returns -1. -/
def strand : List (Fin 3 × Req) :=
  List.replicate 11 (0, .read 1) ++ List.replicate 3 (1, .write 2) ++ List.replicate 5 (1, .copied 7) ++
    List.replicate 7 (2, .kill 2) ++ List.replicate 5 (1, .fault)

theorem reader_stranded : ∃ s : State 3 Unit Chan Pipe Pc, Reach (step prog) (fun _ _ => True) initial s ∧
    s.lock (.mon ()) = none ∧ (s.procs 0).state = .sleeping ∧ (s.procs 0).chan = some Chan.nread ∧
      s.sh.nread ≠ s.sh.nwrite :=
  exists_reach strand (by decide +kernel)

end Xv6.Pipe
