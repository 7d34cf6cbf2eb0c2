import Xv6.Thread.Kill
import Xv6.Pipe.Prog
import Xv6.Console.Prog
import Xv6.Proc.Ticks
import Xv6.Proc.Wait

/-!
# Kill and the killable waits

`piperead`, `pipewrite`, `consoleread`, `sys_sleep` and `wait` test `killed` in a loop
around `sleep`. For each, `Dozing` is what lies between the test and `sleep`: nothing but the
call itself, and in `pipewrite` the test for a full pipe and a `wakeup`.

* `killed_yet_asleep`: in each loop a `kill` that falls there returns 0 and leaves its
  victim asleep.
* `killed_not_asleep`: in runs in which no `kill` falls there, no killed process is asleep.
-/

namespace Xv6

open Thread Lib

namespace Pipe

variable {n : ℕ}

/-- Past the test of `killed`: `piperead` about to sleep, `pipewrite` about to find the pipe
full, or about to sleep. -/
def Dozing (l : Pc) (pi : Pipe) : Prop :=
  match l with
  | .writeTest _ _ _ => pi.Full
  | .writeFull _ _ _ | .writeSleep _ _ | .readSleep _ => True
  | _ => False

theorem tests : Tests (prog (n := n)) held Dozing where
  sleep {p l c k l'} h pi := by
    cases l <;> cases h <;> exact ⟨trivial, id⟩
  acquire {p l ℓ l'} h pi hd := by
    cases l <;> cases h <;> exact hd.elim
  release {p l ℓ l'} h pi hd := by
    cases l <;> cases h <;> exact hd.elim
  act {p l f} h r pi hd := by
    cases l <;> cases h
    case writeTest i m dirty =>
      dsimp only at hd
      split_ifs at hd with hf
      · exact hf
      · exact hd.elim
    case idle | writeCopy => cases r <;> exact hd.elim
    case writeLoop | readLoop | closeTest =>
      dsimp only at hd
      split_ifs at hd <;> exact hd.elim
    case readCopy =>
      dsimp only at hd
      split_ifs at hd
      · exact hd.elim
      · cases r <;> exact hd.elim
      · exact hd.elim
    all_goals exact hd.elim
  stable {p l f} h r pi l' hex hd := by
    cases l'
    case writeTest i m dirty =>
      -- `pi->lock` is held by the writer, so nobody moves the counters
      have hl : l.locked = false := by simpa [held] using hex (.mon ()) ⟨rfl, rfl⟩
      cases l <;> cases h
      case idle => cases r <;> exact hd
      case ret | closeFree => exact hd
      all_goals cases hl
    all_goals exact hd
  wakeup {p l c l'} h pi hd := by
    cases l <;> cases h
    case writeFull => trivial
    all_goals exact hd.elim
  killed {p l f} h pi := by
    cases l <;> cases h <;> exact id
  kill {p l pid f} h b pi := by
    cases l <;> cases h
    exact id

end Pipe

namespace Console

variable {m : ℕ}

/-- `consoleread` past its test. -/
def Dozing (l : Pc) (_ : Console) : Prop := ∃ n target, l = .readSleep n target

theorem tests : Tests (prog (m := m)) held Dozing := .of_rests fun p l => by
  cases l
  case idle | readTake | readLoop | readWait | intrAct =>
    intro q s
    cases q <;> dsimp only <;> (repeat' split) <;> simp
  all_goals simp [prog, Instr.Rests]

end Console

namespace Ticks

variable {m : ℕ}

/-- `sys_sleep` past its test. -/
def Dozing (l : Pc) (_ : BitVec 32) : Prop := ∃ n ticks0, l = .sleepSleep n ticks0

theorem tests : Tests (prog (m := m)) held Dozing := .of_rests fun p l => by
  cases l
  case idle | sleepLoop =>
    intro q s
    cases q <;> dsimp only <;> (repeat' split) <;> simp
  all_goals simp [prog, Instr.Rests]

end Ticks

namespace Wait

variable {m : ℕ}

/-- `wait` past its test. -/
def Dozing (l : Pc m) (_ : Unit) : Prop := l = .waitSleep

theorem tests : Tests (prog (m := m)) held Dozing := .of_rests fun p l => by
  cases l
  case idle | waitScan | waitLook =>
    intro q s
    cases q <;> dsimp only <;> (repeat' split) <;> simp
  all_goals simp [prog, Instr.Rests]

end Wait

/-- `q` is `SLEEPING` though `p->killed` is set. -/
def KilledAsleep {n : ℕ} {K C σ L : Type} (s : State n K C σ L) (q : Fin n) : Prop :=
  (s.procs q).state = .sleeping ∧ (s.procs q).killed = true

/-- **No killed process is asleep in a killable wait**, in any run in which no `kill` hits a
process between its test of `killed` and `sleep`. -/
theorem killed_not_asleep (n : ℕ) :
    (∀ s, Reach (step Pipe.prog) (KillsAwake Pipe.Dozing) Pipe.initial s → ∀ q : Fin n, ¬ KilledAsleep s q) ∧
    (∀ s, Reach (step Console.prog) (KillsAwake Console.Dozing) Console.initial s →
      ∀ q : Fin n, ¬ KilledAsleep s q) ∧
    (∀ s, Reach (step Ticks.prog) (KillsAwake Ticks.Dozing) Ticks.initial s →
      ∀ q : Fin n, ¬ KilledAsleep s q) ∧
    (∀ s, Reach (step Wait.prog) (KillsAwake Wait.Dozing) Wait.initial s → ∀ q : Fin n, ¬ KilledAsleep s q) := by
  refine ⟨fun s hr => ?_, fun s hr => ?_, fun s hr => ?_, fun s hr => ?_⟩
  · exact no_killed_sleeper Pipe.disciplined (by simp [Pipe.held, Pipe.Pc.locked]) Pipe.tests hr
  · exact no_killed_sleeper Console.disciplined (by simp [Console.held, Console.Pc.locked]) Console.tests hr
  · exact no_killed_sleeper Ticks.disciplined (by simp [Ticks.held, Ticks.Pc.locked]) Ticks.tests hr
  · refine no_killed_sleeper Wait.disciplined (fun k => ?_) Wait.tests hr
    cases k <;> simp [Wait.held, Wait.Pc.locked]

/-- If `a` is the step in which a `kill` marks its victim, the victim is off the CPU in `sleep`. -/
def killsSleeper {n : ℕ} {K C σ ι L : Type} (s : State n K C σ L) (a : Fin n × ι) : Bool :=
  match (s.procs a.1).ctl with
  | .killHold _ j _ =>
    match (s.procs j).ctl with
    | .sleepOff _ _ _ => true
    | _ => false
  | _ => true

theorem killsAwake_of_sleeper {n : ℕ} {K C σ ι L : Type} {Win : L → σ → Prop} {s : State n K C σ L}
    {a : Fin n × ι} (h : killsSleeper s a = true) : KillsAwake Win s a := by
  intro pid j f hc _
  simp only [killsSleeper, hc] at h
  split at h
  · rename_i hj
    rw [hj]
    exact id
  · cases h

/-- A reader asleep on an empty pipe is killed. -/
theorem killed_not_asleep_reader : ∃ s : State 2 Unit Pipe.Chan Pipe Pipe.Pc,
    (s.procs 0).killed = true ∧ ¬ KilledAsleep s 0 := by
  obtain ⟨s, hr, hobs⟩ : ∃ s : State 2 Unit Pipe.Chan Pipe Pipe.Pc,
      Reach (step Pipe.prog) (fun s a => killsSleeper s a = true) Pipe.initial s ∧
      (s.procs 0).killed = true :=
    exists_reach (List.replicate 11 (0, .read 1) ++ List.replicate 4 (1, .kill 1)) (by decide +kernel)
  exact ⟨s, hobs, (killed_not_asleep 2).1 s (hr.mono fun _ _ => killsAwake_of_sleeper) 0⟩

/-! ## Killed and asleep -/

instance {n : ℕ} {K C σ L : Type} (s : State n K C σ L) (q : Fin n) : Decidable (KilledAsleep s q) :=
  inferInstanceAs (Decidable (_ ∧ _))

/-- Process 0 takes `k` steps with the request `r`, up to the end of its test of `killed`;
process 1 kills it; process 0 goes to sleep. -/
def killInWindow {ι : Type} (k : ℕ) (r kill : ι) : List (Fin 2 × ι) :=
  List.replicate k (0, r) ++ List.replicate 4 (1, kill) ++ List.replicate 4 (0, r)

theorem killed_yet_asleep :
    (∃ s, Reach (step Pipe.prog) (fun _ _ => True) Pipe.initial s ∧ (s.procs 1).ctl.pc = some (.ret 0) ∧
      KilledAsleep s (0 : Fin 2)) ∧
    (∃ s, Reach (step Console.prog) (fun _ _ => True) Console.initial s ∧
      (s.procs 1).ctl.pc = some (.ret 0) ∧ KilledAsleep s (0 : Fin 2)) ∧
    (∃ s, Reach (step Ticks.prog) (fun _ _ => True) Ticks.initial s ∧ (s.procs 1).ctl.pc = some (.ret 0) ∧
      KilledAsleep s (0 : Fin 2)) ∧
    (∃ s, Reach (step Wait.prog) (fun _ _ => True) Wait.initial s ∧ (s.procs 1).ctl.pc = some (.ret 0) ∧
      KilledAsleep s (0 : Fin 2)) := by
  refine ⟨exists_reach (killInWindow 6 (.read 1) (.kill 1)) ?_,
    exists_reach (killInWindow 7 (.read 1) (.kill 1)) ?_,
    exists_reach (killInWindow 7 (.sleep 1) (.kill 1)) ?_,
    exists_reach ([(0, .wait), (0, .wait), (0, .noChild), (0, .child)] ++
      List.replicate 7 (0, .alive) ++ List.replicate 4 (1, .kill 1) ++ List.replicate 4 (0, .wait)) ?_⟩
  all_goals decide +kernel

end Xv6
