import Xv6.Console.Prog
import Xv6.Pipe.Taken
import Xv6.Thread.Kill

/-!
# What a read takes from the console

`consoleread` advances `cons.r` before it copies the character out, as `piperead` does
(`Xv6.Pipe.Taken`), and it may sleep between two characters. `take` adds up by how much a call
advances `cons.r`, control-D apart. With both programs:

* `read_takes_reported`: a read removes what it returns exactly if none of its copies failed.
* `read_loses_byte`: at a bad address one byte is gone and 0 is returned.
-/

namespace Xv6

open Thread Lib

namespace Console

/-- `either_copyout` is called here, and fails. -/
def copyFails : Pc → Req → Console → Bool
  | .readTake _ _, .fault, c => decide (c.char c.r ≠ 4)
  | _, _, _ => false

/-- The `Take` after an action of the process; control-D is not counted. -/
def take {m : ℕ} (p : Fin m) (l : Pc) (q : Req) (c : Console) (t : Take) : Take :=
  if l = .idle then .none
  else match prog p l with
    | .act f =>
      ⟨t.taken + (if c.char c.r = 4 then 0 else ((f q c).1.r - c.r).toNat), t.failed || copyFails l q c⟩
    | _ => t

/-- A state of the machine, and the `Take` of each process. -/
abbrev WithTake (m : ℕ) := State m Unit Unit Console Pc × (Fin m → Take)

/-- What a reader's `Take` is at each point of `consoleread`. -/
def Counted : Pc → Take → Prop
  | .readAcquire _ => fun t => t = .none
  | .readLoop n target | .readWait n target | .readKilled n target | .readSleep n target
  | .readTake n target => fun t => t.failed = false ∧ (t.taken : ℤ) = target - n
  | .readRelease v => fun t => v = -1 ∧ t.failed = false ∨ ∃ i : ℕ, v = i ∧ t.Delivers i
  | _ => fun _ => True

theorem tallied {m : ℕ} : Tallied (prog (m := m)) take Counted where
  act {p l f q c t} hi ht := by
    cases l <;> cases hi
    case idle => cases q <;> simp [Counted, take]
    case readLoop n target =>
      have htake : take p (.readLoop n target) q c t = t := by simp [take, prog, copyFails]
      rw [htake]
      dsimp only
      split_ifs
      · exact ht
      · exact .inr ⟨t.taken, ht.2.symm, by simp [Take.Delivers, ht.1]⟩
    case readWait n target =>
      have htake : take p (.readWait n target) q c t = t := by simp [take, prog, copyFails]
      rw [htake]
      dsimp only
      split_ifs <;> exact ht
    case readTake n target =>
      obtain ⟨hfail, htaken⟩ := ht
      by_cases hx : c.char c.r = 4
      · have htake : take p (.readTake n target) q c t = t := by
          cases q <;> simp [take, prog, copyFails, hx]
        rw [htake]
        simp only [hx, if_true]
        exact .inr ⟨t.taken, htaken.symm, by simp [Take.Delivers, hfail]⟩
      · -- the character is counted whether or not it reached the buffer
        by_cases hq : q = .fault
        · subst hq
          simp only [hx, if_false]
          refine .inr ⟨t.taken, htaken.symm, ?_⟩
          simp [take, prog, copyFails, hx, Take.Delivers, -BitVec.toNat_sub]
        · have htake : take p (.readTake n target) q c t = ⟨t.taken + 1, false⟩ := by
            cases q <;> simp_all [take, prog, copyFails, -BitVec.toNat_sub]
          have hnext : Counted (if c.char c.r = 10 then .readRelease (target - (n - 1))
              else .readLoop (n - 1) target) ⟨t.taken + 1, false⟩ := by
            split_ifs
            · exact .inr ⟨t.taken + 1, by push_cast; omega, by simp [Take.Delivers]⟩
            · exact ⟨rfl, by push_cast; omega⟩
          rw [htake]
          cases q <;> simp_all
    all_goals
      dsimp only
      repeat' split
      all_goals exact trivial
  next {p l l' t} hi ht := by
    cases l <;> simp only [prog, Instr.Next] at hi
    case readAcquire n =>
      subst hi
      rw [show t = .none from ht]
      exact ⟨rfl, by simp [Take.none]⟩
    case readSleep => subst hi; exact ht
    case readKilled n target =>
      obtain ⟨b, rfl⟩ := hi
      cases b
      · exact ht
      · exact .inl ⟨rfl, ht.1⟩
    case killing pid =>
      obtain ⟨b, rfl⟩ := hi
      exact trivial
    all_goals
      subst hi
      exact trivial

end Console

/-- **A read removes what it reports exactly if no copy failed.** From every state of the pipe
and of the console and in every run, a read about to return either was killed, with no copy
failed, or it removed as many bytes as it returns if and only if every `copyout` it made
succeeded. -/
theorem read_takes_reported (n : ℕ) (pi : Pipe) (c : Console) :
    (∀ (x : Pipe.WithTake n) (p : Fin n) (v : ℤ),
      Reach (stepNoted Pipe.prog (tally Pipe.take)) (fun _ _ => True) (start .idle pi, fun _ => .none) x →
      (x.1.procs p).ctl = .run (.readRelease v) →
      v = -1 ∧ (x.2 p).failed = false ∨ (((x.2 p).taken : ℤ) = v ↔ (x.2 p).failed = false)) ∧
    ∀ (x : Console.WithTake n) (p : Fin n) (v : ℤ),
      Reach (stepNoted Console.prog (tally Console.take)) (fun _ _ => True)
        (start .idle c, fun _ => .none) x →
      (x.1.procs p).ctl = .run (.readRelease v) →
      v = -1 ∧ (x.2 p).failed = false ∨ (((x.2 p).taken : ℤ) = v ↔ (x.2 p).failed = false) := by
  constructor
  · intro x p v hr hp
    have h0 : Pipe.Counted .idle .none := trivial
    rcases Pipe.tallied.reach Pipe.disciplined () (by simp [Pipe.held, Pipe.Pc.locked]) h0 hr hp with
      ⟨hv, ht⟩ | ⟨i, rfl, hd⟩
    · exact .inl ⟨hv, by rw [ht]; rfl⟩
    · exact .inr (by rw [Int.ofNat_inj, hd.taken_iff])
  · intro x p v hr hp
    have h0 : Console.Counted .idle .none := trivial
    rcases Console.tallied.reach Console.disciplined () (by simp [Console.held, Console.Pc.locked]) h0
      hr hp with h | ⟨i, rfl, hd⟩
    · exact .inl h
    · exact .inr (by rw [Int.ofNat_inj, hd.taken_iff])

/-- A byte goes through the pipe, a character through the console. -/
theorem read_takes_reported_one :
    (∃ x : Pipe.WithTake 1,
      (x.1.procs 0).ctl = .run (.readRelease 1) ∧ ((x.2 0).taken : ℤ) = 1) ∧
    ∃ x : Console.WithTake 1,
      (x.1.procs 0).ctl = .run (.readRelease 1) ∧ ((x.2 0).taken : ℤ) = 1 := by
  constructor
  · obtain ⟨x, hr, hpc, hfail⟩ : ∃ x : Pipe.WithTake 1, Reach (stepNoted Pipe.prog (tally Pipe.take))
        (fun _ _ => True) (start .idle .new, fun _ => .none) x ∧
        (x.1.procs 0).ctl.pc = some (.readRelease 1) ∧ (x.2 0).failed = false :=
      exists_reach ((0, .write 1) :: List.replicate 14 (0, .copied 7) ++
        (0, .read 1) :: List.replicate 7 (0, .copied 7)) (by decide +kernel)
    have hctl := Ctl.pc_eq_some.1 hpc
    rcases (read_takes_reported 1 .new .init).1 x 0 1 hr hctl with ⟨h, -⟩ | h
    · exact absurd h (by decide)
    · exact ⟨x, hctl, h.2 hfail⟩
  · obtain ⟨x, hr, hpc, hfail⟩ : ∃ x : Console.WithTake 1,
        Reach (stepNoted Console.prog (tally Console.take)) (fun _ _ => True)
          (start .idle .init, fun _ => .none) x ∧
        (x.1.procs 0).ctl.pc = some (.readRelease 1) ∧ (x.2 0).failed = false :=
      exists_reach ((0, .intr 10) :: List.replicate 6 (0, .copied) ++
        (0, .read 1) :: List.replicate 4 (0, .copied)) (by decide +kernel)
    have hctl := Ctl.pc_eq_some.1 hpc
    rcases (read_takes_reported 1 .new .init).2 x 0 1 hr hctl with ⟨h, -⟩ | h
    · exact absurd h (by decide)
    · exact ⟨x, hctl, h.2 hfail⟩

/-- **A byte is lost to a bad address.** A byte is written to the pipe, a line is typed; a read
into an unmapped buffer returns 0, and the byte is gone. -/
theorem read_loses_byte :
    (∃ x : Pipe.WithTake 1,
      Reach (stepNoted Pipe.prog (tally Pipe.take)) (fun _ _ => True) (start .idle .new, fun _ => .none) x ∧
        (x.1.procs 0).ctl = .run (.readRelease 0) ∧ x.2 0 = ⟨1, true⟩) ∧
    ∃ x : Console.WithTake 1,
      Reach (stepNoted Console.prog (tally Console.take)) (fun _ _ => True)
        (start .idle .init, fun _ => .none) x ∧
        (x.1.procs 0).ctl = .run (.readRelease 0) ∧ x.2 0 = ⟨1, true⟩ := by
  simp only [← Ctl.pc_eq_some]
  exact ⟨exists_reach ((0, .write 1) :: List.replicate 14 (0, .copied 7) ++
      (0, .read 1) :: List.replicate 6 (0, .fault)) (by decide +kernel),
    exists_reach ((0, .intr 10) :: List.replicate 6 (0, .copied) ++
      (0, .read 1) :: List.replicate 4 (0, .fault)) (by decide +kernel)⟩

end Xv6
