import Xv6.Pipe.Prog
import Xv6.Thread.History

/-!
# What a read takes from the pipe

`piperead` advances `nread` before `copyout` is called for the byte. Each process keeps a
`Take` of its current call: by how much it advanced `nread`, and whether a copy failed. At the
end of a call that was not killed the two indices differ by one exactly if a copy failed
(`Counted`, kept by every step: `tallied`).
-/

namespace Xv6

open Thread

/-- What a read has done so far: the bytes it removed, and whether the copy of one of them to
the user's buffer failed. -/
structure Take where
  taken : ℕ
  failed : Bool
  deriving DecidableEq

/-- Before the call. -/
def Take.none : Take := ⟨0, false⟩

/-- `i` bytes were delivered, and one more is gone if a copy failed. -/
def Take.Delivers (t : Take) (i : ℕ) : Prop := t.taken = i + if t.failed then 1 else 0

theorem Take.Delivers.taken_iff {t : Take} {i : ℕ} (h : t.Delivers i) :
    t.taken = i ↔ t.failed = false := by
  rw [show t.taken = _ from h]
  cases t.failed <;> simp

namespace Pipe

/-- `copyout` is called here, and fails. -/
def copyFails : Pc → Req → Pipe → Bool
  | .readCopy i n, .fault, pi => decide ((i : ℤ) < n ∧ pi.nread ≠ pi.nwrite)
  | _, _, _ => false

/-- The `Take` after an action of the process; a new call starts at `idle`. -/
def take {n : ℕ} (p : Fin n) (l : Pc) (r : Req) (pi : Pipe) (t : Take) : Take :=
  if l = .idle then .none
  else match prog p l with
    | .act f => ⟨t.taken + ((f r pi).1.nread - pi.nread).toNat, t.failed || copyFails l r pi⟩
    | _ => t

/-- A state of the machine, and the `Take` of each process. -/
abbrev WithTake (n : ℕ) := State n Unit Chan Pipe Pc × (Fin n → Take)

theorem get_taken (pi : Pipe) : (pi.get.2.nread - pi.nread).toNat = 1 := by
  change (pi.nread + 1 - pi.nread).toNat = 1
  bv_omega

/-- What a reader's `Take` is at each point of `piperead`. -/
def Counted : Pc → Take → Prop
  | .readAcquire _ | .readLoop _ | .readKilled _ | .readSleep _ => fun t => t = .none
  | .readCopy i _ => fun t => t = ⟨i, false⟩
  | .readWakeup i => fun t => t.Delivers i
  | .readRelease v => fun t => v = -1 ∧ t = .none ∨ ∃ i : ℕ, v = i ∧ t.Delivers i
  | _ => fun _ => True

theorem tallied {n : ℕ} : Tallied (prog (n := n)) take Counted where
  act {p l f r pi t} hi ht := by
    cases l <;> cases hi
    case idle => cases r <;> simp [Counted, take]
    case readLoop k =>
      have htake : take p (.readLoop k) r pi t = t := by
        simp only [take, prog, reduceCtorEq, if_false, copyFails, Bool.or_false]
        split_ifs <;> simp
      rw [htake, show t = .none from ht]
      dsimp only
      split_ifs <;> rfl
    case readCopy i k =>
      obtain rfl : t = ⟨i, false⟩ := ht
      by_cases hlt : (i : ℤ) < k
      · by_cases he : pi.nread = pi.nwrite
        · cases r <;> simp [take, prog, copyFails, hlt, he, Counted, Take.Delivers]
        · -- the byte is counted whether or not it reached the buffer
          cases r <;> simp [take, prog, copyFails, hlt, he, Counted, Take.Delivers, get_taken,
            -BitVec.toNat_sub]
      · cases r <;> simp [take, prog, copyFails, hlt, Counted, Take.Delivers]
    all_goals
      dsimp only
      repeat' split
      all_goals exact trivial
  next {p l l' t} hi ht := by
    cases l <;> simp only [prog, Instr.Next] at hi
    case readAcquire | readSleep => subst hi; exact ht
    case readKilled k =>
      obtain ⟨b, rfl⟩ := hi
      cases b
      · exact ht
      · exact .inl ⟨rfl, ht⟩
    case readWakeup i => subst hi; exact .inr ⟨i, rfl, ht⟩
    case writeKilled i k d =>
      obtain ⟨b, rfl⟩ := hi
      cases b <;> exact trivial
    case killing pid =>
      obtain ⟨b, rfl⟩ := hi
      exact trivial
    all_goals
      subst hi
      exact trivial

end Pipe

end Xv6
