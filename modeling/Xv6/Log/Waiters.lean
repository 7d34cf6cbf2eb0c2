import Xv6.Log.Group
import Xv6.Thread.Wakeup

/-!
# Nobody waits for the log in vain

`begin_op` sleeps on `&log` while a commit is going on or while one more operation might not
fit. Three functions change what it waits for: an `end_op` that is not the last lowers
`outstanding`, the last one commits and clears `committing`, and `commit` empties `log.lh`
without the lock. The first two call `wakeup(&log)` before they let go of `log.lock`; the third
needs no call, since `committing` is set all the while.

* `signals`: so `log.c` signals `Admits`, the condition on which `begin_op` goes on.
* `n_pos`: a header with entries belongs to an operation in progress or to a commit.
* `no_operation_stranded`: a process sleeps in `begin_op` only for one of its two reasons, and
  never while the log is idle.
-/

namespace Xv6.Log

open Thread Lib

variable {n size : ℕ} {p : Fin n} {sh : Shared n}

/-- `begin_op` goes on: no commit, and one more operation fits. -/
def Admits (sh : Shared n) : Prop :=
  sh.committing = false ∧ sh.lh.n + (sh.outstanding + 1) * maxopblocks ≤ logsize

/-- The local states that have seen that `begin_op` may not go on. -/
def Pc.safe : Pc → Bool
  | .beginSleep => true
  | _ => false

/-- The local states that may have let `begin_op` go on and have not called `wakeup` yet. -/
def Pc.owes : Pc → Bool
  | .endWakeup | .doneWakeup => true
  | _ => false

/-- What is known at a local state of a reachable state. -/
def Sees (size : ℕ) (p : Fin n) (l : Pc) (sh : Shared n) : Prop :=
  Knows size p l sh ∧ GroupInv size sh

section Act

variable {l : Pc} {f : Req → Shared n → Shared n × Pc}

/-- Without `log.lock` nothing makes room: only `commit` acts, and it has set `committing`. -/
theorem admits_unlocked (h : prog size p l = .act f) (hs : Sees size p l sh) (hl : l.locked = false)
    (x : Req) (hB : Admits (f x sh).1) : Admits sh := by
  rcases act_unlocked (x := x) h hs.1 hl with he | hc
  · rwa [he] at hB
  · have hcom : sh.committing = true := hs.2.committer.2 ⟨p, hc⟩
    have hch := (act_change (x := x) h hs.1).inv hs.2
    -- the committer stays the committer until it has the lock again
    have hcom' : (f x sh).1.committing = true := by
      cases l <;> cases h
      case idle | inOp => cases x <;> exact hcom
      case doneClear | beginTest | writeTest | writeScan | writePut | endTest => cases hl
      all_goals exact hcom
    rw [hB.1] at hcom'
    cases hcom'

/-- What an action made with `log.lock` does about `Admits`. -/
theorem admits_locked (h : prog size p l = .act f) (hl : l.locked = true) (x : Req) :
    ((f x sh).2.safe = true → ¬ Admits (f x sh).1) ∧
      (Admits (f x sh).1 → (Admits sh → l.owes = true) → (f x sh).2.owes = true) := by
  cases l <;> cases h
  case beginTest =>
    dsimp only
    split_ifs with hc hfull
    · refine ⟨fun _ hB => ?_, fun hB ho => by cases ho hB⟩
      rw [hB.1] at hc
      cases hc
    · exact ⟨fun _ hB => absurd hB.2 (not_le.2 hfull), fun hB ho => by cases ho hB⟩
    · -- a reservation only takes room
      refine ⟨by rintro ⟨⟩, fun hB ho => absurd (ho ⟨hB.1, ?_⟩) Bool.false_ne_true⟩
      have hle := hB.2
      simp only [Shared.reserve] at hle
      unfold maxopblocks at hle ⊢
      omega
  case writeTest b =>
    dsimp only
    split_ifs <;> exact ⟨by rintro ⟨⟩, fun hB ho => by cases ho hB⟩
  case writeScan b i =>
    dsimp only
    split_ifs <;> exact ⟨by rintro ⟨⟩, fun hB ho => by cases ho hB⟩
  case writePut b i =>
    -- so does a new entry
    refine ⟨by rintro ⟨⟩, fun hB ho => absurd (ho ⟨hB.1, ?_⟩) Bool.false_ne_true⟩
    have hle : ((sh.lh.put b i).n : ℤ) + (sh.outstanding + 1) * maxopblocks ≤ logsize := hB.2
    have hgrow : sh.lh.n ≤ (sh.lh.put b i).n := by
      unfold Header.put
      dsimp only
      split_ifs <;> omega
    omega
  case endTest =>
    dsimp only
    split_ifs with hc h0
    · exact ⟨by rintro ⟨⟩, fun hB _ => by rw [hB.1] at hc; cases hc⟩
    · exact ⟨by rintro ⟨⟩, fun hB _ => by cases hB.1⟩
    · exact ⟨by rintro ⟨⟩, fun _ _ => rfl⟩
  case doneClear => exact ⟨by rintro ⟨⟩, fun _ _ => rfl⟩
  all_goals cases hl

end Act

/-- The program signals `Admits` on `&log`. -/
theorem signals (size : ℕ) : Signals (prog (n := n) size) held () () Admits (Sees size)
    (fun l => l.safe = true) (fun l => l.owes = true) where
  acquire {p l ℓ l'} h := by
    cases l <;> cases h <;> simp [Pc.safe, Pc.owes]
  release {p l ℓ l'} h := by
    cases l <;> cases h
    case endRelease dc => cases dc <;> simp [Pc.safe, Pc.owes]
    all_goals simp [Pc.safe, Pc.owes]
  act {p l f} h x sh hs _ := by
    refine ⟨fun hsafe => ?_, fun hl => ?_, fun hl => (admits_locked h hl.2 x).2⟩
    · have hl : l.locked = true := by
        rw [← locked_act h x sh]
        revert hsafe
        cases (f x sh).2 <;> simp [Pc.safe, Pc.locked]
      exact ⟨⟨rfl, hl⟩, (admits_locked h hl x).1 hsafe⟩
    · exact admits_unlocked h hs (by simpa [held] using hl) x
  sleep {p l d k' l'} h := by
    cases l <;> cases h
    simp [Pc.safe, Pc.owes]
  wakeup {p l d l'} h := by
    cases l <;> cases h <;> simp [Pc.safe]
  killed {p l f} h := by cases l <;> simp [prog] at h
  kill {p l pid f} h := by
    cases l <;> cases h
    simp [Pc.safe, Pc.owes]

/-! ## Whole runs -/

section Run

variable {G : State n Unit Unit (Shared n) Pc → Fin n × Req → Prop}
variable {s : State n Unit Unit (Shared n) Pc}

/-- **A header with entries is somebody's**: an operation is in progress or a commit on its way. -/
theorem n_pos (hr : Reach (step (prog size)) G initial s) (hn : 0 < s.sh.lh.n) :
    0 < s.sh.outstanding ∨ s.sh.committing = true := by
  have hI := reach_inv hr
  by_contra hno
  rw [not_or, Bool.not_eq_true] at hno
  obtain ⟨hout, hc⟩ := hno
  have h0 : s.sh.outstanding = 0 := by
    have := hI.outstanding
    omega
  -- no operation is open, so nothing can have been logged
  have hnone : ∀ q, s.sh.hist.cur q = none := by
    intro q
    cases hq : s.sh.hist.cur q with
    | none => rfl
    | some o =>
      have := hI.one_le hq
      omega
  have hmem : s.sh.lh.block 0 ∈ s.sh.lh.blocks := Header.mem_blocks.2 ⟨0, hn, rfl⟩
  obtain ⟨o, hopen, -⟩ := (hI.blocks (hI.not_handed hc) _).1 hmem
  rcases hopen with hg | ⟨q, hq⟩
  · rw [reach_group hr h0 hc] at hg
    cases hg
  · rw [hnone q] at hq
    cases hq

/-- A process that sleeps on `&log` does so for one of the two reasons of `begin_op`. -/
theorem asleep_reason (hr : Reach (step (prog size)) G initial s) (hfree : s.lock (.mon ()) = none)
    {q : Fin n} (hq : (s.procs q).state = .sleeping) (hc : (s.procs q).chan = some ()) :
    ¬ Admits s.sh := by
  have hno : ∀ (p : Fin n) (l : Pc) (f : Bool → Pc), prog size p l = .killed f →
      (f false).owes = true → (f true).owes = true := by
    intro p l f hi
    cases l <;> simp [prog] at hi
  refine no_lost_wakeup' (signals size) (fun s hs => (reach_outline hs).1) (fun s hs p l hl => ?_)
    SleepInv.start (WakeInv.start Bool.false_ne_true) hr hfree hq hc hno (by simp [initial, start])
  have hk := (reach_outline hs).2.asserts p
  rw [hl] at hk
  exact ⟨hk, reach_inv hs⟩

/-- **No operation is stranded waiting for the log.** Whenever `log.lock` is free, a process
sleeping on `&log` waits for a commit or for room; a header with entries belongs to an operation
in progress or a commit; so nobody sleeps there while the log is idle. -/
theorem no_operation_stranded (hr : Reach (step (prog size)) (fun _ _ => True) initial s)
    (hfree : s.lock (.mon ()) = none) :
    (∀ q, (s.procs q).state = .sleeping → (s.procs q).chan = some () →
      s.sh.committing = true ∨ s.sh.lh.n + (s.sh.outstanding + 1) * maxopblocks > logsize) ∧
    (0 < s.sh.lh.n → 0 < s.sh.outstanding ∨ s.sh.committing = true) ∧
    (s.sh.outstanding = 0 → s.sh.committing = false →
      ∀ q, ¬ ((s.procs q).state = .sleeping ∧ (s.procs q).chan = some ())) := by
  have hreason : ∀ q, (s.procs q).state = .sleeping → (s.procs q).chan = some () →
      s.sh.committing = true ∨ s.sh.lh.n + (s.sh.outstanding + 1) * maxopblocks > logsize := by
    intro q hq hc
    by_contra hno
    rw [not_or, Bool.not_eq_true] at hno
    exact asleep_reason hr hfree hq hc ⟨hno.1, not_lt.1 hno.2⟩
  refine ⟨hreason, n_pos hr, ?_⟩
  rintro h0 hcom q ⟨hq, hc⟩
  rcases hreason q hq hc with h | h
  · rw [hcom] at h
    cases h
  · -- an idle log is empty, and one operation fits in an empty log
    have hn : s.sh.lh.n = 0 := by
      by_contra hn
      rcases n_pos hr (Nat.pos_of_ne_zero hn) with hp | hp
      · omega
      · rw [hcom] at hp
        cases hp
    rw [hn, h0] at h
    revert h
    decide

end Run

/-- Three operations reserve the whole log, so the fourth process sleeps. -/
def fourth : List (Fin 4 × Req) :=
  List.replicate 4 (0, .op) ++ List.replicate 4 (1, .op) ++ List.replicate 4 (2, .op) ++
    List.replicate 8 (3, .op)

theorem no_operation_stranded_fourth : ∃ s : State 4 Unit Unit (Shared 4) Pc,
    Reach (step (prog logsize)) (fun _ _ => True) initial s ∧ (s.procs 3).state = .sleeping ∧
      s.sh.lh.n + (s.sh.outstanding + 1) * maxopblocks > logsize := by
  obtain ⟨s, hr, hfree, hq, hc, hcom⟩ : ∃ s : State 4 Unit Unit (Shared 4) Pc,
      Reach (step (prog logsize)) (fun _ _ => True) initial s ∧ s.lock (.mon ()) = none ∧
      (s.procs 3).state = .sleeping ∧ (s.procs 3).chan = some () ∧ s.sh.committing = false :=
    exists_reach fourth (by decide +kernel)
  refine ⟨s, hr, hq, ((no_operation_stranded hr hfree).1 3 hq hc).resolve_left fun h => ?_⟩
  rw [hcom] at h
  cases h

end Xv6.Log
