import Xv6.Log.Commit
import Xv6.Thread.Outline

/-!
# `begin_op`, `log_write`, `end_op`

The log as many processes use it at once. Each process runs file-system operations for
ever: `begin_op`, any number of `log_write`s, `end_op`. The three functions and the part
of `commit` that reads and writes `log.lh` are a program of the thread machine.

What the source does with `log.lock` held and to fields that are only used with it held
(`outstanding`, `committing`) is one step. `log.lh` is not such a field: `commit` reads and
clears it without the lock. So the tests of `log_write`, each iteration of its search, its
store, and each iteration of the loops of `commit` are steps of their own. The disk writes
of `commit` are modelled in `Xv6.Log.Commit`.

`Hist` is not in the source. It numbers the operations and keeps, for each, the blocks it
logged, and for each call of `commit` the operations it took and the blocks it was handed.
No step reads it.
-/

namespace Xv6.Log

open Function Thread

/-- A call of `commit`: the operations that ended since the call before, and
`log.lh.block[0 .. log.lh.n)` at the call. -/
structure Group where
  ops : List ℕ
  blocks : List ℕ

/-- What has happened so far. -/
structure Hist (n : ℕ) where
  nextOp : ℕ
  cur : Fin n → Option ℕ
  wrote : ℕ → List ℕ
  ended : List ℕ
  group : List ℕ
  commits : List Group
  /-- The process between `committing = 1` and `committing = 0`, and whether it has called
  `commit` yet. -/
  committer : Option (Fin n)
  handed : Bool

/-- The fields of `struct log` that change, and the history. -/
structure Shared (n : ℕ) where
  outstanding : ℤ
  committing : Bool
  lh : Header
  hist : Hist n

/-- The block numbers in a header. -/
def Header.blocks (h : Header) : List ℕ := (List.range h.n).map h.block

variable {n : ℕ}

def Shared.init : Shared n where
  outstanding := 0
  committing := false
  lh := ⟨0, fun _ => 0⟩
  hist := ⟨0, fun _ => none, fun _ => [], [], [], [], none, false⟩

/-- `log.outstanding += 1`. -/
def Shared.reserve (p : Fin n) (sh : Shared n) : Shared n :=
  { sh with
    outstanding := sh.outstanding + 1
    hist := { sh.hist with
      cur := update sh.hist.cur p (some sh.hist.nextOp), nextOp := sh.hist.nextOp + 1 } }

/-- `log.lh.block[i] = b->blockno; if (i == log.lh.n) log.lh.n++`. -/
def Header.put (h : Header) (b i : ℕ) : Header :=
  ⟨if i = h.n then h.n + 1 else h.n, update h.block i b⟩

def Hist.log (p : Fin n) (b : ℕ) (h : Hist n) : Hist n :=
  match h.cur p with
  | some o => { h with wrote := update h.wrote o ((h.wrote o).insert b) }
  | none => h

def Shared.put (p : Fin n) (b i : ℕ) (sh : Shared n) : Shared n :=
  { sh with lh := sh.lh.put b i, hist := sh.hist.log p b }

def Hist.finish (p : Fin n) (h : Hist n) : Hist n :=
  { h with
    cur := update h.cur p none
    ended := h.ended ++ (h.cur p).toList
    group := h.group ++ (h.cur p).toList }

/-- `log.outstanding -= 1`. -/
def Shared.finish (p : Fin n) (sh : Shared n) : Shared n :=
  { sh with outstanding := sh.outstanding - 1, hist := sh.hist.finish p }

/-- `log.committing = 1`. -/
def Shared.setCommitting (p : Fin n) (sh : Shared n) : Shared n :=
  { sh with committing := true, hist := { sh.hist with committer := some p } }

/-- The call of `commit`. -/
def Shared.hand (sh : Shared n) : Shared n :=
  { sh with hist := { sh.hist with
      commits := sh.hist.commits ++ [⟨sh.hist.group, sh.lh.blocks⟩], group := [], handed := true } }

/-- `log.lh.n = 0`. -/
def Shared.clear (sh : Shared n) : Shared n := { sh with lh := { sh.lh with n := 0 } }

/-- `log.committing = 0`. -/
def Shared.clearCommitting (sh : Shared n) : Shared n :=
  { sh with committing := false, hist := { sh.hist with committer := none, handed := false } }

/-- What a process is asked to do next. -/
inductive Req
  | op
  | write (b : ℕ)
  | done
  | kill (pid : ℕ)

/-- The local states of a process. -/
inductive Pc
  | idle | killing (pid : ℕ)
  | beginAcquire | beginTest | beginSleep | beginRelease
  | inOp
  | writeAcquire (b : ℕ) | writeTest (b : ℕ) | writeScan (b i : ℕ) | writePut (b i : ℕ) | writeRelease
  | tooBig | outsideTrans
  | endAcquire | endTest | endPanic | endWakeup | endRelease (doCommit : Bool)
  | commit | writeLog (tail : ℕ) | writeHead | installTrans (tail : ℕ) | clear | eraseHead
  | doneAcquire | doneClear | doneWakeup | doneRelease

/-- The program of process `p`, on a log of `size` blocks. -/
def prog (size : ℕ) (p : Fin n) : Pc → Instr n Unit Unit (Shared n) Req Pc
  | .idle => .act fun r sh =>
    match r with
    | .kill pid => (sh, .killing pid)
    | _ => (sh, .beginAcquire)
  | .killing pid => .kill pid fun _ => .idle
  -- begin_op
  | .beginAcquire => .acquire (.mon ()) .beginTest
  | .beginTest => .act fun _ sh =>
    if sh.committing then (sh, .beginSleep)
    else if sh.lh.n + (sh.outstanding + 1) * maxopblocks > logsize then (sh, .beginSleep)
    else (sh.reserve p, .beginRelease)
  | .beginSleep => .sleep () () .beginTest
  | .beginRelease => .release (.mon ()) .inOp
  | .inOp => .act fun r sh =>
    match r with
    | .write b => (sh, .writeAcquire b)
    | _ => (sh, .endAcquire)
  -- log_write
  | .writeAcquire b => .acquire (.mon ()) (.writeTest b)
  | .writeTest b => .act fun _ sh =>
    if sh.lh.n ≥ logsize ∨ sh.lh.n ≥ size - 1 then (sh, .tooBig)
    else if sh.outstanding < 1 then (sh, .outsideTrans)
    else (sh, .writeScan b 0)
  | .tooBig => .panic "too big a transaction"
  | .outsideTrans => .panic "log_write outside of trans"
  | .writeScan b i => .act fun _ sh =>
    if i < sh.lh.n then
      if sh.lh.block i = b then (sh, .writePut b i) else (sh, .writeScan b (i + 1))
    else (sh, .writePut b i)
  | .writePut b i => .act fun _ sh => (sh.put p b i, .writeRelease)
  | .writeRelease => .release (.mon ()) .inOp
  -- end_op
  | .endAcquire => .acquire (.mon ()) .endTest
  | .endTest => .act fun _ sh =>
    let sh' := sh.finish p
    if sh'.committing then (sh', .endPanic)
    else if sh'.outstanding = 0 then (sh'.setCommitting p, .endRelease true)
    else (sh', .endWakeup)
  | .endPanic => .panic "log.committing"
  | .endWakeup => .wakeup () (.endRelease false)
  | .endRelease doCommit => .release (.mon ()) (if doCommit then .commit else .idle)
  -- commit
  | .commit => .act fun _ sh => (sh.hand, if 0 < sh.lh.n then .writeLog 0 else .doneAcquire)
  | .writeLog tail => .act fun _ sh => (sh, if tail < sh.lh.n then .writeLog (tail + 1) else .writeHead)
  | .writeHead => .act fun _ sh => (sh, .installTrans 0)
  | .installTrans tail => .act fun _ sh =>
    (sh, if tail < sh.lh.n then .installTrans (tail + 1) else .clear)
  | .clear => .act fun _ sh => (sh.clear, .eraseHead)
  | .eraseHead => .act fun _ sh => (sh, .doneAcquire)
  | .doneAcquire => .acquire (.mon ()) .doneClear
  | .doneClear => .act fun _ sh => (sh.clearCommitting, .doneWakeup)
  | .doneWakeup => .wakeup () .doneRelease
  | .doneRelease => .release (.mon ()) .idle

/-- All processes idle, the log empty. -/
def initial : State n Unit Unit (Shared n) Pc := start .idle .init

/-- The local states at which `log.lock` is held. -/
def Pc.locked : Pc → Bool
  | .beginTest | .beginSleep | .beginRelease | .writeTest _ | .writeScan _ _ | .writePut _ _
  | .writeRelease | .tooBig | .outsideTrans | .endTest | .endPanic | .endWakeup | .endRelease _
  | .doneClear | .doneWakeup | .doneRelease => true
  | _ => false

def held (l : Pc) (m : Lock n Unit) : Prop := m = .mon () ∧ l.locked = true

theorem locked_act {size : ℕ} {p : Fin n} {l : Pc} {f : Req → Shared n → Shared n × Pc}
    (h : prog size p l = .act f) (r : Req) (sh : Shared n) : (f r sh).2.locked = l.locked := by
  cases l <;> cases h
  case idle | inOp => cases r <;> rfl
  case beginTest | writeTest | writeScan | endTest | commit | writeLog | installTrans =>
    dsimp only
    split_ifs <;> rfl
  all_goals rfl

theorem disciplined (size : ℕ) : Disciplined (prog (n := n) size) held :=
  .of_toggles fun p l => by
    cases hi : prog size p l with
    | act f => exact locked_act hi
    | release ℓ l' =>
      cases l <;> cases hi
      case release.endRelease.refl dc => cases dc <;> exact ⟨rfl, rfl, rfl⟩
      all_goals exact ⟨rfl, rfl, rfl⟩
    | _ => cases l <;> cases hi <;> simp [Instr.Toggles, Pc.locked]

end Xv6.Log
