import Xv6.Thread.Wakeup

/-!
# `kernel/pipe.c`

`pipewrite`, `piperead` and `pipeclose` on one pipe, as a program of the thread machine.
The fields of `struct pipe` are only used with `pi->lock` held, so a loop iteration is cut
where it calls `killed`, `wakeup` or `sleep`. `copyin` and `copyout` fail or succeed as the
environment says (`Req.copied`, `Req.fault`).

A local state of `pipewrite` also records whether a byte was deposited since the last
`wakeup(&pi->nread)` (`dirty`). The source has no such variable and no step reads it.
-/

namespace Xv6

/-- `PIPESIZE`. -/
def pipesize : ℕ := 512

/-- `struct pipe`, and how often its page was given to `kfree`. -/
structure Pipe where
  data : ℕ → UInt8
  nread : BitVec 32
  nwrite : BitVec 32
  readopen : Bool
  writeopen : Bool
  freed : ℕ

namespace Pipe

open Thread

/-- The two addresses that processes sleep on. -/
inductive Chan
  | nread | nwrite
  deriving DecidableEq

/-- What `pipealloc` makes. -/
def new : Pipe := ⟨fun _ => 0, 0, 0, true, true, 0⟩

/-- `pi->nwrite == pi->nread + PIPESIZE`. -/
def Full (pi : Pipe) : Prop := pi.nwrite = pi.nread + BitVec.ofNat 32 pipesize

instance (pi : Pipe) : Decidable pi.Full := inferInstanceAs (Decidable (_ = _))

/-- `pi->data[pi->nwrite++ % PIPESIZE] = ch`. -/
def put (pi : Pipe) (ch : UInt8) : Pipe :=
  { pi with data := Function.update pi.data (pi.nwrite.toNat % pipesize) ch, nwrite := pi.nwrite + 1 }

/-- `ch = pi->data[pi->nread++ % PIPESIZE]`. -/
def get (pi : Pipe) : UInt8 × Pipe :=
  (pi.data (pi.nread.toNat % pipesize), { pi with nread := pi.nread + 1 })

/-- What a process is asked to do, and the outcome of a user copy. -/
inductive Req
  | read (n : ℤ)
  | write (n : ℤ)
  | close (writable : Bool)
  | kill (pid : ℕ)
  | copied (ch : UInt8)
  | fault

/-- The local states of a process. -/
inductive Pc
  | idle | killing (pid : ℕ) | ret (v : ℤ)
  | writeAcquire (n : ℤ) | writeLoop (i : ℕ) (n : ℤ) (dirty : Bool)
  | writeKilled (i : ℕ) (n : ℤ) (dirty : Bool) | writeTest (i : ℕ) (n : ℤ) (dirty : Bool)
  | writeFull (i : ℕ) (n : ℤ) (dirty : Bool) | writeSleep (i : ℕ) (n : ℤ)
  | writeCopy (i : ℕ) (n : ℤ) (dirty : Bool) | writeWakeup (i : ℕ) (dirty : Bool)
  | writeRelease (v : ℤ)
  | readAcquire (n : ℤ) | readLoop (n : ℤ) | readKilled (n : ℤ) | readSleep (n : ℤ)
  | readCopy (i : ℕ) (n : ℤ) | readWakeup (i : ℕ) | readRelease (v : ℤ)
  | closeAcquire (writable : Bool) | closeSet (writable : Bool) | closeWakeup (writable : Bool)
  | closeTest | closeRelease | closeLast | closeFree
  deriving DecidableEq

/-- The program of every process. -/
def prog {n : ℕ} (_ : Fin n) : Pc → Instr n Unit Chan Pipe Req Pc
  | .idle => .act fun r pi =>
    match r with
    | .read n => (pi, .readAcquire n)
    | .write n => (pi, .writeAcquire n)
    | .close w => (pi, .closeAcquire w)
    | .kill pid => (pi, .killing pid)
    | _ => (pi, .idle)
  | .killing pid => .kill pid fun found => .ret (if found then 0 else -1)
  | .ret _ => .act fun _ pi => (pi, .idle)
  -- pipewrite
  | .writeAcquire n => .acquire (.mon ()) (.writeLoop 0 n false)
  | .writeLoop i n dirty => .act fun _ pi =>
    if i < n then
      if pi.readopen = false then (pi, .writeRelease (-1)) else (pi, .writeKilled i n dirty)
    else (pi, .writeWakeup i dirty)
  | .writeKilled i n dirty => .killed fun b =>
    if b then .writeRelease (-1) else .writeTest i n dirty
  | .writeTest i n dirty => .act fun _ pi =>
    if pi.Full then (pi, .writeFull i n dirty) else (pi, .writeCopy i n dirty)
  | .writeFull i n _ => .wakeup .nread (.writeSleep i n)
  | .writeSleep i n => .sleep .nwrite () (.writeLoop i n false)
  | .writeCopy i n dirty => .act fun r pi =>
    match r with
    | .copied ch => (pi.put ch, .writeLoop (i + 1) n true)
    | _ => (pi, .writeWakeup i dirty)
  | .writeWakeup i _ => .wakeup .nread (.writeRelease i)
  | .writeRelease v => .release (.mon ()) (.ret v)
  -- piperead
  | .readAcquire n => .acquire (.mon ()) (.readLoop n)
  | .readLoop n => .act fun _ pi =>
    if pi.nread = pi.nwrite ∧ pi.writeopen = true then (pi, .readKilled n) else (pi, .readCopy 0 n)
  | .readKilled n => .killed fun b => if b then .readRelease (-1) else .readSleep n
  | .readSleep n => .sleep .nread () (.readLoop n)
  | .readCopy i n => .act fun r pi =>
    if i < n then
      if pi.nread = pi.nwrite then (pi, .readWakeup i)
      else
        -- the byte is gone from the pipe also when `copyout` fails
        match r with
        | .fault => (pi.get.2, .readWakeup i)
        | _ => (pi.get.2, .readCopy (i + 1) n)
    else (pi, .readWakeup i)
  | .readWakeup i => .wakeup .nwrite (.readRelease i)
  | .readRelease v => .release (.mon ()) (.ret v)
  -- pipeclose
  | .closeAcquire w => .acquire (.mon ()) (.closeSet w)
  | .closeSet w => .act fun _ pi =>
    (if w then { pi with writeopen := false } else { pi with readopen := false }, .closeWakeup w)
  | .closeWakeup w => .wakeup (if w then .nread else .nwrite) .closeTest
  | .closeTest => .act fun _ pi =>
    (pi, if pi.readopen = false ∧ pi.writeopen = false then .closeLast else .closeRelease)
  | .closeRelease => .release (.mon ()) .idle
  | .closeLast => .release (.mon ()) .closeFree
  | .closeFree => .act fun _ pi => ({ pi with freed := pi.freed + 1 }, .idle)

variable {n : ℕ}

/-- All processes idle, the pipe new. -/
def initial : State n Unit Chan Pipe Pc := start .idle .new

/-- The local states at which `pi->lock` is held. -/
def Pc.locked : Pc → Bool
  | .idle | .killing _ | .ret _ | .writeAcquire _ | .readAcquire _ | .closeAcquire _ | .closeFree => false
  | _ => true

def held (l : Pc) (m : Lock n Unit) : Prop := m = .mon () ∧ l.locked = true

section Act

variable {p : Fin n} {l : Pc} {f : Req → Pipe → Pipe × Pc}

theorem locked_act (h : prog p l = .act f) (r : Req) (pi : Pipe) : (f r pi).2.locked = l.locked := by
  cases l <;> cases h
  case idle | writeCopy => cases r <;> rfl
  case writeLoop | writeTest | readLoop | closeTest =>
    dsimp only
    split_ifs <;> rfl
  case readCopy =>
    dsimp only
    split_ifs
    · rfl
    · cases r <;> rfl
    · rfl
  all_goals rfl

end Act

theorem disciplined : Disciplined (prog (n := n)) held :=
  .of_toggles fun p l => by
    cases hi : prog p l with
    | act f => exact locked_act hi
    | _ => cases l <;> cases hi <;> simp [Instr.Toggles, Pc.locked]

end Pipe

end Xv6
