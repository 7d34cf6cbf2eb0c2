import Xv6.Thread.Wakeup

/-!
# `kernel/console.c`

`consoleread` and the input interrupt `consoleintr`, as a program of the thread machine.
An interrupt runs on top of some process that holds no lock; here that process is idle. The
characters that `consoleintr` echoes are not part of the state.
-/

namespace Xv6

/-- `INPUT_BUF_SIZE`. -/
def inputBufSize : ℕ := 128

/-- `struct cons`: input ring with read, write and edit index. -/
structure Console where
  buf : ℕ → UInt8
  r : BitVec 32
  w : BitVec 32
  e : BitVec 32

namespace Console

open Thread

def init : Console := ⟨fun _ => 0, 0, 0, 0⟩

/-- The character at index `i` of the ring. -/
def char (c : Console) (i : BitVec 32) : UInt8 := c.buf (i.toNat % inputBufSize)

/-- `C('U')`: erase back to the last committed character or newline; `fuel` is the
distance from `w` to `e`. -/
def killLine : ℕ → Console → Console
  | 0, c => c
  | fuel + 1, c =>
    if c.e ≠ c.w ∧ c.char (c.e - 1) ≠ 10 then killLine fuel { c with e := c.e - 1 } else c

/-- The body of `consoleintr`, and whether it calls `wakeup(&cons.r)`. -/
def intr (c : Console) (x : UInt8) : Console × Bool :=
  if x = 0x10 then (c, false)                                   -- C('P')
  else if x = 0x15 then (c.killLine (c.e - c.w).toNat, false)    -- C('U')
  else if x = 0x08 ∨ x = 0x7f then                              -- C('H') and delete
    (if c.e ≠ c.w then { c with e := c.e - 1 } else c, false)
  else if x ≠ 0 ∧ (c.e - c.r).toNat < inputBufSize then
    let y := if x = 13 then 10 else x
    let c' := { c with buf := Function.update c.buf (c.e.toNat % inputBufSize) y, e := c.e + 1 }
    if y = 10 ∨ y = 4 ∨ (c'.e - c'.r).toNat = inputBufSize then ({ c' with w := c'.e }, true)
    else (c', false)
  else (c, false)

/-- What a process is asked to do, and the outcome of a user copy. -/
inductive Req
  | read (n : ℤ)
  | intr (x : UInt8)
  | kill (pid : ℕ)
  | copied
  | fault

/-- The local states of a process; `target` is the count that `consoleread` was called with. -/
inductive Pc
  | idle | killing (pid : ℕ) | ret (v : ℤ)
  | readAcquire (n : ℤ) | readLoop (n target : ℤ) | readWait (n target : ℤ)
  | readKilled (n target : ℤ) | readSleep (n target : ℤ) | readTake (n target : ℤ) | readRelease (v : ℤ)
  | intrAcquire (x : UInt8) | intrAct (x : UInt8) | intrWakeup | intrRelease
  deriving DecidableEq

/-- The program of every process. -/
def prog {m : ℕ} (_ : Fin m) : Pc → Instr m Unit Unit Console Req Pc
  | .idle => .act fun q c =>
    match q with
    | .read n => (c, .readAcquire n)
    | .intr x => (c, .intrAcquire x)
    | .kill pid => (c, .killing pid)
    | _ => (c, .idle)
  | .killing pid => .kill pid fun found => .ret (if found then 0 else -1)
  | .ret _ => .act fun _ c => (c, .idle)
  -- consoleread
  | .readAcquire n => .acquire (.mon ()) (.readLoop n n)
  | .readLoop n target => .act fun _ c =>
    (c, if 0 < n then .readWait n target else .readRelease (target - n))
  | .readWait n target => .act fun _ c =>
    (c, if c.r = c.w then .readKilled n target else .readTake n target)
  | .readKilled n target => .killed fun b => if b then .readRelease (-1) else .readSleep n target
  | .readSleep n target => .sleep () () (.readWait n target)
  | .readTake n target => .act fun q c =>
    let x := c.char c.r
    if x = 4 then
      -- end of file: keep it for the next call if this one has read something
      (if n < target then c else { c with r := c.r + 1 }, .readRelease (target - n))
    else
      match q with
      | .fault => ({ c with r := c.r + 1 }, .readRelease (target - n))
      | _ =>
        ({ c with r := c.r + 1 },
          if x = 10 then .readRelease (target - (n - 1)) else .readLoop (n - 1) target)
  | .readRelease v => .release (.mon ()) (.ret v)
  -- consoleintr
  | .intrAcquire x => .acquire (.mon ()) (.intrAct x)
  | .intrAct x => .act fun _ c => ((c.intr x).1, if (c.intr x).2 then .intrWakeup else .intrRelease)
  | .intrWakeup => .wakeup () .intrRelease
  | .intrRelease => .release (.mon ()) .idle

variable {m : ℕ}

/-- All processes idle, no input. -/
def initial : State m Unit Unit Console Pc := start .idle .init

/-- The local states at which `cons.lock` is held. -/
def Pc.locked : Pc → Bool
  | .idle | .killing _ | .ret _ | .readAcquire _ | .intrAcquire _ => false
  | _ => true

def held (l : Pc) (k : Lock m Unit) : Prop := k = .mon () ∧ l.locked = true

theorem locked_act {p : Fin m} {l : Pc} {f : Req → Console → Console × Pc} (h : prog p l = .act f)
    (q : Req) (c : Console) : (f q c).2.locked = l.locked := by
  cases l <;> cases h
  case idle => cases q <;> rfl
  case readLoop | readWait | intrAct =>
    dsimp only
    split_ifs <;> rfl
  case readTake =>
    dsimp only
    split_ifs
    · rfl
    · rfl
    · cases q <;> rfl
    · cases q <;> rfl
  all_goals rfl

theorem disciplined : Disciplined (prog (m := m)) held :=
  .of_toggles fun p l => by
    cases hi : prog p l with
    | act f => exact locked_act hi
    | _ => cases l <;> cases hi <;> simp [Instr.Toggles, Pc.locked]

end Console

end Xv6
