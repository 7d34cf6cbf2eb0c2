import Xv6.Vm.Table

/-!
# User memory

Growing and shrinking the memory of a process in `kernel/vm.c`, and copying between kernel and user
memory. The loops of the source that run until an address reaches a bound carry a `fuel` that is
never used up below `MAXVA`.

* A pointer that may be null is an `Option`; a physical address returned by `walkaddr` is `0` for
  none, as in the source.
* Where the source copies from or to kernel memory, the bytes are a function or a list.
-/

namespace Xv6.Vm

open Lib

/-- The 64-bit value of an `int` that was assigned the value `n`. -/
def intOf (n : ℕ) : ℕ :=
  if n % 2 ^ 32 < 2 ^ 31 then n % 2 ^ 32 else n % 2 ^ 32 + (2 ^ 64 - 2 ^ 32)

/-- `memmove` of `n` bytes to `pa`, which do not cross the end of the page. -/
def memmove (pa : ℕ) (src : ℕ → UInt8) (n : ℕ) : VM Unit :=
  modify fun m => m.setPage (pa / pgsize) ((m.page (pa / pgsize)).write (pa % pgsize) n src)

/-- `uvmdealloc`: bring the size from `oldsz` down to `newsz`. -/
def uvmdealloc (pagetable oldsz newsz : ℕ) : VM ℕ :=
  if oldsz ≤ newsz then return oldsz
  else if pgroundup newsz < pgroundup oldsz then do
    uvmunmap pagetable (pgroundup newsz)
      (intOf ((pgroundup oldsz - pgroundup newsz) / pgsize)) true
    return newsz
  else return newsz

/-- The loop of `uvmalloc`, `oldsz` being rounded up. -/
def uvmallocLoop (pagetable oldsz newsz xperm : ℕ) : ℕ → ℕ → VM ℕ
  | 0, _ => throw .wild
  | fuel + 1, a =>
    if a < newsz then do
      match ← kalloc with
      | none => do
        let _ ← uvmdealloc pagetable a oldsz
        return 0
      | some mem => do
        memset mem 0
        if (← mappages pagetable a pgsize mem (pteR ||| pteU ||| xperm)) = true then
          uvmallocLoop pagetable oldsz newsz xperm fuel ((a + pgsize) % 2 ^ 64)
        else do
          kfree mem
          let _ ← uvmdealloc pagetable a oldsz
          return 0
    else return newsz

/-- `uvmalloc`: grow from `oldsz` to `newsz`; the new size, or `0` on error. -/
def uvmalloc (pagetable oldsz newsz xperm : ℕ) : VM ℕ :=
  if newsz < oldsz then return oldsz
  else uvmallocLoop pagetable (pgroundup oldsz) newsz xperm (maxva / pgsize + 1) (pgroundup oldsz)

/-- `walkaddr`: the physical address of a user page, `0` if it is not mapped. -/
def walkaddr (pagetable va : ℕ) : VM ℕ :=
  if maxva ≤ va then return 0
  else do
    match ← walk pagetable va false with
    | none => return 0
    | some pte => do
      let e ← load pte
      if e &&& pteV = 0 then return 0
      else if e &&& pteU = 0 then return 0
      else return pte2pa e

/-- The loop of `copyout`, `off` bytes done and `len` to go. Every round copies a byte. -/
def copyoutLoop (pagetable : ℕ) (src : ℕ → UInt8) : (fuel dstva off len : ℕ) → VM Bool
  | 0, _, _, _ => return true
  | fuel + 1, dstva, off, len =>
    if len = 0 then return true
    else do
      let pa0 ← walkaddr pagetable (pgrounddown dstva)
      if pa0 = 0 then return false
      else do
        let n := min (pgsize - (dstva - pgrounddown dstva)) len
        memmove (pa0 + (dstva - pgrounddown dstva)) (fun k => src (off + k)) n
        copyoutLoop pagetable src fuel ((pgrounddown dstva + pgsize) % 2 ^ 64) (off + n) (len - n)

/-- `copyout`: copy `len` bytes from kernel to user memory. True is `0` of the source. -/
def copyout (pagetable dstva : ℕ) (src : ℕ → UInt8) (len : ℕ) : VM Bool :=
  copyoutLoop pagetable src len dstva 0 len

/-- The `n` bytes at `pa`. -/
def bytesAt (m : Mem) (pa n : ℕ) : List UInt8 :=
  (List.range n).map fun k => (m.page (pa / pgsize)).get (pa % pgsize + k)

/-- The loop of `copyin`: whether it returns 0, and the bytes that it has written to `dst`. -/
def copyinLoop (pagetable : ℕ) : (fuel srcva len : ℕ) → VM (Bool × List UInt8)
  | 0, _, _ => return (true, [])
  | fuel + 1, srcva, len =>
    if len = 0 then return (true, [])
    else do
      let pa0 ← walkaddr pagetable (pgrounddown srcva)
      if pa0 = 0 then return (false, [])
      else do
        let n := min (pgsize - (srcva - pgrounddown srcva)) len
        let m ← get
        let (ok, rest) ← copyinLoop pagetable fuel ((pgrounddown srcva + pgsize) % 2 ^ 64) (len - n)
        return (ok, bytesAt m (pa0 + (srcva - pgrounddown srcva)) n ++ rest)

/-- `copyin`: copy `len` bytes from user to kernel memory. -/
def copyin (pagetable srcva len : ℕ) : VM (Bool × List UInt8) := copyinLoop pagetable len srcva len

/-- The inner loop of `copyinstr`: whether it meets a zero, and the bytes that it writes. -/
def strPart : List UInt8 → Bool × List UInt8
  | [] => (false, [])
  | b :: p => if b = 0 then (true, [0]) else ((strPart p).1, b :: (strPart p).2)

/-- The loop of `copyinstr`. -/
def copyinstrLoop (pagetable : ℕ) : (fuel srcva max : ℕ) → VM (Bool × List UInt8)
  | 0, _, _ => return (false, [])
  | fuel + 1, srcva, max =>
    if max = 0 then return (false, [])
    else do
      let pa0 ← walkaddr pagetable (pgrounddown srcva)
      if pa0 = 0 then return (false, [])
      else do
        let n := min (pgsize - (srcva - pgrounddown srcva)) max
        let m ← get
        let p := strPart (bytesAt m (pa0 + (srcva - pgrounddown srcva)) n)
        if p.1 then return p
        else do
          let (ok, rest) ←
            copyinstrLoop pagetable fuel ((pgrounddown srcva + pgsize) % 2 ^ 64) (max - n)
          return (ok, p.2 ++ rest)

/-- `copyinstr`: copy a string of at most `max` bytes, its zero included. -/
def copyinstr (pagetable srcva max : ℕ) : VM (Bool × List UInt8) :=
  copyinstrLoop pagetable max srcva max

/-- `strlen` of a buffer that begins with these bytes; `none` if it scans past them. -/
def strlen : List UInt8 → Option ℕ
  | [] => none
  | b :: buf => if b = 0 then some 0 else (strlen buf).map (· + 1)

/-- `fetchstr`, for a process with this page table; `max` is an `int`. -/
def fetchstr (pagetable addr max : ℕ) : VM ℤ := do
  let (ok, buf) ← copyinstr pagetable addr (intOf max)
  if ok then
    match strlen buf with
    | none => throw .wild
    | some n => return n
  else return -1

/-- `argraw`; `a` are the argument registers in the trapframe. -/
def argraw (a : ℕ → ℕ) (n : ℕ) : VM ℕ := if n ≤ 5 then return a n else throw (.panic "argraw")

/-- `argstr`. -/
def argstr (pagetable : ℕ) (a : ℕ → ℕ) (n max : ℕ) : VM ℤ := do
  let addr ← argraw a n
  fetchstr pagetable addr max

end Xv6.Vm
