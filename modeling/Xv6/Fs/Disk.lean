import Xv6.Param
import Xv6.Lib.Outcome

/-!
# Blocks and inodes of the file system

The lower half of `kernel/fs.c`: the free map, inodes on disk, the table of in-memory
inodes, and the blocks an inode holds. The state has the contents of the blocks as the
buffer cache shows them, the free map and the inode area in decoded form, and the
in-memory inode table. Operations run one at a time, so the locks are not part of the
state.

* The inode table is a map from inode numbers (an entry is in use when its `ref` is
  positive, and at most one entry in use has a given number) together with the number of
  entries in use, which is what `iget` runs out of.
* `logged` records the block numbers handed to `log_write`, latest first.
* A `panic` of the source stops the computation. An inode number that lies outside the
  inode area would make the source take some other block for a block of inodes; the model
  stops there with `wild`.
-/

namespace Xv6.Fs

open Function

/-- `NDIRECT`. -/
def ndirect : ℕ := 12

/-- `NINDIRECT`: block numbers in an indirect block. -/
def nindirect : ℕ := bsize / 4

/-- `MAXFILE`: blocks of the largest file. -/
def maxfile : ℕ := ndirect + nindirect

/-- `ROOTINO`: the inode number of the root directory. -/
def rootino : ℕ := 1

/-- `IPB`: inodes per block. -/
def ipb : ℕ := 16

/-- `BPB`: bitmap bits per block. -/
def bpb : ℕ := bsize * 8

/-- `struct superblock`, the fields the kernel reads; `nblocks` tells where the data
blocks begin. -/
structure Superblock where
  size : ℕ
  nblocks : ℕ
  ninodes : ℕ
  inodestart : ℕ
  bmapstart : ℕ

namespace Superblock

variable (sb : Superblock)

/-- The first data block: `nmeta` of `mkfs`. -/
def datastart : ℕ := sb.size - sb.nblocks

/-- `IBLOCK(i, sb)`: the block containing inode `i`. -/
def iblock (i : ℕ) : ℕ := i / ipb + sb.inodestart

/-- `BBLOCK(b, sb)`: the block of the free map with the bit for block `b`. -/
def bblock (b : ℕ) : ℕ := b / bpb + sb.bmapstart

end Superblock

/-- The type of an inode; `free` is the zero of an unused one. -/
inductive FType
  | free
  | dir
  | file
  | device
  deriving DecidableEq

/-- `struct dinode`; also the part of `struct inode` that copies it. -/
@[ext] structure Dinode where
  type : FType
  major : BitVec 16
  minor : BitVec 16
  nlink : BitVec 16
  size : ℕ
  addrs : ℕ → ℕ

/-- What `memset(dip, 0, sizeof(*dip))` leaves. -/
def Dinode.zero : Dinode := ⟨.free, 0, 0, 0, 0, fun _ => 0⟩

/-- `struct inode`, an entry of the inode table. -/
structure Inode where
  ref : ℕ
  valid : Bool
  d : Dinode

/-- The file system: what is on the disk and the table of in-memory inodes. -/
structure State where
  sb : Superblock
  /-- The bits of the free map. -/
  used : ℕ → Bool
  /-- The inode area. -/
  dinode : ℕ → Dinode
  /-- The contents of the blocks. -/
  data : ℕ → Block
  /-- The blocks handed to `log_write`. -/
  logged : List ℕ
  /-- `itable`, by inode number. -/
  itable : ℕ → Inode
  /-- How many entries of `itable` are in use. -/
  inuse : ℕ

/-- Why a computation stops. -/
inductive Stop
  | panic (msg : String)
  | wild
  deriving DecidableEq

/-- A computation over the file system. -/
abbrev FsM := StateT State (Except Stop)

/-- `panic` of the source. -/
def panic {α : Type} (msg : String) : FsM α := throw (.panic msg)

/-- Change the in-memory inode `i`. -/
def State.setInode (s : State) (i : ℕ) (ip : Inode) : State :=
  { s with itable := update s.itable i ip }

/-- Change the copied fields of the in-memory inode `i`. -/
def State.setD (s : State) (i : ℕ) (d : Dinode) : State :=
  s.setInode i { s.itable i with d := d }

namespace State

variable (s : State) (i : ℕ) (ip : Inode) (d d' : Dinode)

@[simp] theorem setInode_self : (s.setInode i ip).itable i = ip := update_self _ _ _

theorem setInode_of_ne {j : ℕ} (h : j ≠ i) : (s.setInode i ip).itable j = s.itable j :=
  update_of_ne h _ _

@[simp] theorem setD_d : ((s.setD i d).itable i).d = d := by simp [setD]

@[simp] theorem setD_ref : ((s.setD i d).itable i).ref = (s.itable i).ref := by simp [setD]

@[simp] theorem setD_valid : ((s.setD i d).itable i).valid = (s.itable i).valid := by simp [setD]

theorem setD_of_ne {j : ℕ} (h : j ≠ i) : (s.setD i d).itable j = s.itable j :=
  update_of_ne h _ _

theorem setD_self : s.setD i (s.itable i).d = s := by simp [setD, setInode]

end State

/-- The record `log_write` makes of a block. -/
def logWrite (b : ℕ) : FsM Unit :=
  modify fun s => { s with logged := b :: s.logged }

/-! ## Blocks -/

/-- `bzero`. -/
def bzero (b : ℕ) : FsM Unit := do
  modify fun s => { s with data := update s.data b fun _ => 0 }
  logWrite b

/-- `balloc`: the first clear bit of the free map, blocks taken in order; 0 when there is
none. -/
def balloc : FsM ℕ := do
  let s ← get
  match (List.range s.sb.size).find? fun b => !s.used b with
  | some b => do
    modify fun s => { s with used := update s.used b true }
    logWrite (s.sb.bblock b)
    bzero b
    return b
  | none => return 0

/-- `bfree`. -/
def bfree (b : ℕ) : FsM Unit := do
  let s ← get
  if s.used b = false then panic "freeing free block"
  else do
    modify fun s => { s with used := update s.used b false }
    logWrite (s.sb.bblock b)

/-! ## Inodes -/

/-- `iupdate`: copy the in-memory inode to disk. -/
def iupdate (i : ℕ) : FsM Unit := do
  modify fun s => { s with dinode := update s.dinode i (s.itable i).d }
  logWrite ((← get).sb.iblock i)

/-- Assign fields of the in-memory inode `i`. -/
def setD (i : ℕ) (f : Dinode → Dinode) : FsM Unit :=
  modify fun s => s.setD i (f (s.itable i).d)

/-- Assign fields of the in-memory inode `i` and call `iupdate`. -/
def updateD (i : ℕ) (f : Dinode → Dinode) : FsM Unit := do
  setD i f
  iupdate i

/-- `iget`: take a reference, recycling a free entry if the inode is not in the table. -/
def iget (i : ℕ) : FsM Unit := do
  let s ← get
  if 0 < (s.itable i).ref then
    modify fun s => s.setInode i { s.itable i with ref := (s.itable i).ref + 1 }
  else if s.inuse ≥ ninode then panic "iget: no inodes"
  else
    modify fun s =>
      { s.setInode i { s.itable i with ref := 1, valid := false } with inuse := s.inuse + 1 }

/-- `idup`. -/
def idup (i : ℕ) : FsM Unit :=
  modify fun s => s.setInode i { s.itable i with ref := (s.itable i).ref + 1 }

/-- `ialloc`: the first free inode on disk, taken and referenced. -/
def ialloc (type : FType) : FsM (Option ℕ) := do
  let s ← get
  match (List.range s.sb.ninodes).find? fun i => decide (1 ≤ i ∧ (s.dinode i).type = .free) with
  | some i => do
    modify fun s =>
      { s with dinode := update s.dinode i { Dinode.zero with type := type } }
    logWrite (s.sb.iblock i)
    iget i
    return some i
  | none => return none

/-- `ilock`: read the inode from disk if necessary. -/
def ilock (i : ℕ) : FsM Unit := do
  let s ← get
  if (s.itable i).ref < 1 then panic "ilock"
  else if (s.itable i).valid then return ()
  else if i ≥ s.sb.ninodes then throw .wild
  else if (s.dinode i).type = .free then panic "ilock: no type"
  else modify fun s => s.setInode i { s.itable i with valid := true, d := s.dinode i }

/-- `iunlock`. -/
def iunlock (i : ℕ) : FsM Unit := do
  let s ← get
  if (s.itable i).ref < 1 then panic "iunlock" else return ()

/-! ## The blocks of an inode -/

/-- `bmap`: the block with the `bn`-th block of the file, allocated if there is none;
0 when the disk is full. -/
def bmap (i bn : ℕ) : FsM ℕ := do
  let s ← get
  if bn < ndirect then
    if (s.itable i).d.addrs bn = 0 then do
      let addr ← balloc
      if addr = 0 then return 0
      else do
        setD i fun d => { d with addrs := update d.addrs bn addr }
        return addr
    else return (s.itable i).d.addrs bn
  else if bn - ndirect < nindirect then do
    if (s.itable i).d.addrs ndirect = 0 then do
      let addr ← balloc
      if addr = 0 then return 0
      else do
        setD i fun d => { d with addrs := update d.addrs ndirect addr }
        entry addr (bn - ndirect)
    else entry ((s.itable i).d.addrs ndirect) (bn - ndirect)
  else panic "bmap: out of range"
where
  /-- The `k`-th number in the indirect block, allocated if it is zero. -/
  entry (ind k : ℕ) : FsM ℕ := do
    let s ← get
    if (s.data ind).word k = 0 then do
      let addr ← balloc
      if addr = 0 then return 0
      else do
        modify fun s => { s with data := update s.data ind ((s.data ind).setWord k addr) }
        logWrite ind
        return addr
    else return (s.data ind).word k

/-- The first loop of `itrunc`, over `addrs[0], …, addrs[NDIRECT - 1]`. -/
def freeDirect (i : ℕ) : List ℕ → FsM Unit
  | [] => return ()
  | k :: ks => do
    let s ← get
    if (s.itable i).d.addrs k ≠ 0 then do
      bfree ((s.itable i).d.addrs k)
      setD i fun d => { d with addrs := update d.addrs k 0 }
      freeDirect i ks
    else freeDirect i ks

/-- The second loop of `itrunc`, over the numbers of the indirect block `a`. -/
def freeIndirect (a : Block) : List ℕ → FsM Unit
  | [] => return ()
  | j :: js => do
    if a.word j ≠ 0 then do
      bfree (a.word j)
      freeIndirect a js
    else freeIndirect a js

/-- The part of `itrunc` that frees the indirect block and what it lists. -/
def freeTable (i : ℕ) : FsM Unit := do
  let s ← get
  let ind := (s.itable i).d.addrs ndirect
  if ind ≠ 0 then do
    freeIndirect (s.data ind) (List.range nindirect)
    bfree ind
    setD i fun d => { d with addrs := update d.addrs ndirect 0 }
  else return ()

/-- `itrunc`: discard the contents. -/
def itrunc (i : ℕ) : FsM Unit := do
  freeDirect i (List.range ndirect)
  freeTable i
  setD i fun d => { d with size := 0 }
  iupdate i

/-- The part of `iput` that frees an inode without links or other references. -/
def ifree (i : ℕ) : FsM Unit := do
  itrunc i
  setD i fun d => { d with type := .free }
  iupdate i
  modify fun s => s.setInode i { s.itable i with valid := false }

/-- `ip->ref--`. -/
def drop (i : ℕ) : FsM Unit :=
  modify fun s =>
    { s.setInode i { s.itable i with ref := (s.itable i).ref - 1 } with
      inuse := if (s.itable i).ref = 1 then s.inuse - 1 else s.inuse }

/-- `iput`: drop a reference; free the inode if that was the last one and no entry names
the inode. -/
def iput (i : ℕ) : FsM Unit := do
  let s ← get
  if (s.itable i).ref = 1 ∧ (s.itable i).valid ∧ (s.itable i).d.nlink = 0 then do
    ifree i
    drop i
  else drop i

/-- `iunlockput`. -/
def iunlockput (i : ℕ) : FsM Unit := do
  iunlock i
  iput i

/-! ## Contents -/

/-- Where `writei` copies from: the bytes that can be read, `none` from an address that is
not mapped. -/
abbrev Src := ℕ → Option UInt8

/-- How many of the `m` bytes from `tot` on are copied before the first fault. -/
def Src.readable (src : Src) (tot m : ℕ) : ℕ :=
  ((List.range m).takeWhile fun k => (src (tot + k)).isSome).length

/-- `either_copyin` into the buffer of block `b`: the bytes before a fault are copied. -/
def eitherCopyin (b o : ℕ) (src : Src) (tot m : ℕ) : FsM Bool := do
  let k := src.readable tot m
  let bytes : ℕ → UInt8 := fun j => (src (tot + j)).getD 0
  modify fun s => { s with data := update s.data b ((s.data b).write o k bytes) }
  return k = m

/-- The loop of `writei`, `tot` of the `n` bytes done; returns `off` and `tot`. -/
def writeLoop (i : ℕ) (src : Src) (n : ℕ) : (fuel off tot : ℕ) → FsM (ℕ × ℕ)
  | 0, off, tot => return (off, tot)
  | fuel + 1, off, tot =>
    if tot < n then do
      let addr ← bmap i (off / bsize)
      if addr = 0 then return (off, tot)
      else do
        let m := min (n - tot) (bsize - off % bsize)
        let ok ← eitherCopyin addr (off % bsize) src tot m
        if ok then do
          logWrite addr
          writeLoop i src n fuel (off + m) (tot + m)
        else return (off, tot)
    else return (off, tot)

/-- The end of `writei`: the new size, and the inode written back. -/
def writeBack (i off : ℕ) : FsM Unit :=
  updateD i fun d => { d with size := if off > d.size then off else d.size }

/-- `writei`: returns the number of bytes written, or -1. -/
def writei (i : ℕ) (src : Src) (off n : ℕ) : FsM ℤ := do
  let s ← get
  if off > (s.itable i).d.size ∨ (off + n) % 2 ^ 32 < off then return -1
  else if (off + n) % 2 ^ 32 > maxfile * bsize then return -1
  else do
    let (off', tot) ← writeLoop i src n n off 0
    writeBack i off'
    return (tot : ℤ)

/-- The loop of `readi`; `dst` says which bytes of the destination can be written. Returns
the number of bytes read, -1 at a fault, and the bytes. -/
def readLoop (i : ℕ) (dst : ℕ → Bool) (n : ℕ) :
    (fuel off tot : ℕ) → List UInt8 → FsM (ℤ × List UInt8)
  | 0, _, tot, acc => return ((tot : ℤ), acc)
  | fuel + 1, off, tot, acc =>
    if tot < n then do
      let addr ← bmap i (off / bsize)
      if addr = 0 then return ((tot : ℤ), acc)
      else do
        let s ← get
        let m := min (n - tot) (bsize - off % bsize)
        if (List.range m).all fun k => dst (tot + k) then
          readLoop i dst n fuel (off + m) (tot + m)
            (acc ++ (List.range m).map fun k => (s.data addr).get (off % bsize + k))
        else return (-1, acc)
    else return ((tot : ℤ), acc)

/-- `readi`. -/
def readi (i : ℕ) (dst : ℕ → Bool) (off n : ℕ) : FsM (ℤ × List UInt8) := do
  let s ← get
  if off > (s.itable i).d.size ∨ (off + n) % 2 ^ 32 < off then return (0, [])
  else
    let n := if (off + n) % 2 ^ 32 > (s.itable i).d.size then (s.itable i).d.size - off else n
    readLoop i dst n n off 0 []

end Xv6.Fs
