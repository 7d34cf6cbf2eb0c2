import Xv6.Fs.Image

/-!
# `mkfs`

`mkfs/mkfs.c` writes a file-system image sector by sector, with the inodes as the 64 bytes
that `struct dinode` takes. The state is the image file together with the two counters
`freeinode` and `freeblock`. A failed `assert` and a call of `die` stop the program; a sector
past the end of the image file cannot be read.

* `dinodeAt_putDinode`, `dinodeAt_putDinode_ne`: an inode written to a block of inodes can be
  read back, and the other inodes of the block stay.
* `winode_run`: the same of the whole image.
-/

namespace Xv6.Mkfs

open Function Fs Lib

/-! ## Inodes as bytes -/

/-- The value of `type` on disk. -/
def typeCode : FType → ℕ
  | .free => 0
  | .dir => 1
  | .file => 2
  | .device => 3

/-- The type a value of `type` stands for. -/
def codeType : ℕ → FType
  | 1 => .dir
  | 2 => .file
  | 3 => .device
  | _ => .free

/-- The 32-bit words of a `struct dinode`. -/
def dinodeWord (d : Dinode) : ℕ → ℕ
  | 0 => typeCode d.type + 2 ^ 16 * d.major.toNat
  | 1 => d.minor.toNat + 2 ^ 16 * d.nlink.toNat
  | 2 => d.size
  | k + 3 => d.addrs k

/-- `((struct dinode*)buf)[k]`. -/
def dinodeAt (buf : Block) (k : ℕ) : Dinode where
  type := codeType (buf.word (16 * k) % 2 ^ 16)
  major := BitVec.ofNat 16 (buf.word (16 * k) / 2 ^ 16)
  minor := BitVec.ofNat 16 (buf.word (16 * k + 1))
  nlink := BitVec.ofNat 16 (buf.word (16 * k + 1) / 2 ^ 16)
  size := buf.word (16 * k + 2)
  addrs := fun j => if j ≤ ndirect then buf.word (16 * k + 3 + j) else 0

/-- `((struct dinode*)buf)[k] = d`. -/
def putDinode (buf : Block) (k : ℕ) (d : Dinode) : Block :=
  buf.write (64 * k) 64 fun o => Bytes.ofWord (dinodeWord d (o / 4)) (o % 4)

/-- The fields of `d` fit in `struct dinode`. -/
structure Fits (d : Dinode) : Prop where
  size : d.size < 2 ^ 32
  addrs : ∀ k ≤ ndirect, d.addrs k < 2 ^ 32
  rest : ∀ k, ¬ k ≤ ndirect → d.addrs k = 0

theorem dinodeAt_fits (buf : Block) (k : ℕ) : Fits (dinodeAt buf k) where
  size := Bytes.word_lt _ _
  addrs j hj := by
    simp only [dinodeAt, if_pos hj]
    exact Bytes.word_lt _ _
  rest j hj := if_neg hj

theorem word_putDinode (buf : Block) {k j : ℕ} (hk : k < ipb) (hj : j < 16) (d : Dinode) :
    (putDinode buf k d).word (16 * k + j) = dinodeWord d j % 2 ^ 32 := by
  have h64 : ipb * 64 = bsize := by decide
  refine Bytes.word_eq_of_get fun t ht => ?_
  rw [putDinode, Bytes.get_write _ _ _ _ (by omega), if_pos (by omega)]
  congr 2
  · omega
  · omega

theorem word_putDinode_ne (buf : Block) {k k' j : ℕ} (hj : j < 16) (hne : k' ≠ k) (d : Dinode) :
    (putDinode buf k d).word (16 * k' + j) = buf.word (16 * k' + j) :=
  Bytes.word_write_of_disjoint _ _ _ _ (by omega)

theorem codeType_typeCode (t : FType) : codeType (typeCode t) = t := by cases t <;> rfl

theorem typeCode_lt (t : FType) : typeCode t < 2 ^ 16 := by cases t <;> decide

/-- **An inode can be read back.** -/
theorem dinodeAt_putDinode (buf : Block) {k : ℕ} (hk : k < ipb) {d : Dinode} (hd : Fits d) :
    dinodeAt (putDinode buf k d) k = d := by
  have hw : ∀ j < 16, _ := fun j hj => word_putDinode buf hk hj d
  have h0 := hw 0 (by decide)
  rw [Nat.add_zero] at h0
  have ht := typeCode_lt d.type
  have hmaj := d.major.isLt
  have hmin := d.minor.isLt
  have hnl := d.nlink.isLt
  apply Dinode.ext
  · simp only [dinodeAt, h0, dinodeWord]
    rw [show (typeCode d.type + 2 ^ 16 * d.major.toNat) % 2 ^ 32 % 2 ^ 16 = typeCode d.type by omega,
      codeType_typeCode]
  · simp only [dinodeAt, h0, dinodeWord]
    apply BitVec.eq_of_toNat_eq
    rw [BitVec.toNat_ofNat]
    omega
  · simp only [dinodeAt, hw 1 (by decide), dinodeWord]
    apply BitVec.eq_of_toNat_eq
    rw [BitVec.toNat_ofNat]
    omega
  · simp only [dinodeAt, hw 1 (by decide), dinodeWord]
    apply BitVec.eq_of_toNat_eq
    rw [BitVec.toNat_ofNat]
    omega
  · simp only [dinodeAt, hw 2 (by decide), dinodeWord]
    exact Nat.mod_eq_of_lt hd.size
  · funext j
    simp only [dinodeAt]
    split_ifs with hj
    · have h12 : ndirect = 12 := rfl
      rw [Nat.add_assoc, hw (3 + j) (by omega), Nat.add_comm 3 j]
      exact Nat.mod_eq_of_lt (hd.addrs j hj)
    · exact (hd.rest j hj).symm

/-- The other inodes of the block stay. -/
theorem dinodeAt_putDinode_ne (buf : Block) {k k' : ℕ} (hne : k' ≠ k) (d : Dinode) :
    dinodeAt (putDinode buf k d) k' = dinodeAt buf k' := by
  have hw : ∀ j < 16, _ := fun j hj => word_putDinode_ne buf hj hne d
  have h0 := hw 0 (by decide)
  rw [Nat.add_zero] at h0
  have h12 : ndirect = 12 := rfl
  apply Dinode.ext
  · simp only [dinodeAt, h0]
  · simp only [dinodeAt, h0]
  · simp only [dinodeAt, hw 1 (by decide)]
  · simp only [dinodeAt, hw 1 (by decide)]
  · simp only [dinodeAt, hw 2 (by decide)]
  · funext j
    simp only [dinodeAt]
    split_ifs with hj
    · rw [Nat.add_assoc, hw (3 + j) (by omega)]
    · rfl

/-! ## The program -/

/-- The image file `fsfd` and the counters of `mkfs`. -/
structure Image where
  /-- The sectors of the image. -/
  img : ℕ → Block
  /-- How many there are. -/
  sects : ℕ
  freeinode : ℕ
  freeblock : ℕ

/-- Why `mkfs` stops: a call of `die`, or a failed `assert`. -/
inductive Fail
  | die
  | assert
  deriving DecidableEq

/-- A computation of `mkfs`. -/
abbrev MkM := StateT Image (Except Fail)

/-- `zeroes`. -/
def zeroes : Block := fun _ => 0

/-- `wsect`. -/
def wsect (sec : ℕ) (buf : Block) : MkM Unit :=
  modify fun m =>
    { m with img := update m.img sec buf, sects := max m.sects (sec + 1) }

/-- `rsect`; the `read` past the end of the image is short. -/
def rsect (sec : ℕ) : MkM Block := do
  let m ← get
  if sec < m.sects then return m.img sec else throw .die

/-- `winode`. -/
def winode (inum : ℕ) (ip : Dinode) : MkM Unit := do
  let bn := mkfsSb.iblock inum
  let buf ← rsect bn
  wsect bn (putDinode buf (inum % ipb) ip)

/-- `rinode`. -/
def rinode (inum : ℕ) : MkM Dinode := do
  let buf ← rsect (mkfsSb.iblock inum)
  return dinodeAt buf (inum % ipb)

/-- `ialloc`. -/
def ialloc (type : FType) : MkM ℕ := do
  let inum := (← get).freeinode
  modify fun m => { m with freeinode := m.freeinode + 1 }
  winode inum { Dinode.zero with type := type, nlink := 1 }
  return inum

/-- `freeblock++`. -/
def nextBlock : MkM ℕ := do
  let b := (← get).freeblock
  modify fun m => { m with freeblock := m.freeblock + 1 }
  return b

/-- The first half of the loop body of `iappend`: the inode with a block for `fbn`, and the
number `x` of that block. -/
def blockFor (din : Dinode) (fbn : ℕ) : MkM (Dinode × ℕ) := do
  if fbn < ndirect then
    if din.addrs fbn = 0 then do
      let b ← nextBlock
      return ({ din with addrs := update din.addrs fbn b }, b)
    else return (din, din.addrs fbn)
  else
    if din.addrs ndirect = 0 then do
      let b ← nextBlock
      entry { din with addrs := update din.addrs ndirect b } (fbn - ndirect)
    else entry din (fbn - ndirect)
where
  /-- The `k`-th number in the indirect block. -/
  entry (din : Dinode) (k : ℕ) : MkM (Dinode × ℕ) := do
    let indirect ← rsect (din.addrs ndirect)
    if indirect.word k = 0 then do
      let b ← nextBlock
      wsect (din.addrs ndirect) (indirect.setWord k b)
      return (din, b)
    else return (din, indirect.word k)

/-- The loop of `iappend`: the inode and the offset at the end. -/
def iappendLoop : (fuel : ℕ) → Dinode → (off : ℕ) → (p : List UInt8) → MkM (Dinode × ℕ)
  | 0, din, off, _ => return (din, off)
  | fuel + 1, din, off, p =>
    if p.length > 0 then do
      let fbn := off / bsize
      if fbn < maxfile then do
        let (din, x) ← blockFor din fbn
        let n1 := min p.length ((fbn + 1) * bsize - off)
        let buf ← rsect x
        wsect x (buf.write (off - fbn * bsize) n1 fun j => p.getD j 0)
        iappendLoop fuel din (off + n1) (p.drop n1)
      else throw .assert
    else return (din, off)

/-- `iappend`. -/
def iappend (inum : ℕ) (p : List UInt8) : MkM Unit := do
  let din ← rinode inum
  let (din, off) ← iappendLoop p.length din din.size p
  winode inum { din with size := off }

/-- Set bit `i` of a block of the free map. -/
def setBit (buf : Block) (i : ℕ) : Block :=
  buf.write (i / 8) 1 fun _ => buf.get (i / 8) ||| ((1 : UInt8) <<< UInt8.ofNat (i % 8))

/-- `balloc`. -/
def balloc (used : ℕ) : MkM Unit :=
  if used < bsize * 8 then wsect mkfsSb.bmapstart ((List.range used).foldl setBit zeroes)
  else throw .assert

/-- `FSMAGIC`. -/
def fsmagic : ℕ := 0x10203040

/-- The sector with the super block. -/
def sbSect : Block :=
  [fsmagic, mkfsSb.size, mkfsSb.nblocks, mkfsSb.ninodes, nlog, 2, mkfsSb.inodestart,
    mkfsSb.bmapstart].zipIdx.foldl (fun buf w => buf.setWord w.2 w.1) zeroes

/-- The bytes of the `struct dirent` with the given number and name. -/
def direntBytes (inum : ℕ) (name : List UInt8) : List UInt8 :=
  (List.range direntSize).map fun k => (Dirent.encode ⟨inum, padded name⟩ k).getD 0

/-- The string `"user/"`. -/
def userDir : List UInt8 := [117, 115, 101, 114, 47]

/-- `shortname` before the underscore is skipped. -/
def shortname (arg : List UInt8) : List UInt8 :=
  if arg.take 5 = userDir then arg.drop 5 else arg

/-- `if(shortname[0] == '_') shortname += 1`. -/
def skipUnderscore (name : List UInt8) : List UInt8 :=
  if name.head? = some 95 then name.drop 1 else name

/-- A file named on the command line: its argument, and what `read` returns until the end of
the file. -/
structure InFile where
  arg : List UInt8
  reads : List (List UInt8)
  read_pos : ∀ c ∈ reads, 0 < c.length
  read_le : ∀ c ∈ reads, c.length ≤ bsize

/-- The contents of the file. -/
def InFile.content (f : InFile) : List UInt8 := f.reads.flatten

/-- The loop that copies a file. -/
def copyFile (inum : ℕ) : List (List UInt8) → MkM Unit
  | [] => return ()
  | buf :: rest =>
    if buf.length > 0 then do
      iappend inum buf
      copyFile inum rest
    else return ()

/-- The loop of `main` over the files. -/
def addFiles (root : ℕ) : List InFile → MkM Unit
  | [] => return ()
  | f :: fs => do
    let name := shortname f.arg
    if slash ∈ name then throw .assert
    else do
      let inum ← ialloc .file
      iappend root (direntBytes inum (skipUnderscore name))
      copyFile inum f.reads
      addFiles root fs

/-- `off = ((off/BSIZE) + 1) * BSIZE` for the size of the root directory. -/
def fixSize (root : ℕ) : MkM Unit := do
  let din ← rinode root
  winode root { din with size := (din.size / bsize + 1) * bsize }

/-- The loop that clears the image. -/
def clearSects : List ℕ → MkM Unit
  | [] => return ()
  | i :: is => do
    wsect i zeroes
    clearSects is

/-- `main`, for the files on the command line. -/
def main (files : List InFile) : MkM Unit := do
  clearSects (List.range mkfsSb.size)
  wsect 1 sbSect
  let root ← ialloc .dir
  if root = rootino then do
    iappend root (direntBytes root dot)
    iappend root (direntBytes root dotdot)
    addFiles root files
    fixSize root
    balloc (← get).freeblock
  else throw .assert

/-- The state when `main` starts: the image file is truncated. -/
def start : Image := ⟨fun _ => zeroes, 0, 1, mkfsSb.datastart⟩

/-! ## The inodes of an image -/

/-- The inode with the given number, as `rinode` reads it. -/
def Image.inode (m : Image) (i : ℕ) : Dinode := dinodeAt (m.img (mkfsSb.iblock i)) (i % ipb)

/-- Write a sector. -/
def Image.store (m : Image) (sec : ℕ) (buf : Block) : Image :=
  { m with img := update m.img sec buf }

/-- Write inode `i`. -/
def Image.put (m : Image) (i : ℕ) (d : Dinode) : Image :=
  m.store (mkfsSb.iblock i) (putDinode (m.img (mkfsSb.iblock i)) (i % ipb) d)

theorem Image.put_inode (m : Image) (i : ℕ) {d : Dinode} (hd : Fits d) :
    (m.put i d).inode = update m.inode i d := by
  have hlt : ∀ k, k % ipb < ipb := fun k => Nat.mod_lt k (by decide)
  funext j
  by_cases hji : j = i
  · subst hji
    simp only [inode, put, store, update_self]
    exact dinodeAt_putDinode _ (hlt j) hd
  · rw [update_of_ne hji]
    simp only [inode, put, store]
    by_cases hb : mkfsSb.iblock j = mkfsSb.iblock i
    · -- another inode of the same block
      rw [hb, update_self]
      refine dinodeAt_putDinode_ne _ (fun he => hji ?_) d
      have h1 := Nat.div_add_mod j ipb
      have h2 := Nat.div_add_mod i ipb
      simp only [Superblock.iblock, Nat.add_right_cancel_iff] at hb
      rw [hb, he] at h1
      omega
    · rw [update_of_ne hb]

/-- The inodes lie before the data blocks. -/
theorem iblock_lt {i : ℕ} (hi : i < mkfsSb.ninodes) : mkfsSb.iblock i < mkfsSb.datastart := by
  have h1 : mkfsSb.ninodes = 200 := rfl
  have h2 : mkfsSb.inodestart = 32 := rfl
  have h3 : mkfsSb.datastart = 46 := rfl
  have h4 : ipb = 16 := rfl
  rw [Superblock.iblock, h4]
  omega

theorem datastart_lt : mkfsSb.datastart < mkfsSb.size := by decide

variable {m : Image} {i : ℕ}

theorem rsect_run {sec : ℕ} (h : sec < m.sects) : rsect sec m = .ok (m.img sec, m) := by
  unfold rsect
  rw [Run.get_bind, if_pos h]
  rfl

theorem wsect_run {sec : ℕ} (h : sec < m.sects) (buf : Block) :
    wsect sec buf m = .ok ((), m.store sec buf) := by
  unfold wsect
  rw [Run.modify_run, Nat.max_eq_left h]
  rfl

theorem rinode_run (hs : m.sects = mkfsSb.size) (hi : i < mkfsSb.ninodes) :
    rinode i m = .ok (m.inode i, m) := by
  have := iblock_lt hi
  have := datastart_lt
  unfold rinode
  rw [Run.bind_of_ok (rsect_run (by omega))]
  rfl

theorem winode_run (hs : m.sects = mkfsSb.size) (hi : i < mkfsSb.ninodes) (d : Dinode) :
    winode i d m = .ok ((), m.put i d) := by
  have := iblock_lt hi
  have := datastart_lt
  unfold winode
  rw [Run.bind_of_ok (rsect_run (by omega)), wsect_run (by omega)]
  rfl

end Xv6.Mkfs
