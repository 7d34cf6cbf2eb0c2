import Xv6.Fs.Disk

/-!
# Directories and paths

The upper half of `kernel/fs.c`: directory entries, path lookup, and the calls of
`kernel/sysfile.c` that change the tree of names (`create`, `sys_link`, `sys_unlink`). A
name is the list of its characters before the terminating zero; a path is such a list
too. The calls take the current directory of the process as an argument.
-/

namespace Xv6.Fs

/-- `DIRSIZ`. -/
def dirsiz : ℕ := 14

/-- `sizeof(struct dirent)`. -/
def direntSize : ℕ := 16

/-- `MAXPATH`. -/
def maxpath : ℕ := 128

/-- `struct dirent`. -/
structure Dirent where
  inum : ℕ
  name : ℕ → UInt8

/-- A directory entry read from its 16 bytes. -/
def Dirent.decode (bytes : List UInt8) : Dirent :=
  ⟨(bytes.getD 0 0).toNat + 256 * (bytes.getD 1 0).toNat, fun k => bytes.getD (k + 2) 0⟩

/-- The 16 bytes of a directory entry; `inum` is an `ushort`. -/
def Dirent.encode (de : Dirent) : Src := fun k =>
  if k = 0 then some (UInt8.ofNat de.inum)
  else if k = 1 then some (UInt8.ofNat (de.inum / 256))
  else some (de.name (k - 2))

/-- A name as `strncpy` lays it out: padded with zeros. -/
def padded (name : List UInt8) : ℕ → UInt8 := fun k => name.getD k 0

/-- `strncmp(s, t, n) == 0`, from position `k` on. -/
def strncmpEq (s t : ℕ → UInt8) : (n k : ℕ) → Bool
  | 0, _ => true
  | n + 1, k => if s k ≠ t k then false else if s k = 0 then true else strncmpEq s t n (k + 1)

/-- `namecmp(s, t) == 0`. -/
def namecmp (s t : ℕ → UInt8) : Bool := strncmpEq s t dirsiz 0

/-- The name `"."`. -/
def dot : List UInt8 := [46]

/-- The name `".."`. -/
def dotdot : List UInt8 := [46, 46]

/-- A kernel destination: every byte can be written. -/
def kernelDst : ℕ → Bool := fun _ => true

/-- The loop of `dirlookup`, from offset `off` on. -/
def dirlookupFrom (dp : ℕ) (name : List UInt8) : (fuel off : ℕ) → FsM (Option (ℕ × ℕ))
  | 0, _ => return none
  | fuel + 1, off => do
    let s ← get
    if off < (s.itable dp).d.size then do
      let (r, bytes) ← readi dp kernelDst off direntSize
      let de := Dirent.decode bytes
      if r ≠ direntSize then panic "dirlookup read"
      else if de.inum = 0 then dirlookupFrom dp name fuel (off + direntSize)
      else if namecmp (padded name) de.name then do
        iget de.inum
        return some (de.inum, off)
      else dirlookupFrom dp name fuel (off + direntSize)
    else return none

/-- `dirlookup`: the inode the entry names, referenced, and the offset of the entry. -/
def dirlookup (dp : ℕ) (name : List UInt8) : FsM (Option (ℕ × ℕ)) := do
  let s ← get
  if (s.itable dp).d.type ≠ .dir then panic "dirlookup not DIR"
  else dirlookupFrom dp name ((s.itable dp).d.size / direntSize + 1) 0

/-- The loop of `dirlink` that looks for an empty entry: its offset, or the end. -/
def emptyFrom (dp : ℕ) : (fuel off : ℕ) → FsM ℕ
  | 0, off => return off
  | fuel + 1, off => do
    let s ← get
    if off < (s.itable dp).d.size then do
      let (r, bytes) ← readi dp kernelDst off direntSize
      if r ≠ direntSize then panic "dirlink read"
      else if (Dirent.decode bytes).inum = 0 then return off
      else emptyFrom dp fuel (off + direntSize)
    else return off

/-- `dirlink`: write a new entry `(name, inum)`; 0 or -1. -/
def dirlink (dp : ℕ) (name : List UInt8) (inum : ℕ) : FsM ℤ := do
  match ← dirlookup dp name with
  | some (ip, _) => do
    iput ip
    return -1
  | none => do
    let s ← get
    let off ← emptyFrom dp ((s.itable dp).d.size / direntSize + 1) 0
    let r ← writei dp (Dirent.encode ⟨inum, padded name⟩) off direntSize
    if r ≠ direntSize then return -1 else return 0

/-! ## Paths -/

/-- `'/'`. -/
def slash : UInt8 := 47

/-- `skipelem`: the next path element and the rest of the path without leading slashes. -/
def skipelem (path : List UInt8) : Option (List UInt8 × List UInt8) :=
  let s := path.dropWhile (· = slash)
  if s = [] then none
  else
    let len := (s.takeWhile (· ≠ slash)).length
    some ((s.take len).take dirsiz, (s.drop len).dropWhile (· = slash))

/-- The loop of `namex`. -/
def namexFrom (nameiparent : Bool) :
    (fuel ip : ℕ) → (path name : List UInt8) → FsM (Option (ℕ × List UInt8))
  | 0, _, _, _ => return none
  | fuel + 1, ip, path, name =>
    match skipelem path with
    | none =>
      if nameiparent then do
        iput ip
        return none
      else return some (ip, name)
    | some (name, path) => do
      ilock ip
      let s ← get
      if (s.itable ip).d.type ≠ .dir then do
        iunlockput ip
        return none
      else if nameiparent ∧ path = [] then do
        -- stop one level early
        iunlock ip
        return some (ip, name)
      else do
        match ← dirlookup ip name with
        | none => do
          iunlockput ip
          return none
        | some (next, _) => do
          iunlockput ip
          namexFrom nameiparent fuel next path name

/-- `namex`, for a process with current directory `cwd`. Every round takes at least one
character off the path. -/
def namex (cwd : ℕ) (path : List UInt8) (nameiparent : Bool) : FsM (Option (ℕ × List UInt8)) := do
  if path.head? = some slash then do
    iget rootino
    namexFrom nameiparent (path.length + 1) rootino path []
  else do
    idup cwd
    namexFrom nameiparent (path.length + 1) cwd path []

/-- `namei`. -/
def namei (cwd : ℕ) (path : List UInt8) : FsM (Option ℕ) := do
  let r ← namex cwd path false
  return r.map (·.1)

/-- `nameiparent`: the directory that should hold the last element, and that element. -/
def nameiparent (cwd : ℕ) (path : List UInt8) : FsM (Option (ℕ × List UInt8)) :=
  namex cwd path true

/-! ## Calls that change the tree -/

/-- `argstr`: the characters before the first zero, if there are fewer than `MAXPATH`. -/
def argstr (path : List UInt8) : Option (List UInt8) :=
  let s := path.takeWhile (· ≠ 0)
  if s.length < maxpath then some s else none

/-- `ip->nlink = ip->nlink + k; iupdate(ip)`. -/
def addLink (i : ℕ) (k : BitVec 16) : FsM Unit :=
  updateD i fun d => { d with nlink := d.nlink + k }

/-- The label `bad` of `sys_link`. -/
def linkBad (ip : ℕ) : FsM ℤ := do
  ilock ip
  addLink ip (-1)
  iunlockput ip
  return -1

/-- `sys_link`, with the arguments already fetched. -/
def link (cwd : ℕ) (old new : List UInt8) : FsM ℤ := do
  match ← namei cwd old with
  | none => return -1
  | some ip => do
    ilock ip
    let s ← get
    if (s.itable ip).d.type = .dir then do
      iunlockput ip
      return -1
    else do
      addLink ip 1
      iunlock ip
      match ← nameiparent cwd new with
      | none => linkBad ip
      | some (dp, name) => do
        ilock dp
        let r ← dirlink dp name ip
        if r < 0 then do
          iunlockput dp
          linkBad ip
        else do
          iunlockput dp
          iput ip
          return 0

/-- `sys_link`. -/
def sysLink (cwd : ℕ) (old new : List UInt8) : FsM ℤ :=
  match argstr old, argstr new with
  | some old, some new => link cwd old new
  | _, _ => return -1

/-- The loop of `isdirempty`, from offset `off` on. -/
def isdiremptyFrom (dp : ℕ) : (fuel off : ℕ) → FsM Bool
  | 0, _ => return true
  | fuel + 1, off => do
    let s ← get
    if off < (s.itable dp).d.size then do
      let (r, bytes) ← readi dp kernelDst off direntSize
      if r ≠ direntSize then panic "isdirempty: readi"
      else if (Dirent.decode bytes).inum ≠ 0 then return false
      else isdiremptyFrom dp fuel (off + direntSize)
    else return true

/-- `isdirempty`: nothing after the entries for `.` and `..`. -/
def isdirempty (dp : ℕ) : FsM Bool := do
  let s ← get
  isdiremptyFrom dp ((s.itable dp).d.size / direntSize + 1) (2 * direntSize)

/-- The label `bad` of `sys_unlink`. -/
def unlinkBad (dp : ℕ) : FsM ℤ := do
  iunlockput dp
  return -1

/-- `sys_unlink` from the point where the entry at `off` of `dp` for `ip` can go. -/
def unlinkEntry (dp ip off : ℕ) : FsM ℤ := do
  let r ← writei dp (Dirent.encode ⟨0, fun _ => 0⟩) off direntSize
  if r ≠ direntSize then panic "unlink: writei"
  else do
    let s ← get
    if (s.itable ip).d.type = .dir then addLink dp (-1)
    iunlockput dp
    addLink ip (-1)
    iunlockput ip
    return 0

/-- `sys_unlink`, with the argument already fetched. -/
def unlink (cwd : ℕ) (path : List UInt8) : FsM ℤ := do
  match ← nameiparent cwd path with
  | none => return -1
  | some (dp, name) => do
    ilock dp
    if namecmp (padded name) (padded dot) ∨ namecmp (padded name) (padded dotdot) then
      unlinkBad dp
    else do
      match ← dirlookup dp name with
      | none => unlinkBad dp
      | some (ip, off) => do
        ilock ip
        let s ← get
        if (s.itable ip).d.nlink.toInt < 1 then panic "unlink: nlink < 1"
        else if (s.itable ip).d.type = .dir then do
          let empty ← isdirempty ip
          if empty then unlinkEntry dp ip off
          else do
            iunlockput ip
            unlinkBad dp
        else unlinkEntry dp ip off

/-- `sys_unlink`. -/
def sysUnlink (cwd : ℕ) (path : List UInt8) : FsM ℤ :=
  match argstr path with
  | some path => unlink cwd path
  | none => return -1

/-- The label `fail` of `create`. -/
def createFail (dp ip : ℕ) : FsM (Option ℕ) := do
  updateD ip fun d => { d with nlink := 0 }
  iunlockput ip
  iunlockput dp
  return none

/-- `create` from the point where the new inode gets its name in `dp`. -/
def createEntry (dp : ℕ) (name : List UInt8) (type : FType) (ip : ℕ) : FsM (Option ℕ) := do
  let r ← dirlink dp name ip
  if r < 0 then createFail dp ip
  else do
    if type = .dir then addLink dp 1
    iunlockput dp
    return some ip

/-- `create` from the point where the inode `ip` has been allocated. -/
def createNew (dp : ℕ) (name : List UInt8) (type : FType) (major minor : BitVec 16) (ip : ℕ) :
    FsM (Option ℕ) := do
  ilock ip
  updateD ip fun d => { d with major := major, minor := minor, nlink := 1 }
  if type = .dir then do
    let r ← dirlink ip dot ip
    if r < 0 then createFail dp ip
    else do
      let r ← dirlink ip dotdot dp
      if r < 0 then createFail dp ip
      else createEntry dp name type ip
  else createEntry dp name type ip

/-- `create`: the inode, locked, or nothing. -/
def create (cwd : ℕ) (path : List UInt8) (type : FType) (major minor : BitVec 16) :
    FsM (Option ℕ) := do
  match ← nameiparent cwd path with
  | none => return none
  | some (dp, name) => do
    ilock dp
    match ← dirlookup dp name with
    | some (ip, _) => do
      iunlockput dp
      ilock ip
      let s ← get
      if type = .file ∧ ((s.itable ip).d.type = .file ∨ (s.itable ip).d.type = .device) then
        return some ip
      else do
        iunlockput ip
        return none
    | none => do
      match ← ialloc type with
      | none => do
        iunlockput dp
        return none
      | some ip => createNew dp name type major minor ip

end Xv6.Fs
