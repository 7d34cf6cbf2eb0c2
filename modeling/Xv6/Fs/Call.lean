import Xv6.Fs.Dir

/-!
# Open files, processes and the file-system calls

`kernel/file.c` and the rest of the file-system calls of `kernel/sysfile.c`, together with
the parts of `fork` and `exit` that touch files and of `kernel/pipe.c` that allocate pipes. A process is known by its current
directory and its descriptors; files are entries of `ftable`. Calls run one at a time.

* Of a pipe only the page and its two ends are part of this state, not the bytes in it. What a
  pipe or the console answers to a read or a write is an argument of the call.
* The page that `kalloc` hands out and whether `copyout` succeeds are arguments of `pipe`.
-/

namespace Xv6.Fs

open Function

/-- The kinds of open file. -/
inductive FdType
  | none
  | pipe
  | inode
  | device
  deriving DecidableEq

/-- `struct file`. -/
structure File where
  type : FdType
  ref : ℕ
  readable : Bool
  writable : Bool
  pipe : ℕ
  ip : ℕ
  off : ℕ
  major : BitVec 16

/-- The part of `struct proc` that holds files; no current directory means no process. -/
structure Proc where
  cwd : Option ℕ
  ofile : ℕ → Option ℕ

/-- The ends of a pipe. -/
structure Ends where
  readopen : Bool
  writeopen : Bool

/-- The file system with the open files and the processes. -/
structure Sys where
  fs : State
  ftable : ℕ → File
  procs : ℕ → Proc
  /-- The pages that hold pipes. -/
  pipes : ℕ → Option Ends

/-- A computation over the whole system. -/
abbrev SysM := StateT Sys (Except Stop)

/-- A computation of the file system, run in the whole system. -/
def onFs {α : Type} (m : FsM α) : SysM α := fun s =>
  match m s.fs with
  | .ok (a, fs) => .ok (a, { s with fs := fs })
  | .error e => .error e

/-- Change file `f`. -/
def setFile (f : ℕ) (g : File → File) : SysM Unit :=
  modify fun s => { s with ftable := update s.ftable f (g (s.ftable f)) }

/-- Change process `p`. -/
def setProc (p : ℕ) (g : Proc → Proc) : SysM Unit :=
  modify fun s => { s with procs := update s.procs p (g (s.procs p)) }

/-- `p->ofile[fd] = f`. -/
def setOfile (p fd : ℕ) (f : Option ℕ) : SysM Unit :=
  setProc p fun pr => { pr with ofile := update pr.ofile fd f }

/-- Change the page `pi`. -/
def setPipe (pi : ℕ) (e : Option Ends) : SysM Unit :=
  modify fun s => { s with pipes := update s.pipes pi e }

/-- `filealloc`: the first free file structure. -/
def filealloc : SysM (Option ℕ) := do
  let s ← get
  match (List.range nfile).find? fun f => decide ((s.ftable f).ref = 0) with
  | some f => do
    setFile f fun fl => { fl with ref := 1 }
    return some f
  | none => return none

/-- `filedup`. -/
def filedup (f : ℕ) : SysM Unit := do
  let s ← get
  if (s.ftable f).ref < 1 then throw (.panic "filedup")
  else setFile f fun fl => { fl with ref := fl.ref + 1 }

/-- `pipeclose`: close one end; the page is freed with the second. -/
def pipeclose (pi : ℕ) (writable : Bool) : SysM Unit := do
  let s ← get
  match s.pipes pi with
  | none => throw .wild
  | some e =>
    let e : Ends := if writable then { e with writeopen := false } else { e with readopen := false }
    setPipe pi (if e.readopen = false ∧ e.writeopen = false then none else some e)

/-- `fileclose`. -/
def fileclose (f : ℕ) : SysM Unit := do
  let s ← get
  if (s.ftable f).ref < 1 then throw (.panic "fileclose")
  else if (s.ftable f).ref - 1 > 0 then setFile f fun fl => { fl with ref := fl.ref - 1 }
  else do
    setFile f fun fl => { fl with ref := 0, type := .none }
    match (s.ftable f).type with
    | .none => return ()
    | .pipe => pipeclose (s.ftable f).pipe (s.ftable f).writable
    | .inode => onFs (iput (s.ftable f).ip)
    | .device => onFs (iput (s.ftable f).ip)

/-- `fdalloc`: the first free descriptor of `p`. -/
def fdalloc (p f : ℕ) : SysM (Option ℕ) := do
  let s ← get
  match (List.range nofile).find? fun fd => ((s.procs p).ofile fd).isNone with
  | some fd => do
    setOfile p fd (some f)
    return some fd
  | none => return none

/-- `argfd`: the file behind a descriptor. -/
def argfd (s : Sys) (p fd : ℕ) : Option ℕ := if fd < nofile then (s.procs p).ofile fd else none

/-- `O_WRONLY`, `O_RDWR`, `O_CREATE` and `O_TRUNC`: the bits of the mode of `open`. -/
def oWronly : ℕ := 0
@[inherit_doc oWronly] def oRdwr : ℕ := 1
@[inherit_doc oWronly] def oCreate : ℕ := 9
@[inherit_doc oWronly] def oTrunc : ℕ := 10

/-- The end of `sys_open`: file `f` becomes the open file for `ip`. -/
def openFile (f ip omode : ℕ) : SysM Unit := do
  let s ← get
  let d := (s.fs.itable ip).d
  setFile f fun fl =>
    { fl with
      type := if d.type = .device then .device else .inode
      major := if d.type = .device then d.major else fl.major
      off := if d.type = .device then fl.off else 0
      ip := ip
      readable := !omode.testBit oWronly
      writable := omode.testBit oWronly || omode.testBit oRdwr }
  if omode.testBit oTrunc ∧ d.type = .file then onFs (itrunc ip)
  onFs (iunlock ip)

/-- `sys_open` from the point where the inode is locked. -/
def openInode (p ip omode : ℕ) : SysM ℤ := do
  let s ← get
  let d := (s.fs.itable ip).d
  if d.type = .device ∧ (d.major.toInt < 0 ∨ d.major.toInt ≥ ndev) then do
    onFs (iunlockput ip)
    return -1
  else do
    match ← filealloc with
    | none => do
      onFs (iunlockput ip)
      return -1
    | some f => do
      match ← fdalloc p f with
      | none => do
        fileclose f
        onFs (iunlockput ip)
        return -1
      | some fd => do
        openFile f ip omode
        return (fd : ℤ)

/-- `sys_open`, the path already fetched. -/
def openPath (p cwd : ℕ) (path : List UInt8) (omode : ℕ) : SysM ℤ := do
  if omode.testBit oCreate then do
    match ← onFs (create cwd path .file 0 0) with
    | none => return -1
    | some ip => openInode p ip omode
  else do
    match ← onFs (namei cwd path) with
    | none => return -1
    | some ip => do
      onFs (ilock ip)
      let s ← get
      if (s.fs.itable ip).d.type = .dir ∧ omode ≠ 0 then do
        onFs (iunlockput ip)
        return -1
      else openInode p ip omode

/-- `sys_open`. -/
def sysOpen (p cwd : ℕ) (path : List UInt8) (omode : ℕ) : SysM ℤ :=
  match argstr path with
  | some path => openPath p cwd path omode
  | none => return -1

/-- `sys_mkdir` and `sys_mknod`: create an inode of the type and let go of it. -/
def makeNode (cwd : ℕ) (path : List UInt8) (type : FType) (major minor : BitVec 16) : FsM ℤ :=
  match argstr path with
  | some path => do
    match ← create cwd path type major minor with
    | none => return -1
    | some ip => do
      iunlockput ip
      return 0
  | none => return -1

/-- `sys_mkdir`. -/
def sysMkdir (cwd : ℕ) (path : List UInt8) : FsM ℤ := makeNode cwd path .dir 0 0

/-- `sys_mknod`. -/
def sysMknod (cwd : ℕ) (path : List UInt8) (major minor : BitVec 16) : FsM ℤ :=
  makeNode cwd path .device major minor

/-- `sys_chdir`. -/
def sysChdir (p cwd : ℕ) (path : List UInt8) : SysM ℤ :=
  match argstr path with
  | some path => do
    match ← onFs (namei cwd path) with
    | none => return -1
    | some ip => do
      onFs (ilock ip)
      let s ← get
      if (s.fs.itable ip).d.type ≠ .dir then do
        onFs (iunlockput ip)
        return -1
      else do
        onFs (iunlock ip)
        onFs (iput cwd)
        setProc p fun pr => { pr with cwd := some ip }
        return 0
  | none => return -1

/-- `sys_close`. -/
def sysClose (p fd : ℕ) : SysM ℤ := do
  let s ← get
  match argfd s p fd with
  | none => return -1
  | some f => do
    setOfile p fd none
    fileclose f
    return 0

/-- `sys_dup`. -/
def sysDup (p fd : ℕ) : SysM ℤ := do
  let s ← get
  match argfd s p fd with
  | none => return -1
  | some f => do
    match ← fdalloc p f with
    | none => return -1
    | some fd' => do
      filedup f
      return (fd' : ℤ)

/-- `pipealloc`: two files for the ends of a pipe in the page `page`, which `kalloc` hands out;
0 stands for no page. -/
def pipealloc (page : ℕ) : SysM (Option (ℕ × ℕ)) := do
  match ← filealloc with
  | none => return none
  | some f0 => do
    match ← filealloc with
    | none => do
      fileclose f0
      return none
    | some f1 => do
      let s ← get
      if page = 0 ∨ (s.pipes page).isSome then do
        fileclose f0
        fileclose f1
        return none
      else do
        setPipe page (some ⟨true, true⟩)
        setFile f0 fun fl =>
          { fl with type := .pipe, readable := true, writable := false, pipe := page }
        setFile f1 fun fl =>
          { fl with type := .pipe, readable := false, writable := true, pipe := page }
        return some (f0, f1)

/-- `sys_pipe`; `copied` tells whether both calls of `copyout` succeed. -/
def sysPipe (p page : ℕ) (copied : Bool) : SysM ℤ := do
  match ← pipealloc page with
  | none => return -1
  | some (rf, wf) => do
    match ← fdalloc p rf with
    | none => do
      fileclose rf
      fileclose wf
      return -1
    | some fd0 => do
      match ← fdalloc p wf with
      | none => do
        setOfile p fd0 none
        fileclose rf
        fileclose wf
        return -1
      | some fd1 =>
        if copied then return 0
        else do
          setOfile p fd0 none
          setOfile p fd1 none
          fileclose rf
          fileclose wf
          return -1

/-- `sys_read` and `fileread` of `n` bytes; `r` is what a pipe or the console answers. The
console is the one device with a `read`. -/
def sysRead (p fd : ℕ) (dst : ℕ → Bool) (n r : ℤ) : SysM ℤ := do
  let s ← get
  match argfd s p fd with
  | none => return -1
  | some f =>
    if (s.ftable f).readable = false then return -1
    else
      match (s.ftable f).type with
      | .pipe => return r
      | .device => return if (s.ftable f).major = 1 then r else -1
      | .inode => do
        onFs (ilock (s.ftable f).ip)
        let (r, _) ← onFs (readi (s.ftable f).ip dst (s.ftable f).off (n % 2 ^ 32).toNat)
        if r > 0 then setFile f fun fl => { fl with off := (fl.off + r.toNat) % 2 ^ 32 }
        onFs (iunlock (s.ftable f).ip)
        return r
      | .none => throw (.panic "fileread")

/-- The largest piece `filewrite` writes in one transaction. -/
def writeMax : ℕ := (maxopblocks - 1 - 1 - 2) / 2 * bsize

/-- The loop of `filewrite`, `i` of the `n` bytes done. -/
def filewriteFrom (f : ℕ) (src : Src) (n : ℕ) : (fuel i : ℕ) → SysM ℤ
  | 0, i => return if i = n then (n : ℤ) else -1
  | fuel + 1, i =>
    if i < n then do
      let n1 := min (n - i) writeMax
      let s ← get
      onFs (ilock (s.ftable f).ip)
      let r ← onFs (writei (s.ftable f).ip (fun k => src (i + k)) (s.ftable f).off n1)
      if r > 0 then setFile f fun fl => { fl with off := (fl.off + r.toNat) % 2 ^ 32 }
      onFs (iunlock (s.ftable f).ip)
      if r ≠ n1 then return if i = n then (n : ℤ) else -1
      else filewriteFrom f src n fuel (i + n1)
    else return if i = n then (n : ℤ) else -1

/-- `sys_write` and `filewrite` of `n` bytes, each round at least one; `r` is what a pipe or the
console answers. -/
def sysWrite (p fd : ℕ) (src : Src) (n r : ℤ) : SysM ℤ := do
  let s ← get
  match argfd s p fd with
  | none => return -1
  | some f =>
    if (s.ftable f).writable = false then return -1
    else
      match (s.ftable f).type with
      | .pipe => return r
      | .device => return if (s.ftable f).major = 1 then r else -1
      | .inode => if n < 0 then return -1 else filewriteFrom f src n.toNat n.toNat 0
      | .none => throw (.panic "filewrite")

/-- The loop of `exit` that closes the open files. -/
def closeAll (p : ℕ) : List ℕ → SysM Unit
  | [] => return ()
  | fd :: fds => do
    let s ← get
    match (s.procs p).ofile fd with
    | none => closeAll p fds
    | some f => do
      fileclose f
      setOfile p fd none
      closeAll p fds

/-- `exit`, as far as files are concerned; process 0 is `initproc`. -/
def exit (p cwd : ℕ) : SysM ℤ := do
  if p = 0 then throw (.panic "init exiting")
  else do
    closeAll p (List.range nofile)
    onFs (iput cwd)
    setProc p fun pr => { pr with cwd := none }
    return 0

/-- The loop of `fork` that duplicates the open files. -/
def dupAll (p q : ℕ) : List ℕ → SysM Unit
  | [] => return ()
  | fd :: fds => do
    let s ← get
    match (s.procs p).ofile fd with
    | none => dupAll p q fds
    | some f => do
      filedup f
      setOfile q fd (some f)
      dupAll p q fds

/-- `fork` into the process slot `q`, as far as files are concerned. -/
def fork (p cwd q : ℕ) : SysM ℤ := do
  let s ← get
  if q < nproc ∧ (s.procs q).cwd = none then do
    dupAll p q (List.range nofile)
    onFs (idup cwd)
    setProc q fun pr => { pr with cwd := some cwd }
    return (q : ℤ)
  else return -1

/-- The calls a process can make. -/
inductive Call
  | mkdir (path : List UInt8)
  | open (path : List UInt8) (omode : ℕ)
  | mknod (path : List UInt8) (major minor : BitVec 16)
  | link (old new : List UInt8)
  | unlink (path : List UInt8)
  | chdir (path : List UInt8)
  | close (fd : ℕ)
  | dup (fd : ℕ)
  | pipe (page : ℕ) (copied : Bool)
  | read (fd : ℕ) (dst : ℕ → Bool) (n r : ℤ)
  | write (fd : ℕ) (src : Src) (n r : ℤ)
  | fork (q : ℕ)
  | exit

/-- A call of process `p` with current directory `cwd`. -/
def Call.run (p cwd : ℕ) : Call → SysM ℤ
  | .mkdir path => onFs (sysMkdir cwd path)
  | .open path omode => sysOpen p cwd path omode
  | .mknod path major minor => onFs (sysMknod cwd path major minor)
  | .link old new => onFs (sysLink cwd old new)
  | .unlink path => onFs (sysUnlink cwd path)
  | .chdir path => sysChdir p cwd path
  | .close fd => sysClose p fd
  | .dup fd => sysDup p fd
  | .pipe page copied => sysPipe p page copied
  | .read fd dst n r => sysRead p fd dst n r
  | .write fd src n r => sysWrite p fd src n r
  | .fork q => Fs.fork p cwd q
  | .exit => Fs.exit p cwd

end Xv6.Fs
