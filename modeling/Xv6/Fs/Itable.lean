import Xv6.Fs.Disk
import Xv6.Lib.Conc

/-!
# The table of in-memory inodes, under any interleaving

`iget`, `idup`, `ilock`, `iunlock`, `iput`, `iupdate` and `ialloc` of `kernel/fs.c`, run by any
number of processes. `itable.lock` guards the fields `ref`, `dev` and `inum` of the entries, and
each entry's sleep-lock guards the rest; a step is what a process does between two of these
lock operations, or one access to an inode on disk (`bread` gives the block to one process at
a time) or to a field that is read without its lock.

* The inode area is what `bread` shows, that is the logged contents: `iupdate` and `ialloc`
  write it.
* Between `ilock` and `iunlock` a process may change every field of the inode that lives on disk
  except the type, which only `ialloc` and `iput` set (`Req.edit`).
* `ref` is a natural number: between system calls it counts current directories and open files
  (`Xv6.Fs.Boot.ref_le`), so the `int` does not wrap.
* References are handed around freely: by `idup`, through the table of open files, or by two
  processes that share an open file. A history counts those which `iget` and `idup` returned and
  no `iput` was called with (`Hist.out`), and `Proper` is what the callers promise: whoever
  locks or duplicates an inode does so under a reference which nobody drops meanwhile, an inode
  is changed only under its lock and written by `iupdate` before the lock is released, and `iput`
  is called without the lock.
-/

namespace Xv6.Itable

open Function Lib Conc
open Fs (Dinode FType)

/-- `struct inode`. -/
structure Inode where
  dev : ℕ
  inum : ℕ
  ref : ℕ
  valid : Bool
  d : Dinode

/-- The table, and the inodes on disk by device and number. -/
structure Data (m : ℕ) where
  inode : Fin m → Inode
  disk : ℕ → ℕ → Dinode

/-- `itable.lock` and the sleep-locks of the entries. -/
inductive Lock (m : ℕ)
  | itable
  | inode (e : Fin m)
  deriving DecidableEq

/-- What a process asks for. -/
inductive Req (m : ℕ)
  | iget (dev inum : ℕ)
  | idup (e : Fin m)
  | ilock (e : Fin m)
  | iunlock (e : Fin m)
  | edit (e : Fin m) (d : Dinode)
  | iupdate (e : Fin m)
  | iput (e : Fin m)
  | ialloc (dev : ℕ) (type : FType)

/-- Where a process is. `panic` has the locks that the process died with. -/
inductive Pc (m : ℕ)
  | user
  | igetLock (dev inum : ℕ)
  | igetScan (dev inum : ℕ)
  | igetUnlock
  | idupLock (e : Fin m)
  | idupInc (e : Fin m)
  | idupUnlock
  | ilockSleep (e : Fin m)
  | ilockValid (e : Fin m)
  | ilockRead (e : Fin m)
  | ilockDone (e : Fin m)
  | iunlockWake (e : Fin m)
  | iputLock (e : Fin m)
  | iputTest (e : Fin m)
  | iputSleep (e : Fin m)
  | iputUnlock (e : Fin m)
  | iputTrunc (e : Fin m)
  | iputTruncUpdate (e : Fin m)
  | iputType (e : Fin m)
  | iputUpdate (e : Fin m)
  | iputValid (e : Fin m)
  | iputWake (e : Fin m)
  | iputRelock (e : Fin m)
  | iputDrop (e : Fin m)
  | iputDone
  | iallocScan (dev : ℕ) (type : FType) (inum : ℕ)
  | panic (itable : Bool) (e : Option (Fin m))

/-- The local state of a process: the inodes it has locked, those it has changed since it last
called `iupdate`, and where it is. -/
structure Local (m : ℕ) where
  locked : Finset (Fin m)
  dirty : Finset (Fin m)
  pc : Pc m

namespace Data

variable {m : ℕ} (t : Data m)

/-- Change entry `e`. -/
def set (e : Fin m) (i : Inode) : Data m := { t with inode := update t.inode e i }

/-- Change the inode `inum` of `dev` on disk. -/
def write (dev inum : ℕ) (d : Dinode) : Data m :=
  { t with disk := update t.disk dev (update (t.disk dev) inum d) }

/-- The inode on disk that entry `e` is about. -/
def home (e : Fin m) : Dinode := t.disk (t.inode e).dev (t.inode e).inum

/-- The loop of `iget`: the first entry in use for the inode. -/
def find (dev inum : ℕ) : Option (Fin m) :=
  (List.finRange m).find? fun e =>
    0 < (t.inode e).ref ∧ (t.inode e).dev = dev ∧ (t.inode e).inum = inum

/-- The loop of `iget`: the first free entry. -/
def empty : Option (Fin m) := (List.finRange m).find? fun e => (t.inode e).ref = 0

/-- The entry whose pointer `iget` returns. -/
def slot (dev inum : ℕ) : Option (Fin m) := (t.find dev inum).or t.empty

/-- `ip->ref++`. -/
def gain (e : Fin m) : Data m := t.set e { t.inode e with ref := (t.inode e).ref + 1 }

/-- `iget` takes entry `e` for another inode. -/
def recycle (e : Fin m) (dev inum : ℕ) : Data m :=
  t.set e { t.inode e with dev := dev, inum := inum, ref := 1, valid := false }

/-- `ip->ref--`. -/
def drop (e : Fin m) : Data m := t.set e { t.inode e with ref := (t.inode e).ref - 1 }

/-- Change what the sleep-lock of `e` guards. -/
def body (e : Fin m) (valid : Bool) (d : Dinode) : Data m :=
  t.set e { t.inode e with valid := valid, d := d }

/-- `iupdate`. -/
def iupdate (e : Fin m) : Data m := t.write (t.inode e).dev (t.inode e).inum (t.inode e).d

end Data

section Prog

variable {m : ℕ} (ninodes : ℕ)

/-- The instruction at each local state. -/
def prog {n : ℕ} (_ : Fin n) (l : Local m) : Instr (Lock m) (Data m) (Req m) (Local m) :=
  match l.pc with
  | .user => .act fun r t =>
    match r with
    | .iget dev inum => (t, { l with pc := .igetLock dev inum })
    | .idup e => (t, { l with pc := .idupLock e })
    | .ilock e =>
      if (t.inode e).ref < 1 then (t, { l with pc := .panic false none })
      else (t, { l with pc := .ilockSleep e })
    | .iunlock e =>
      -- `holdingsleep` compares the pid of the caller
      if e ∉ l.locked ∨ (t.inode e).ref < 1 then (t, { l with pc := .panic false none })
      else (t, { l with pc := .iunlockWake e })
    | .edit e d =>
      (t.body e (t.inode e).valid { d with type := (t.inode e).d.type },
        { l with dirty := insert e l.dirty })
    | .iupdate e => (t.iupdate e, { l with dirty := l.dirty.erase e })
    | .iput e => (t, { l with pc := .iputLock e })
    | .ialloc dev type => (t, { l with pc := .iallocScan dev type 1 })
  -- iget
  | .igetLock dev inum => .acquire .itable { l with pc := .igetScan dev inum }
  | .igetScan dev inum => .act fun _ t =>
    match t.find dev inum with
    | some e => (t.gain e, { l with pc := .igetUnlock })
    | none =>
      match t.empty with
      | some e => (t.recycle e dev inum, { l with pc := .igetUnlock })
      | none => (t, { l with pc := .panic true none })
  | .igetUnlock => .release .itable { l with pc := .user }
  -- idup
  | .idupLock e => .acquire .itable { l with pc := .idupInc e }
  | .idupInc e => .act fun _ t => (t.gain e, { l with pc := .idupUnlock })
  | .idupUnlock => .release .itable { l with pc := .user }
  -- ilock
  | .ilockSleep e => .acquire (.inode e) { l with pc := .ilockValid e }
  | .ilockValid e => .act fun _ t =>
    if (t.inode e).valid = true then (t, { l with locked := insert e l.locked, pc := .user })
    else (t, { l with pc := .ilockRead e })
  | .ilockRead e => .act fun _ t => (t.body e (t.inode e).valid (t.home e), { l with pc := .ilockDone e })
  | .ilockDone e => .act fun _ t =>
    if (t.inode e).d.type = .free then
      (t.body e true (t.inode e).d, { l with pc := .panic false (some e) })
    else (t.body e true (t.inode e).d, { l with locked := insert e l.locked, pc := .user })
  -- iunlock
  | .iunlockWake e => .release (.inode e) { l with locked := l.locked.erase e, pc := .user }
  -- iput
  | .iputLock e => .acquire .itable { l with pc := .iputTest e }
  | .iputTest e => .act fun _ t =>
    if (t.inode e).ref = 1 ∧ (t.inode e).valid = true ∧ (t.inode e).d.nlink = 0 then
      (t, { l with pc := .iputSleep e })
    else (t, { l with pc := .iputDrop e })
  | .iputSleep e => .acquire (.inode e) { l with pc := .iputUnlock e }
  | .iputUnlock e => .release .itable { l with pc := .iputTrunc e }
  | .iputTrunc e => .act fun _ t =>
    (t.body e (t.inode e).valid { (t.inode e).d with size := 0, addrs := fun _ => 0 },
      { l with pc := .iputTruncUpdate e })
  | .iputTruncUpdate e => .act fun _ t => (t.iupdate e, { l with pc := .iputType e })
  | .iputType e => .act fun _ t =>
    (t.body e (t.inode e).valid { (t.inode e).d with type := .free }, { l with pc := .iputUpdate e })
  | .iputUpdate e => .act fun _ t => (t.iupdate e, { l with pc := .iputValid e })
  | .iputValid e => .act fun _ t => (t.body e false (t.inode e).d, { l with pc := .iputWake e })
  | .iputWake e => .release (.inode e) { l with locked := l.locked.erase e, pc := .iputRelock e }
  | .iputRelock e => .acquire .itable { l with pc := .iputDrop e }
  | .iputDrop e => .act fun _ t => (t.drop e, { l with pc := .iputDone })
  | .iputDone => .release .itable { l with pc := .user }
  -- ialloc
  | .iallocScan dev type inum => .act fun _ t =>
    if inum < ninodes then
      if (t.disk dev inum).type = .free then
        (t.write dev inum { Dinode.zero with type := type }, { l with pc := .igetLock dev inum })
      else (t, { l with pc := .iallocScan dev type (inum + 1) })
    else (t, { l with pc := .user })
  | .panic _ _ => .halt

end Prog

variable {n m : ℕ}

/-- Where `itable.lock` is held. -/
def Pc.itable : Pc m → Bool
  | .igetScan _ _ | .igetUnlock | .idupInc _ | .idupUnlock | .iputTest _ | .iputSleep _
  | .iputUnlock _ | .iputDrop _ | .iputDone => true
  | .panic b _ => b
  | _ => false

/-- The entry whose sleep-lock is held for the call itself. -/
def Pc.holds : Pc m → Option (Fin m)
  | .ilockValid e | .ilockRead e | .ilockDone e | .iunlockWake e | .iputUnlock e | .iputTrunc e
  | .iputTruncUpdate e | .iputType e | .iputUpdate e | .iputValid e | .iputWake e => some e
  | .panic _ e => e
  | _ => none

/-- The entry a reference to which is on its way out. -/
def Pc.drops : Pc m → Option (Fin m)
  | .iputLock e | .iputTest e | .iputSleep e | .iputUnlock e | .iputTrunc e | .iputTruncUpdate e
  | .iputType e | .iputUpdate e | .iputValid e | .iputWake e | .iputRelock e | .iputDrop e => some e
  | _ => none

/-- The entry that `idup` or `ilock` was called with. -/
def Pc.asks : Pc m → Option (Fin m)
  | .idupLock e | .idupInc e | .ilockSleep e => some e
  | _ => none

/-- The process has the sleep-lock of `e`. -/
def Local.has (l : Local m) (e : Fin m) : Prop := e ∈ l.locked ∨ l.pc.holds = some e

/-- The process relies on a reference to `e`. -/
def Local.uses (l : Local m) (e : Fin m) : Prop :=
  l.has e ∧ l.pc.drops ≠ some e ∨ l.pc.asks = some e

instance (l : Local m) (e : Fin m) : Decidable (l.has e) := inferInstanceAs (Decidable (_ ∨ _))

instance (l : Local m) (e : Fin m) : Decidable (l.uses e) := inferInstanceAs (Decidable (_ ∨ _))

/-- The locks a process holds. -/
def held (_ : Fin n) (l : Local m) : Lock m → Prop
  | .itable => l.pc.itable = true
  | .inode e => l.has e

/-- The references returned and not yet given to `iput`, and where the processes are. -/
structure Hist (n m : ℕ) where
  out : Fin m → ℕ
  pcs : Fin n → Local m

/-- The references after a step. -/
def tally (l : Local m) (r : Req m) (t : Data m) (o : Fin m → ℕ) : Fin m → ℕ :=
  match l.pc, r with
  | .user, .iput e => update o e (o e - 1)
  | .igetScan dev inum, _ =>
    match t.slot dev inum with
    | some e => update o e (o e + 1)
    | none => o
  | .idupInc e, _ => update o e (o e + 1)
  | _, _ => o

def note (ninodes : ℕ) (p : Fin n) (l : Local m) (r : Req m) (t : Data m) (h : Hist n m) : Hist n m :=
  ⟨tally l r t h.out, update h.pcs p ((prog ninodes p l).target r t l)⟩

/-- What the caller of `r` promises. -/
def Promise (l : Local m) (r : Req m) (h : Hist n m) : Prop :=
  match r with
  | .idup e | .ilock e => 0 < h.out e
  | .iunlock e => e ∉ l.dirty
  | .edit e _ | .iupdate e => e ∈ l.locked
  | .iput e => 0 < h.out e ∧ e ∉ l.locked ∧ (h.out e = 1 → ∀ q, ¬ (h.pcs q).uses e)
  | .iget _ _ | .ialloc _ _ => True

instance (l : Local m) (r : Req m) (h : Hist n m) : Decidable (Promise l r h) :=
  match r with
  | .idup e | .ilock e => inferInstanceAs (Decidable (0 < h.out e))
  | .iunlock e => inferInstanceAs (Decidable (e ∉ l.dirty))
  | .edit e _ | .iupdate e => inferInstanceAs (Decidable (e ∈ l.locked))
  | .iput e => inferInstanceAs (Decidable (0 < h.out e ∧ e ∉ l.locked ∧ _))
  | .iget _ _ | .ialloc _ _ => inferInstanceAs (Decidable True)

/-- No call is in progress. -/
def Pc.idle : Pc m → Bool
  | .user => true
  | _ => false

/-- A call keeps its promise. -/
def Allowed (l : Local m) (r : Req m) (h : Hist n m) : Prop := l.pc.idle = true → Promise l r h

instance (l : Local m) (r : Req m) (h : Hist n m) : Decidable (Allowed l r h) :=
  inferInstanceAs (Decidable (_ → _))

/-- Every call keeps its promise. -/
def Proper (y : State (Fin n) (Lock m) (Data m) (Local m) × Hist n m) (a : Fin n × Req m) : Prop :=
  Allowed (y.1.pc a.1) a.2 ⟨y.2.out, y.1.pc⟩

instance (y : State (Fin n) (Lock m) (Data m) (Local m) × Hist n m) (a : Fin n × Req m) :
    Decidable (Proper y a) := inferInstanceAs (Decidable (Allowed _ _ _))

/-- A process that holds nothing. -/
def Local.idle : Local m := ⟨∅, ∅, .user⟩

/-- After `iinit`: no entry is in use. -/
def boot (disk : ℕ → ℕ → Dinode) : State (Fin n) (Lock m) (Data m) (Local m) :=
  start (fun _ => .idle) ⟨fun _ => ⟨0, 0, 0, false, .zero⟩, disk⟩

def Hist.boot : Hist n m := ⟨fun _ => 0, fun _ => .idle⟩

end Xv6.Itable
