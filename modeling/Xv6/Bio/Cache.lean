import Xv6.Lib.Circ
import Xv6.Lib.Conc
import Xv6.Log.Commit

/-!
# The buffer cache and the log above it, under any interleaving

`kernel/bio.c` and the functions of `kernel/log.c` that use it, run by any number of processes.
`bcache.lock` guards the links, the block numbers and the reference counts of the buffers, each
buffer's sleep-lock its contents, and `log.lock` the log. A step is what a process does between
two lock operations, or one transfer to or from the disk.

* `commit` and what it calls are steps like the rest: `write_log`, `write_head` and
  `install_trans` read and release buffers while other processes read blocks. Where a call
  returns to is part of the local state (`Got` for `bread`, `Ret` for the others).
* `sleep` in `begin_op` releases the lock and tries again: a process may wake at any time.
* While an operation is outstanding nobody touches `log.lh` without `log.lock`, so the search of
  `log_write` is one step; `Xv6.Log.Ops` has it step by step.
* `refcnt` is a natural number. Where the processes follow the protocol it is at most twice their
  number and one (`refcnt_le`), so the counter does not wrap.

`Hist` is not in the source: it counts the pins of each buffer, notes when `brelse` last brought
the reference count of a buffer to 0, and keeps what was last stored to each block.
-/

namespace Xv6.Bio

open Function Lib Conc

/-- `struct buf`, apart from the links. -/
structure Buf where
  valid : Bool
  dev : ℕ
  blockno : ℕ
  refcnt : ℕ
  data : Block

/-- The part of `struct log` that changes; `lh` has the `n` block numbers of the header. -/
structure Log where
  lh : List ℕ
  outstanding : ℕ
  committing : Bool

/-- The cache, the disk and the log. -/
structure Data (m : ℕ) where
  buf : Fin m → Buf
  links : Links (Fin m)
  disk : ℕ → ℕ → Block
  log : Log

/-- `bcache.lock`, the sleep-locks of the buffers, and `log.lock`. -/
inductive Lock (m : ℕ)
  | bcache
  | buf (b : Fin m)
  | log
  deriving DecidableEq

/-- What a process asks for. -/
inductive Req (m : ℕ)
  | bread (dev blockno : ℕ)
  | brelse (b : Fin m)
  | bpin (b : Fin m)
  | bunpin (b : Fin m)
  | edit (b : Fin m) (x : Block)
  | bwrite (b : Fin m)
  | beginOp
  | logWrite (b : Fin m)
  | endOp

/-- Who called `bread`: a process, `write_log`, `write_head` (the second time or not) or
`install_trans`. -/
inductive Got (m : ℕ)
  | user (dev blockno : ℕ)
  | logTo (tail : ℕ)
  | logFrom (tail : ℕ) (dst : Fin m)
  | head (again : Bool)
  | insLog (tail : ℕ)
  | insDst (tail : ℕ) (lbuf : Fin m)

/-- Where `brelse` returns to. -/
inductive Ret (m : ℕ)
  | user
  | logRel (tail : ℕ) (dst : Fin m)
  | logNext (tail : ℕ)
  | headNext (again : Bool)
  | insRel (tail : ℕ) (dbuf : Fin m)
  | insNext (tail : ℕ)

/-- Where a process is. `bpin` knows whether `log_write` called it, `bunpin` whether `install_trans`
did, and `panic` has the locks that the process died with. -/
inductive Pc (m : ℕ)
  | user
  | bgetLock (dev blockno : ℕ) (k : Got m)
  | bgetScan (dev blockno : ℕ) (k : Got m)
  | bgetUnlock (b : Fin m) (k : Got m)
  | bgetSleep (b : Fin m) (k : Got m)
  | breadValid (b : Fin m) (k : Got m)
  | breadDisk (b : Fin m) (k : Got m)
  | brelseWake (b : Fin m) (k : Ret m)
  | brelseLock (b : Fin m) (k : Ret m)
  | brelseDrop (b : Fin m) (k : Ret m)
  | brelseUnlock (k : Ret m)
  | bpinLock (b : Fin m) (log : Bool)
  | bpinInc (b : Fin m) (log : Bool)
  | bpinUnlock (b : Fin m) (log : Bool)
  | bunpinLock (b : Fin m) (k : Option (ℕ × Fin m))
  | bunpinDec (b : Fin m) (k : Option (ℕ × Fin m))
  | bunpinUnlock (b : Fin m) (k : Option (ℕ × Fin m))
  | beginLock
  | beginTest
  | beginSleep
  | beginUnlock
  | writeLock (b : Fin m)
  | writeTest (b : Fin m)
  | writeAdd (b : Fin m)
  | writeUnlock (b : Fin m)
  | endLock
  | endDec
  | endUnlock (last : Bool)
  | commit
  | logLoop (tail : ℕ)
  | logRead (tail : ℕ) (dst : Fin m)
  | logCopy (tail : ℕ) (dst src : Fin m)
  | logBwrite (tail : ℕ) (dst src : Fin m)
  | headFill (again : Bool) (b : Fin m)
  | headBwrite (again : Bool) (b : Fin m)
  | insLoop (tail : ℕ)
  | insRead (tail : ℕ) (lbuf : Fin m)
  | insCopy (tail : ℕ) (lbuf dbuf : Fin m)
  | insBwrite (tail : ℕ) (lbuf dbuf : Fin m)
  | commitClear
  | endRelock
  | endClear
  | panic (bcache log : Bool)

/-- The local state of a process: the buffers it has locked, those it has changed and not yet
given to `log_write`, whether it is between `begin_op` and `end_op`, and where it is. -/
structure Local (m : ℕ) where
  held : Finset (Fin m)
  unlogged : Finset (Fin m)
  inOp : Bool
  pc : Pc m

namespace Data

variable {m : ℕ} (t : Data m)

/-- Change buffer `b`. -/
def set (b : Fin m) (x : Buf) : Data m := { t with buf := update t.buf b x }

/-- First loop of `bget`: is the block cached? -/
def cached (dev blockno : ℕ) : Option (Fin m) :=
  Links.scan t.links.next (fun b => (t.buf b).dev = dev ∧ (t.buf b).blockno = blockno) m
    (t.links.next none)

/-- Second loop of `bget`: the least recently used buffer that is not in use. -/
def victim : Option (Fin m) :=
  Links.scan t.links.prev (fun b => (t.buf b).refcnt = 0) m (t.links.prev none)

/-- `b->refcnt++`. -/
def gain (b : Fin m) : Data m := t.set b { t.buf b with refcnt := (t.buf b).refcnt + 1 }

/-- `b->refcnt--`. -/
def lose (b : Fin m) : Data m := t.set b { t.buf b with refcnt := (t.buf b).refcnt - 1 }

/-- `bget` takes buffer `b` for another block. -/
def recycle (b : Fin m) (dev blockno : ℕ) : Data m :=
  t.set b { t.buf b with dev := dev, blockno := blockno, valid := false, refcnt := 1 }

/-- The end of `brelse`: a buffer that nobody waits for moves to the head of the list. -/
def drop (b : Fin m) : Data m :=
  let t := t.lose b
  if (t.buf b).refcnt = 0 then { t with links := (t.links.unlink b).push b } else t

/-- Change the contents of buffer `b`. -/
def store (b : Fin m) (x : Block) : Data m := t.set b { t.buf b with data := x }

/-- `virtio_disk_rw(b, 0)` and `b->valid = 1`. -/
def read (b : Fin m) : Data m :=
  t.set b { t.buf b with data := t.disk (t.buf b).dev (t.buf b).blockno, valid := true }

/-- `virtio_disk_rw(b, 1)`. -/
def bwrite (b : Fin m) : Data m :=
  { t with
    disk := update t.disk (t.buf b).dev
      (update (t.disk (t.buf b).dev) (t.buf b).blockno (t.buf b).data) }

def setLog (x : Log) : Data m := { t with log := x }

end Data

/-- Where the log is: `log.dev`, `log.start` and `log.size`. -/
structure Conf where
  dev : ℕ
  geom : Log.Geom

/-- The header with the block numbers `lh`. -/
def header (lh : List ℕ) : Log.Header := ⟨lh.length, fun i => lh.getD i 0⟩

section Prog

variable {m : ℕ}

/-- What follows `bread`. -/
def Got.pc (b : Fin m) : Got m → Pc m
  | .user _ _ => .user
  | .logTo tail => .logRead tail b
  | .logFrom tail dst => .logCopy tail dst b
  | .head again => .headFill again b
  | .insLog tail => .insRead tail b
  | .insDst tail lbuf => .insCopy tail lbuf b

/-- What follows `brelse`. -/
def Ret.pc : Ret m → Pc m
  | .user => .user
  | .logRel tail dst => .brelseWake dst (.logNext tail)
  | .logNext tail => .logLoop (tail + 1)
  | .headNext again => if again then .endRelock else .insLoop 0
  | .insRel tail dbuf => .brelseWake dbuf (.insNext tail)
  | .insNext tail => .insLoop (tail + 1)

/-- What follows `bpin`. -/
def pinned (b : Fin m) (log : Bool) : Pc m := if log then .writeAdd b else .user

/-- What follows `bunpin`. -/
def unpinned (b : Fin m) : Option (ℕ × Fin m) → Pc m
  | none => .user
  | some (tail, lbuf) => .brelseWake lbuf (.insRel tail b)

/-- The instruction at each local state. -/
def prog {n : ℕ} (c : Conf) (_ : Fin n) (l : Local m) : Instr (Lock m) (Data m) (Req m) (Local m) :=
  match l.pc with
  | .user => .act fun r t =>
    match r with
    | .bread dev blockno => (t, { l with pc := .bgetLock dev blockno (.user dev blockno) })
    | .brelse b => (t, { l with pc := .brelseWake b .user })
    | .bpin b => (t, { l with pc := .bpinLock b false })
    | .bunpin b => (t, { l with pc := .bunpinLock b none })
    | .edit b x => (t.store b x, { l with unlogged := insert b l.unlogged })
    | .bwrite b =>
      if b ∉ l.held then (t, { l with pc := .panic false false }) else (t.bwrite b, l)
    | .beginOp => (t, { l with pc := .beginLock })
    | .logWrite b => (t, { l with pc := .writeLock b })
    | .endOp => (t, { l with pc := .endLock })
  -- bget and bread
  | .bgetLock dev blockno k => .acquire .bcache { l with pc := .bgetScan dev blockno k }
  | .bgetScan dev blockno k => .act fun _ t =>
    match t.cached dev blockno with
    | some b => (t.gain b, { l with pc := .bgetUnlock b k })
    | none =>
      match t.victim with
      | some b => (t.recycle b dev blockno, { l with pc := .bgetUnlock b k })
      | none => (t, { l with pc := .panic true false })
  | .bgetUnlock b k => .release .bcache { l with pc := .bgetSleep b k }
  | .bgetSleep b k => .acquire (.buf b) { l with pc := .breadValid b k }
  | .breadValid b k => .act fun _ t =>
    if (t.buf b).valid = true then (t, { l with held := insert b l.held, pc := k.pc b })
    else (t, { l with pc := .breadDisk b k })
  | .breadDisk b k => .act fun _ t => (t.read b, { l with held := insert b l.held, pc := k.pc b })
  -- brelse
  | .brelseWake b k =>
    -- `holdingsleep`, or `panic("brelse")`
    if b ∈ l.held then .release (.buf b) { l with held := l.held.erase b, pc := .brelseLock b k } else .halt
  | .brelseLock b k => .acquire .bcache { l with pc := .brelseDrop b k }
  | .brelseDrop b k => .act fun _ t => (t.drop b, { l with pc := .brelseUnlock k })
  | .brelseUnlock k => .release .bcache { l with pc := k.pc }
  -- bpin and bunpin
  | .bpinLock b log => .acquire .bcache { l with pc := .bpinInc b log }
  | .bpinInc b log => .act fun _ t => (t.gain b, { l with pc := .bpinUnlock b log })
  | .bpinUnlock b log => .release .bcache { l with pc := pinned b log }
  | .bunpinLock b k => .acquire .bcache { l with pc := .bunpinDec b k }
  | .bunpinDec b k => .act fun _ t => (t.lose b, { l with pc := .bunpinUnlock b k })
  | .bunpinUnlock b k => .release .bcache { l with pc := unpinned b k }
  -- begin_op
  | .beginLock => .acquire .log { l with pc := .beginTest }
  | .beginTest => .act fun _ t =>
    if t.log.committing = true ∨ logsize < t.log.lh.length + (t.log.outstanding + 1) * maxopblocks then
      (t, { l with pc := .beginSleep })
    else
      (t.setLog { t.log with outstanding := t.log.outstanding + 1 },
        { l with inOp := true, pc := .beginUnlock })
  | .beginSleep => .release .log { l with pc := .beginLock }
  | .beginUnlock => .release .log { l with pc := .user }
  -- log_write
  | .writeLock b => .acquire .log { l with pc := .writeTest b }
  | .writeTest b => .act fun _ t =>
    if logsize ≤ t.log.lh.length ∨ c.geom.size - 1 ≤ t.log.lh.length ∨ t.log.outstanding < 1 then
      (t, { l with pc := .panic false true })
    else if (t.buf b).blockno ∈ t.log.lh then (t, { l with pc := .writeUnlock b })
    else (t, { l with pc := .bpinLock b true })
  | .writeAdd b => .act fun _ t =>
    (t.setLog { t.log with lh := t.log.lh ++ [(t.buf b).blockno] }, { l with pc := .writeUnlock b })
  | .writeUnlock b => .release .log { l with unlogged := l.unlogged.erase b, pc := .user }
  -- end_op
  | .endLock => .acquire .log { l with pc := .endDec }
  | .endDec => .act fun _ t =>
    let t := t.setLog { t.log with outstanding := t.log.outstanding - 1 }
    if t.log.committing = true then (t, { l with inOp := false, pc := .panic false true })
    else if t.log.outstanding = 0 then
      (t.setLog { t.log with committing := true }, { l with inOp := false, pc := .endUnlock true })
    else (t, { l with inOp := false, pc := .endUnlock false })
  | .endUnlock last => .release .log { l with pc := if last then .commit else .user }
  -- commit
  | .commit => .act fun _ t =>
    if 0 < t.log.lh.length then (t, { l with pc := .logLoop 0 }) else (t, { l with pc := .endRelock })
  -- write_log
  | .logLoop tail => .act fun _ t =>
    if tail < t.log.lh.length then
      (t, { l with pc := .bgetLock c.dev (c.geom.start + tail + 1) (.logTo tail) })
    else (t, { l with pc := .bgetLock c.dev c.geom.start (.head false) })
  | .logRead tail dst => .act fun _ t =>
    (t, { l with pc := .bgetLock c.dev (t.log.lh.getD tail 0) (.logFrom tail dst) })
  | .logCopy tail dst src => .act fun _ t =>
    (t.store dst (t.buf src).data, { l with pc := .logBwrite tail dst src })
  | .logBwrite tail dst src => .act fun _ t =>
    (t.bwrite dst, { l with pc := .brelseWake src (.logRel tail dst) })
  -- write_head
  | .headFill again b => .act fun _ t =>
    (t.store b (Log.storeHead (header t.log.lh) (t.buf b).data), { l with pc := .headBwrite again b })
  | .headBwrite again b => .act fun _ t =>
    (t.bwrite b, { l with pc := .brelseWake b (.headNext again) })
  -- install_trans
  | .insLoop tail => .act fun _ t =>
    if tail < t.log.lh.length then
      (t, { l with pc := .bgetLock c.dev (c.geom.start + tail + 1) (.insLog tail) })
    else (t, { l with pc := .commitClear })
  | .insRead tail lbuf => .act fun _ t =>
    (t, { l with pc := .bgetLock c.dev (t.log.lh.getD tail 0) (.insDst tail lbuf) })
  | .insCopy tail lbuf dbuf => .act fun _ t =>
    (t.store dbuf (t.buf lbuf).data, { l with pc := .insBwrite tail lbuf dbuf })
  | .insBwrite tail lbuf dbuf => .act fun _ t =>
    (t.bwrite dbuf, { l with pc := .bunpinLock dbuf (some (tail, lbuf)) })
  | .commitClear => .act fun _ t =>
    (t.setLog { t.log with lh := [] }, { l with pc := .bgetLock c.dev c.geom.start (.head true) })
  | .endRelock => .acquire .log { l with pc := .endClear }
  | .endClear => .act fun _ t =>
    (t.setLog { t.log with committing := false }, { l with pc := .endUnlock false })
  | .panic _ _ => .halt

end Prog

variable {n m : ℕ}

/-- Where `bcache.lock` is held. -/
def Pc.bcache : Pc m → Bool
  | .bgetScan _ _ _ | .bgetUnlock _ _ | .brelseDrop _ _ | .brelseUnlock _ | .bpinInc _ _
  | .bpinUnlock _ _ | .bunpinDec _ _ | .bunpinUnlock _ _ => true
  | .panic b _ => b
  | _ => false

/-- Where `log.lock` is held. -/
def Pc.log : Pc m → Bool
  | .beginTest | .beginSleep | .beginUnlock | .writeTest _ | .writeAdd _ | .writeUnlock _ | .endDec
  | .endUnlock _ | .endClear => true
  | .bpinLock _ log | .bpinInc _ log | .bpinUnlock _ log => log
  | .panic _ b => b
  | _ => false

/-- The buffer that `bread` has locked. -/
def Pc.locks : Pc m → Option (Fin m)
  | .breadValid b _ | .breadDisk b _ => some b
  | _ => none

/-- The buffer that `bread` is about to return, or that `brelse` has not yet counted out. -/
def Pc.takes : Pc m → Option (Fin m)
  | .breadValid b _ | .breadDisk b _ | .brelseLock b _ | .brelseDrop b _ => some b
  | _ => none

/-- The buffer a process waits for. -/
def Pc.waits : Pc m → Option (Fin m)
  | .bgetUnlock b _ | .bgetSleep b _ => some b
  | _ => none

/-- The process has the sleep-lock of `b`. -/
def Local.has (l : Local m) (b : Fin m) : Prop := b ∈ l.held ∨ l.pc.locks = some b

/-- The process is a holder of `b`: `bget` gave it the buffer and `brelse` has not yet counted
it out. -/
def Local.holds (l : Local m) (b : Fin m) : Prop := b ∈ l.held ∨ l.pc.takes = some b

instance (l : Local m) (b : Fin m) : Decidable (l.has b) := inferInstanceAs (Decidable (_ ∨ _))

instance (l : Local m) (b : Fin m) : Decidable (l.holds b) := inferInstanceAs (Decidable (_ ∨ _))

/-- The locks a process holds. -/
def held (_ : Fin n) (l : Local m) : Lock m → Prop
  | .bcache => l.pc.bcache = true
  | .buf b => l.has b
  | .log => l.pc.log = true

/-- What has happened so far. -/
structure Hist (n m : ℕ) where
  /-- Where the processes are. -/
  pcs : Fin n → Local m
  /-- The calls of `bpin` less those of `bunpin`. -/
  pins : Fin m → ℕ
  /-- When `brelse` last brought the reference count to 0; 0 if it never did. -/
  zeroed : Fin m → ℕ
  clock : ℕ
  /-- What was last stored to each block, by an operation or as part of the log. -/
  store : ℕ → ℕ → Block
  /-- How many blocks of `log.lh` are installed. -/
  installed : ℕ

/-- Note a store to the block of `b`. -/
def Hist.write (h : Hist n m) (b : Buf) (x : Block) : Hist n m :=
  { h with store := update h.store b.dev (update (h.store b.dev) b.blockno x) }

/-- The history after a step, apart from where the processes are. -/
def record (l : Local m) (r : Req m) (t : Data m) (h : Hist n m) : Hist n m :=
  match l.pc with
  | .user =>
    match r with
    | .edit b x => h.write (t.buf b) x
    | _ => h
  | .bpinInc b _ => { h with pins := update h.pins b (h.pins b + 1) }
  | .bunpinDec b k =>
    match k with
    | some (tail, _) =>
      { h with pins := update h.pins b (h.pins b - 1), installed := tail + 1 }
    | none => { h with pins := update h.pins b (h.pins b - 1) }
  | .brelseDrop b _ =>
    if (t.buf b).refcnt = 1 then
      { h with zeroed := update h.zeroed b (h.clock + 1), clock := h.clock + 1 }
    else h
  | .logCopy _ dst src => h.write (t.buf dst) (t.buf src).data
  | .headFill _ b => h.write (t.buf b) (Log.storeHead (header t.log.lh) (t.buf b).data)
  | .commitClear => { h with installed := 0 }
  | _ => h

def note (c : Conf) (p : Fin n) (l : Local m) (r : Req m) (t : Data m) (h : Hist n m) : Hist n m :=
  { record l r t h with pcs := update h.pcs p ((prog c p l).target r t l) }

/-- `binit`. -/
def binit : Links (Fin m) := (List.finRange m).foldl (fun k b => k.push b) ⟨fun _ => none, fun _ => none⟩

/-- A process that holds nothing. -/
def Local.idle : Local m := ⟨∅, ∅, false, .user⟩

/-- After `binit` and `initlog`, with the contents `disk` of the disk. -/
def boot (disk : ℕ → ℕ → Block) : State (Fin n) (Lock m) (Data m) (Local m) :=
  start (fun _ => .idle) ⟨fun _ => ⟨false, 0, 0, 0, fun _ => 0⟩, binit, disk, ⟨[], 0, false⟩⟩

def Hist.boot (disk : ℕ → ℕ → Block) : Hist n m := ⟨fun _ => .idle, fun _ => 0, fun _ => 0, 0, disk, 0⟩

end Xv6.Bio
