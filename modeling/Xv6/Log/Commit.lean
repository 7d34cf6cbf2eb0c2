import Xv6.Param

/-!
# The redo log of `kernel/log.c`

`commit` and `recover_from_log` with every disk write they make. A machine (`Mem`)
holds the disk, what `bread` returns for each block (a buffer of the cache, or the
disk block when the block is not cached), the in-memory header `log.lh`, and the
sequence of block writes made so far. `bwrite` is the only function that changes the
disk, one block at a time, so a crash leaves the disk as some prefix of the writes
made it (`diskAfter`).

On disk the header is a block of words: word 0 is `n`, word `i + 1` is `block[i]`.
`write_head` stores `n` and the first `n` entries only, so older entries stay in the
block behind them.
-/

namespace Xv6.Log

open Function Lib

/-- Disk contents by block number. -/
abbrev Disk := ℕ → Block

/-- The log geometry of the superblock: `log.start` and `log.size`. -/
structure Geom where
  start : ℕ
  size : ℕ
  /-- The region holds at least the header block. -/
  size_pos : 0 < size

/-- `b` lies in the log region. -/
def Geom.Inside (g : Geom) (b : ℕ) : Prop := g.start ≤ b ∧ b < g.start + g.size

instance (g : Geom) (b : ℕ) : Decidable (g.Inside b) := inferInstanceAs (Decidable (_ ∧ _))

/-- `struct logheader`: entries from `n` on are leftovers. -/
structure Header where
  n : ℕ
  block : ℕ → ℕ

/-- The memory of the machine and its disk. -/
structure Mem where
  disk : Disk
  buf : Disk
  lh : Header
  trace : List (ℕ × Block)

/-- Power on: nothing is cached, no header is loaded. -/
def boot (d : Disk) : Mem := ⟨d, d, ⟨0, fun _ => 0⟩, []⟩

/-- Change the data of a buffer, not the disk. -/
def Mem.setBuf (m : Mem) (b : ℕ) (x : Block) : Mem := { m with buf := update m.buf b x }

/-- `bwrite`: write a buffer to its disk block. -/
def Mem.bwrite (m : Mem) (b : ℕ) : Mem :=
  { m with disk := update m.disk b (m.buf b), trace := m.trace ++ [(b, m.buf b)] }

/-- The body both copying loops share: `memmove(to->data, from->data); bwrite(to)`. -/
def Mem.copyTo (m : Mem) (src dst : ℕ) : Mem := (m.setBuf dst (m.buf src)).bwrite dst

/-- `install_trans`: copy each log block to its home location. -/
def installTrans (g : Geom) (m : Mem) : Mem :=
  (List.range m.lh.n).foldl (fun m' tail => m'.copyTo (g.start + tail + 1) (m.lh.block tail)) m

/-- The header word `n` as the C `int` it is: a negative count runs no loop. -/
def headN (x : Block) : ℕ := if x.word 0 < 2 ^ 31 then x.word 0 else 0

/-- `read_head`: load the header block into `log.lh`. -/
def readHead (g : Geom) (m : Mem) : Mem :=
  let x := m.buf g.start
  { m with lh := ⟨headN x, fun i => if i < headN x then x.word (i + 1) else m.lh.block i⟩ }

/-- The header block with `n` and the first `n` entries of `lh` stored in it. -/
def storeHead (lh : Header) (x : Block) : Block :=
  (List.range lh.n).foldl (fun x i => x.setWord (i + 1) (lh.block i)) (x.setWord 0 lh.n)

/-- `write_head`: store `log.lh` in the header block and write it to disk. -/
def writeHead (g : Geom) (m : Mem) : Mem :=
  (m.setBuf g.start (storeHead m.lh (m.buf g.start))).bwrite g.start

/-- `log.lh.n = 0`. -/
def Mem.clearHead (m : Mem) : Mem := { m with lh := { m.lh with n := 0 } }

/-- `recover_from_log`. -/
def recoverFromLog (g : Geom) (m : Mem) : Mem :=
  writeHead g (installTrans g (readHead g m)).clearHead

/-- `write_log`: copy each modified block from the cache to its log block. -/
def writeLog (g : Geom) (m : Mem) : Mem :=
  (List.range m.lh.n).foldl (fun m' tail => m'.copyTo (m.lh.block tail) (g.start + tail + 1)) m

/-- `commit`. -/
def commit (g : Geom) (m : Mem) : Mem :=
  if 0 < m.lh.n then
    writeHead g (installTrans g (writeHead g (writeLog g m))).clearHead
  else m

/-- A transaction: home blocks and their new contents, in the order they entered `log.lh`. -/
abbrev Txn := List (ℕ × Block)

/-- What the operations of a transaction leave for `commit`: the modified buffers,
pinned in the cache, and their block numbers in `log.lh`. -/
def Mem.load (m : Mem) (t : Txn) : Mem :=
  { m with
    buf := t.foldl (fun d p => update d p.1 p.2) m.buf
    lh := ⟨t.length, fun i => ((t[i]?).map Prod.fst).getD (m.lh.block i)⟩ }

/-- The transactions `begin_op` and `log_write` can hand to `commit`: distinct 32-bit
block numbers outside the log region, as many as the header and the log can hold. -/
structure Txn.Ok (g : Geom) (t : Txn) : Prop where
  nodup : (t.map Prod.fst).Nodup
  uint : ∀ p ∈ t, p.1 < 2 ^ 32
  home : ∀ p ∈ t, ¬ g.Inside p.1
  fits : t.length ≤ min logsize (g.size - 1)

theorem Txn.Ok.of_blocks {g : Geom} {bs : List ℕ} (hd : bs.Nodup) (hf : bs.length ≤ min logsize (g.size - 1))
    (hh : ∀ b ∈ bs, b < 2 ^ 32 ∧ ¬ g.Inside b) (x : ℕ → Block) : Txn.Ok g (bs.map fun b => (b, x b)) where
  nodup := by simpa [Function.comp_def] using hd
  uint := by simpa using fun b hb => (hh b hb).1
  home := by simpa using fun b hb => (hh b hb).2
  fits := by simpa using hf

/-- Run and commit the transactions one after another. -/
def commitAll (g : Geom) (m : Mem) (ts : List Txn) : Mem :=
  ts.foldl (fun m t => commit g (m.load t)) m

/-- The disk after a sequence of block writes. -/
def diskAfter (d : Disk) (ws : List (ℕ × Block)) : Disk :=
  ws.foldl (fun d w => update d w.1 w.2) d

/-- The disk on which a first recovery starts: `d` with the first `j` of the writes that
committing `ts` makes. -/
def crashCommit (g : Geom) (d : Disk) (ts : List Txn) (j : ℕ) : Disk :=
  diskAfter d ((commitAll g (boot d) ts).trace.take j)

/-- A recovery interrupted after its first `j` writes. -/
def crashRecover (g : Geom) (d : Disk) (j : ℕ) : Disk :=
  diskAfter d ((recoverFromLog g (boot d)).trace.take j)

/-- Recoveries interrupted after `js` writes each, then one that completes. -/
def recoverAll (g : Geom) (d : Disk) (js : List ℕ) : Disk :=
  (recoverFromLog g (boot (js.foldl (crashRecover g) d))).disk

/-- A write of a header with `n > 0`: the commit point of a transaction. -/
def IsCommitPoint (g : Geom) (w : ℕ × Block) : Bool := w.1 == g.start && decide (0 < headN w.2)

end Xv6.Log
