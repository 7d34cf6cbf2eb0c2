import Xv6.Lib.Bytes

/-!
# Kernel parameters

The constants of `kernel/param.h`, `kernel/fs.h` and `mkfs/mkfs.c` that the models use.
-/

namespace Xv6

/-- `NPROC`: size of the process table. -/
def nproc : ℕ := 64

/-- `NOFILE`: open files per process. -/
def nofile : ℕ := 16

/-- `NFILE`: open files per system. -/
def nfile : ℕ := 100

/-- `NINODE`: size of the in-memory inode table. -/
def ninode : ℕ := 50

/-- `NDEV`: one past the largest major device number. -/
def ndev : ℕ := 10

/-- `MAXOPBLOCKS`: the blocks one file-system operation may write. -/
def maxopblocks : ℕ := 10

/-- `LOGSIZE`: max data blocks in the log. -/
def logsize : ℕ := maxopblocks * 3

/-- `nlog` of `mkfs`, which becomes `sb.nlog` and `log.size`: header block included. -/
def nlog : ℕ := logsize

/-- `BSIZE`: bytes per block. -/
def bsize : ℕ := 1024

/-- A disk block. -/
abbrev Block := Lib.Bytes bsize

end Xv6
