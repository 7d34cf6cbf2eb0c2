import Xv6.Fs.Safe
import Xv6.Fs.Runs

/-!
# Files never acquire holes

From a file system in which no block is owned twice, the operations on files and the calls of
processes keep every file free of holes, whatever the offsets of open files are: `no_holes`. So
reading allocates nothing. If blocks may be owned twice, writing to one file can make a hole in
another: `shared_block_hole`.
-/

namespace Xv6.Fs

open Lib

/-! ## Reading -/

/-- What reading keeps: it marks no block and logs nothing. -/
def Unmarked (lost : ℕ → Prop) (fs₀ fs : State) : Prop :=
  fs.WfBut lost ∧ fs.used = fs₀.used ∧ fs.logged = fs₀.logged

theorem ilock_unmarked {lost : ℕ → Prop} {fs₀ fs : State} (h : Unmarked lost fs₀ fs) (i : ℕ) :
    Outcome (ilock i fs) (fun _ fs' => Unmarked lost fs₀ fs' ∧ fs'.Locked i) Benign := by
  rcases ilock_run h.1 i with ⟨hr, href, hf, hi⟩ | ⟨hr, -⟩ | ⟨hr, -⟩ | ⟨hr, -⟩
  · rw [hr]
    exact .ok ⟨⟨h.1.load hf hi, h.2⟩, State.load_locked_self href⟩
  · rw [hr]; exact .error nofun
  · rw [hr]; exact .error nofun
  · rw [hr]; exact .error nofun

/-- **Reading a file** allocates nothing and writes nothing to the log. -/
theorem sysRead_unmarked {lost : ℕ → Prop} {fs₀ : State} {p : ℕ} (fd : ℕ) (dst : ℕ → Bool) (n r : ℤ) :
    Safe (Unmarked lost fs₀) (sysRead p fd dst n r) :=
  sysRead_keeps (fun _ h => h.1) (fun _ i h => ilock_unmarked h i) fd dst n r

/-! ## Runs -/

/-- Operations on files, and calls of processes. -/
inductive SysOp
  | fs (op : FsOp)
  | dirlink (dp : ℕ) (name : List UInt8) (inum : ℕ)
  | call (p : ℕ) (c : Call)

namespace SysOp

/-- Run an operation; a process without a current directory does not run. -/
def exec : SysOp → SysM Unit
  | fs op => onFs op.exec
  | dirlink dp name inum => do let _ ← onFs (Fs.dirlink dp name inum)
  | call p c => do
    let s ← get
    match (s.procs p).cwd with
    | none => return ()
    | some cwd => do let _ ← c.run p cwd

/-- What the caller has to see to: the inodes that are worked on are locked, and a process holds
a reference to its current directory. -/
def Ready (s : Sys) : SysOp → Prop
  | fs op => op.Ready s.fs
  | dirlink dp _ _ => s.fs.Locked dp
  | call p _ => ∀ cwd, (s.procs p).cwd = some cwd → 0 < (s.fs.itable cwd).ref

/-- The state after an operation that returns. -/
def step (s : Sys) (op : SysOp) : Option Sys :=
  match op.exec s with
  | .ok (_, s') => some s'
  | .error _ => none

theorem exec_safe {lost : ℕ → Prop} {s : Sys} (h : s.fs.WfBut lost) (op : SysOp) (hop : op.Ready s) :
    Outcome (op.exec s) (fun _ s' => s'.fs.WfBut lost) Benign := by
  cases op with
  | fs op => exact onFs_keeps (K := fun s => s.WfBut lost) (op.exec_wf h hop)
  | dirlink dp name inum =>
    have hlink := (stable_wfBut lost).dirlink h hop (fun _ => trivial) name inum
    exact (onFs_keeps (hlink.imp fun _ _ hs => hs.inv)).bind fun _ _ hs => .ok hs
  | call p c =>
    dsimp only [exec]
    rw [Run.get_bind]
    cases hcwd : (s.procs p).cwd with
    | none => exact .ok h
    | some cwd => exact ((stable_wfBut lost).call_all h (hop cwd hcwd) c).bind fun _ _ hs => .ok hs

end SysOp

/-- **No file acquires a hole**, from any state in which no file has one, no block is owned twice,
and the blocks that are owned are marked used. So `readi` changes nothing: it allocates no block and
writes nothing to the log. `bmap` is never asked for a block out of range. -/
theorem no_holes {s₀ s : Sys} (h₀ : s₀.fs.WfBut fun _ => True)
    (hr : Reach SysOp.step (fun s op => op.Ready s) s₀ s) :
    NoHoles s.fs.sb s.fs.dinode s.fs.data ∧
    (∀ i dst off n, s.fs.Locked i → n < 2 ^ 32 → ∃ r, readi i dst off n s.fs = .ok (r, s.fs)) ∧
    (∀ p fd dst n r, Outcome (sysRead p fd dst n r s)
      (fun _ s' => s'.fs.used = s.fs.used ∧ s'.fs.logged = s.fs.logged)
      (fun e => e ≠ .panic "bmap: out of range")) ∧
    ∀ op : SysOp, op.Ready s → Outcome (op.exec s)
      (fun _ s' => NoHoles s'.fs.sb s'.fs.dinode s'.fs.data)
      (fun e => e ≠ .panic "bmap: out of range") := by
  have h : s.fs.WfBut fun _ => True := by
    refine hr.inv (I := fun s => s.fs.WfBut fun _ => True) h₀ fun s op s' h hop hs => ?_
    unfold SysOp.step at hs
    split at hs
    · next s'' he =>
      cases hs
      exact (SysOp.exec_safe h op hop).of_ok he
    · exact absurd hs nofun
  refine ⟨h.noHoles, fun i dst off n hl hn => readi_still (h.at hl) dst off hn,
    fun p fd dst n r => ?_, fun op hop => ?_⟩
  · exact (sysRead_unmarked fd dst n r s ⟨h, rfl, rfl⟩).mono (fun _ _ hs => hs.2) fun e he hc =>
      he (.inr hc)
  · exact (SysOp.exec_safe h op hop).mono (fun _ _ hs => hs.noHoles) fun e he hc => he (.inr hc)

/-- A process makes a file. -/
theorem no_holes_open : ∃ s, SysOp.step bootSys (.call 0 (.open [97] 0x201)) = some s ∧
    s.fs.tree.type 2 = .file ∧ NoHoles s.fs.sb s.fs.dinode s.fs.data := by
  obtain ⟨s, hs, ht⟩ : ∃ s, SysOp.step bootSys (.call 0 (.open [97] 0x201)) = some s ∧
      s.fs.tree.type 2 = .file := exists_some (by decide +kernel)
  have hready : SysOp.Ready bootSys (.call 0 (.open [97] 0x201)) := by
    intro cwd hcwd
    rw [← Option.some.inj hcwd]
    decide
  exact ⟨s, hs, ht,
    (no_holes (mkfsImage_wf.mono fun _ hf => hf.elim) (.tail .refl hready hs)).1⟩

/-! ## Blocks that are owned twice -/

/-- The indirect block of file 2 is the first block of file 3. -/
def sharedDinode (i : ℕ) : Dinode where
  type := if i = 2 ∨ i = 3 then .file else .free
  major := 0
  minor := 0
  nlink := 1
  size := if i = 2 then 13 * bsize else if i = 3 then bsize else 0
  addrs := fun k => if i = 2 ∧ k ≤ ndirect then 100 + k else if i = 3 ∧ k = 0 then 112 else 0

/-- A file system without holes in which the two files share a block; file 3 is locked. -/
def sharedImage : State where
  sb := mkfsSb
  used := fun b => decide (b < 200)
  dinode := sharedDinode
  data := fun b => if b = 112 then Bytes.setWord (fun _ => 0) 0 113 else fun _ => 0
  logged := []
  itable := fun i => ⟨if i = 3 then 1 else 0, decide (i = 3), sharedDinode i⟩
  inuse := 1

theorem sharedImage_noHoles : NoHoles sharedImage.sb sharedImage.dinode sharedImage.data := by
  intro i _ ht
  have hi : i = 2 ∨ i = 3 := by
    by_contra hne
    exact ht (if_neg hne)
  have hlast : (sharedDinode 2).slot sharedImage.data 13 ≠ 0 := by decide
  rcases hi with rfl | rfl
  · refine ⟨by decide, fun bn hbn => ?_⟩
    have hlt : bn < 13 := Nat.lt_of_mul_lt_mul_right hbn
    rcases Nat.lt_or_ge bn ndirect with hd | hd
    · have hslot : fileSlot bn = bn := if_pos hd
      change (sharedDinode 2).slot _ _ ≠ 0
      rw [hslot, slot_of_le hd.le]
      exact ne_of_eq_of_ne (if_pos ⟨rfl, hd.le⟩) (by omega)
    · have h12 : bn = 12 := by
        unfold ndirect at hd
        omega
      rw [h12]
      exact hlast
  · refine ⟨by decide, fun bn hbn => ?_⟩
    have h0 : bn = 0 := by
      have : bn < 1 := Nat.lt_of_mul_lt_mul_right (hbn.trans_eq (Nat.one_mul bsize).symm)
      omega
    rw [h0]
    decide

/-- A write of zeros to file 3 makes a hole in file 2. -/
theorem shared_block_hole :
    NoHoles sharedImage.sb sharedImage.dinode sharedImage.data ∧ sharedImage.Locked 3 ∧
      ∃ s, FsOp.step sharedImage (.writei 3 (fun _ => some 0) 0 4) = some s ∧
        ¬ NoHoles s.sb s.dinode s.data := by
  obtain ⟨s, hs, hn, ht, hsz, h0⟩ :
      ∃ s, FsOp.step sharedImage (.writei 3 (fun _ => some 0) 0 4) = some s ∧ s.sb.ninodes = 200 ∧
        (s.dinode 2).type = .file ∧ (s.dinode 2).size = 13 * bsize ∧
        (s.dinode 2).slot s.data (fileSlot 12) = 0 := exists_some rfl
  refine ⟨sharedImage_noHoles, ⟨by decide, by decide⟩, s, hs, fun hno => ?_⟩
  refine (hno 2 (by rw [hn]; decide) (by rw [ht]; exact nofun)).2 12 ?_ h0
  rw [hsz]
  decide

end Xv6.Fs
