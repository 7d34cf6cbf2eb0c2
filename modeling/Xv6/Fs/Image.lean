import Xv6.Fs.Own
import Xv6.Fs.Dir

/-!
# The file system that `mkfs` builds

The image `mkfs` writes when it is given no files to copy, at boot: the root directory with
its two entries, and the reference of the first process to it. Witnesses and counterexamples
start from it.
-/

namespace Xv6.Fs

/-- The super block `mkfs` computes: `FSSIZE` is 2000 blocks, `NINODES` is 200, and the data
blocks begin after the boot block, the super block, the log, 13 blocks of inodes and one block
of free map. -/
def mkfsSb : Superblock where
  size := 2000
  nblocks := 2000 - (2 + nlog + 13 + 1)
  ninodes := 200
  inodestart := 2 + nlog
  bmapstart := 2 + nlog + 13

/-- The root directory of the image; `mkfs` rounds its size up to a block. -/
def rootDinode : Dinode where
  type := .dir
  major := 0
  minor := 0
  nlink := 1
  size := bsize
  addrs := fun k => if k = 0 then mkfsSb.datastart else 0

/-- The first block of the root directory. -/
def rootBlock : Block :=
  let entry (name : List UInt8) (k : ℕ) : UInt8 := (Dirent.encode ⟨rootino, padded name⟩ k).getD 0
  Lib.Bytes.write (Lib.Bytes.write (fun _ => 0) 0 direntSize (entry dot)) direntSize direntSize
    (entry dotdot)

/-- The image at boot. -/
def mkfsImage : State where
  sb := mkfsSb
  used := fun b => decide (b ≤ mkfsSb.datastart)
  dinode := fun i => if i = rootino then rootDinode else .zero
  data := fun b => if b = mkfsSb.datastart then rootBlock else fun _ => 0
  logged := []
  itable := fun i => ⟨if i = rootino then 1 else 0, false, .zero⟩
  inuse := 1

theorem rootDinode_slot (data : ℕ → Block) (σ : ℕ) :
    rootDinode.slot data σ = if σ = 0 then mkfsSb.datastart else 0 := by
  by_cases hσ : σ ≤ ndirect
  · exact slot_of_le hσ
  · rw [slot_of_ind_zero (by decide) hσ, if_neg]
    rintro rfl
    exact hσ (Nat.zero_le _)

/-- **A root directory of one block** and files without blocks are well formed. -/
theorem State.Wf.of_root {s : State} (hsb : s.sb = mkfsSb)
    (hu : ∀ b, s.used b = true ↔ b ≤ mkfsSb.datastart) (hroot : s.dinode rootino = rootDinode)
    (hfile : ∀ i, i ≠ rootino → (s.dinode i).type ≠ .free →
      (s.dinode i).size = 0 ∧ ∀ k ≤ ndirect, (s.dinode i).addrs k = 0)
    (hit : ∀ i, (s.itable i).valid = false) : s.Wf := by
  have hslot : ∀ {i σ}, (s.dinode i).type ≠ .free → (s.dinode i).slot s.data σ ≠ 0 →
      i = rootino ∧ σ = 0 ∧ (s.dinode i).slot s.data σ = mkfsSb.datastart := by
    intro i σ ht hne
    obtain rfl | hi := eq_or_ne i rootino
    · rw [hroot, rootDinode_slot] at hne ⊢
      split_ifs at hne ⊢ with hσ
      · exact ⟨rfl, hσ, rfl⟩
      · exact absurd rfl hne
    · exact absurd (slot_eq_zero (hfile i hi ht).2 σ) hne
  refine ⟨by rw [hsb]; decide, by rw [hsb]; decide, ⟨fun b hb => ?_, fun i _ ht σ hne => ?_,
    fun i _ ht j _ ht' σ τ hne he => ?_, fun b hb _ hub _ => ?_⟩, fun i _ ht => ?_, fun i hl => ?_⟩
  · rw [hsb] at hb
    exact (hu b).2 hb.le
  · rw [(hslot ht hne).2.2, hu, hsb]
    decide
  · obtain ⟨hi, hσ, -⟩ := hslot ht hne
    obtain ⟨hj, hτ, -⟩ := hslot ht' (he ▸ hne)
    exact ⟨hi.trans hj.symm, hσ.trans hτ.symm⟩
  · rw [hsb] at hb
    refine ⟨rootino, by rw [hsb]; decide, by rw [hroot]; decide, 0, ?_⟩
    rw [hroot, rootDinode_slot, if_pos rfl]
    exact hb.antisymm ((hu b).1 hub)
  · obtain rfl | hi := eq_or_ne i rootino
    · rw [hroot]
      refine ⟨by decide, fun bn hbn => ?_⟩
      have hbn : bn * bsize < 1 * bsize := by simpa [rootDinode] using hbn
      obtain rfl : bn = 0 := Nat.lt_one_iff.1 (Nat.lt_of_mul_lt_mul_right hbn)
      rw [rootDinode_slot]
      decide
    · rw [(hfile i hi ht).1]
      exact ⟨Nat.zero_le _, fun bn hbn => absurd hbn (Nat.not_lt_zero _)⟩
  · exact absurd hl.2 (by rw [hit]; exact Bool.false_ne_true)

theorem mkfsImage_type {i : ℕ} (h : (mkfsImage.dinode i).type ≠ .free) : i = rootino := by
  by_contra hne
  exact h (by simp [mkfsImage, hne, Dinode.zero])

theorem mkfsImage_wf : mkfsImage.Wf :=
  .of_root rfl (fun _ => decide_eq_true_iff) rfl (fun _ hi ht => absurd (mkfsImage_type ht) hi)
    fun _ => rfl

end Xv6.Fs
