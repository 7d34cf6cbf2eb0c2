import Xv6.Mkfs.Holes
import Xv6.Fs.Bitmap
import Xv6.Fs.Runs

/-!
# Booting from the images of `mkfs`

The kernel reads the free map from its bits, and the inodes and the entries of the root directory
from their bytes. `Image.Holds` says what these are before the rounding of `main`, which changes only
the size of the root directory, and a directory without a hole reads as zeros behind its last entry.

* `mkfs_boot`: the kernel can start from an image of `main` without a hole (`Boot`), and finds the
  files and their contents.
-/

namespace Xv6.Mkfs

open Function Fs Lib

/-- The system that starts from an image: the free map is the one on disk, and the first process is
in the root directory. -/
def Image.boot (m : Image) : Sys :=
  { bootSys with
    fs := { m.view with
      used := fun b => decide (b < mkfsSb.size) && Bitmap.used mkfsSb m.img b
      itable := mkfsImage.itable
      inuse := 1 } }

/-- The bits that `balloc` sets. -/
theorem bit_foldl_setBit {j : ℕ} (hj : j < bpb) (n : ℕ) :
    Bitmap.bit ((List.range n).foldl setBit zeroes) j = decide (j < n) := by
  induction n with
  | zero =>
    have h0 : Bytes.get zeroes (j / 8) = 0 := Bytes.get_zero _
    simp [Bitmap.bit, h0]
  | succ n ih =>
    rw [List.range_succ, List.foldl_append]
    refine (Bitmap.bit_mark hj).trans ?_
    rw [ih, ← Bool.decide_or]
    exact decide_eq_decide.2 Nat.lt_succ_iff_lt_or_eq.symm

section Boot

variable {m : Image} {files : List InFile} (h : m.Holds files)

include h

theorem finish_used : m.finish.boot.fs.used = m.finish.view.used := by
  have hf := h.fit
  funext b
  change (decide (b < mkfsSb.size) && Bitmap.bit (m.finish.img (mkfsSb.bblock b)) (b % bpb)) =
    decide (b < m.freeblock)
  by_cases hb : b < mkfsSb.size
  · have hlt : b < bpb := hb.trans (by decide)
    have hblock : mkfsSb.bblock b = mkfsSb.bmapstart := by
      rw [Superblock.bblock, Nat.div_eq_of_lt hlt, Nat.zero_add]
    have himg : m.finish.img mkfsSb.bmapstart = (List.range m.freeblock).foldl setBit zeroes := by
      simp only [Image.finish, Image.store, update_self]
    rw [decide_eq_true hb, Bool.true_and, hblock, himg, Nat.mod_eq_of_lt hlt, bit_foldl_setBit hlt]
  · rw [decide_eq_false hb, decide_eq_false (by omega)]
    rfl

theorem boot_dinode (j : ℕ) :
    m.finish.boot.fs.dinode j = if j = rootino then m.rounded else m.view.dinode j :=
  (congrFun (congrArg State.dinode (finish_view h)) j).trans (update_apply ..)

theorem boot_data : m.finish.boot.fs.data = m.view.data := by
  change m.finish.view.data = _
  rw [finish_view h]

theorem boot_other {j : ℕ} (hj : j < mkfsSb.ninodes) (hr : j ≠ rootino) :
    m.finish.boot.fs.dinode j = m.inode j := by
  rw [boot_dinode h, if_neg hr, Image.view_dinode hj]

/-- File `k` is inode `k + 2`. -/
theorem boot_file {k : ℕ} (hk : k < files.length) : k + 2 < mkfsSb.ninodes ∧
    m.finish.boot.fs.dinode (k + 2) = m.inode (k + 2) := by
  have hlt : k + 2 < mkfsSb.ninodes := lt_of_lt_of_le (by rw [h.next]; omega) h.few
  exact ⟨hlt, boot_other h hlt (by unfold rootino; omega)⟩

variable (hwf : m.finish.boot.fs.Wf)

include hwf

/-- An entry of the root directory. -/
theorem boot_byte {k j : ℕ} (hk : m.finish.boot.fs.HasEntry rootino k) (hj : j < direntSize) :
    m.finish.boot.fs.byte rootino (direntSize * k + j) =
      ((dirents files)[k]?.getD []).getD j 0 := by
  have hlt : direntSize * k + j < (m.finish.boot.fs.dinode rootino).size := by
    have := hk.2.2
    rw [Nat.mul_succ] at this
    omega
  have hne := (hwf.noHoles rootino hk.1 (by rw [hk.2.1]; nofun)).2 ((direntSize * k + j) / bsize)
    ((Nat.div_mul_le_self _ _).trans_lt hlt)
  rw [State.byte]
  rw [boot_dinode h, if_pos rfl, boot_data h] at hne ⊢
  rw [← getD_flatten (fun _ => length_of_mem_dirents) hj]
  exact h.dir.bytes _ hne

theorem boot_entry {k e : ℕ} {name : List UInt8} (hk : (dirents files)[k]? = some (direntBytes e name))
    (he : 0 < e ∧ e < 2 ^ 16) : m.finish.boot.fs.tree.ent rootino k = e ∧
      ∀ j < dirsiz, m.finish.boot.fs.tree.name rootino k j = padded name j := by
  have hhas : m.finish.boot.fs.HasEntry rootino k := by
    refine ⟨(by decide : rootino < mkfsSb.ninodes), ?_, ?_⟩ <;> rw [boot_dinode h, if_pos rfl]
    · exact h.root.1
    · obtain ⟨hlt, -⟩ := List.getElem?_eq_some_iff.1 hk
      rw [dirents_length, ← h.next] at hlt
      change _ ≤ ((m.inode rootino).size / bsize + 1) * bsize
      rw [h.size]
      simp only [direntSize, bsize]
      omega
  have hbyte : ∀ j < direntSize, m.finish.boot.fs.byte rootino (direntSize * k + j) =
      (Dirent.encode ⟨e, padded name⟩ j).getD 0 := by
    intro j hj
    rw [boot_byte h hwf hhas hj, hk]
    simp [direntBytes, hj]
  have hinum : m.finish.boot.fs.inum rootino k = e :=
    (congrArg₂ (fun a b : UInt8 => a.toNat + 256 * b.toNat) (hbyte 0 (by decide)) (hbyte 1 (by decide))).trans
      (State.Dirent.encode_inum he.2 _)
  refine ⟨(if_pos hhas).trans hinum, fun j hj => ?_⟩
  refine (if_pos ⟨hhas, by omega, hj⟩).trans ?_
  rw [Nat.add_assoc, hbyte _ (Nat.add_lt_add_left hj 2), State.Dirent.encode_name]

/-- The entries behind the last file. -/
theorem boot_ent_zero {k : ℕ} (hk : files.length + 2 ≤ k) : m.finish.boot.fs.tree.ent rootino k = 0 := by
  change (if m.finish.boot.fs.HasEntry rootino k then _ else 0) = 0
  split_ifs with hhas
  · have hbyte : ∀ j < direntSize, m.finish.boot.fs.byte rootino (direntSize * k + j) = 0 := by
      intro j hj
      rw [boot_byte h hwf hhas hj, List.getElem?_eq_none (by rwa [dirents_length])]
      rfl
    exact congrArg₂ (fun a b : UInt8 => a.toNat + 256 * b.toNat) (hbyte 0 (by decide)) (hbyte 1 (by decide))
  · rfl

/-- File `k` has entry `k + 2` and inode `k + 2`. -/
theorem boot_named {k : ℕ} (h2 : 2 ≤ k) (hk : k < files.length + 2) :
    m.finish.boot.fs.tree.ent rootino k = k ∧ m.finish.boot.fs.tree.type k = .file ∧
      m.finish.boot.fs.tree.nlink k = 1 := by
  obtain ⟨k, rfl⟩ := Nat.exists_eq_add_of_le' h2
  have hlen : k < files.length := by omega
  have hfile := List.getElem?_eq_getElem hlen
  obtain ⟨⟨ht, hn⟩, -⟩ := h.file k _ hfile
  obtain ⟨hlt, hd⟩ := boot_file h hlen
  refine ⟨(boot_entry h hwf (dirents_file hfile) ⟨by omega, hlt.trans (by decide)⟩).1, ?_, ?_⟩
  · rw [State.tree_type hlt, hd, ht]
  · rw [State.tree_nlink hlt (by rw [hd, ht]; nofun), hd, hn]

theorem boot_ok : Boot m.finish.boot where
  toIdle := bootSys_idle (fun _ => rfl) rfl
  wf := hwf
  small := (by decide : mkfsSb.ninodes ≤ 2 ^ 16)
  aligned := by
    rw [boot_dinode h, if_pos rfl]
    exact Dvd.dvd.mul_left (by decide) _
  unused := by
    rw [State.tree_type (by decide : 0 < mkfsSb.ninodes), boot_other h (by decide) (by decide), h.unused]
  root := by
    have hlt : rootino < mkfsSb.ninodes := by decide
    have hd := boot_dinode h rootino
    rw [if_pos rfl] at hd
    have ht : (m.finish.boot.fs.dinode rootino).type = .dir := by rw [hd]; exact h.root.1
    refine ⟨(State.tree_type hlt).trans ht, ?_⟩
    rw [State.tree_nlink hlt (by rw [ht]; nofun), hd]
    exact h.root.2
  dot := by
    obtain ⟨h1, h2⟩ := boot_entry h hwf (k := 0) rfl (by decide)
    exact ⟨h1, State.tree_name_padded h2 (by decide)⟩
  dotdot := by
    obtain ⟨h1, h2⟩ := boot_entry h hwf (k := 1) rfl (by decide)
    exact ⟨h1, State.tree_name_padded h2 (by decide)⟩
  named k h2 hne := by
    have hk : k < files.length + 2 := by
      by_contra hge
      exact hne (boot_ent_zero h hwf (Nat.not_lt.1 hge))
    obtain ⟨he, ht, -⟩ := boot_named h hwf h2 hk
    rw [he, ht]
    exact ⟨nofun, by unfold rootino; omega⟩
  files i hi hr := by
    obtain ⟨hlt, ht⟩ := State.type_of_tree hi
    rw [boot_other h hlt hr] at ht
    have h0 : i ≠ 0 := by
      rintro rfl
      exact hi (ht.symm.trans h.unused)
    have hlast : i < files.length + 2 := by
      by_contra hge
      exact hi (ht.symm.trans (h.free i hlt (h.next ▸ Nat.not_lt.1 hge)))
    have h2 : 2 ≤ i := by
      unfold rootino at hr
      omega
    obtain ⟨-, htype, hlink⟩ := boot_named h hwf h2 hlast
    refine ⟨by rw [htype]; nofun, hlink, i, h2, fun k' hk' => ?_⟩
    by_cases hk : k' < files.length + 2
    · rw [(boot_named h hwf hk' hk).1]
    · rw [boot_ent_zero h hwf (Nat.not_lt.1 hk)]
      omega

end Boot

/-- **The kernel can start from the image of `mkfs`** if the number of entries is not a multiple of
64, and every file has its contents. -/
theorem mkfs_boot {files : List InFile} (h : Fit files) (h64 : (files.length + 2) % 64 ≠ 0) :
    ∃ m, main files start = .ok ((), m) ∧ Boot m.boot ∧ ∀ (k : ℕ) (f : InFile), files[k]? = some f →
      m.boot.fs.tree.ent rootino (k + 2) = k + 2 ∧
      (∀ j < dirsiz, m.boot.fs.tree.name rootino (k + 2) j = padded (skipUnderscore (shortname f.arg)) j) ∧
      (m.boot.fs.dinode (k + 2)).size = f.content.length ∧
      ∀ o < f.content.length, m.boot.fs.byte (k + 2) o = f.content.getD o 0 := by
  obtain ⟨m, hm, hr⟩ := main_run h
  have hwf : m.finish.boot.fs.Wf := (finish_wf hm (hm.size_mod.2 h64)).of_table rfl (finish_used hm) rfl
    rfl fun _ hl => absurd hl.2 Bool.false_ne_true
  refine ⟨m.finish, hr, boot_ok hm hwf, fun k f hk => ?_⟩
  obtain ⟨hlen, -⟩ := List.getElem?_eq_some_iff.1 hk
  obtain ⟨⟨ht, -⟩, hhas⟩ := hm.file k f hk
  obtain ⟨hlt, hd⟩ := boot_file hm hlen
  obtain ⟨he, hname⟩ := boot_entry hm hwf (dirents_file hk) ⟨by omega, hlt.trans (by decide)⟩
  refine ⟨he, hname, by rw [hd, hhas.size], fun o ho => ?_⟩
  have hne := (hwf.noHoles (k + 2) hlt (by rw [hd, ht]; nofun)).2 (o / bsize)
    ((Nat.div_mul_le_self _ _).trans_lt (by rwa [hd, hhas.size]))
  rw [State.byte]
  rw [hd, boot_data hm] at hne ⊢
  exact hhas.bytes o hne

end Xv6.Mkfs
