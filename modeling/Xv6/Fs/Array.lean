import Xv6.Fs.View
import Xv6.Fs.Image
import Xv6.Lib.Reach

/-!
# Files as byte arrays

`State.content s i` is the contents of inode `i` as a list of bytes. On such lists `writei`
overwrites a run of bytes (`overwrite`), `readi` takes a run, and `itrunc` leaves nothing.

* `contents_behave`: this holds in every state of a run of these operations, from any file system
  in which no block is owned twice, the blocks that are owned and those before the data are marked
  used, and no file has holes.
* `boot_block_allocated`: the blocks before the data matter.
-/

namespace Xv6.Fs

open Lib

/-- The bytes `new` go to offset `off` of `old`. -/
def overwrite (old : List UInt8) (off : ℕ) (new : List UInt8) : List UInt8 :=
  old.take off ++ new ++ old.drop (off + new.length)

theorem length_overwrite {old new : List UInt8} {off : ℕ} (h : off ≤ old.length) :
    (overwrite old off new).length = max old.length (off + new.length) := by
  simp only [overwrite, List.length_append, List.length_take, List.length_drop]
  omega

theorem overwrite_nil (old : List UInt8) (off : ℕ) : overwrite old off [] = old := by
  simp [overwrite]

/-- Overwriting a run of bytes and then the run after it. -/
theorem overwrite_append {old xs ys : List UInt8} {off : ℕ} (h : off ≤ old.length) :
    overwrite (overwrite old off xs) (off + xs.length) ys = overwrite old off (xs ++ ys) := by
  have hlen : (old.take off ++ xs).length = off + xs.length := by
    rw [List.length_append, List.length_take, Nat.min_eq_left h]
  have htake : (overwrite old off xs).take (off + xs.length) = old.take off ++ xs := by
    rw [overwrite, ← hlen, List.take_left]
  have hdrop : (overwrite old off xs).drop (off + xs.length + ys.length) =
      old.drop (off + (xs ++ ys).length) := by
    rw [overwrite, ← hlen, List.drop_append, List.drop_eq_nil_of_le (by omega), List.nil_append,
      List.drop_drop, hlen, List.length_append]
    congr 1
    omega
  rw [overwrite, htake, hdrop, List.append_assoc (old.take off)]
  rfl

/-- Overwriting, byte by byte. -/
theorem map_range_overwrite {f g src : ℕ → UInt8} {size off t : ℕ} (hoff : off ≤ size)
    (hnew : ∀ o, off ≤ o → o < off + t → g o = src (o - off))
    (hold : ∀ o < size, o < off ∨ off + t ≤ o → g o = f o) :
    (List.range (max size (off + t))).map g =
      overwrite ((List.range size).map f) off ((List.range t).map src) := by
  have hlen : ((List.range (max size (off + t))).map g).length =
      (overwrite ((List.range size).map f) off ((List.range t).map src)).length := by
    rw [length_overwrite (by simpa using hoff)]
    simp
  refine List.ext_getElem hlen fun o h1 h2 => ?_
  rw [List.length_map, List.length_range] at h1
  simp only [overwrite, List.getElem_map, List.getElem_range, List.getElem_append, List.length_append,
    List.length_take, List.length_map, List.length_range, List.getElem_take, List.getElem_drop]
  split_ifs with ha hb
  · exact hold o (by omega) (by omega)
  · rw [hnew o (by omega) (by omega)]
    congr 1
    omega
  · rw [hold o (by omega) (by omega)]
    congr 1
    omega

namespace State

variable {lost : ℕ → Prop} {s s' : State} {i j : ℕ}

/-- The contents of inode `i`, on disk. -/
def content (s : State) (i : ℕ) : List UInt8 := (List.range (s.dinode i).size).map (s.byte i)

theorem length_content : (s.content i).length = (s.dinode i).size := by
  simp [content]

/-- A run of the contents. -/
theorem content_run (hd : (s.itable i).d = s.dinode i) {off m : ℕ} (h : off + m ≤ (s.dinode i).size) :
    s.memBytes i off m = ((s.content i).drop off).take m := by
  refine List.ext_getElem ?_ fun k h1 h2 => ?_
  · simp only [memBytes, List.length_map, List.length_range, List.length_take, List.length_drop,
      length_content]
    omega
  · simp only [memBytes, content, List.getElem_map, List.getElem_range, List.getElem_take,
      List.getElem_drop]
    rw [byte_eq_memByte hd]

/-- **Other inodes keep their contents.** -/
theorem Touch.content (ht : Touch i s s') (h : s.WfAt lost i) (hj : j < s.sb.ninodes) (hji : j ≠ i)
    (hf : (s.dinode j).type ≠ .free) : s'.content j = s.content j := by
  unfold State.content
  rw [ht.dinode j hji]
  refine List.map_congr_left fun o ho => ?_
  have hno := h.wf.noHoles j hj
  rw [flush_dinode_of_ne hji] at hno
  obtain ⟨hslot, hdata⟩ := ht.other h hj hji hf (fileSlot (o / bsize))
  have hne := (hno hf).2 (o / bsize) ((div_mul_le o).trans_lt (List.mem_range.1 ho))
  unfold byte
  rw [hslot, hdata hne]

end State

section Specs

variable {lost : ℕ → Prop} {s : State} {i : ℕ} (h : s.WfBut lost) (hl : s.Locked i)

include h hl

/-- A byte of a locked inode has a block. -/
theorem State.WfBut.byte_block {o : ℕ} (ho : o < (s.dinode i).size) :
    s.memSlot i (fileSlot (o / bsize)) ≠ 0 := by
  rw [← (h.agree i hl).1] at ho
  exact (h.at hl).memSlot_ne_zero ((div_mul_le o).trans_lt ho)

/-- **`writei`** overwrites a run of bytes, cut short only when the disk is full, at a block that is
not there. -/
theorem writei_content {src : ℕ → UInt8} {off n : ℕ} (hoff : off ≤ (s.dinode i).size)
    (hn : off + n < 2 ^ 32) (hmax : off + n ≤ maxfile * bsize) :
    ∃ (t : ℕ) (s' : State), writei i (fun k => some (src k)) off n s = .ok ((t : ℤ), s') ∧ t ≤ n ∧
      (t < n → (∀ b < s'.sb.size, s'.used b = true) ∧
        (s.dinode i).slot s.data (fileSlot ((off + t) / bsize)) = 0) ∧
      State.Touch i s s' ∧ s'.WfBut lost ∧
      s'.content i = overwrite (s.content i) off ((List.range t).map src) ∧
      (s'.dinode i).size = max (s.dinode i).size (off + t) := by
  have hd := (h.agree i hl).1
  rcases writei_run (h.at hl) (fun k => some (src k)) off (by omega : n < 2 ^ 32) with
    ⟨-, hbad⟩ | ⟨t, s', hrun, hw⟩
  · rw [hd] at hbad
    omega
  have hsome : ∀ k, (some (src k)).isSome := fun _ => rfl
  have hl' := hw.touch.locked hl
  have hd' := (hw.wf.agree i hl').1
  have hsize : (s'.dinode i).size = max (s.dinode i).size (off + t) := by
    rw [← hd', hw.d, ← hd]
    dsimp only
    split_ifs <;> omega
  refine ⟨t, s', hrun, hw.le, by rw [← hd]; exact hw.short hsome, hw.touch, hw.wf, ?_, hsize⟩
  unfold State.content
  rw [hsize]
  refine map_range_overwrite hoff (fun o h1 h2 => ?_) fun o ho hout => ?_
  · rw [State.byte_eq_memByte hd', hw.written o h1 h2]
    rfl
  · rw [State.byte_eq_memByte hd', State.byte_eq_memByte hd]
    rcases hout with hlt | hge
    · exact hw.outside o (h.byte_block hl ho) (.inl hlt)
    · exact hw.beyond hsome o (h.byte_block hl ho) hge

/-- Otherwise it refuses. -/
theorem writei_refuses (src : Src) {off n : ℕ} (hn : n < 2 ^ 32)
    (hbad : ¬ (off ≤ (s.dinode i).size ∧ off + n < 2 ^ 32 ∧ off + n ≤ maxfile * bsize)) :
    writei i src off n s = .ok (-1, s) := by
  have hd := (h.agree i hl).1
  have hlim : maxfile * bsize < 2 ^ 32 := by decide
  rcases writei_run (h.at hl) src off hn with ⟨hrun, -⟩ | ⟨t, s', -, hw⟩
  · exact hrun
  · have h1 := hw.start
    have h2 := hw.fits
    rw [hd] at h1
    omega

/-- **`readi`** takes a run of bytes. -/
theorem readi_content {off n : ℕ} (hoff : off ≤ (s.dinode i).size) (hn : off + n < 2 ^ 32) :
    readi i (fun _ => true) off n s = .ok (((((s.content i).drop off).take n).length,
      ((s.content i).drop off).take n), s) := by
  have hd := (h.agree i hl).1
  rw [readi_run (h.at hl) (by rwa [hd]) hn, hd, State.content_run hd (by omega)]
  have htake : ((s.content i).drop off).take (min n ((s.dinode i).size - off)) =
      ((s.content i).drop off).take n := by
    rw [← State.length_content, ← List.length_drop, List.take_eq_take_iff]
    omega
  rw [htake, List.length_take, List.length_drop, State.length_content]

theorem readi_refuses (dst : ℕ → Bool) {off n : ℕ} (hoff : off < 2 ^ 32) (hn : n < 2 ^ 32)
    (hbad : ¬ (off ≤ (s.dinode i).size ∧ off + n < 2 ^ 32)) :
    readi i dst off n s = .ok ((0, []), s) := by
  have hd := (h.agree i hl).1
  unfold readi
  rw [Run.get_bind, hd, if_pos (by omega)]
  rfl

/-- **`itrunc`** leaves nothing. -/
theorem itrunc_content : ∃ s', itrunc i s = .ok ((), s') ∧ State.Touch i s s' ∧ s'.WfBut lost ∧
    s'.content i = [] := by
  obtain ⟨s', hrun, he⟩ := itrunc_run (h.at hl)
  have hl' := he.touch.locked hl
  refine ⟨s', hrun, he.touch, he.wf, ?_⟩
  unfold State.content
  rw [← (he.wf.agree i hl').1, he.d]
  rfl

end Specs

/-! ## Runs -/

/-- The operations on the contents of a locked inode, on kernel memory; offsets and lengths are
unsigned 32-bit numbers. -/
inductive FileOp
  | write (i : ℕ) (src : ℕ → UInt8) (off n : BitVec 32)
  | read (i : ℕ) (off n : BitVec 32)
  | trunc (i : ℕ)

namespace FileOp

/-- The inode that the operation works on. -/
def ip : FileOp → ℕ
  | write i _ _ _ => i
  | read i _ _ => i
  | trunc i => i

/-- Run an operation: what it returns and the bytes it copies. -/
def exec : FileOp → FsM (ℤ × List UInt8)
  | write i src off n => do
    let r ← writei i (fun k => some (src k)) off.toNat n.toNat
    return (r, [])
  | read i off n => readi i (fun _ => true) off.toNat n.toNat
  | trunc i => do
    itrunc i
    return (0, [])

/-- The state after an operation. -/
def step (s : State) (op : FileOp) : Option State :=
  match op.exec s with
  | .ok (_, s') => some s'
  | .error _ => none

/-- What the operation returns and does to the contents of its inode. -/
def Spec (s : State) (r : ℤ × List UInt8) (s' : State) : FileOp → Prop
  | write i src off n =>
    if off.toNat ≤ (s.dinode i).size ∧ off.toNat + n.toNat < 2 ^ 32 ∧
        off.toNat + n.toNat ≤ maxfile * bsize then
      ∃ t : ℕ, r.1 = t ∧ t ≤ n.toNat ∧
        -- a write is cut short where `balloc` fails: at a block that is not there, on a full disk
        (t < n.toNat → (∀ b < s'.sb.size, s'.used b = true) ∧
          (s.dinode i).slot s.data (fileSlot ((off.toNat + t) / bsize)) = 0) ∧
        s'.content i = overwrite (s.content i) off.toNat ((List.range t).map src) ∧
        (s'.dinode i).size = max (s.dinode i).size (off.toNat + t)
    else r.1 = -1 ∧ s' = s
  | read i off n =>
    s' = s ∧
      if off.toNat ≤ (s.dinode i).size ∧ off.toNat + n.toNat < 2 ^ 32 then
        r.1 = r.2.length ∧ r.2 = ((s.content i).drop off.toNat).take n.toNat
      else r.1 = 0 ∧ r.2 = []
  | trunc i => s'.content i = []

variable {lost : ℕ → Prop} {s : State}

/-- **One operation** does what it should, and nothing to the other inodes. -/
theorem exec_content (h : s.WfBut lost) (op : FileOp) (hl : s.Locked op.ip) :
    ∃ r s', op.exec s = .ok (r, s') ∧ op.Spec s r s' ∧ State.Touch op.ip s s' ∧ s'.WfBut lost := by
  cases op with
  | write i src off n =>
    dsimp only [exec, Spec]
    split_ifs with hin
    · obtain ⟨t, s', hrun, hle, hfull, ht, hwf, hc, hsz⟩ := writei_content h hl hin.1 hin.2.1 hin.2.2
      refine ⟨_, s', Run.bind_of_ok hrun, ⟨t, rfl, hle, hfull, hc, hsz⟩, ht, hwf⟩
    · have hrun := writei_refuses h hl (fun k => some (src k)) n.isLt hin
      exact ⟨_, s, Run.bind_of_ok hrun, ⟨rfl, rfl⟩, .refl _ s, h⟩
  | read i off n =>
    dsimp only [exec, Spec]
    split_ifs with hin
    · exact ⟨_, s, readi_content h hl hin.1 hin.2, ⟨rfl, rfl, rfl⟩, .refl _ s, h⟩
    · exact ⟨_, s, readi_refuses h hl _ off.isLt n.isLt hin, ⟨rfl, rfl, rfl⟩, .refl _ s, h⟩
  | trunc i =>
    obtain ⟨s', hrun, ht, hwf, hc⟩ := itrunc_content h hl
    exact ⟨_, s', Run.bind_of_ok hrun, hc, ht, hwf⟩

end FileOp

/-- **File contents behave as byte arrays**, from any file system in which no block is owned twice,
the blocks that are owned and those before the data are marked used, and no file has holes (blocks
may be marked used without an owner), in every state of a run of operations on locked inodes. -/
theorem contents_behave {s₀ s : State} (h₀ : s₀.WfBut fun _ => True)
    (hr : Reach FileOp.step (fun s op => s.Locked op.ip) s₀ s) (op : FileOp) (hl : s.Locked op.ip) :
    ∃ r s', op.exec s = .ok (r, s') ∧ op.Spec s r s' ∧ ∀ j, j ≠ op.ip →
      s'.dinode j = s.dinode j ∧
        (j < s.sb.ninodes → (s.dinode j).type ≠ .free → s'.content j = s.content j) := by
  have h : s.WfBut fun _ => True := by
    refine hr.inv (I := fun s => s.WfBut fun _ => True) h₀ fun s op s' h hop hs => ?_
    obtain ⟨r, s'', hrun, -, -, hwf⟩ := op.exec_content h hop
    unfold FileOp.step at hs
    rw [hrun] at hs
    rwa [← Option.some.inj hs]
  obtain ⟨r, s', hrun, hspec, ht, -⟩ := op.exec_content h hl
  exact ⟨r, s', hrun, hspec, fun j hj => ⟨ht.dinode j hj, fun hjn hf => ht.content (h.at hl) hjn hj hf⟩⟩

/-- Eight bytes across the end of the first block of the root directory. -/
theorem contents_behave_root : ∃ r s',
    (FileOp.write rootino (fun _ => 7) 1020 8).exec (mkfsImage.load rootino) = .ok (r, s') ∧
      (FileOp.write rootino (fun _ => 7) 1020 8).Spec (mkfsImage.load rootino) r s' := by
  have hl : (mkfsImage.load rootino).Locked rootino := State.load_locked_self (by decide)
  have h : (mkfsImage.load rootino).Wf := mkfsImage_wf.load (by decide) (by decide)
  obtain ⟨r, s', hrun, hspec, -⟩ := contents_behave (h.mono fun _ hf => hf.elim) .refl
    (.write rootino (fun _ => 7) 1020 8) hl
  exact ⟨r, s', hrun, hspec⟩

/-! ## Metadata blocks that are marked free -/

/-- No block is owned twice, every block that is owned is marked used, no file has holes, and locked
inodes agree with the disk; nothing is said of the blocks before the data. -/
structure State.Owned (s : State) : Prop where
  marked : ∀ i < s.sb.ninodes, (s.dinode i).type ≠ .free → ∀ σ, (s.dinode i).slot s.data σ ≠ 0 →
    s.used ((s.dinode i).slot s.data σ) = true
  once : ∀ i < s.sb.ninodes, (s.dinode i).type ≠ .free → ∀ j < s.sb.ninodes,
    (s.dinode j).type ≠ .free → ∀ σ τ, (s.dinode i).slot s.data σ ≠ 0 →
      (s.dinode i).slot s.data σ = (s.dinode j).slot s.data τ → i = j ∧ σ = τ
  noHoles : NoHoles s.sb s.dinode s.data
  agree : ∀ i, s.Locked i → (s.itable i).d = s.dinode i

/-- A fresh file of inode 2, locked. -/
def newFile : State := ((mkfsImage.claim 2 .file).refer 2).load 2

theorem newFile_wf : newFile.Wf :=
  ((mkfsImage_wf.claim (by decide) (by decide) .file).refer 2).load (by decide) (by decide)

theorem newFile_locked : newFile.Locked 2 := ⟨by decide, by decide⟩

/-- The boot block is marked free. -/
def unmarked : State := { newFile with used := fun b => decide (b ≠ 0) && newFile.used b }

/-- **A write stops early although the disk is not full**: `balloc` finds block 0, which `bmap`
takes for a failure. -/
theorem boot_block_allocated : unmarked.Owned ∧ unmarked.Locked 2 ∧ ∃ r s',
    (FileOp.write 2 (fun _ => 7) 0 1).exec unmarked = .ok (r, s') ∧ r.1 = 0 ∧
      ∃ b < s'.sb.size, s'.used b = false := by
  have hgood := newFile_wf.good
  refine ⟨⟨fun i hi ht σ hσ => ?_, hgood.once, newFile_wf.noHoles, fun i hl => (newFile_wf.agree i hl).1⟩,
    newFile_locked, ?_⟩
  · obtain ⟨-, -, hu⟩ := hgood.owned i hi ht σ hσ
    exact Bool.and_eq_true_iff.2 ⟨decide_eq_true hσ, hu⟩
  · obtain ⟨⟨r, s'⟩, hr, h0, hlt, hu⟩ : ∃ x, (FileOp.write 2 (fun _ => 7) 0 1).exec unmarked = .ok x ∧
        x.1.1 = 0 ∧ 50 < x.2.sb.size ∧ x.2.used 50 = false := exists_ok (by decide +kernel)
    exact ⟨r, s', hr, h0, 50, hlt, hu⟩

end Xv6.Fs
