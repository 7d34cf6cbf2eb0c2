import Xv6.Mkfs.Prog
import Xv6.Fs.Content

/-!
# What `iappend` does to an image

An image is seen as a file system of the kernel (`Image.view`): the free map has the blocks
below `freeblock`, the inodes and the blocks are decoded from the sectors. While `iappend` works
on an inode, that inode is the locked one (`Image.work`). The steps of `iappend` are then the
steps of `bmap` and `writei`, with `freeblock` the next free block.

* `blockFor_run`: a block for the next byte of a file.
* `iappend_run`: what a call writes, and which blocks it takes: those that the new size needs
  (`Exact`), so that nothing is missing and nothing is wasted.
-/

namespace Xv6.Mkfs

open Function Fs Lib

/-! ## The blocks a size needs -/

/-- Slot `σ` of an inode is needed once the size is past this offset; the indirect block is
needed with the first block it lists. -/
def slotOff (σ : ℕ) : ℕ := (if σ ≤ ndirect then σ else σ - 1) * bsize

/-- The number of blocks that a file of the given size takes, the indirect block included. -/
def blocksOf (size : ℕ) : ℕ :=
  (size + (bsize - 1)) / bsize + if ndirect * bsize < size then 1 else 0

theorem slotOff_fileSlot (bn : ℕ) : slotOff (fileSlot bn) = bn * bsize := by
  unfold slotOff fileSlot
  split_ifs <;> first | omega | rfl

theorem blocksOf_mono {a b : ℕ} (h : a ≤ b) : blocksOf a ≤ blocksOf b := by
  have : (a + (bsize - 1)) / bsize ≤ (b + (bsize - 1)) / bsize := Nat.div_le_div_right (by omega)
  unfold blocksOf
  split_ifs <;> omega

/-! ## An image as a file system -/

namespace Image

/-- The image as the kernel sees it. -/
def view (m : Image) : State where
  sb := mkfsSb
  used := fun b => decide (b < m.freeblock)
  dinode := fun j => if j < mkfsSb.ninodes then m.inode j else .zero
  data := fun b => if b < mkfsSb.datastart then zeroes else m.img b
  logged := []
  itable := fun _ => ⟨0, false, .zero⟩
  inuse := 0

/-- The image while `iappend` works on inode `i`, whose copy is `din`. -/
def work (m : Image) (i : ℕ) (din : Dinode) (l : List ℕ) : State :=
  { m.view with itable := update m.view.itable i ⟨1, true, din⟩, logged := l }

/-- The image after `freeblock++`. -/
def next (m : Image) : Image := { m with freeblock := m.freeblock + 1 }

/-- Blocks not yet taken are clear. -/
structure Roomy (m : Image) : Prop where
  sects : m.sects = mkfsSb.size
  lo : mkfsSb.datastart ≤ m.freeblock
  clear : ∀ b, m.freeblock ≤ b → m.img b = zeroes

/-- What work on the data blocks leaves alone. -/
structure Keeps (m m' : Image) : Prop where
  freeinode : m'.freeinode = m.freeinode
  img : ∀ b < mkfsSb.datastart, m'.img b = m.img b

theorem Keeps.refl (m : Image) : Keeps m m := ⟨rfl, fun _ _ => rfl⟩

theorem Keeps.trans {m m' m'' : Image} (h : Keeps m m') (h' : Keeps m' m'') : Keeps m m'' :=
  ⟨h'.freeinode.trans h.freeinode, fun b hb => (h'.img b hb).trans (h.img b hb)⟩

variable {m : Image} {i : ℕ} {din : Dinode} {l : List ℕ}

theorem work_d : ((m.work i din l).itable i).d = din := by simp [Image.work]

/-- `freeblock++` is `balloc` of the kernel. -/
theorem work_alloc (hm : m.Roomy) (i : ℕ) (din : Dinode) (l : List ℕ) :
    ∃ l', (m.work i din l).alloc m.freeblock = m.next.work i din l' := by
  refine ⟨m.freeblock :: mkfsSb.bblock m.freeblock :: l, ?_⟩
  have hused : update (fun b => decide (b < m.freeblock)) m.freeblock true =
      fun b => decide (b < m.freeblock + 1) := by
    funext b
    rw [update_apply]
    split_ifs with hb
    · simp [hb]
    · exact decide_eq_decide.2 (by omega)
  have hdata : update m.view.data m.freeblock (fun _ => 0) = m.view.data := by
    rw [update_eq_self_iff]
    simp only [view]
    rw [if_neg (Nat.not_lt.2 hm.lo), hm.clear _ le_rfl]
    rfl
  simp only [State.alloc, Image.work]
  rw [hdata]
  simp only [view]
  rw [hused]
  rfl

theorem work_setD (din' : Dinode) : (m.work i din l).setD i din' = m.work i din' l := by
  simp [State.setD, State.setInode, Image.work]

/-- `wsect` to a data block. -/
theorem work_wsect {x : ℕ} (hx : mkfsSb.datastart ≤ x) (blk : Block) (l' : List ℕ) :
    { m.work i din l with data := update (m.work i din l).data x blk, logged := l' } =
      (m.store x blk).work i din l' := by
  have hdata : update m.view.data x blk = (m.store x blk).view.data := by
    funext b
    simp only [view, store, update_apply]
    split_ifs with h1 h2
    · omega
    · rfl
    · rfl
    · rfl
  have hdn : (m.store x blk).view.dinode = m.view.dinode := by
    funext j
    simp only [view]
    split_ifs with hj
    · have := iblock_lt hj
      simp only [inode, store]
      rw [update_of_ne (by omega)]
    · rfl
  simp only [Image.work]
  rw [hdata, hdn]
  rfl

end Image

/-! ## `blockFor` -/

section Append

variable {lost : ℕ → Prop} {m m' : Image} {i : ℕ} {din : Dinode} {l : List ℕ}

/-- The slots filled are those that the first `off` bytes need. -/
def Exact (s : State) (i off : ℕ) : Prop :=
  ∀ σ ≤ maxfile, s.memSlot i σ ≠ 0 ↔ slotOff σ < off

/-- Inside a block only its first byte needs new slots. -/
theorem slotOff_lt_add {off c : ℕ} (hc : 0 < c) (hoff : off % bsize + c ≤ bsize) (σ : ℕ) :
    slotOff σ < off + c ↔ slotOff σ < off ∨ off % bsize = 0 ∧ slotOff σ = off := by
  have hb : bsize = 1024 := rfl
  rw [hb] at hoff ⊢
  rw [slotOff, hb]
  omega

theorem blocksOf_add {off c : ℕ} (hc : 0 < c) (hoff : off % bsize + c ≤ bsize) :
    blocksOf (off + c) = blocksOf off +
      if off % bsize = 0 then if off = ndirect * bsize then 2 else 1 else 0 := by
  have hb : bsize = 1024 := rfl
  have hn : ndirect = 12 := rfl
  rw [hb] at hoff ⊢
  rw [blocksOf, blocksOf, hb, hn]
  split_ifs <;> omega

/-- Blocks were taken for inode `i`: `k` of them, for the slots in `S`. -/
structure Took (lost : ℕ → Prop) (i : ℕ) (m : Image) (s : State) (k : ℕ) (S : ℕ → Prop) (m' : Image)
    (s' : State) : Prop where
  grow : State.Grow lost i s s'
  slots : ∀ σ, s'.memSlot i σ ≠ 0 ↔ s.memSlot i σ ≠ 0 ∨ S σ
  fresh : ∀ σ, σ ≠ ndirect → s.memSlot i σ = 0 → s'.memSlot i σ ≠ 0 →
    s'.data (s'.memSlot i σ) = zeroes
  rest : ∀ κ, ¬ κ ≤ ndirect → (s'.itable i).d.addrs κ = (s.itable i).d.addrs κ
  freeblock : m'.freeblock = m.freeblock + k
  roomy : m'.Roomy
  keeps : m.Keeps m'

theorem Took.none {s : State} (hm : m.Roomy) (h : s.WfAt lost i) :
    Took lost i m s 0 (fun _ => False) m s :=
  ⟨.refl h, fun _ => by simp, fun _ _ h0 hne => absurd h0 hne, fun _ _ => rfl, rfl, hm, .refl m⟩

theorem Took.trans {s s' s'' : State} {m'' : Image} {k k' : ℕ} {S S' : ℕ → Prop}
    (h : Took lost i m s k S m' s') (h' : Took lost i m' s' k' S' m'' s'') :
    Took lost i m s (k + k') (fun σ => S σ ∨ S' σ) m'' s'' where
  grow := h.grow.trans h'.grow
  slots σ := by rw [h'.slots, h.slots, or_assoc]
  fresh σ hσ h0 hne := by
    by_cases h1 : s'.memSlot i σ = 0
    · exact h'.fresh σ hσ h1 hne
    · rw [h'.grow.slots σ h1, h'.grow.data σ hσ h1]
      exact h.fresh σ hσ h0 h1
  rest κ hκ := (h'.rest κ hκ).trans (h.rest κ hκ)
  freeblock := by rw [h'.freeblock, h.freeblock, Nat.add_assoc]
  roomy := h'.roomy
  keeps := h.keeps.trans h'.keeps

theorem nextBlock_run (m : Image) : nextBlock m = .ok (m.freeblock, m.next) := rfl

theorem Image.Roomy.next (hm : m.Roomy) : m.next.Roomy :=
  ⟨hm.sects, Nat.le_succ_of_le hm.lo, fun b hb => hm.clear b (Nat.le_of_succ_le hb)⟩

theorem Image.used_freeblock : (m.work i din l).used m.freeblock = false :=
  decide_eq_false (Nat.lt_irrefl _)

theorem Image.work_data {b : ℕ} (hb : mkfsSb.datastart ≤ b) : (m.work i din l).data b = m.img b :=
  if_neg (Nat.not_lt.2 hb)

/-- A fresh block in `addrs[κ]`. -/
theorem took_addr (hm : m.Roomy) (h : (m.work i din l).WfAt lost i) {κ : ℕ} (hκ : κ ≤ ndirect)
    (hb : m.freeblock < mkfsSb.size) (h0 : din.addrs κ = 0) :
    ∃ l', Took lost i m (m.work i din l) 1 (· = κ) m.next
      (m.next.work i { din with addrs := update din.addrs κ m.freeblock } l') := by
  have h0' : ((m.work i din l).itable i).d.addrs κ = 0 := by rwa [Image.work_d]
  have hmap := h.assign_addr hκ hb Image.used_freeblock h0'
  have hslots := h.memSlot_assign_addr hκ Image.used_freeblock h0'
  have hne := h.ne_zero_of_free Image.used_freeblock
  obtain ⟨l', hl'⟩ := Image.work_alloc hm i din l
  rw [hl', Image.work_setD, Image.work_d] at hmap
  rw [hl', Image.work_setD, Image.work_d] at hslots
  refine ⟨l', hmap.grow, fun σ => ?_, fun σ _ h1 h2 => ?_, fun κ' hκ' => ?_, rfl, hm.next,
    ⟨rfl, fun _ _ => rfl⟩⟩
  · rw [hslots]
    split_ifs with hσ
    · exact ⟨fun _ => .inr hσ, fun _ => hne⟩
    · simp [hσ]
  · rw [hslots] at h2 ⊢
    split_ifs at h2 ⊢
    · exact (Image.work_data hm.lo).trans (hm.clear _ le_rfl)
    · exact absurd h1 h2
  · rw [Image.work_d, Image.work_d]
    exact update_of_ne (by rintro rfl; exact hκ' hκ) _ _

/-- A fresh block in the indirect block. -/
theorem took_word (hm : m.Roomy) (h : (m.work i din l).WfAt lost i) {k : ℕ} (hk : k < nindirect)
    (hb : m.freeblock < mkfsSb.size) (hind : din.addrs ndirect ≠ 0)
    (h0 : (m.img (din.addrs ndirect)).word k = 0) :
    ∃ l' m', m' = m.next.store (din.addrs ndirect)
        ((m.img (din.addrs ndirect)).setWord k m.freeblock) ∧
      Took lost i m (m.work i din l) 1 (· = ndirect + 1 + k) m' (m'.work i din l') ∧
      (m'.work i din l').memSlot i (ndirect + 1 + k) = m.freeblock := by
  have hd : ((m.work i din l).itable i).d = din := Image.work_d
  have hown := h.memSlot_owned (σ := ndirect) (by rwa [State.memSlot, slot_ndirect, hd])
  rw [State.memSlot, slot_ndirect, hd] at hown
  have hlt : din.addrs ndirect < m.freeblock := of_decide_eq_true hown.2.2
  have hdata : (m.work i din l).data (din.addrs ndirect) = m.img (din.addrs ndirect) :=
    Image.work_data hown.1
  obtain ⟨l', hl'⟩ := Image.work_alloc hm i din l
  have hmap := h.assign_word hk hb Image.used_freeblock (by rwa [hd]) (by rwa [hd, hdata]) l'
  have hslots := h.memSlot_assign_word hk hb Image.used_freeblock (by rwa [hd]) l'
  have hdata' : (m.next.work i din l').data (din.addrs ndirect) = m.img (din.addrs ndirect) :=
    Image.work_data hown.1
  simp only [hd, hl', hdata', Image.work_wsect hown.1] at hmap hslots
  have hne := h.ne_zero_of_free Image.used_freeblock
  refine ⟨l', _, rfl, ⟨hmap.grow, fun σ => ?_, fun σ _ h1 h2 => ?_, fun κ _ => ?_, rfl, ?_, rfl,
    fun b hb => ?_⟩, ?_⟩
  · rw [hslots]
    split_ifs with hσ
    · exact ⟨fun _ => .inr hσ, fun _ => hne⟩
    · simp [hσ]
  · rw [hslots] at h2 ⊢
    split_ifs at h2 ⊢
    · exact (Image.work_data hm.lo).trans ((update_of_ne hlt.ne' _ _).trans (hm.clear _ le_rfl))
    · exact absurd h1 h2
  · rw [Image.work_d, Image.work_d]
  · refine ⟨hm.sects, hm.next.lo, fun b hb => ?_⟩
    have hle : m.freeblock + 1 ≤ b := hb
    exact (update_of_ne (by omega) _ _).trans (hm.clear b (by omega))
  · have hlo : mkfsSb.datastart ≤ din.addrs ndirect := hown.1
    exact update_of_ne (by omega) _ _
  · exact (hslots _).trans (if_pos rfl)

/-- `blockFor.entry`: the number is there or is filled with a fresh block. -/
theorem entry_run (hm : m.Roomy) (h : (m.work i din l).WfAt lost i) {k : ℕ} (hk : k < nindirect)
    (hind : din.addrs ndirect ≠ 0)
    (hb : (m.work i din l).memSlot i (ndirect + 1 + k) = 0 → m.freeblock < mkfsSb.size) :
    ∃ x m' l', blockFor.entry din k m = .ok ((din, x), m') ∧
      (m'.work i din l').memSlot i (ndirect + 1 + k) = x ∧
      ((m.work i din l).memSlot i (ndirect + 1 + k) = 0 ∧
          Took lost i m (m.work i din l) 1 (· = ndirect + 1 + k) m' (m'.work i din l') ∨
        (m.work i din l).memSlot i (ndirect + 1 + k) ≠ 0 ∧
          Took lost i m (m.work i din l) 0 (fun _ => False) m' (m'.work i din l')) := by
  have hd : ((m.work i din l).itable i).d = din := Image.work_d
  have hown := h.memSlot_owned (σ := ndirect) (by rwa [State.memSlot, slot_ndirect, hd])
  rw [State.memSlot, slot_ndirect, hd] at hown
  have hslot : (m.work i din l).memSlot i (ndirect + 1 + k) =
      (m.img (din.addrs ndirect)).word k := by
    rw [State.memSlot_word hk (by rwa [hd]), hd, Image.work_data hown.1]
  have hlt : din.addrs ndirect < m.sects := by
    rw [hm.sects]
    exact hown.2.1
  unfold blockFor.entry
  rw [Run.bind_of_ok (rsect_run hlt), Run.ite_run]
  by_cases h0 : (m.img (din.addrs ndirect)).word k = 0
  · obtain ⟨l', m', hm', ht, hx⟩ := took_word hm h hk (hb (hslot.trans h0)) hind h0
    rw [if_pos h0, Run.bind_of_ok (nextBlock_run m)]
    refine ⟨_, m', l', ?_, hx, .inl ⟨hslot.trans h0, ht⟩⟩
    have hlt' : din.addrs ndirect < m.next.sects := hlt
    rw [Run.bind_of_ok (wsect_run hlt' _), hm']
    rfl
  · rw [if_neg h0]
    exact ⟨_, m, l, rfl, hslot, .inr ⟨hslot.trans_ne h0, .none hm h⟩⟩

/-- **A block for the byte at `off`**, the end of the file or inside its last block. -/
theorem blockFor_run (hm : m.Roomy) (h : (m.work i din l).WfAt lost i) {off c : ℕ}
    (he : Exact (m.work i din l) i off) (hmax : off / bsize < maxfile) (hc : 0 < c)
    (hoff : off % bsize + c ≤ bsize)
    (hroom : m.freeblock + (blocksOf (off + c) - blocksOf off) ≤ mkfsSb.size) :
    ∃ din' x m' l' S, blockFor din (off / bsize) m = .ok ((din', x), m') ∧
      (m'.work i din' l').memSlot i (fileSlot (off / bsize)) = x ∧
      Took lost i m (m.work i din l) (blocksOf (off + c) - blocksOf off) S m' (m'.work i din' l') ∧
      ∀ σ ≤ maxfile, S σ ↔ off % bsize = 0 ∧ slotOff σ = off := by
  have hd : ((m.work i din l).itable i).d = din := Image.work_d
  have hb : bsize = 1024 := rfl
  have hn : ndirect = 12 := rfl
  have hfs : fileSlot (off / bsize) ≤ maxfile := by
    unfold fileSlot
    split_ifs <;> omega
  -- the slot is empty exactly at the start of a block
  have hempty : (m.work i din l).memSlot i (fileSlot (off / bsize)) = 0 ↔ off % bsize = 0 := by
    rw [← not_iff_not, ← ne_eq, he _ hfs, slotOff_fileSlot, hb]
    omega
  have hadd := blocksOf_add hc hoff
  unfold blockFor
  by_cases hdir : off / bsize < ndirect
  · have hfile : fileSlot (off / bsize) = off / bsize := if_pos hdir
    have hslot : (m.work i din l).memSlot i (off / bsize) = din.addrs (off / bsize) := by
      rw [State.memSlot, slot_of_le (by omega), hd]
    rw [hfile] at hempty ⊢
    rw [if_pos hdir, Run.ite_run]
    by_cases h0 : din.addrs (off / bsize) = 0
    · have hmod := hempty.1 (hslot.trans h0)
      have hne : off ≠ ndirect * bsize := by
        rintro rfl
        exact absurd hdir (by decide)
      rw [if_pos hmod, if_neg hne] at hadd
      obtain ⟨l', ht⟩ := took_addr hm h (by omega : off / bsize ≤ ndirect) (by omega) h0
      rw [if_pos h0, Run.bind_of_ok (nextBlock_run m)]
      refine ⟨_, _, m.next, l', _, rfl, ?_, by rwa [hadd, Nat.add_sub_cancel_left], fun σ hσ => ?_⟩
      · rw [State.memSlot, slot_of_le (by omega), Image.work_d]
        exact update_self _ _ _
      · rw [slotOff]
        rw [hb] at hdir hmod ⊢
        split_ifs <;> omega
    · have hmod : ¬ off % bsize = 0 := fun hz => h0 (hslot.symm.trans (hempty.2 hz))
      rw [if_neg hmod] at hadd
      rw [if_neg h0]
      refine ⟨_, _, m, l, fun _ => False, rfl, hslot, ?_, fun σ _ => ?_⟩
      · rw [hadd, Nat.add_zero, Nat.sub_self]
        exact .none hm h
      · simp [hmod]
  · have hk : off / bsize - ndirect < nindirect := by unfold maxfile at hmax; omega
    have hfile : fileSlot (off / bsize) = ndirect + 1 + (off / bsize - ndirect) := by
      rw [fileSlot, if_neg hdir]
      omega
    have hind : din.addrs ndirect = 0 ↔ off = ndirect * bsize := by
      have := he ndirect (by decide)
      rw [State.memSlot, slot_ndirect, hd] at this
      rw [← not_iff_not, ← ne_eq, this, slotOff, if_pos le_rfl]
      rw [hb] at hdir ⊢
      omega
    rw [hfile] at hempty ⊢
    rw [if_neg hdir, Run.ite_run]
    by_cases h0 : din.addrs ndirect = 0
    · -- the first block past the direct ones: the indirect block comes with it
      have hoff' := hind.1 h0
      have hmod : off % bsize = 0 := by rw [hoff', Nat.mul_mod_left]
      rw [if_pos hmod, if_pos hoff'] at hadd
      obtain ⟨l', ht⟩ := took_addr hm h le_rfl (by omega) h0
      have hne := h.ne_zero_of_free (Image.used_freeblock (l := l))
      obtain ⟨x, m', l'', hr, hx, ⟨-, ht'⟩ | ⟨hbad, -⟩⟩ := entry_run ht.roomy ht.grow.wfAt hk
        (by dsimp only; rwa [update_self]) fun _ => by
          have := ht.freeblock
          omega
      · rw [if_pos h0, Run.bind_of_ok (nextBlock_run m)]
        have htt := ht.trans ht'
        refine ⟨_, x, m', l'', _, hr, hx, by rwa [hadd, Nat.add_sub_cancel_left], fun σ hσ => ?_⟩
        rw [slotOff]
        rw [hb] at hmod hoff' ⊢
        split_ifs <;> omega
      · refine absurd ((ht.slots _).1 hbad) ?_
        rintro (hne | he)
        · exact hne (hempty.2 hmod)
        · omega
    · have hoff' := mt hind.2 h0
      obtain ⟨x, m', l', hr, hx, ⟨hz, ht⟩ | ⟨hz, ht⟩⟩ := entry_run hm h hk h0 fun hz => by
        rw [if_pos (hempty.1 hz), if_neg hoff'] at hadd
        omega
      · have hmod := hempty.1 hz
        rw [if_pos hmod, if_neg hoff'] at hadd
        rw [if_neg h0]
        refine ⟨_, x, m', l', _, hr, hx, by rwa [hadd, Nat.add_sub_cancel_left], fun σ hσ => ?_⟩
        rw [slotOff]
        rw [hb] at hmod hdir hoff' ⊢
        split_ifs <;> omega
      · have hmod := mt hempty.2 hz
        rw [if_neg hmod] at hadd
        rw [if_neg h0]
        refine ⟨_, x, m', l', fun _ => False, hr, hx, ?_, fun σ _ => by simp [hmod]⟩
        rwa [hadd, Nat.add_zero, Nat.sub_self]

/-! ## `iappend` -/

/-- What `iappend` has done when it has written the bytes `p` at offset `off`. -/
structure Appends (lost : ℕ → Prop) (i : ℕ) (p : List UInt8) (off : ℕ) (m : Image) (s : State)
    (m' : Image) (s' : State) : Prop where
  wrote : Wrote lost i (fun k => p[k]?) off p.length s p.length s'
  exact : Exact s' i (off + p.length)
  /-- Behind the bytes written a new block is clear. -/
  fresh : ∀ o, off + p.length ≤ o → s.memSlot i (fileSlot (o / bsize)) = 0 →
    s'.memSlot i (fileSlot (o / bsize)) ≠ 0 → s'.memByte i o = 0
  rest : ∀ κ, ¬ κ ≤ ndirect → (s'.itable i).d.addrs κ = (s.itable i).d.addrs κ
  freeblock : m'.freeblock = m.freeblock + (blocksOf (off + p.length) - blocksOf off)
  roomy : m'.Roomy
  keeps : m.Keeps m'

theorem Appends.none {off : ℕ} {s : State} (hm : m.Roomy) (h : s.WfAt lost i) (he : Exact s i off) :
    Appends lost i [] off m s m s :=
  ⟨.of_grow (.refl h) _ _ _, he, fun _ _ h0 hne => absurd h0 hne, fun _ _ => rfl, by simp, hm, .refl m⟩

theorem iappendLoop_run : ∀ {fuel off : ℕ} {p : List UInt8} {m : Image} {din : Dinode} {l : List ℕ},
    p.length ≤ fuel → m.Roomy → (m.work i din l).WfAt lost i → Exact (m.work i din l) i off →
    off + p.length ≤ maxfile * bsize →
    m.freeblock + (blocksOf (off + p.length) - blocksOf off) ≤ mkfsSb.size →
    ∃ din' m' l', iappendLoop fuel din off p m = .ok ((din', off + p.length), m') ∧
      Appends lost i p off m (m.work i din l) m' (m'.work i din' l') := by
  intro fuel
  induction fuel with
  | zero =>
    intro off p m din l hp hm h he _ _
    obtain rfl : p = [] := List.length_eq_zero_iff.1 (Nat.le_zero.1 hp)
    exact ⟨din, m, l, rfl, .none hm h he⟩
  | succ fuel ih =>
    intro off p m din l hp hm h he hmax hroom
    unfold iappendLoop
    by_cases hpos : p.length > 0
    · have hb : bsize = 1024 := rfl
      set c := min p.length ((off / bsize + 1) * bsize - off) with hc
      have hdiv := Nat.div_add_mod off bsize
      have hmod := Nat.mod_lt off bsize_pos
      have hc0 : 0 < c := by rw [hb] at hc hdiv hmod; omega
      have hcb : off % bsize + c ≤ bsize := by rw [hb] at hc hdiv hmod ⊢; omega
      have hcp : c ≤ p.length := Nat.min_le_left _ _
      have hlt : off / bsize < maxfile := by
        rw [Nat.div_lt_iff_lt_mul bsize_pos]
        omega
      have h1 := blocksOf_mono (Nat.le_add_right off c)
      have h2 := blocksOf_mono (by omega : off + c ≤ off + p.length)
      obtain ⟨din₁, x, m₁, l₁, S, hr, hx, ht, hS⟩ := blockFor_run hm h he hlt hc0 hcb (by omega)
      rw [if_pos hpos, if_pos hlt, Run.bind_of_ok hr]
      have he₁ : Exact (m₁.work i din₁ l₁) i (off + c) := by
        intro σ hσ
        rw [ht.slots, he σ hσ, hS σ hσ, slotOff_lt_add hc0 hcb]
      have hne : (m₁.work i din₁ l₁).memSlot i (fileSlot (off / bsize)) ≠ 0 := by
        refine (he₁ _ ?_).2 ?_
        · unfold fileSlot
          split_ifs <;> omega
        · rw [slotOff_fileSlot, Nat.mul_comm]
          omega
      obtain ⟨hlo, hhi, hu⟩ := ht.grow.wfAt.memSlot_owned hne
      rw [hx] at hlo hhi hu
      have hfree : x < m₁.freeblock := of_decide_eq_true hu
      have hsect : x < m₁.sects := by rw [ht.roomy.sects]; exact hhi
      dsimp only
      rw [Run.bind_of_ok (rsect_run hsect), Run.bind_of_ok (wsect_run hsect _)]
      -- what the round writes
      have hread : Src.readable (fun k => p[k]?) 0 c = c := by
        refine Src.readable_eq le_rfl (fun k hk => ?_) fun hlt => absurd hlt (Nat.lt_irrefl c)
        rw [Nat.zero_add, List.getElem?_eq_getElem (by omega)]
        rfl
      have hsub : off - off / bsize * bsize = off % bsize := by rw [Nat.mul_comm]; omega
      obtain ⟨m₂, hm₂⟩ : ∃ m₂, m₂ = m₁.store x
        ((m₁.img x).write (off - off / bsize * bsize) c fun j => p.getD j 0) := ⟨_, rfl⟩
      rw [← hm₂]
      have hs : m₂.work i din₁ l₁ = { m₁.work i din₁ l₁ with
          data := update (m₁.work i din₁ l₁).data
            ((m₁.work i din₁ l₁).memSlot i (fileSlot (off / bsize)))
            (((m₁.work i din₁ l₁).data ((m₁.work i din₁ l₁).memSlot i (fileSlot (off / bsize)))).write
              (off % bsize) c fun j => p[j]?.getD 0)
          logged := l₁ } := by
        rw [hx, Image.work_data hlo, hm₂, hsub]
        exact (Image.work_wsect hlo _ _).symm
      have hw := Wrote.chunk ht.grow.wfAt (fun k => p[k]?) hne hcb l₁ (hs.trans (by rw [hread]))
      rw [hread, if_pos rfl] at hw
      have hmem := (ht.grow.wfAt.setData hne _ l₁ hs).2.2
      have hm₂r : m₂.Roomy := by
        subst hm₂
        refine ⟨ht.roomy.sects, ht.roomy.lo, fun b hb => ?_⟩
        have hle : m₁.freeblock ≤ b := hb
        exact (update_of_ne (by omega) _ _).trans (ht.roomy.clear b hle)
      have hkeep : m₁.Keeps m₂ := by
        subst hm₂
        refine ⟨rfl, fun b hb => update_of_ne ?_ _ _⟩
        have hlo' : mkfsSb.datastart ≤ x := hlo
        omega
      have hfb : m₂.freeblock = m.freeblock + (blocksOf (off + c) - blocksOf off) := by
        rw [hm₂]
        exact ht.freeblock
      have hlen : (p.drop c).length = p.length - c := List.length_drop
      have hend : off + c + (p.drop c).length = off + p.length := by omega
      obtain ⟨din', m', l', hr', hap⟩ := ih (p := p.drop c) (by omega) hm₂r hw.wfAt
        (fun σ hσ => by rw [hmem, he₁ σ hσ]) (by omega)
        (by rw [hend]; omega)
      rw [hend] at hr'
      refine ⟨din', m', l', hr', ?_, ?_, fun o ho h0 hne' => ?_, fun κ hκ => ?_, ?_, hap.roomy,
        (ht.keeps.trans hkeep).trans hap.keeps⟩
      · have := (hw.after_grow ht.grow).append (n := p.length - c) (c := p.length - c) (by
          have := hap.wrote
          simpa only [hlen, List.getElem?_drop] using this)
        rwa [Nat.add_sub_cancel' hcp] at this
      · rw [← hend]
        exact hap.exact
      · by_cases h2 : (m₂.work i din₁ l₁).memSlot i (fileSlot (o / bsize)) = 0
        · exact hap.fresh o (by omega) h2 hne'
        · -- the block came with this round
          have h1 := h2
          rw [hmem] at h1
          rw [hap.wrote.outside o h2 (.inr (by omega)), hw.outside o h1 (.inr (by omega)), State.memByte,
            ht.fresh _ (fileSlot_ne_ndirect _) h0 h1]
          exact Bytes.get_zero _
      · rw [hap.rest κ hκ, Image.work_d, ← ht.rest κ hκ, Image.work_d]
      · rw [hap.freeblock, hfb, hend]
        omega
    · obtain rfl : p = [] := List.length_eq_zero_iff.1 (Nat.eq_zero_of_not_pos hpos)
      rw [if_neg hpos]
      exact ⟨din, m, l, rfl, .none hm h he⟩

end Append

/-- An image between two calls of `iappend`: a well-formed file system in which every inode has
exactly the blocks its size needs. -/
structure Image.Inv (m : Image) : Prop where
  roomy : m.Roomy
  wf : m.view.Wf
  exact : ∀ j < mkfsSb.ninodes, (m.inode j).type ≠ .free → ∀ σ ≤ maxfile,
    (m.inode j).slot m.view.data σ ≠ 0 ↔ slotOff σ < (m.inode j).size
  free : ∀ j < mkfsSb.ninodes, m.freeinode ≤ j → (m.inode j).type = .free

/-- Inode `i` has the bytes `bs`, and zeros behind them in its last block. -/
structure Image.Has (m : Image) (i : ℕ) (bs : List UInt8) : Prop where
  size : (m.inode i).size = bs.length
  bytes : ∀ o, (m.inode i).slot m.view.data (fileSlot (o / bsize)) ≠ 0 →
    (m.view.data ((m.inode i).slot m.view.data (fileSlot (o / bsize)))).get (o % bsize) = bs.getD o 0

section Inv

variable {m m' : Image} {i : ℕ} {p : List UInt8}

theorem Image.view_dinode (hi : i < mkfsSb.ninodes) : m.view.dinode i = m.inode i := if_pos hi

/-- Writing an inode changes the view at that inode only. -/
theorem Image.put_view (hi : i < mkfsSb.ninodes) {d : Dinode} (hd : Fits d) :
    (m.put i d).view = { m.view with dinode := update m.view.dinode i d } := by
  have hdn : (m.put i d).view.dinode = update m.view.dinode i d := by
    funext j
    simp only [view, put_inode m i hd, update_apply]
    split_ifs with h1 h2
    · rfl
    · rfl
    · omega
    · rfl
  have hdata : (m.put i d).view.data = m.view.data := by
    funext b
    simp only [view]
    split_ifs with hb
    · rfl
    · have := iblock_lt hi
      exact update_of_ne (by omega) _ _
  calc (m.put i d).view
      = { m.view with dinode := (m.put i d).view.dinode, data := (m.put i d).view.data } := rfl
    _ = _ := by rw [hdn, hdata]

theorem Image.Roomy.put (hm : m.Roomy) (hi : i < mkfsSb.ninodes) (d : Dinode) : (m.put i d).Roomy := by
  refine ⟨hm.sects, hm.lo, fun b hb => ?_⟩
  have h1 := iblock_lt hi
  have h2 := hm.lo
  have h3 : m.freeblock ≤ b := hb
  exact (update_of_ne (by omega) _ _).trans (hm.clear b h3)

/-- Inode `i` is locked. -/
theorem Image.work_wfAt (h : m.view.Wf) (hi : i < mkfsSb.ninodes) (ht : (m.inode i).type ≠ .free) :
    (m.work i (m.inode i) []).WfAt (fun _ => False) i := by
  refine State.WfBut.at (h.of_table rfl rfl rfl rfl fun j hl => ?_) ?_
  · by_cases hj : j = i
    · subst hj
      rw [Image.work_d, Image.view_dinode hi]
      exact ⟨rfl, ht, hi⟩
    · have href : 0 < ((m.work i (m.inode i) []).itable j).ref := hl.1
      simp [Image.work, Image.view, update_of_ne hj] at href
  · simp [State.Locked, Image.work]

/-- **`iappend`** writes the bytes at the end of the file, as `writei` of the kernel would. -/
theorem iappend_run (h : m.Inv) (hi : i < mkfsSb.ninodes) (ht : (m.inode i).type ≠ .free)
    (hmax : (m.inode i).size + p.length ≤ maxfile * bsize)
    (hroom : m.freeblock + (blocksOf ((m.inode i).size + p.length) - blocksOf (m.inode i).size) ≤
      mkfsSb.size) :
    ∃ m' s', iappend i p m = .ok ((), m') ∧
      Written (fun _ => False) i (fun k => p[k]?) (m.inode i).size p.length
        (m.work i (m.inode i) []) p.length s' ∧
      m'.view.used = s'.used ∧ m'.view.dinode = s'.dinode ∧ m'.view.data = s'.data ∧
      Exact s' i ((m.inode i).size + p.length) ∧
      (∀ o, (m.inode i).size + p.length ≤ o →
        (m.work i (m.inode i) []).memSlot i (fileSlot (o / bsize)) = 0 →
        s'.memSlot i (fileSlot (o / bsize)) ≠ 0 → s'.memByte i o = 0) ∧ m'.Roomy ∧ m'.freeinode = m.freeinode ∧
      m'.freeblock = m.freeblock +
        (blocksOf ((m.inode i).size + p.length) - blocksOf (m.inode i).size) := by
  set off := (m.inode i).size with hoff
  have hw := Image.work_wfAt h.wf hi ht
  have hd : ((m.work i (m.inode i) []).itable i).d = m.inode i := Image.work_d
  have he : Exact (m.work i (m.inode i) []) i off := by
    intro σ hσ
    rw [State.memSlot, hd]
    exact h.exact i hi ht σ hσ
  obtain ⟨din', m₁, l₁, hr, hap⟩ := iappendLoop_run le_rfl h.roomy hw he hmax hroom
  have hd' : ((m₁.work i din' l₁).itable i).d = din' := Image.work_d
  have hdin := hap.wrote.d
  rw [hd, hd'] at hdin
  have hsize : din'.size = off := by rw [hdin]
  set d : Dinode := { din' with size := off + p.length } with hdd
  have hfits : Fits d := by
    refine ⟨?_, fun κ hκ => ?_, fun κ hκ => ?_⟩
    · have : maxfile * bsize < 2 ^ 32 := by decide
      exact Nat.lt_of_le_of_lt hmax this
    · by_cases h0 : din'.addrs κ = 0
      · exact h0 ▸ (by decide : 0 < 2 ^ 32)
      · have hown := hap.wrote.wfAt.memSlot_owned (σ := κ)
          (by rwa [State.memSlot, slot_of_le hκ, hd'])
        rw [State.memSlot, slot_of_le hκ, hd'] at hown
        exact Nat.lt_trans hown.2.1 (by decide : mkfsSb.size < 2 ^ 32)
    · have := hap.rest κ hκ
      rw [hd, hd'] at this
      exact this.trans ((dinodeAt_fits _ _).rest κ hκ)
  have hwr := hap.wrote.writeBack hw (by rw [hd]) hmax (.inr (Nat.min_le_left _ _))
    fun _ hlt => absurd hlt (Nat.lt_irrefl _)
  have hback : (m₁.work i din' l₁).wroteBack i (off + p.length) =
      (m₁.work i din' l₁).putD i d := by
    have hgt : (if off + p.length > off then off + p.length else off) = off + p.length := by
      split_ifs <;> omega
    rw [State.wroteBack, hd', hsize, hgt]
  rw [hback] at hwr
  refine ⟨m₁.put i d, _, ?_, hwr, ?_, ?_, ?_, ?_, fun o ho h0 hne => ?_, hap.roomy.put hi d,
    hap.keeps.freeinode, hap.freeblock⟩
  · unfold iappend
    rw [Run.bind_of_ok (rinode_run h.roomy.sects hi), Run.bind_of_ok hr]
    exact winode_run hap.roomy.sects hi d
  · rfl
  · rw [Image.put_view hi hfits]
    rfl
  · rw [Image.put_view hi hfits]
    rfl
  · intro σ hσ
    rw [← hback, State.wroteBack_memSlot]
    exact hap.exact σ hσ
  · rw [← hback, State.wroteBack_memSlot] at hne
    rw [← hback, State.memByte, State.wroteBack_memSlot]
    exact hap.fresh o ho h0 hne

end Inv

end Xv6.Mkfs
