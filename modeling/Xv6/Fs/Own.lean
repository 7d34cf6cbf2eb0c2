import Xv6.Fs.Disk

/-!
# Which inode owns which block

The numbers an inode holds are its *slots*: the thirteen of `addrs[]`, the last of which is
the indirect block, and the numbers in that block. A file system is `Good` when the free map
and the slots of the inodes in use agree: every used data block is in exactly one slot.

* `GoodBut.assign`: putting a fresh block into an empty slot keeps a file system good.
* `GoodBut.clear`: so does emptying the slots of an inode and freeing its blocks.
* `State.Wf`: good, without holes, and the in-memory inodes agree with the disk;
  `State.WfAt` is the same while the in-memory inode `i` is ahead of the disk.
-/

namespace Xv6.Fs

open Function

/-- The slots of an inode: `addrs[0], …, addrs[NDIRECT]`, then the numbers in the indirect
block. -/
def Dinode.slot (d : Dinode) (data : ℕ → Block) (σ : ℕ) : ℕ :=
  if σ ≤ ndirect then d.addrs σ
  else if σ ≤ maxfile ∧ d.addrs ndirect ≠ 0 then
    (data (d.addrs ndirect)).word (σ - ndirect - 1)
  else 0

/-- The slot with the `bn`-th block of the contents. -/
def fileSlot (bn : ℕ) : ℕ := if bn < ndirect then bn else bn + 1

/-- A file system that is good but for the blocks in `lost`, which may be marked used without
being in any slot. -/
structure GoodBut (lost : ℕ → Prop) (sb : Superblock) (dn : ℕ → Dinode) (used : ℕ → Bool)
    (data : ℕ → Block) : Prop where
  /-- Metadata blocks are marked used. -/
  metadata : ∀ b < sb.datastart, used b = true
  /-- Every number in a slot is a data block marked used. -/
  owned : ∀ i < sb.ninodes, (dn i).type ≠ .free → ∀ σ, (dn i).slot data σ ≠ 0 →
    sb.datastart ≤ (dn i).slot data σ ∧ (dn i).slot data σ < sb.size ∧
      used ((dn i).slot data σ) = true
  /-- No number occurs twice. -/
  once : ∀ i < sb.ninodes, (dn i).type ≠ .free → ∀ j < sb.ninodes, (dn j).type ≠ .free →
    ∀ σ τ, (dn i).slot data σ ≠ 0 → (dn i).slot data σ = (dn j).slot data τ → i = j ∧ σ = τ
  /-- Every other data block marked used is in a slot. -/
  covered : ∀ b, sb.datastart ≤ b → b < sb.size → used b = true → ¬ lost b →
    ∃ i < sb.ninodes, (dn i).type ≠ .free ∧ ∃ σ, (dn i).slot data σ = b

/-- A good file system: the free map and the slots of the inodes in use agree. -/
abbrev Good := GoodBut fun _ => False

/-- No file has holes: every block below the size of an inode in use is there. -/
def NoHoles (sb : Superblock) (dn : ℕ → Dinode) (data : ℕ → Block) : Prop :=
  ∀ i < sb.ninodes, (dn i).type ≠ .free → (dn i).size ≤ maxfile * bsize ∧
    ∀ bn, bn * bsize < (dn i).size → (dn i).slot data (fileSlot bn) ≠ 0

/-! ## Slots -/

section Slot

variable {d d' : Dinode} {data data' : ℕ → Block}

theorem slot_of_le {σ : ℕ} (h : σ ≤ ndirect) : d.slot data σ = d.addrs σ := by
  rw [Dinode.slot, if_pos h]

theorem slot_ndirect : d.slot data ndirect = d.addrs ndirect := slot_of_le le_rfl

theorem slot_of_word {σ : ℕ} (h : ¬ σ ≤ ndirect) (h' : σ ≤ maxfile) (hd : d.addrs ndirect ≠ 0) :
    d.slot data σ = (data (d.addrs ndirect)).word (σ - ndirect - 1) := by
  rw [Dinode.slot, if_neg h, if_pos ⟨h', hd⟩]

/-- The slots depend on `addrs[]` and the indirect block. -/
theorem slot_congr (ha : ∀ k ≤ ndirect, d'.addrs k = d.addrs k)
    (hi : d.addrs ndirect ≠ 0 → data' (d.addrs ndirect) = data (d.addrs ndirect)) (σ : ℕ) :
    d'.slot data' σ = d.slot data σ := by
  unfold Dinode.slot
  rw [ha ndirect le_rfl]
  split_ifs with h1 h2
  · exact ha σ h1
  · rw [hi h2.2]
  · rfl

/-- The slots past `addrs[]` depend on the indirect block only. -/
theorem slot_congr_word {σ : ℕ} (hσ : ¬ σ ≤ ndirect) (ha : d'.addrs ndirect = d.addrs ndirect)
    (hi : d.addrs ndirect ≠ 0 → data' (d.addrs ndirect) = data (d.addrs ndirect)) :
    d'.slot data' σ = d.slot data σ := by
  unfold Dinode.slot
  rw [if_neg hσ, if_neg hσ, ha]
  split_ifs with h
  · rw [hi h.2]
  · rfl

/-- An inode without an indirect block has no slots past `addrs[]`. -/
theorem slot_of_ind_zero (h0 : d.addrs ndirect = 0) {σ : ℕ} (hσ : ¬ σ ≤ ndirect) :
    d.slot data σ = 0 := by
  rw [Dinode.slot, if_neg hσ, if_neg (by simp [h0])]

theorem slot_eq_zero (h : ∀ k ≤ ndirect, d.addrs k = 0) (σ : ℕ) : d.slot data σ = 0 := by
  by_cases hσ : σ ≤ ndirect
  · rw [slot_of_le hσ, h σ hσ]
  · exact slot_of_ind_zero (h ndirect le_rfl) hσ

theorem slot_le_maxfile {σ : ℕ} (h : d.slot data σ ≠ 0) : σ ≤ maxfile := by
  unfold Dinode.slot at h
  split_ifs at h with h1 h2
  · have : ndirect ≤ maxfile := by decide
    omega
  · exact h2.1
  · exact absurd rfl h

theorem fileSlot_ne_ndirect (bn : ℕ) : fileSlot bn ≠ ndirect := by
  unfold fileSlot; split_ifs <;> omega

theorem fileSlot_inj {a b : ℕ} (h : fileSlot a = fileSlot b) : a = b := by
  unfold fileSlot at h; split_ifs at h <;> omega

end Slot

namespace GoodBut

variable {lost : ℕ → Prop} {sb : Superblock} {dn dn' : ℕ → Dinode} {used used' : ℕ → Bool} {data data' : ℕ → Block}

/-- **A fresh block in an empty slot.** -/
theorem assign (h : GoodBut lost sb dn used data) (hpos : 0 < sb.datastart) {i : ℕ} (hi : i < sb.ninodes) (ht : (dn i).type ≠ .free)
    {b : ℕ} (hb : b < sb.size) (hu : used b = false) {κ : ℕ}
    (htype : ∀ j, (dn' j).type = (dn j).type)
    (hslot : ∀ j < sb.ninodes, (dn j).type ≠ .free → ∀ σ,
      (dn' j).slot data' σ = if j = i ∧ σ = κ then b else (dn j).slot data σ)
    (h0 : (dn i).slot data κ = 0) : GoodBut lost sb dn' (update used b true) data' := by
  have hbd : sb.datastart ≤ b := by
    by_contra hlt
    have := h.metadata b (by omega)
    simp [hu] at this
  -- the fresh block is in no slot yet
  have hfresh : ∀ j < sb.ninodes, (dn j).type ≠ .free → ∀ σ, (dn j).slot data σ ≠ 0 →
      (dn j).slot data σ ≠ b := by
    intro j hj htj σ hne he
    have := (h.owned j hj htj σ hne).2.2
    rw [he, hu] at this
    exact Bool.noConfusion this
  refine ⟨?_, ?_, ?_, ?_⟩
  · intro c hc
    rw [update_apply]
    split
    · rfl
    · exact h.metadata c hc
  · intro j hj htj σ hne
    rw [htype] at htj
    rw [hslot j hj htj] at hne ⊢
    rw [update_apply]
    by_cases hc : j = i ∧ σ = κ
    · rw [if_pos hc]
      exact ⟨hbd, hb, by simp⟩
    · rw [if_neg hc] at hne ⊢
      have := h.owned j hj htj σ hne
      exact ⟨this.1, this.2.1, by simp [this.2.2]⟩
  · intro j hj htj k hk htk σ τ hne he
    rw [htype] at htj htk
    rw [hslot j hj htj] at hne he
    rw [hslot k hk htk] at he
    by_cases hc : j = i ∧ σ = κ
    · rw [if_pos hc] at hne he
      by_cases hc' : k = i ∧ τ = κ
      · exact ⟨hc.1.trans hc'.1.symm, hc.2.trans hc'.2.symm⟩
      · rw [if_neg hc'] at he
        exact absurd he.symm (hfresh k hk htk τ (by rwa [← he]))
    · rw [if_neg hc] at hne he
      by_cases hc' : k = i ∧ τ = κ
      · rw [if_pos hc'] at he
        exact absurd he (hfresh j hj htj σ hne)
      · rw [if_neg hc'] at he
        exact h.once j hj htj k hk htk σ τ hne he
  · intro c hc hc' huc hlc
    by_cases hcb : c = b
    · refine ⟨i, hi, by rwa [htype], κ, ?_⟩
      rw [hslot i hi ht, if_pos ⟨rfl, rfl⟩, hcb]
    · rw [update_of_ne hcb] at huc
      obtain ⟨j, hj, htj, σ, hσ⟩ := h.covered c hc hc' huc hlc
      refine ⟨j, hj, by rwa [htype], σ, ?_⟩
      rw [hslot j hj htj, if_neg, hσ]
      rintro ⟨rfl, rfl⟩
      omega

/-- **Emptying an inode.** If it was in use its blocks become free; afterwards it may be in
use or free. -/
theorem clear (h : GoodBut lost sb dn used data) (hpos : 0 < sb.datastart) {i : ℕ} (hi : i < sb.ninodes)
    (hother : ∀ j, j ≠ i → dn' j = dn j) (hslot : ∀ σ, (dn' i).slot data σ = 0)
    (hused : ∀ b, used' b = true ↔ used b = true ∧ ((dn i).type ≠ .free →
      ∀ σ, (dn i).slot data σ ≠ 0 → (dn i).slot data σ ≠ b)) : GoodBut lost sb dn' used' data := by
  have hne : ∀ {j σ}, (dn' j).slot data σ ≠ 0 → j ≠ i := by
    rintro j σ hne rfl
    exact hne (hslot σ)
  refine ⟨?_, ?_, ?_, ?_⟩
  · intro b hb
    refine (hused b).2 ⟨h.metadata b hb, fun ht σ hne he => ?_⟩
    have := (h.owned i hi ht σ hne).1
    omega
  · intro j hj htj σ hσ
    have hji := hne hσ
    rw [hother j hji] at htj hσ ⊢
    have hown := h.owned j hj htj σ hσ
    refine ⟨hown.1, hown.2.1, (hused _).2 ⟨hown.2.2, fun ht τ hτ he => ?_⟩⟩
    exact hji (h.once j hj htj i hi ht σ τ hσ he.symm).1
  · intro j hj htj k hk htk σ τ hσ he
    have hji := hne hσ
    have hki := hne (he ▸ hσ)
    rw [hother j hji] at htj hσ he
    rw [hother k hki] at htk he
    exact h.once j hj htj k hk htk σ τ hσ he
  · intro b hb hb' hub hlb
    obtain ⟨hub, hnot⟩ := (hused b).1 hub
    obtain ⟨j, hj, htj, σ, hσ⟩ := h.covered b hb hb' hub hlb
    have hji : j ≠ i := by
      rintro rfl
      exact hnot htj σ (by omega) hσ
    exact ⟨j, hj, by rwa [hother j hji], σ, by rw [hother j hji, hσ]⟩

/-- Only the types and the slots matter. -/
theorem congr (h : GoodBut lost sb dn used data) (htype : ∀ j, (dn' j).type = (dn j).type)
    (hslot : ∀ j < sb.ninodes, (dn j).type ≠ .free → ∀ σ,
      (dn' j).slot data' σ = (dn j).slot data σ) : GoodBut lost sb dn' used data' := by
  refine ⟨h.metadata, ?_, ?_, ?_⟩
  · intro j hj htj σ hσ
    rw [htype] at htj
    rw [hslot j hj htj] at hσ ⊢
    exact h.owned j hj htj σ hσ
  · intro j hj htj k hk htk σ τ hσ he
    rw [htype] at htj htk
    rw [hslot j hj htj] at hσ he
    rw [hslot k hk htk] at he
    exact h.once j hj htj k hk htk σ τ hσ he
  · intro b hb hb' hub hlb
    obtain ⟨j, hj, htj, σ, hσ⟩ := h.covered b hb hb' hub hlb
    exact ⟨j, hj, by rwa [htype], σ, by rw [hslot j hj htj, hσ]⟩

end GoodBut

/-! ## States -/

namespace State

variable {lost : ℕ → Prop} {s s' s'' : State} {i : ℕ}

/-- The slots of the in-memory inode `i`. -/
def memSlot (s : State) (i σ : ℕ) : ℕ := (s.itable i).d.slot s.data σ

/-- The state with the in-memory inode `i` written back. -/
def flush (s : State) (i : ℕ) : State :=
  { s with dinode := update s.dinode i (s.itable i).d }

/-- The in-memory inode `i` has been read from the disk. -/
def Locked (s : State) (i : ℕ) : Prop := 0 < (s.itable i).ref ∧ (s.itable i).valid = true

/-- A file system between two operations: good but for the blocks in `lost`, without holes, and
the in-memory inodes agree with the disk. -/
structure WfBut (lost : ℕ → Prop) (s : State) : Prop where
  pos : 0 < s.sb.datastart
  size_lt : s.sb.size < 2 ^ 32
  good : GoodBut lost s.sb s.dinode s.used s.data
  noHoles : NoHoles s.sb s.dinode s.data
  agree : ∀ i, s.Locked i →
    (s.itable i).d = s.dinode i ∧ (s.dinode i).type ≠ .free ∧ i < s.sb.ninodes

/-- A well-formed file system, in which every used block is in a slot. -/
abbrev Wf (s : State) : Prop := s.WfBut fun _ => False

/-- More blocks may be marked used without an owner. -/
theorem WfBut.mono {lost' : ℕ → Prop} (h : s.WfBut lost) (hlost : ∀ b, lost b → lost' b) :
    s.WfBut lost' :=
  ⟨h.pos, h.size_lt, ⟨h.good.metadata, h.good.owned, h.good.once, fun b h1 h2 h3 h4 =>
    h.good.covered b h1 h2 h3 fun hl => h4 (hlost b hl)⟩, h.noHoles, h.agree⟩

/-- A file system in the middle of an operation on the locked inode `i`: well formed once
`i` is written back. -/
structure WfAt (lost : ℕ → Prop) (s : State) (i : ℕ) : Prop where
  wf : (s.flush i).WfBut lost
  locked : s.Locked i

/-- What work on inode `i` leaves alone: the other inodes and their blocks. -/
structure Touch (i : ℕ) (s s' : State) : Prop where
  sb : s'.sb = s.sb
  inuse : s'.inuse = s.inuse
  itable : ∀ j, j ≠ i → s'.itable j = s.itable j
  dinode : ∀ j, j ≠ i → s'.dinode j = s.dinode j
  ref : (s'.itable i).ref = (s.itable i).ref
  valid : (s'.itable i).valid = (s.itable i).valid
  keep : ∀ c, s.used c = true → (∀ σ, s.memSlot i σ ≠ 0 → s.memSlot i σ ≠ c) →
    s'.used c = true ∧ s'.data c = s.data c ∧ ∀ σ, s'.memSlot i σ ≠ 0 → s'.memSlot i σ ≠ c

theorem Touch.refl (i : ℕ) (s : State) : Touch i s s :=
  ⟨rfl, rfl, fun _ _ => rfl, fun _ _ => rfl, rfl, rfl, fun _ hu hn => ⟨hu, rfl, hn⟩⟩

theorem Touch.trans (h : Touch i s s') (h' : Touch i s' s'') : Touch i s s'' where
  sb := h'.sb.trans h.sb
  inuse := h'.inuse.trans h.inuse
  itable j hj := (h'.itable j hj).trans (h.itable j hj)
  dinode j hj := (h'.dinode j hj).trans (h.dinode j hj)
  ref := h'.ref.trans h.ref
  valid := h'.valid.trans h.valid
  keep c hu hn := by
    obtain ⟨hu', hd', hn'⟩ := h.keep c hu hn
    obtain ⟨hu'', hd'', hn''⟩ := h'.keep c hu' hn'
    exact ⟨hu'', hd''.trans hd', hn''⟩

theorem Touch.counts (h : Touch i s s') (j : ℕ) : (s'.itable j).ref = (s.itable j).ref ∧
    (s'.itable j).valid = (s.itable j).valid := by
  obtain rfl | hj := eq_or_ne j i
  · exact ⟨h.ref, h.valid⟩
  · rw [h.itable j hj]
    exact ⟨rfl, rfl⟩

theorem Touch.locked (h : Touch i s s') {j : ℕ} (hl : s.Locked j) : s'.Locked j := by
  unfold Locked
  rw [(h.counts j).1, (h.counts j).2]
  exact hl

/-- Allocation for inode `i`: slots are only filled, and the blocks of the contents keep
what they hold. -/
structure Grow (lost : ℕ → Prop) (i : ℕ) (s s' : State) : Prop where
  touch : Touch i s s'
  wfAt : s'.WfAt lost i
  d : (s'.itable i).d = { (s.itable i).d with addrs := (s'.itable i).d.addrs }
  slots : ∀ σ, s.memSlot i σ ≠ 0 → s'.memSlot i σ = s.memSlot i σ
  data : ∀ σ, σ ≠ ndirect → s.memSlot i σ ≠ 0 → s'.data (s.memSlot i σ) = s.data (s.memSlot i σ)

theorem Grow.refl (h : s.WfAt lost i) : Grow lost i s s :=
  ⟨Touch.refl i s, h, rfl, fun _ _ => rfl, fun _ _ _ => rfl⟩

theorem Grow.trans (h : Grow lost i s s') (h' : Grow lost i s' s'') : Grow lost i s s'' where
  touch := h.touch.trans h'.touch
  wfAt := h'.wfAt
  d := by rw [h'.d, h.d]
  slots σ hne := by
    have h1 := h.slots σ hne
    rw [h'.slots σ (by rwa [h1]), h1]
  data σ hσ hne := by
    have h1 := h.slots σ hne
    have h2 := h'.data σ hσ (by rwa [h1])
    rw [h1] at h2
    rw [h2, h.data σ hσ hne]

theorem flush_eq_self (h : (s.itable i).d = s.dinode i) : s.flush i = s := by
  unfold flush
  rw [h, update_eq_self]

/-- A locked inode of a well-formed file system. -/
theorem WfBut.at (h : s.WfBut lost) (hl : s.Locked i) : s.WfAt lost i :=
  ⟨by rw [flush_eq_self (h.agree i hl).1]; exact h, hl⟩

theorem flush_dinode_self : (s.flush i).dinode i = (s.itable i).d := update_self _ _ _

theorem flush_dinode_of_ne {j : ℕ} (h : j ≠ i) : (s.flush i).dinode j = s.dinode j :=
  update_of_ne h _ _

namespace WfAt

variable (h : s.WfAt lost i)

include h

theorem type_ne_free : (s.itable i).d.type ≠ .free := by
  have := (h.wf.agree i h.locked).2.1
  rwa [flush_dinode_self] at this

theorem lt_ninodes : i < s.sb.ninodes := (h.wf.agree i h.locked).2.2

theorem size_le : (s.itable i).d.size ≤ maxfile * bsize := by
  have := h.wf.noHoles i h.lt_ninodes
  rw [flush_dinode_self] at this
  exact (this h.type_ne_free).1

/-- The blocks below the size of the inode at work are there. -/
theorem memSlot_ne_zero {bn : ℕ} (hbn : bn * bsize < (s.itable i).d.size) :
    s.memSlot i (fileSlot bn) ≠ 0 := by
  have := h.wf.noHoles i h.lt_ninodes
  rw [flush_dinode_self] at this
  exact (this h.type_ne_free).2 bn hbn

/-- Every number in a slot of the inode at work is a used data block. -/
theorem memSlot_owned {σ : ℕ} (hne : s.memSlot i σ ≠ 0) :
    s.sb.datastart ≤ s.memSlot i σ ∧ s.memSlot i σ < s.sb.size ∧ s.used (s.memSlot i σ) = true := by
  have := h.wf.good.owned i h.lt_ninodes (by rw [flush_dinode_self]; exact h.type_ne_free) σ
  rw [flush_dinode_self] at this
  exact this hne

/-- Different slots of the inode at work hold different blocks. -/
theorem memSlot_inj {σ τ : ℕ} (hne : s.memSlot i σ ≠ 0) (he : s.memSlot i σ = s.memSlot i τ) :
    σ = τ := by
  have ht : ((s.flush i).dinode i).type ≠ .free := by rw [flush_dinode_self]; exact h.type_ne_free
  have := h.wf.good.once i h.lt_ninodes ht i h.lt_ninodes ht σ τ
  rw [flush_dinode_self] at this
  exact (this hne he).2

/-- A block of another inode in use is used and in no slot of the inode at work. -/
theorem other_owned {j : ℕ} (hj : j < s.sb.ninodes) (hji : j ≠ i) (ht : (s.dinode j).type ≠ .free)
    {σ : ℕ} (hne : (s.dinode j).slot s.data σ ≠ 0) :
    s.used ((s.dinode j).slot s.data σ) = true ∧
      ∀ τ, s.memSlot i τ ≠ 0 → s.memSlot i τ ≠ (s.dinode j).slot s.data σ := by
  have ht' : ((s.flush i).dinode i).type ≠ .free := by rw [flush_dinode_self]; exact h.type_ne_free
  have hj' := flush_dinode_of_ne (s := s) hji
  refine ⟨?_, fun τ hτ he => ?_⟩
  · have := h.wf.good.owned j hj (by rwa [hj']) σ
    rw [hj'] at this
    exact (this hne).2.2
  · have := h.wf.good.once i h.lt_ninodes ht' j hj (by rwa [hj']) τ σ
    rw [hj', flush_dinode_self] at this
    exact hji (this hτ he).1.symm

end WfAt

/-- **Other inodes keep their slots and their contents.** -/
theorem Touch.other (ht : Touch i s s') (h : s.WfAt lost i) {j : ℕ} (hj : j < s.sb.ninodes) (hji : j ≠ i)
    (hf : (s.dinode j).type ≠ .free) (σ : ℕ) :
    (s'.dinode j).slot s'.data σ = (s.dinode j).slot s.data σ ∧
      ((s.dinode j).slot s.data σ ≠ 0 →
        s'.data ((s.dinode j).slot s.data σ) = s.data ((s.dinode j).slot s.data σ)) := by
  have hkeep : ∀ τ, (s.dinode j).slot s.data τ ≠ 0 →
      s'.data ((s.dinode j).slot s.data τ) = s.data ((s.dinode j).slot s.data τ) := by
    intro τ hτ
    obtain ⟨hu, hn⟩ := h.other_owned hj hji hf hτ
    exact (ht.keep _ hu hn).2.1
  refine ⟨?_, hkeep σ⟩
  rw [ht.dinode j hji]
  refine slot_congr (fun _ _ => rfl) (fun h0 => ?_) σ
  have := hkeep ndirect (by rwa [slot_ndirect])
  rwa [slot_ndirect] at this

/-- **Back to a well-formed state** after work on inode `i`: what is left to show is the free
map, and that inode `i` is written back without holes. -/
theorem Touch.wf (ht : Touch i s s') (h : s.WfAt lost i) (hd : (s'.itable i).d = s'.dinode i)
    (hf : (s'.dinode i).type ≠ .free) (hgood : GoodBut lost s'.sb s'.dinode s'.used s'.data)
    (hsize : (s'.dinode i).size ≤ maxfile * bsize)
    (hslot : ∀ bn, bn * bsize < (s'.dinode i).size →
      (s'.dinode i).slot s'.data (fileSlot bn) ≠ 0) : s'.WfBut lost := by
  refine ⟨ht.sb ▸ h.wf.pos, ht.sb ▸ h.wf.size_lt, hgood, ?_, ?_⟩
  · intro j hj hfj
    rw [ht.sb] at hj
    by_cases hji : j = i
    · subst hji
      exact ⟨hsize, hslot⟩
    · rw [ht.dinode j hji] at hfj
      have hno := h.wf.noHoles j hj
      rw [flush_dinode_of_ne hji] at hno
      obtain ⟨hsz, hno⟩ := hno hfj
      refine ⟨by rwa [ht.dinode j hji], fun bn hbn => ?_⟩
      rw [(ht.other h hj hji hfj _).1]
      rw [ht.dinode j hji] at hbn
      exact hno bn hbn
  · intro j hl
    by_cases hji : j = i
    · subst hji
      exact ⟨hd, hf, ht.sb ▸ h.lt_ninodes⟩
    · unfold Locked at hl
      rw [ht.itable j hji] at hl ⊢
      have hag := h.wf.agree j hl
      rw [flush_dinode_of_ne hji] at hag
      rw [ht.dinode j hji, ht.sb]
      exact hag

/-- `Touch.wf` before the inode is written back. -/
theorem Touch.wfAt (ht : Touch i s s') (h : s.WfAt lost i) (hf : (s'.itable i).d.type ≠ .free)
    (hgood : GoodBut lost s'.sb (s'.flush i).dinode s'.used s'.data)
    (hsize : (s'.itable i).d.size ≤ maxfile * bsize)
    (hslot : ∀ bn, bn * bsize < (s'.itable i).d.size → s'.memSlot i (fileSlot bn) ≠ 0) :
    s'.WfAt lost i := by
  have ht' : Touch i s (s'.flush i) :=
    ⟨ht.sb, ht.inuse, ht.itable, fun j hj => (flush_dinode_of_ne hj).trans (ht.dinode j hj),
      ht.ref, ht.valid, ht.keep⟩
  have hself := flush_dinode_self (s := s') (i := i)
  refine ⟨ht'.wf h hself.symm (by rwa [hself]) hgood (by rwa [hself]) ?_, ?_⟩
  · rw [hself]
    exact hslot
  · exact ⟨ht.ref ▸ h.locked.1, ht.valid ▸ h.locked.2⟩

end State

end Xv6.Fs
