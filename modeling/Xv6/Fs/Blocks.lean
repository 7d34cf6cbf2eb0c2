import Xv6.Fs.Own

/-!
# Allocating and freeing the blocks of an inode

What `bmap` and `itrunc` do to a locked inode of a well-formed file system.

* `bmap_run`: `bmap` finds the block or fills an empty slot with a fresh one; it gives up
  only when the disk is full, possibly after it has allocated the indirect block.
* `bmap_recorded`: what `bmap` changes is in the blocks it hands to `log_write`.
* `itrunc_run`: `itrunc` frees exactly the blocks of the inode, and never a free block.
-/

namespace Xv6.Fs

open Function Lib

/-- What `balloc` leaves when it takes block `b`. -/
def State.alloc (s : State) (b : ℕ) : State :=
  { s with
    used := update s.used b true
    data := update s.data b fun _ => 0
    logged := b :: s.sb.bblock b :: s.logged }

/-- `balloc` takes a free block, or returns 0 if there is none. -/
theorem balloc_run (s : State) :
    (balloc s = .ok (0, s) ∧ ∀ b < s.sb.size, s.used b = true) ∨
      ∃ b < s.sb.size, s.used b = false ∧ balloc s = .ok (b, s.alloc b) := by
  unfold balloc
  rw [Run.get_bind]
  cases hf : (List.range s.sb.size).find? fun b => !s.used b with
  | none =>
    refine .inl ⟨rfl, fun b hb => ?_⟩
    have := List.find?_eq_none.1 hf b (List.mem_range.2 hb)
    simpa using this
  | some b =>
    have hb := List.mem_range.1 (List.mem_of_find?_eq_some hf)
    have hu := List.find?_some hf
    exact .inr ⟨b, hb, by simpa using hu, rfl⟩

namespace State

variable {lost : ℕ → Prop} {s s' s'' : State} {i : ℕ}

/-- What `bmap` does for slot `σ`: the block in the slot, filled if it was empty, or 0. -/
structure Mapped (lost : ℕ → Prop) (i σ : ℕ) (s : State) (addr : ℕ) (s' : State) : Prop where
  grow : Grow lost i s s'
  here : addr ≠ 0 → s'.memSlot i σ = addr
  same : s.memSlot i σ ≠ 0 → s' = s ∧ addr = s.memSlot i σ
  /-- The answer 0 means that the disk is full. -/
  none : addr = 0 → ∀ b < s'.sb.size, s'.used b = true

variable {σ : ℕ}

/-- The disk is full: nothing is done about an empty slot. -/
theorem Mapped.full (h : s.WfAt lost i) (h0 : s.memSlot i σ = 0)
    (hu : ∀ b < s.sb.size, s.used b = true) : Mapped lost i σ s 0 s :=
  ⟨.refl h, fun hne => absurd rfl hne, fun hne => absurd h0 hne, fun _ => hu⟩

/-- The slot is filled already. -/
theorem Mapped.found (h : s.WfAt lost i) (hne : s.memSlot i σ ≠ 0) :
    Mapped lost i σ s (s.memSlot i σ) s :=
  ⟨.refl h, fun _ => rfl, fun _ => ⟨rfl, rfl⟩, fun h0 => absurd h0 hne⟩

theorem WfAt.ne_zero_of_free (h : s.WfAt lost i) {b : ℕ} (hu : s.used b = false) : b ≠ 0 := by
  rintro rfl
  have := h.wf.good.metadata 0 h.wf.pos
  exact Bool.noConfusion (hu.symm.trans this)

/-- **Filling an empty slot of the inode at work with a fresh block.** -/
theorem WfAt.assign (h : s.WfAt lost i) {b κ : ℕ} (hb : b < s.sb.size) (hu : s.used b = false)
    (h0 : s.memSlot i κ = 0) (hsb : s'.sb = s.sb) (hin : s'.inuse = s.inuse)
    (hused : s'.used = update s.used b true) (hdn : s'.dinode = s.dinode)
    {a : ℕ → ℕ} (hit : s'.itable = update s.itable i
      { s.itable i with d := { (s.itable i).d with addrs := a } })
    (hself : ∀ σ, s'.memSlot i σ = if σ = κ then b else s.memSlot i σ)
    (hdata : ∀ c, c ≠ b → s'.data c = s.data c ∨ c = s.memSlot i ndirect ∧ c ≠ 0) :
    Mapped lost i κ s b s' := by
  have hiti : s'.itable i = { s.itable i with d := { (s.itable i).d with addrs := a } } := by
    rw [hit, update_self]
  have hfresh : ∀ c, s.used c = true → c ≠ b := by
    rintro c hc rfl
    exact Bool.noConfusion (hu.symm.trans hc)
  have hslots : ∀ σ, s.memSlot i σ ≠ 0 → s'.memSlot i σ = s.memSlot i σ := by
    intro σ hne
    rw [hself, if_neg]
    rintro rfl
    exact hne h0
  have ht : Touch i s s' := by
    refine ⟨hsb, hin, fun j hj => by rw [hit, update_of_ne hj], fun j _ => by rw [hdn],
      by rw [hiti], by rw [hiti], fun c hc hn => ⟨?_, ?_, fun σ hσ => ?_⟩⟩
    · rw [hused, update_of_ne (hfresh c hc), hc]
    · rcases hdata c (hfresh c hc) with hd | ⟨he, hne⟩
      · exact hd
      · exact absurd he.symm (hn ndirect (he ▸ hne))
    · rw [hself] at hσ ⊢
      split_ifs at hσ ⊢ with hκ
      · exact (hfresh c hc).symm
      · exact hn σ hσ
  have hgood : GoodBut lost s'.sb (s'.flush i).dinode s'.used s'.data := by
    rw [hsb, hused]
    refine h.wf.good.assign h.wf.pos h.lt_ninodes (by rw [flush_dinode_self]; exact h.type_ne_free)
      hb hu (κ := κ) ?_ ?_ (by rw [flush_dinode_self]; exact h0)
    · intro j
      by_cases hji : j = i
      · subst hji
        rw [flush_dinode_self, flush_dinode_self, hiti]
      · rw [flush_dinode_of_ne hji, flush_dinode_of_ne hji, hdn]
    · intro j hj hf σ
      by_cases hji : j = i
      · subst hji
        rw [flush_dinode_self, flush_dinode_self]
        have := hself σ
        unfold memSlot at this
        rw [this]
        simp only [true_and]
        rfl
      · rw [flush_dinode_of_ne hji] at hf ⊢
        rw [flush_dinode_of_ne hji, if_neg fun hc => hji hc.1]
        exact (ht.other h hj hji hf σ).1
  refine ⟨⟨ht, ht.wfAt h ?_ hgood ?_ ?_, ?_, hslots, ?_⟩, fun _ => by rw [hself, if_pos rfl],
    fun hne => absurd h0 hne, fun hb0 => ?_⟩
  · rw [hiti]; exact h.type_ne_free
  · rw [hiti]; exact h.size_le
  · rw [hiti]
    intro bn hbn
    have := h.memSlot_ne_zero hbn
    rwa [hslots _ this]
  · rw [hiti]
  · intro σ hσ hne
    rcases hdata _ (hfresh _ (h.memSlot_owned hne).2.2) with hd | ⟨he, hc⟩
    · exact hd
    · exact absurd (h.memSlot_inj hne he) hσ
  · exact absurd hb0 (h.ne_zero_of_free hu)

/-- The slots that work on the blocks `lo ≤ bn < hi` of a file may fill: their own, and that of
the indirect block. -/
def InRange (lo hi σ : ℕ) : Prop := σ = ndirect ∨ ∃ bn, lo ≤ bn ∧ bn < hi ∧ σ = fileSlot bn

variable {hi lo : ℕ}

theorem InRange.mono {lo' hi' : ℕ} (h : InRange lo hi σ) (hlo : lo' ≤ lo) (hhi : hi ≤ hi') :
    InRange lo' hi' σ := by
  rcases h with h | ⟨bn, h1, h2, h⟩
  · exact .inl h
  · exact .inr ⟨bn, by omega, by omega, h⟩

/-- **What work on the blocks `lo ≤ bn < hi` of inode `i` hands to `log_write`**: blocks in its
slots, and the blocks of the free map for the slots it filled. Nothing else has changed. -/
structure Recorded (i lo hi : ℕ) (s s' : State) (new : List ℕ) : Prop where
  logged : s'.logged = new ++ s.logged
  mem : ∀ b ∈ new, ∃ σ, InRange lo hi σ ∧ s'.memSlot i σ ≠ 0 ∧
    (b = s'.memSlot i σ ∨ s.memSlot i σ = 0 ∧ b = s.sb.bblock (s'.memSlot i σ))
  fresh : ∀ σ, s.memSlot i σ = 0 → s'.memSlot i σ ≠ 0 → s'.memSlot i σ ∈ new
  data : ∀ b, b ∉ new → s'.data b = s.data b
  used : ∀ c, s.sb.bblock c ∉ new → s'.used c = s.used c
  dinode : s'.dinode = s.dinode

theorem Recorded.refl (i lo hi : ℕ) (s : State) : Recorded i lo hi s s [] :=
  ⟨rfl, nofun, fun _ h0 hne => absurd h0 hne, fun _ _ => rfl, fun _ _ => rfl, rfl⟩

theorem Recorded.mono {lo' hi' : ℕ} {new : List ℕ} (h : Recorded i lo hi s s' new) (hlo : lo' ≤ lo)
    (hhi : hi ≤ hi') : Recorded i lo' hi' s s' new :=
  { h with
    mem := fun b hb => by
      obtain ⟨σ, hσ, h1, h2⟩ := h.mem b hb
      exact ⟨σ, hσ.mono hlo hhi, h1, h2⟩ }

/-- One piece of work after another; slots once filled stay. -/
theorem Recorded.trans {new new' : List ℕ} (h : Recorded i lo hi s s' new)
    (h' : Recorded i lo hi s' s'' new') (hsb : s'.sb = s.sb)
    (hs : ∀ σ, s.memSlot i σ ≠ 0 → s'.memSlot i σ = s.memSlot i σ)
    (hs' : ∀ σ, s'.memSlot i σ ≠ 0 → s''.memSlot i σ = s'.memSlot i σ) :
    Recorded i lo hi s s'' (new' ++ new) where
  logged := by rw [h'.logged, h.logged, List.append_assoc]
  mem b hb := by
    rcases List.mem_append.1 hb with hb | hb
    · obtain ⟨σ, hσ, hne, he⟩ := h'.mem b hb
      refine ⟨σ, hσ, hne, he.imp id fun ⟨h0, hb⟩ => ⟨?_, by rw [hb, hsb]⟩⟩
      by_contra hc
      exact hc ((hs σ hc).symm.trans h0)
    · obtain ⟨σ, hσ, hne, he⟩ := h.mem b hb
      refine ⟨σ, hσ, ?_, ?_⟩
      · rwa [hs' σ hne]
      · rwa [hs' σ hne]
  fresh σ h0 hne := by
    by_cases h1 : s'.memSlot i σ = 0
    · exact List.mem_append_left _ (h'.fresh σ h1 hne)
    · rw [hs' σ h1]
      exact List.mem_append_right _ (h.fresh σ h0 h1)
  data b hb := by
    rw [List.mem_append, not_or] at hb
    rw [h'.data b hb.1, h.data b hb.2]
  used c hc := by
    rw [List.mem_append, not_or] at hc
    rw [h'.used c (by rw [hsb]; exact hc.1), h.used c hc.2]
  dinode := h'.dinode.trans h.dinode

end State

/-! ## `bmap` -/

section Bmap

variable {lost : ℕ → Prop} {s : State} {i : ℕ}

variable {b κ : ℕ}

/-- The slots after `addrs[κ]` was filled with a fresh block. -/
theorem State.WfAt.memSlot_assign_addr (h : s.WfAt lost i) (hκ : κ ≤ ndirect)
    (hu : s.used b = false) (h0 : (s.itable i).d.addrs κ = 0) (σ : ℕ) :
    ((s.alloc b).setD i { (s.itable i).d with
      addrs := update (s.itable i).d.addrs κ b }).memSlot i σ =
        if σ = κ then b else s.memSlot i σ := by
  simp only [State.memSlot, State.setD, State.setInode, State.alloc, update_self]
  by_cases hσ : σ ≤ ndirect
  · rw [slot_of_le hσ, slot_of_le hσ]
    exact update_apply _ _ _ _
  · rw [if_neg (by omega)]
    by_cases hind : κ = ndirect
    · -- a fresh indirect block lists nothing
      subst hind
      rw [slot_of_ind_zero h0 hσ, Dinode.slot, if_neg hσ]
      split_ifs with hw
      · dsimp only
        rw [update_self, update_self, Lib.Bytes.word_zero]
      · rfl
    · refine slot_congr_word hσ ?_ ?_
      · exact update_of_ne (Ne.symm hind) _ _
      · intro hne
        have hown := h.memSlot_owned (σ := ndirect) (by rwa [State.memSlot, slot_ndirect])
        rw [State.memSlot, slot_ndirect] at hown
        refine update_of_ne ?_ _ _
        rintro rfl
        exact Bool.noConfusion (hu.symm.trans hown.2.2)

/-- Filling `addrs[σ]` with a fresh block. -/
theorem State.WfAt.assign_addr (h : s.WfAt lost i) (hκ : κ ≤ ndirect) (hb : b < s.sb.size)
    (hu : s.used b = false) (h0 : (s.itable i).d.addrs κ = 0) :
    State.Mapped lost i κ s b ((s.alloc b).setD i
      { (s.itable i).d with addrs := update (s.itable i).d.addrs κ b }) := by
  refine h.assign hb hu (κ := κ) ?_ rfl rfl rfl rfl rfl (h.memSlot_assign_addr hκ hu h0) ?_
  · rw [State.memSlot, slot_of_le hκ, h0]
  · intro c hc
    exact .inl (update_of_ne hc _ _)

variable {k : ℕ}

theorem State.memSlot_word (hk : k < nindirect)
    (hind : (s.itable i).d.addrs ndirect ≠ 0) :
    s.memSlot i (ndirect + 1 + k) = (s.data ((s.itable i).d.addrs ndirect)).word k := by
  have : ndirect + 1 + k ≤ maxfile := by unfold maxfile; omega
  rw [State.memSlot, slot_of_word (by omega) this hind]
  congr 1
  omega

variable (h : s.WfAt lost i)

include h

/-- A fresh block is not the indirect block. -/
theorem State.WfAt.addrs_ndirect_ne (hu : s.used b = false)
    (hind : (s.itable i).d.addrs ndirect ≠ 0) : (s.itable i).d.addrs ndirect ≠ b := by
  have hown := h.memSlot_owned (σ := ndirect) (by rwa [State.memSlot, slot_ndirect])
  rw [State.memSlot, slot_ndirect] at hown
  intro he
  rw [he, hu] at hown
  exact Bool.noConfusion hown.2.2

/-- The slots after an empty entry of the indirect block was filled with a fresh block. -/
theorem State.WfAt.memSlot_assign_word (hk : k < nindirect)
    (hb : b < s.sb.size) (hu : s.used b = false) (hind : (s.itable i).d.addrs ndirect ≠ 0)
    (l : List ℕ) (σ : ℕ) :
    ({ s.alloc b with
      data := update (s.alloc b).data ((s.itable i).d.addrs ndirect)
        (((s.alloc b).data ((s.itable i).d.addrs ndirect)).setWord k b)
      logged := l } : State).memSlot i σ = if σ = ndirect + 1 + k then b else s.memSlot i σ := by
  have hdata : (s.alloc b).data ((s.itable i).d.addrs ndirect) =
      s.data ((s.itable i).d.addrs ndirect) :=
    update_of_ne (h.addrs_ndirect_ne hu hind) _ _
  rw [hdata]
  simp only [State.memSlot, State.alloc]
  by_cases hσ : σ ≤ ndirect
  · rw [slot_of_le hσ, slot_of_le hσ, if_neg (by omega)]
  · by_cases hm : σ ≤ maxfile
    · rw [slot_of_word hσ hm hind, slot_of_word hσ hm hind, update_self]
      have h4 : 4 * k + 4 ≤ bsize := by
        have : nindirect * 4 = bsize := by decide
        omega
      split_ifs with hc
      · rw [show σ - ndirect - 1 = k by omega, Lib.Bytes.word_setWord _ h4,
          Nat.mod_eq_of_lt (Nat.lt_trans hb h.wf.size_lt)]
      · exact Lib.Bytes.word_setWord_ne _ _ (by omega)
    · have hz : ∀ (data : ℕ → Block), (s.itable i).d.slot data σ = 0 := by
        intro data
        rw [Dinode.slot, if_neg hσ, if_neg fun hc => hm hc.1]
      rw [hz, hz, if_neg]
      unfold maxfile at hm
      omega

/-- Filling an empty entry of the indirect block with a fresh block. -/
theorem State.WfAt.assign_word (hk : k < nindirect) (hb : b < s.sb.size)
    (hu : s.used b = false) (hind : (s.itable i).d.addrs ndirect ≠ 0)
    (h0 : (s.data ((s.itable i).d.addrs ndirect)).word k = 0) (l : List ℕ) :
    State.Mapped lost i (ndirect + 1 + k) s b { s.alloc b with
      data := update (s.alloc b).data ((s.itable i).d.addrs ndirect)
        (((s.alloc b).data ((s.itable i).d.addrs ndirect)).setWord k b)
      logged := l } := by
  have hslot := State.memSlot_word hk hind
  refine h.assign hb hu (κ := ndirect + 1 + k) (by rw [hslot, h0]) rfl rfl rfl rfl
    (a := (s.itable i).d.addrs) (update_eq_self i s.itable).symm
    (h.memSlot_assign_word hk hb hu hind l) ?_
  intro c hc
  by_cases hci : c = (s.itable i).d.addrs ndirect
  · exact .inr ⟨by rw [hci, State.memSlot, slot_ndirect], hci ▸ hind⟩
  · refine .inl ?_
    change update _ _ _ c = _
    rw [update_of_ne hci]
    exact update_of_ne hc _ _

variable {hi lo : ℕ}

/-- A fresh block in `addrs[σ]` is logged, and so is its bit. -/
theorem State.WfAt.recorded_addr (hκ : κ ≤ ndirect) (hin : State.InRange lo hi κ)
    (hu : s.used b = false) (h0 : (s.itable i).d.addrs κ = 0) :
    State.Recorded i lo hi s ((s.alloc b).setD i
      { (s.itable i).d with addrs := update (s.itable i).d.addrs κ b }) [b, s.sb.bblock b] := by
  have hslots := h.memSlot_assign_addr hκ hu h0
  have hslot := (hslots κ).trans (if_pos rfl)
  have hb0 := h.ne_zero_of_free hu
  refine ⟨rfl, fun c hc => ⟨κ, hin, by rwa [hslot], ?_⟩, fun σ hz hne => ?_, fun c hc => ?_,
    fun c hc => ?_, rfl⟩
  · rw [hslot]
    simp only [List.mem_cons, List.not_mem_nil, or_false] at hc
    exact hc.imp id fun hc => ⟨by rw [State.memSlot, slot_of_le hκ, h0], hc⟩
  · rw [hslots] at hne ⊢
    split_ifs at hne ⊢
    · exact .head _
    · exact absurd hz hne
  · exact update_of_ne (by rintro rfl; exact hc (.head _)) _ _
  · exact update_of_ne (by rintro rfl; exact hc (.tail _ (.head _))) _ _

/-- So is a fresh block in the indirect block, and the indirect block. -/
theorem State.WfAt.recorded_word (hk : k < nindirect)
    (hin : State.InRange lo hi (ndirect + 1 + k)) (hb : b < s.sb.size) (hu : s.used b = false)
    (hind : (s.itable i).d.addrs ndirect ≠ 0)
    (h0 : (s.data ((s.itable i).d.addrs ndirect)).word k = 0) :
    State.Recorded i lo hi s { s.alloc b with
      data := update (s.alloc b).data ((s.itable i).d.addrs ndirect)
        (((s.alloc b).data ((s.itable i).d.addrs ndirect)).setWord k b)
      logged := (s.itable i).d.addrs ndirect :: (s.alloc b).logged }
      [(s.itable i).d.addrs ndirect, b, s.sb.bblock b] := by
  have hslots := h.memSlot_assign_word hk hb hu hind ((s.itable i).d.addrs ndirect :: (s.alloc b).logged)
  have hb0 := h.ne_zero_of_free hu
  have hslot := (hslots (ndirect + 1 + k)).trans (if_pos rfl)
  refine ⟨rfl, fun c hc => ?_, fun σ hz hne => ?_, fun c hc => ?_, fun c hc => ?_, rfl⟩
  · simp only [List.mem_cons, List.not_mem_nil, or_false] at hc
    rcases hc with rfl | hc
    · refine ⟨ndirect, .inl rfl, ?_, .inl ?_⟩
      · rw [State.memSlot, slot_ndirect]
        exact hind
      · rw [State.memSlot, slot_ndirect]
        rfl
    · refine ⟨ndirect + 1 + k, hin, by rwa [hslot], ?_⟩
      rw [hslot]
      exact hc.imp id fun hc => ⟨by rw [State.memSlot_word hk hind, h0], hc⟩
  · rw [hslots] at hne ⊢
    split_ifs at hne ⊢
    · exact .tail _ (.head _)
    · exact absurd hz hne
  · simp only [List.mem_cons, List.not_mem_nil, or_false, not_or] at hc
    change update _ _ _ c = _
    rw [update_of_ne hc.1]
    exact update_of_ne hc.2.1 _ _
  · exact update_of_ne (by rintro rfl; exact hc (.tail _ (.tail _ (.head _)))) _ _

theorem bmap_entry_recorded (hk : k < nindirect)
    (hin : State.InRange lo hi (ndirect + 1 + k)) (hind : (s.itable i).d.addrs ndirect ≠ 0) :
    ∃ addr s' new, bmap.entry ((s.itable i).d.addrs ndirect) k s = .ok (addr, s') ∧
      State.Mapped lost i (ndirect + 1 + k) s addr s' ∧ State.Recorded i lo hi s s' new := by
  have hslot := State.memSlot_word hk hind
  unfold bmap.entry
  rw [Run.get_bind, Run.ite_run]
  by_cases h0 : (s.data ((s.itable i).d.addrs ndirect)).word k = 0
  · rw [if_pos h0]
    rcases balloc_run s with ⟨hr, hfull⟩ | ⟨b, hb, hu, hr⟩
    · rw [Run.bind_of_ok hr]
      exact ⟨0, s, [], rfl, .full h (hslot.trans h0) hfull, .refl i lo hi s⟩
    · rw [Run.bind_of_ok hr, if_neg (h.ne_zero_of_free hu)]
      exact ⟨b, _, _, rfl, h.assign_word hk hb hu hind h0 _, h.recorded_word hk hin hb hu hind h0⟩
  · rw [if_neg h0, ← hslot]
    exact ⟨_, s, [], rfl, .found h (hslot.trans_ne h0), .refl i lo hi s⟩

/-- **`bmap` on a locked inode**, and what it logs. -/
theorem bmap_recorded {bn : ℕ} (hbn : bn < maxfile) :
    ∃ addr s' new, bmap i bn s = .ok (addr, s') ∧ State.Mapped lost i (fileSlot bn) s addr s' ∧
      State.Recorded i bn (bn + 1) s s' new := by
  have hin : State.InRange bn (bn + 1) (fileSlot bn) := .inr ⟨bn, le_rfl, Nat.lt_succ_self bn, rfl⟩
  unfold bmap
  rw [Run.get_bind, Run.ite_run]
  by_cases hd : bn < ndirect
  · -- one of the direct blocks
    have hslot : s.memSlot i bn = (s.itable i).d.addrs bn := slot_of_le (by omega)
    rw [fileSlot, if_pos hd] at hin
    rw [if_pos hd, Run.ite_run, fileSlot, if_pos hd]
    by_cases h0 : (s.itable i).d.addrs bn = 0
    · rw [if_pos h0]
      rcases balloc_run s with ⟨hr, hfull⟩ | ⟨b, hb, hu, hr⟩
      · rw [Run.bind_of_ok hr]
        exact ⟨0, s, [], rfl, .full h (hslot.trans h0) hfull, .refl ..⟩
      · rw [Run.bind_of_ok hr, if_neg (h.ne_zero_of_free hu)]
        exact ⟨b, _, _, rfl, h.assign_addr (by omega) hb hu h0, h.recorded_addr (by omega) hin hu h0⟩
    · rw [if_neg h0, ← hslot]
      exact ⟨_, s, [], rfl, .found h (hslot.trans_ne h0), .refl ..⟩
  · -- a block listed in the indirect block
    have hk : bn - ndirect < nindirect := by unfold maxfile at hbn; omega
    have hslot : fileSlot bn = ndirect + 1 + (bn - ndirect) := by
      rw [fileSlot, if_neg hd]; omega
    rw [if_neg hd, Run.ite_run, if_pos hk, Run.ite_run, hslot]
    rw [hslot] at hin
    by_cases h0 : (s.itable i).d.addrs ndirect = 0
    · rw [if_pos h0]
      have hz : s.memSlot i (ndirect + 1 + (bn - ndirect)) = 0 := slot_of_ind_zero h0 (by omega)
      rcases balloc_run s with ⟨hr, hfull⟩ | ⟨b, hb, hu, hr⟩
      · rw [Run.bind_of_ok hr]
        exact ⟨0, s, [], rfl, .full h hz hfull, .refl ..⟩
      · rw [Run.bind_of_ok hr, if_neg (h.ne_zero_of_free hu)]
        have h1 := h.assign_addr le_rfl hb hu h0
        have hrec := h.recorded_addr le_rfl (.inl rfl : State.InRange bn (bn + 1) ndirect) hu h0
        have hind : ((s.alloc b).setD i { (s.itable i).d with
            addrs := update (s.itable i).d.addrs ndirect b }).memSlot i ndirect = b :=
          h1.here (h.ne_zero_of_free hu)
        obtain ⟨addr, s', new, hr', h2, hrec'⟩ := bmap_entry_recorded h1.grow.wfAt hk hin
          (by rw [← slot_ndirect, ← State.memSlot, hind]; exact h.ne_zero_of_free hu)
        rw [← slot_ndirect, ← State.memSlot, hind] at hr'
        exact ⟨addr, s', _, hr', ⟨h1.grow.trans h2.grow, h2.here, fun hne => absurd hz hne, h2.none⟩,
          hrec.trans hrec' rfl h1.grow.slots h2.grow.slots⟩
    · rw [if_neg h0]
      exact bmap_entry_recorded h hk hin h0

/-- **`bmap` on a locked inode.** -/
theorem bmap_run {bn : ℕ} (hbn : bn < maxfile) :
    ∃ addr s', bmap i bn s = .ok (addr, s') ∧ State.Mapped lost i (fileSlot bn) s addr s' := by
  obtain ⟨addr, s', -, hr, hmap, -⟩ := bmap_recorded h hbn
  exact ⟨addr, s', hr, hmap⟩

end Bmap

/-! ## `itrunc` -/

section Itrunc

variable {lost : ℕ → Prop} {s : State} {i : ℕ}

theorem bfree_run {b : ℕ} (h : s.used b = true) :
    bfree b s = .ok ((), { s with
      used := update s.used b false, logged := s.sb.bblock b :: s.logged }) := by
  unfold bfree
  rw [Run.get_bind, if_neg (by simp [h])]
  rfl

/-- The inode with the slots `ks` of `addrs[]` cleared. -/
def Dinode.clear (d : Dinode) (ks : List ℕ) : Dinode :=
  { d with addrs := fun k => if k ∈ ks then 0 else d.addrs k }

variable {k : ℕ}

theorem Dinode.clear_of_mem (d : Dinode) {ks : List ℕ} (h : k ∈ ks) :
    (d.clear ks).addrs k = 0 := if_pos h

theorem Dinode.clear_of_not_mem (d : Dinode) {ks : List ℕ} (h : k ∉ ks) :
    (d.clear ks).addrs k = d.addrs k := if_neg h

theorem Dinode.clear_nil (d : Dinode) : d.clear [] = d := by
  simp [clear]

theorem Dinode.clear_cons_of_zero {d : Dinode} (h : d.addrs k = 0) (ks : List ℕ) :
    d.clear (k :: ks) = d.clear ks := by
  unfold clear
  congr 1
  funext k'
  by_cases hk' : k' = k
  · subst hk'; simp [h]
  · simp [hk']

theorem Dinode.clear_update (d : Dinode) (k : ℕ) (ks : List ℕ) :
    Dinode.clear { d with addrs := update d.addrs k 0 } ks = d.clear (k :: ks) := by
  unfold clear
  congr 1
  funext k'
  by_cases hk' : k' = k
  · subst hk'; simp
  · simp [hk']

/-- The loop over the direct blocks frees the blocks it meets and clears their slots. -/
theorem freeDirect_run (i : ℕ) (ks : List ℕ) : ∀ (s : State), ks.Nodup →
    (∀ k ∈ ks, (s.itable i).d.addrs k ≠ 0 → s.used ((s.itable i).d.addrs k) = true) →
    (∀ k ∈ ks, ∀ k' ∈ ks, (s.itable i).d.addrs k ≠ 0 →
      (s.itable i).d.addrs k = (s.itable i).d.addrs k' → k = k') →
    ∃ u l, freeDirect i ks s =
        .ok ((), { s with used := u, logged := l }.setD i ((s.itable i).d.clear ks)) ∧
      ∀ b, u b = true ↔ s.used b = true ∧ ∀ k ∈ ks, (s.itable i).d.addrs k ≠ 0 →
        (s.itable i).d.addrs k ≠ b := by
  induction ks with
  | nil =>
    intro s _ _ _
    refine ⟨s.used, s.logged, ?_, by simp⟩
    simp [freeDirect, State.setD, State.setInode, Dinode.clear_nil]
  | cons k ks ih =>
    intro s hnd hused hinj
    obtain ⟨hk, hnd⟩ := List.nodup_cons.1 hnd
    unfold freeDirect
    rw [Run.get_bind]
    by_cases h0 : (s.itable i).d.addrs k = 0
    · -- nothing to free here
      rw [if_neg (by simpa using h0), Dinode.clear_cons_of_zero h0]
      obtain ⟨u, l, hr, hu⟩ := ih s hnd (fun k' hk' => hused k' (List.mem_cons_of_mem _ hk'))
        (fun k₁ h₁ k₂ h₂ => hinj k₁ (List.mem_cons_of_mem _ h₁) k₂ (List.mem_cons_of_mem _ h₂))
      refine ⟨u, l, hr, fun b => ?_⟩
      rw [hu b]
      simp [h0]
    · rw [if_pos h0, Run.bind_of_ok (bfree_run (hused k List.mem_cons_self h0))]
      -- the blocks still to be freed are other ones, and still marked used
      have hne : ∀ k' ∈ ks, (s.itable i).d.addrs k ≠ (s.itable i).d.addrs k' := by
        rintro k' hk' he
        exact hk (hinj k List.mem_cons_self k' (List.mem_cons_of_mem _ hk') h0 he ▸ hk')
      set s₁ := State.setD { s with
        used := update s.used ((s.itable i).d.addrs k) false
        logged := s.sb.bblock ((s.itable i).d.addrs k) :: s.logged } i
          { (s.itable i).d with addrs := update (s.itable i).d.addrs k 0 } with hs₁
      have hd₁ : (s₁.itable i).d =
          { (s.itable i).d with addrs := update (s.itable i).d.addrs k 0 } :=
        State.setD_d _ _ _
      have haddr : ∀ k' ∈ ks, (s₁.itable i).d.addrs k' = (s.itable i).d.addrs k' := by
        intro k' hk'
        rw [hd₁]
        refine update_of_ne ?_ _ _
        rintro rfl
        exact hk hk'
      obtain ⟨u, l, hr, hu⟩ := ih s₁ hnd
        (by
          intro k' hk' hne'
          rw [haddr k' hk'] at hne' ⊢
          change update s.used _ false _ = true
          rw [update_of_ne (hne k' hk').symm]
          exact hused k' (List.mem_cons_of_mem _ hk') hne')
        (by
          intro k₁ h₁ k₂ h₂ hne' he
          rw [haddr k₁ h₁] at hne' he
          rw [haddr k₂ h₂] at he
          exact hinj k₁ (List.mem_cons_of_mem _ h₁) k₂ (List.mem_cons_of_mem _ h₂) hne' he)
      refine ⟨u, l, ?_, fun b => ?_⟩
      · change freeDirect i ks s₁ = _
        rw [hr, hd₁, Dinode.clear_update, hs₁]
        simp [State.setD, State.setInode]
      · rw [hu b]
        change update s.used _ false b = true ∧ _ ↔ _
        rw [List.forall_mem_cons, update_apply]
        by_cases hb : b = (s.itable i).d.addrs k
        · rw [if_pos hb]
          simp [hb, h0]
        · rw [if_neg hb]
          refine and_congr_right fun _ => ⟨fun h => ⟨fun _ => Ne.symm hb, fun k' hk' => ?_⟩,
            fun h k' hk' => ?_⟩
          · rw [← haddr k' hk']
            exact h k' hk'
          · rw [haddr k' hk']
            exact h.2 k' hk'

/-- The loop over the indirect block frees the blocks it lists. -/
theorem freeIndirect_run (a : Block) (js : List ℕ) : ∀ (s : State), js.Nodup →
    (∀ j ∈ js, a.word j ≠ 0 → s.used (a.word j) = true) →
    (∀ j ∈ js, ∀ j' ∈ js, a.word j ≠ 0 → a.word j = a.word j' → j = j') →
    ∃ u l, freeIndirect a js s = .ok ((), { s with used := u, logged := l }) ∧
      ∀ b, u b = true ↔ s.used b = true ∧ ∀ j ∈ js, a.word j ≠ 0 → a.word j ≠ b := by
  induction js with
  | nil =>
    intro s _ _ _
    exact ⟨s.used, s.logged, rfl, by simp⟩
  | cons j js ih =>
    intro s hnd hused hinj
    obtain ⟨hj, hnd⟩ := List.nodup_cons.1 hnd
    have hinj' : ∀ j₁ ∈ js, ∀ j₂ ∈ js, a.word j₁ ≠ 0 → a.word j₁ = a.word j₂ → j₁ = j₂ :=
      fun j₁ h₁ j₂ h₂ => hinj j₁ (List.mem_cons_of_mem _ h₁) j₂ (List.mem_cons_of_mem _ h₂)
    unfold freeIndirect
    by_cases h0 : a.word j = 0
    · rw [if_neg (by simpa using h0)]
      obtain ⟨u, l, hr, hu⟩ := ih s hnd (fun j' h' => hused j' (List.mem_cons_of_mem _ h')) hinj'
      refine ⟨u, l, hr, fun b => ?_⟩
      rw [hu b]
      simp [h0]
    · rw [if_pos h0, Run.bind_of_ok (bfree_run (hused j List.mem_cons_self h0))]
      have hne : ∀ j' ∈ js, a.word j ≠ a.word j' := by
        rintro j' hj' he
        exact hj (hinj j List.mem_cons_self j' (List.mem_cons_of_mem _ hj') h0 he ▸ hj')
      obtain ⟨u, l, hr, hu⟩ := ih { s with
          used := update s.used (a.word j) false
          logged := s.sb.bblock (a.word j) :: s.logged } hnd
        (by
          intro j' hj' hne'
          change update s.used _ false _ = true
          rw [update_of_ne (hne j' hj').symm]
          exact hused j' (List.mem_cons_of_mem _ hj') hne')
        hinj'
      refine ⟨u, l, hr, fun b => ?_⟩
      rw [hu b]
      change update s.used _ false b = true ∧ _ ↔ _
      rw [List.forall_mem_cons, update_apply]
      by_cases hb : b = a.word j
      · rw [if_pos hb]
        simp [hb, h0]
      · rw [if_neg hb]
        exact and_congr_right fun _ => ⟨fun h => ⟨fun _ => Ne.symm hb, h⟩, fun h => h.2⟩

/-- The indirect block and what it lists are freed. -/
theorem freeTable_run (h : ∀ σ, ndirect ≤ σ → s.memSlot i σ ≠ 0 → s.used (s.memSlot i σ) = true)
    (hinj : ∀ σ τ, s.memSlot i σ ≠ 0 → s.memSlot i σ = s.memSlot i τ → σ = τ) :
    ∃ u l, freeTable i s =
        .ok ((), { s with used := u, logged := l }.setD i ((s.itable i).d.clear [ndirect])) ∧
      ∀ b, u b = true ↔ s.used b = true ∧ ∀ σ, ndirect ≤ σ → s.memSlot i σ ≠ 0 →
        s.memSlot i σ ≠ b := by
  unfold freeTable
  rw [Run.get_bind]
  have hnd : s.memSlot i ndirect = (s.itable i).d.addrs ndirect := slot_ndirect
  by_cases h0 : (s.itable i).d.addrs ndirect = 0
  · refine ⟨s.used, s.logged, ?_, fun b => ⟨fun hu => ⟨hu, fun σ hσ hne => ?_⟩, fun hu => hu.1⟩⟩
    · rw [if_neg (by simpa using h0), Dinode.clear_cons_of_zero h0, Dinode.clear_nil]
      exact congrArg (fun x => Except.ok ((), x)) (State.setD_self s i).symm
    · rcases Nat.lt_or_eq_of_le hσ with hlt | rfl
      · exact absurd (slot_of_ind_zero h0 (by omega)) hne
      · exact absurd (hnd.trans h0) hne
  · rw [if_pos h0]
    have hword : ∀ j, j ∈ List.range nindirect →
        s.memSlot i (ndirect + 1 + j) = (s.data ((s.itable i).d.addrs ndirect)).word j :=
      fun j hj => State.memSlot_word (List.mem_range.1 hj) h0
    obtain ⟨u, l, hr, hu⟩ := freeIndirect_run (s.data ((s.itable i).d.addrs ndirect))
      (List.range nindirect) s List.nodup_range
      (by
        intro j hj hne
        rw [← hword j hj] at hne ⊢
        exact h _ (by omega) hne)
      (by
        intro j hj j' hj' hne he
        rw [← hword j hj] at hne he
        rw [← hword j' hj'] at he
        have := hinj _ _ hne he
        omega)
    have hui : u ((s.itable i).d.addrs ndirect) = true := by
      rw [hu]
      refine ⟨hnd ▸ h ndirect le_rfl (hnd ▸ h0), fun j hj hne he => ?_⟩
      rw [← hword j hj, ← hnd] at he
      have := hinj _ _ (by rw [he, hnd]; exact h0) he
      omega
    rw [Run.bind_of_ok hr, Run.bind_of_ok (bfree_run hui)]
    have hclear := Dinode.clear_update (s.itable i).d ndirect []
    rw [Dinode.clear_nil] at hclear
    refine ⟨update u ((s.itable i).d.addrs ndirect) false,
      s.sb.bblock ((s.itable i).d.addrs ndirect) :: l, ?_, fun b => ?_⟩
    · rw [← hclear]
      rfl
    · rw [update_apply]
      by_cases hb : b = (s.itable i).d.addrs ndirect
      · rw [if_pos hb]
        refine ⟨nofun, fun hn => absurd ?_ (hn.2 ndirect le_rfl (hnd ▸ h0))⟩
        rw [hnd, hb]
      · rw [if_neg hb, hu b]
        refine and_congr_right fun _ => ⟨fun hn σ hσ hne => ?_, fun hn j hj hne => ?_⟩
        · rcases Nat.lt_or_eq_of_le hσ with hlt | rfl
          · have hmax := slot_le_maxfile hne
            have hj : σ - ndirect - 1 ∈ List.range nindirect := by
              unfold maxfile at hmax
              rw [List.mem_range]; omega
            have := hword _ hj
            rw [show ndirect + 1 + (σ - ndirect - 1) = σ by omega] at this
            rw [this] at hne ⊢
            exact hn _ hj hne
          · rw [hnd]
            exact Ne.symm hb
        · rw [← hword j hj] at hne ⊢
          exact hn _ (by omega) hne

theorem setD_run (s : State) (i : ℕ) (f : Dinode → Dinode) :
    setD i f s = .ok ((), s.setD i (f (s.itable i).d)) := rfl

theorem iupdate_run (s : State) (i : ℕ) :
    iupdate i s = .ok ((), { s.flush i with logged := s.sb.iblock i :: s.logged }) := rfl

/-- An inode without contents. -/
def Dinode.emptied (d : Dinode) : Dinode :=
  { (d.clear (List.range ndirect)).clear [ndirect] with size := 0 }

theorem Dinode.emptied_addrs (d : Dinode) (hk : k ≤ ndirect) : d.emptied.addrs k = 0 := by
  change ((d.clear (List.range ndirect)).clear [ndirect]).addrs k = 0
  rcases Nat.lt_or_eq_of_le hk with hlt | rfl
  · rw [clear_of_not_mem _ (by simp [hlt.ne]), clear_of_mem _ (List.mem_range.2 hlt)]
  · exact clear_of_mem _ (List.mem_singleton.2 rfl)

/-- The steps of `itrunc`: it frees the blocks in the slots of the inode and no others. -/
theorem itrunc_steps (h : s.WfAt lost i) :
    ∃ u l, itrunc i s = .ok ((), { s.setD i (s.itable i).d.emptied with
        used := u
        dinode := update s.dinode i (s.itable i).d.emptied
        logged := l }) ∧
      ∀ b, u b = true ↔ s.used b = true ∧ ∀ σ, s.memSlot i σ ≠ 0 → s.memSlot i σ ≠ b := by
  have hlow : ∀ k ∈ List.range ndirect, s.memSlot i k = (s.itable i).d.addrs k :=
    fun k hk => slot_of_le (List.mem_range.1 hk).le
  obtain ⟨u₁, l₁, hr₁, hu₁⟩ := freeDirect_run i (List.range ndirect) s List.nodup_range
    (by
      intro k hk hne
      rw [← hlow k hk] at hne ⊢
      exact (h.memSlot_owned hne).2.2)
    (by
      intro k hk k' hk' hne he
      rw [← hlow k hk] at hne he
      rw [← hlow k' hk'] at he
      exact h.memSlot_inj hne he)
  set s₁ := { s with used := u₁, logged := l₁ }.setD i
    ((s.itable i).d.clear (List.range ndirect)) with hs₁
  have hd₁ : (s₁.itable i).d = (s.itable i).d.clear (List.range ndirect) := State.setD_d _ _ _
  -- the slots from the indirect block on are as before, the others are empty
  have hhigh : ∀ σ, ndirect ≤ σ → s₁.memSlot i σ = s.memSlot i σ := by
    intro σ hσ
    have hnd : (s₁.itable i).d.addrs ndirect = (s.itable i).d.addrs ndirect := by
      rw [hd₁, Dinode.clear_of_not_mem _ (Nat.lt_irrefl ndirect ∘ List.mem_range.1)]
    rcases Nat.lt_or_eq_of_le hσ with hlt | rfl
    · exact slot_congr_word (by omega) hnd fun _ => rfl
    · exact slot_ndirect.trans (hnd.trans slot_ndirect.symm)
  have hlow₁ : ∀ σ, s₁.memSlot i σ ≠ 0 → ndirect ≤ σ := by
    intro σ hne
    by_contra hlt
    refine hne ?_
    rw [State.memSlot, slot_of_le (by omega), hd₁,
      Dinode.clear_of_mem _ (List.mem_range.2 (by omega))]
  obtain ⟨u₂, l₂, hr₂, hu₂⟩ := freeTable_run (s := s₁) (i := i)
    (by
      intro σ hσ hne
      rw [hhigh σ hσ] at hne ⊢
      refine (hu₁ _).2 ⟨(h.memSlot_owned hne).2.2, fun k hk hne' he => ?_⟩
      rw [← hlow k hk] at he hne'
      have := h.memSlot_inj hne' he
      have := List.mem_range.1 hk
      omega)
    (by
      intro σ τ hne he
      have hσ := hlow₁ σ hne
      have hτ := hlow₁ τ (he ▸ hne)
      rw [hhigh σ hσ] at hne he
      rw [hhigh τ hτ] at he
      exact h.memSlot_inj hne he)
  refine ⟨u₂, s.sb.iblock i :: l₂, ?_, fun b => ?_⟩
  · rw [itrunc, Run.bind_of_ok hr₁, Run.bind_of_ok hr₂, hd₁,
      Run.bind_of_ok (setD_run _ _ _), iupdate_run, hs₁]
    simp [State.flush, Dinode.emptied, State.setD, State.setInode]
  · rw [hu₂ b]
    change u₁ b = true ∧ _ ↔ _
    rw [hu₁ b]
    constructor
    · rintro ⟨⟨hu, h1⟩, h2⟩
      refine ⟨hu, fun σ hne => ?_⟩
      rcases Nat.lt_or_ge σ ndirect with hσ | hσ
      · rw [hlow σ (List.mem_range.2 hσ)] at hne ⊢
        exact h1 σ (List.mem_range.2 hσ) hne
      · rw [← hhigh σ hσ] at hne ⊢
        exact h2 σ hσ hne
    · rintro ⟨hu, hn⟩
      refine ⟨⟨hu, fun k hk hne => ?_⟩, fun σ hσ hne => ?_⟩
      · rw [← hlow k hk] at hne ⊢
        exact hn k hne
      · rw [hhigh σ hσ] at hne ⊢
        exact hn σ hne

/-- What `itrunc` leaves of inode `i`: no blocks, and its other fields. -/
structure Emptied (lost : ℕ → Prop) (i : ℕ) (s s' : State) : Prop where
  touch : State.Touch i s s'
  wf : s'.WfBut lost
  d : (s'.itable i).d = (s.itable i).d.emptied

/-- **`itrunc` on a locked inode** keeps the file system well formed. -/
theorem itrunc_run (h : s.WfAt lost i) : ∃ s', itrunc i s = .ok ((), s') ∧ Emptied lost i s s' := by
  obtain ⟨u, l, hr, hu⟩ := itrunc_steps h
  refine ⟨_, hr, ?_⟩
  set s' : State := { s.setD i (s.itable i).d.emptied with
    used := u
    dinode := update s.dinode i (s.itable i).d.emptied
    logged := l }
  have hd : (s'.itable i).d = (s.itable i).d.emptied := State.setD_d _ _ _
  have hn : s'.dinode i = (s.itable i).d.emptied := update_self _ _ _
  have hslot : ∀ data σ, (s.itable i).d.emptied.slot data σ = 0 :=
    fun data => slot_eq_zero fun k => (s.itable i).d.emptied_addrs
  have ht : State.Touch i s s' := by
    refine ⟨rfl, rfl, fun j hj => State.setD_of_ne _ _ _ hj, fun j hj => update_of_ne hj _ _,
      State.setD_ref _ _ _, State.setD_valid _ _ _, fun c hc hn => ⟨(hu c).2 ⟨hc, hn⟩, rfl, ?_⟩⟩
    intro σ hne
    rw [State.memSlot, hd] at hne
    exact absurd (hslot _ σ) hne
  refine ⟨ht, ht.wf h (hd.trans hn.symm) ?_ ?_ ?_ ?_, hd⟩
  · rw [hn]
    exact h.type_ne_free
  · refine h.wf.good.clear h.wf.pos h.lt_ninodes ?_ ?_ fun b => ?_
    · intro j hj
      rw [State.flush_dinode_of_ne hj]
      exact update_of_ne hj _ _
    · rw [hn]
      exact hslot _
    · rw [State.flush_dinode_self]
      exact (hu b).trans (and_congr_right fun _ => ⟨fun hn _ => hn, fun hn => hn h.type_ne_free⟩)
  · rw [hn]
    exact Nat.zero_le _
  · rw [hn]
    intro bn hbn
    exact absurd hbn (Nat.not_lt_zero _)

end Itrunc

end Xv6.Fs
