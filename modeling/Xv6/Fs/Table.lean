import Xv6.Fs.Blocks

/-!
# The inode table

What `iget`, `ilock`, `iput`, `ialloc` and the updates of an inode's fields do to a
well-formed file system. Each run is described by a function on states (`refer`, `load`,
`unref`, `putD`, `claim`) and each of these keeps the file system well formed; freeing an
inode is described by `Freed`.
-/

namespace Xv6.Fs

open Function Lib

namespace State

variable {lost : ℕ → Prop} {s : State} {i j : ℕ}

/-- The table after `iget`: one more reference to inode `i`. -/
def refer (s : State) (i : ℕ) : State :=
  if 0 < (s.itable i).ref then s.setInode i { s.itable i with ref := (s.itable i).ref + 1 }
  else { s.setInode i { s.itable i with ref := 1, valid := false } with inuse := s.inuse + 1 }

/-- The table after `ip->ref--`. -/
def unref (s : State) (i : ℕ) : State :=
  { s.setInode i { s.itable i with ref := (s.itable i).ref - 1 } with
    inuse := if (s.itable i).ref = 1 then s.inuse - 1 else s.inuse }

/-- The table after `ilock` has read inode `i`. -/
def load (s : State) (i : ℕ) : State :=
  s.setInode i { s.itable i with valid := true, d := s.dinode i }

/-- The in-memory inode `i` assigned and written back. -/
def putD (s : State) (i : ℕ) (d : Dinode) : State :=
  { s.setD i d with
    dinode := update s.dinode i d, logged := s.sb.iblock i :: s.logged }

/-- The inode area after `ialloc` has taken inode `i`. -/
def claim (s : State) (i : ℕ) (type : FType) : State :=
  { s with
    dinode := update s.dinode i { Dinode.zero with type := type }
    logged := s.sb.iblock i :: s.logged }

/-- The state after the end of `iput` for an emptied inode: its type cleared, its entry in
the table given up. -/
def vacate (s : State) (i : ℕ) : State :=
  { s with
    dinode := update s.dinode i { (s.itable i).d with type := .free }
    itable := update s.itable i
      ⟨(s.itable i).ref - 1, false, { (s.itable i).d with type := .free }⟩
    inuse := if (s.itable i).ref = 1 then s.inuse - 1 else s.inuse
    logged := s.sb.iblock i :: s.logged }

theorem vacate_self : (s.vacate i).itable i =
    ⟨(s.itable i).ref - 1, false, { (s.itable i).d with type := .free }⟩ :=
  update_self _ _ _

theorem vacate_dinode_self : (s.vacate i).dinode i = { (s.itable i).d with type := .free } :=
  update_self _ _ _

/-! ### References -/

@[simp] theorem refer_sb : (s.refer i).sb = s.sb := by unfold refer; split <;> rfl

@[simp] theorem refer_used : (s.refer i).used = s.used := by unfold refer; split <;> rfl

@[simp] theorem refer_data : (s.refer i).data = s.data := by unfold refer; split <;> rfl

@[simp] theorem refer_dinode : (s.refer i).dinode = s.dinode := by unfold refer; split <;> rfl

@[simp] theorem refer_d : ((s.refer i).itable j).d = (s.itable j).d := by
  unfold refer
  by_cases hj : j = i
  · subst hj
    split <;> simp [setInode]
  · split <;> simp [setInode, hj]

theorem refer_ref : ((s.refer i).itable j).ref = (s.itable j).ref + if j = i then 1 else 0 := by
  unfold refer
  by_cases hj : j = i
  · subst hj
    split
    · simp
    · next h => simp [setInode]; omega
  · split <;> simp [setInode, hj]

theorem refer_locked : (s.refer i).Locked j ↔ s.Locked j := by
  unfold Locked refer
  by_cases hj : j = i
  · subst hj
    split
    · next h => simp [h]
    · next h => simp [setInode, h]
  · split <;> simp [setInode, hj]

/-- `inuse` is the number of entries that are referred to. -/
def Tallied (s : State) : Prop :=
  ∃ S : Finset ℕ, (∀ j, j ∈ S ↔ 0 < (s.itable j).ref) ∧ s.inuse = S.card

theorem Tallied.congr {s' : State} (h : s.Tallied)
    (hr : ∀ j, (s'.itable j).ref = (s.itable j).ref) (hn : s'.inuse = s.inuse) : s'.Tallied := by
  obtain ⟨S, hS, hc⟩ := h
  exact ⟨S, fun j => by rw [hS, hr], hn.trans hc⟩

theorem Tallied.refer (h : s.Tallied) (i : ℕ) : (s.refer i).Tallied := by
  obtain ⟨S, hS, hc⟩ := h
  refine ⟨insert i S, fun j => ?_, ?_⟩
  · rw [Finset.mem_insert, hS, refer_ref]
    split_ifs <;> omega
  · unfold State.refer
    split_ifs with hpos
    · rw [Finset.insert_eq_of_mem ((hS i).2 hpos)]
      exact hc
    · rw [Finset.card_insert_of_notMem (mt (hS i).1 hpos), ← hc]

/-- A reference is dropped, with the entry if it was the last one. -/
theorem Tallied.drop {s' : State} (h : s.Tallied)
    (hr : ∀ j, (s'.itable j).ref = (s.itable j).ref - if j = i then 1 else 0)
    (hn : s'.inuse = if (s.itable i).ref = 1 then s.inuse - 1 else s.inuse) : s'.Tallied := by
  obtain ⟨S, hS, hc⟩ := h
  split_ifs at hn with h1
  · refine ⟨S.erase i, fun j => ?_, ?_⟩
    · rw [Finset.mem_erase, hS, hr]
      obtain rfl | hj := eq_or_ne j i
      · simp [h1]
      · simp [hj]
    · rw [hn, hc, Finset.card_erase_of_mem ((hS i).2 (by omega))]
  · refine ⟨S, fun j => ?_, hn.trans hc⟩
    rw [hS, hr]
    obtain rfl | hj := eq_or_ne j i
    · rw [if_pos rfl]
      omega
    · rw [if_neg hj, Nat.sub_zero]

@[simp] theorem unref_d : ((s.unref i).itable j).d = (s.itable j).d := by
  by_cases hj : j = i
  · subst hj; simp [unref, setInode]
  · simp [unref, setInode, hj]

@[simp] theorem unref_valid : ((s.unref i).itable j).valid = (s.itable j).valid := by
  by_cases hj : j = i
  · subst hj; simp [unref, setInode]
  · simp [unref, setInode, hj]

theorem unref_ref : ((s.unref i).itable j).ref = (s.itable j).ref - if j = i then 1 else 0 := by
  by_cases hj : j = i
  · subst hj; simp [unref, setInode]
  · simp [unref, setInode, hj]

theorem locked_of_unref (h : (s.unref i).Locked j) : s.Locked j := by
  obtain ⟨hr, hv⟩ := h
  rw [unref_ref] at hr
  rw [unref_valid] at hv
  exact ⟨by omega, hv⟩

theorem unref_locked (h : s.Locked j) (hj : j ≠ i ∨ 2 ≤ (s.itable i).ref) : (s.unref i).Locked j := by
  refine ⟨?_, by rw [unref_valid]; exact h.2⟩
  rw [unref_ref]
  have := h.1
  split_ifs with he
  · subst he
    omega
  · omega

theorem load_ref : ((s.load i).itable j).ref = (s.itable j).ref := by
  by_cases hj : j = i
  · subst hj; simp [load, setInode]
  · simp [load, setInode, hj]

@[simp] theorem load_d_self : ((s.load i).itable i).d = s.dinode i := by simp [load]

theorem load_of_ne (h : j ≠ i) : (s.load i).itable j = s.itable j := setInode_of_ne _ _ _ h

/-- Loading an inode that is there already changes nothing. -/
theorem load_eq_self (hl : s.Locked i) (hd : (s.itable i).d = s.dinode i) : s.load i = s := by
  have : { s.itable i with valid := true, d := s.dinode i } = s.itable i := by
    rw [← hd, ← hl.2]
  rw [load, this, setInode, update_eq_self]

theorem load_locked (h : s.Locked j) : (s.load i).Locked j := by
  by_cases hj : j = i
  · subst hj
    exact ⟨by rw [load_ref]; exact h.1, by simp [load]⟩
  · unfold Locked
    rw [load_of_ne hj]
    exact h

theorem load_locked_self (h : 0 < (s.itable i).ref) : (s.load i).Locked i :=
  ⟨by rw [load_ref]; exact h, by simp [load]⟩

theorem putD_ref (d : Dinode) : ((s.putD i d).itable j).ref = (s.itable j).ref := by
  by_cases hj : j = i
  · subst hj; simp [putD]
  · simp [putD, setD_of_ne _ _ _ hj]

theorem putD_locked (d : Dinode) : (s.putD i d).Locked j ↔ s.Locked j := by
  unfold Locked
  by_cases hj : j = i
  · subst hj; simp [putD]
  · simp [putD, setD_of_ne _ _ _ hj]

@[simp] theorem putD_d_self (d : Dinode) : ((s.putD i d).itable i).d = d := by simp [putD]

@[simp] theorem putD_dinode_self (d : Dinode) : (s.putD i d).dinode i = d :=
  update_self _ _ _

theorem putD_itable_of_ne (d : Dinode) (h : j ≠ i) : (s.putD i d).itable j = s.itable j :=
  setD_of_ne _ _ _ h

theorem putD_dinode_of_ne (d : Dinode) (h : j ≠ i) : (s.putD i d).dinode j = s.dinode j :=
  update_of_ne h _ _

/-! ### Well-formedness -/

variable (h : s.WfBut lost)

include h

/-- A change of the table alone. -/
theorem WfBut.of_table {s' : State} (hsb : s'.sb = s.sb) (hu : s'.used = s.used)
    (hn : s'.dinode = s.dinode) (hd : s'.data = s.data)
    (ha : ∀ j, s'.Locked j →
      (s'.itable j).d = s.dinode j ∧ (s.dinode j).type ≠ .free ∧ j < s.sb.ninodes) : s'.WfBut lost := by
  refine ⟨?_, ?_, ?_, ?_, ?_⟩
  · rw [hsb]; exact h.pos
  · rw [hsb]; exact h.size_lt
  · rw [hsb, hu, hn, hd]; exact h.good
  · rw [hsb, hn, hd]; exact h.noHoles
  · rw [hsb, hn]; exact ha

theorem WfBut.refer (i : ℕ) : (s.refer i).WfBut lost := by
  refine h.of_table refer_sb refer_used refer_dinode refer_data fun j hj => ?_
  rw [refer_d]
  exact h.agree j (refer_locked.1 hj)

theorem WfBut.unref (i : ℕ) : (s.unref i).WfBut lost := by
  refine h.of_table rfl rfl rfl rfl fun j hj => ?_
  rw [unref_d]
  exact h.agree j (locked_of_unref hj)

theorem WfBut.load (hf : (s.dinode i).type ≠ .free) (hi : i < s.sb.ninodes) :
    (s.load i).WfBut lost := by
  refine h.of_table rfl rfl rfl rfl fun j hj => ?_
  by_cases hji : j = i
  · subst hji
    exact ⟨load_d_self, hf, hi⟩
  · unfold Locked at hj
    rw [load_of_ne hji] at hj ⊢
    exact h.agree j hj

/-- New fields for a locked inode, other than its blocks. -/
theorem WfBut.putD (hl : s.Locked i) {d : Dinode} (ht : d.type = (s.itable i).d.type)
    (hs : d.size = (s.itable i).d.size) (ha : d.addrs = (s.itable i).d.addrs) :
    (s.putD i d).WfBut lost := by
  obtain ⟨hd, hf, hi⟩ := h.agree i hl
  rw [hd] at ht hs ha
  have hslot : ∀ data σ, d.slot data σ = (s.dinode i).slot data σ :=
    fun data => slot_congr (fun k _ => by rw [ha]) fun _ => rfl
  have htype : ∀ j, ((s.putD i d).dinode j).type = (s.dinode j).type := by
    intro j
    by_cases hj : j = i
    · subst hj
      rw [putD_dinode_self, ht]
    · rw [putD_dinode_of_ne d hj]
  refine ⟨h.pos, h.size_lt, h.good.congr htype ?_, ?_, ?_⟩
  · intro j _ _ σ
    by_cases hj : j = i
    · subst hj
      rw [putD_dinode_self]
      exact hslot _ σ
    · rw [putD_dinode_of_ne d hj]
      rfl
  · intro j hj hfj
    by_cases hji : j = i
    · subst hji
      rw [putD_dinode_self, hs]
      refine ⟨(h.noHoles j hi hf).1, fun bn hbn => ?_⟩
      rw [hslot]
      exact (h.noHoles j hi hf).2 bn hbn
    · rw [putD_dinode_of_ne d hji] at hfj ⊢
      exact h.noHoles j hj hfj
  · intro j hlj
    rw [htype]
    by_cases hji : j = i
    · subst hji
      rw [putD_d_self, putD_dinode_self]
      exact ⟨rfl, hf, hi⟩
    · rw [putD_locked] at hlj
      rw [putD_itable_of_ne d hji, putD_dinode_of_ne d hji]
      exact h.agree j hlj

/-- A free inode becomes an empty one. -/
theorem WfBut.renew (hi : i < s.sb.ninodes) (hf : (s.dinode i).type = .free)
    {d : Dinode} (ha : ∀ k ≤ ndirect, d.addrs k = 0) (hs : d.size = 0) (l : List ℕ) :
    ({ s with dinode := update s.dinode i d, logged := l } : State).WfBut lost := by
  have hself : update s.dinode i d i = d := update_self _ _ _
  have hother : ∀ j, j ≠ i → update s.dinode i d j = s.dinode j :=
    fun j hj => update_of_ne hj _ _
  refine ⟨h.pos, h.size_lt, ?_, ?_, ?_⟩
  · refine h.good.clear h.pos hi hother ?_ fun b => ?_
    · dsimp only
      rw [hself]
      exact slot_eq_zero ha
    · exact ⟨fun hu => ⟨hu, fun hne => absurd hf hne⟩, fun hu => hu.1⟩
  · intro j hj hfj
    dsimp only at hfj ⊢
    by_cases hji : j = i
    · subst hji
      rw [hself, hs]
      exact ⟨Nat.zero_le _, fun bn hbn => absurd hbn (Nat.not_lt_zero _)⟩
    · rw [hother j hji] at hfj ⊢
      exact h.noHoles j hj hfj
  · intro j hl
    have hag := h.agree j hl
    have hji : j ≠ i := by
      rintro rfl
      exact hag.2.1 hf
    dsimp only
    rw [hother j hji]
    exact hag

/-- Taking a free inode. -/
theorem WfBut.claim (hi : i < s.sb.ninodes) (hf : (s.dinode i).type = .free)
    (type : FType) : (s.claim i type).WfBut lost :=
  h.renew hi hf (fun _ _ => rfl) rfl _

/-- Inode `i`, emptied, becomes free. -/
theorem WfBut.vacate (hl : s.Locked i) (ha : ∀ k ≤ ndirect, (s.itable i).d.addrs k = 0) :
    (s.vacate i).WfBut lost := by
  obtain ⟨hd, hf, hi⟩ := h.agree i hl
  have hself := vacate_dinode_self (s := s) (i := i)
  have hother : ∀ j, j ≠ i → (s.vacate i).dinode j = s.dinode j :=
    fun j hj => update_of_ne hj _ _
  refine ⟨h.pos, h.size_lt, ?_, ?_, ?_⟩
  · refine h.good.clear h.pos hi hother ?_ fun b => ?_
    · rw [hself]
      exact slot_eq_zero ha
    · refine ⟨fun hu => ⟨hu, fun _ σ hne => absurd ?_ hne⟩, fun hu => hu.1⟩
      rw [← hd]
      exact slot_eq_zero ha σ
  · intro j hj hfj
    have hji : j ≠ i := by
      rintro rfl
      rw [hself] at hfj
      exact hfj rfl
    rw [hother j hji] at hfj ⊢
    exact h.noHoles j hj hfj
  · intro j hlj
    have hji : j ≠ i := by
      rintro rfl
      have := hlj.2
      rw [vacate_self] at this
      exact Bool.noConfusion this
    have hit : (s.vacate i).itable j = s.itable j := update_of_ne hji _ _
    unfold Locked at hlj
    rw [hit] at hlj ⊢
    rw [hother j hji]
    exact h.agree j hlj

end State

/-! ## Runs -/

section Runs

variable {lost : ℕ → Prop} {s : State} {i : ℕ}

/-- What `iget` says when the table is full. -/
def noInodes : Stop := .panic "iget: no inodes"

/-- There is no entry for inode `i` in the table, and none is free. -/
def State.Full (s : State) (i : ℕ) : Prop := (s.itable i).ref = 0 ∧ ninode ≤ s.inuse

theorem iget_run (s : State) (i : ℕ) :
    (iget i s = .ok ((), s.refer i) ∧ ¬ s.Full i) ∨ iget i s = .error noInodes ∧ s.Full i := by
  unfold iget State.refer State.Full
  rw [Run.get_bind]
  by_cases h : 0 < (s.itable i).ref
  · rw [if_pos h, if_pos h]
    exact .inl ⟨rfl, fun hf => absurd hf.1 h.ne'⟩
  · rw [if_neg h, if_neg h]
    by_cases hu : s.inuse ≥ ninode
    · rw [if_pos hu]
      exact .inr ⟨rfl, by omega, hu⟩
    · rw [if_neg hu]
      exact .inl ⟨rfl, fun hf => absurd hf.2 hu⟩

theorem idup_run (h : 0 < (s.itable i).ref) : idup i s = .ok ((), s.refer i) := by
  unfold State.refer
  rw [if_pos h]
  rfl

/-- What `ilock` can do. -/
theorem ilock_run (h : s.WfBut lost) (i : ℕ) :
    ilock i s = .ok ((), s.load i) ∧ 0 < (s.itable i).ref ∧ (s.dinode i).type ≠ .free ∧
        i < s.sb.ninodes ∨
      ilock i s = .error (.panic "ilock") ∧ (s.itable i).ref = 0 ∨
      ilock i s = .error .wild ∧ s.sb.ninodes ≤ i ∨
      ilock i s = .error (.panic "ilock: no type") ∧ (s.dinode i).type = .free := by
  unfold ilock
  rw [Run.get_bind]
  by_cases hr : (s.itable i).ref < 1
  · rw [if_pos hr]
    exact .inr (.inl ⟨rfl, by omega⟩)
  rw [if_neg hr]
  by_cases hv : (s.itable i).valid = true
  · have hl : s.Locked i := ⟨by omega, hv⟩
    obtain ⟨hd, hf, hi⟩ := h.agree i hl
    rw [if_pos hv, State.load_eq_self hl hd]
    exact .inl ⟨rfl, hl.1, hf, hi⟩
  rw [if_neg hv]
  by_cases hi : i ≥ s.sb.ninodes
  · rw [if_pos hi]
    exact .inr (.inr (.inl ⟨rfl, hi⟩))
  rw [if_neg hi]
  by_cases hf : (s.dinode i).type = .free
  · rw [if_pos hf]
    exact .inr (.inr (.inr ⟨rfl, hf⟩))
  · rw [if_neg hf]
    exact .inl ⟨rfl, by omega, hf, by omega⟩

theorem iunlock_run (s : State) (i : ℕ) :
    iunlock i s = .ok ((), s) ∧ 0 < (s.itable i).ref ∨
      iunlock i s = .error (.panic "iunlock") ∧ (s.itable i).ref = 0 := by
  unfold iunlock
  rw [Run.get_bind]
  by_cases hr : (s.itable i).ref < 1
  · rw [if_pos hr]
    exact .inr ⟨rfl, by omega⟩
  · rw [if_neg hr]
    exact .inl ⟨rfl, by omega⟩

/-- Assigning fields of an inode and writing it back. -/
theorem updateD_run (s : State) (i : ℕ) (f : Dinode → Dinode) :
    updateD i f s = .ok ((), s.putD i (f (s.itable i).d)) := by
  rw [updateD, Run.bind_of_ok (setD_run s i f), iupdate_run]
  simp [State.putD, State.flush, State.setD, State.setInode]

/-- What `ialloc` can do. -/
theorem ialloc_run (s : State) (type : FType) :
    (ialloc type s = .ok (none, s) ∧ ∀ i, 1 ≤ i → i < s.sb.ninodes → (s.dinode i).type ≠ .free) ∨
      ∃ i, 1 ≤ i ∧ i < s.sb.ninodes ∧ (s.dinode i).type = .free ∧
        ((ialloc type s = .ok (some i, (s.claim i type).refer i) ∧ ¬ s.Full i) ∨
          ialloc type s = .error noInodes ∧ s.Full i) := by
  unfold ialloc
  rw [Run.get_bind]
  cases hf : (List.range s.sb.ninodes).find?
      fun i => decide (1 ≤ i ∧ (s.dinode i).type = .free) with
  | none =>
    refine .inl ⟨rfl, fun i h1 hi hfree => ?_⟩
    exact List.find?_eq_none.1 hf i (List.mem_range.2 hi) (decide_eq_true ⟨h1, hfree⟩)
  | some i =>
    have hi := List.mem_range.1 (List.mem_of_find?_eq_some hf)
    have hp := List.find?_some hf
    rw [decide_eq_true_eq] at hp
    refine .inr ⟨i, hp.1, hi, hp.2, ?_⟩
    change ((iget i >>= fun _ => pure (some i)) (s.claim i type) = _ ∧ _) ∨
      (iget i >>= fun _ => pure (some i)) (s.claim i type) = _ ∧ _
    rcases iget_run (s.claim i type) i with ⟨hr, hroom⟩ | ⟨hr, hfull⟩
    · rw [Run.bind_of_ok hr]
      exact .inl ⟨rfl, hroom⟩
    · rw [Run.bind_of_error hr]
      exact .inr ⟨rfl, hfull⟩

theorem vacate_run (s : State) (i : ℕ) :
    (do
      setD i fun d => { d with type := .free }
      iupdate i
      modify fun s => s.setInode i { s.itable i with valid := false }
      drop i : FsM Unit) s = .ok ((), s.vacate i) := by
  rw [Run.bind_of_ok (setD_run _ _ _), Run.bind_of_ok (iupdate_run _ _), Run.modify_bind]
  simp [drop, State.vacate, State.flush, State.setD, State.setInode]

/-- Inode `i` is freed: it is unused on disk and its entry in the table is given up; the
other inodes and their blocks are as before. -/
structure Freed (lost : ℕ → Prop) (i : ℕ) (s s' : State) : Prop where
  wf : s'.WfBut lost
  sb : s'.sb = s.sb
  type : (s'.dinode i).type = .free
  last : (s.itable i).ref = 1
  ref : (s'.itable i).ref = 0
  inuse : s'.inuse = s.inuse - 1
  itable : ∀ j, j ≠ i → s'.itable j = s.itable j
  dinode : ∀ j, j ≠ i → s'.dinode j = s.dinode j
  data : ∀ c, s.used c = true → (∀ σ, s.memSlot i σ ≠ 0 → s.memSlot i σ ≠ c) →
    s'.data c = s.data c

theorem Freed.counts {s' : State} (h : Freed lost i s s') (j : ℕ) :
    (s'.itable j).ref = (s.itable j).ref - if j = i then 1 else 0 := by
  split_ifs with hj
  · rw [hj, h.ref, h.last]
  · rw [h.itable j hj]
    rfl

/-- **`iput`** drops a reference; it frees the inode if that was the last one and nothing
links to it. -/
theorem iput_run (h : s.WfBut lost) (i : ℕ) :
    (∃ s', iput i s = .ok ((), s') ∧ Freed lost i s s' ∧ s.Locked i ∧ (s.itable i).ref = 1 ∧
        (s.itable i).d.nlink = 0) ∨
      iput i s = .ok ((), s.unref i) ∧
        ¬ ((s.itable i).ref = 1 ∧ (s.itable i).valid = true ∧ (s.itable i).d.nlink = 0) := by
  unfold iput
  rw [Run.get_bind]
  by_cases hc : (s.itable i).ref = 1 ∧ (s.itable i).valid = true ∧ (s.itable i).d.nlink = 0
  · have hl : s.Locked i := ⟨by omega, hc.2.1⟩
    obtain ⟨s₁, hr₁, he⟩ := itrunc_run (h.at hl)
    have hl₁ := he.touch.locked hl
    obtain ⟨hd₁, hf₁, hi₁⟩ := he.wf.agree i hl₁
    left
    have hrun : (ifree i >>= fun _ => drop i) s = .ok ((), s₁.vacate i) := by
      rw [ifree, bind_assoc, Run.bind_of_ok hr₁]
      exact vacate_run s₁ i
    rw [if_pos hc]
    refine ⟨s₁.vacate i, hrun, ⟨he.wf.vacate hl₁ ?_, he.touch.sb, ?_, hc.1, ?_, ?_, ?_, ?_, ?_⟩,
      hl, hc.1, hc.2.2⟩
    · rw [he.d]
      exact fun k => (s.itable i).d.emptied_addrs
    · rw [State.vacate_dinode_self]
    · rw [State.vacate_self, he.touch.ref, hc.1]
    · rw [← he.touch.inuse]
      exact if_pos (he.touch.ref.trans hc.1)
    · intro j hj
      rw [← he.touch.itable j hj]
      exact update_of_ne hj _ _
    · intro j hj
      rw [← he.touch.dinode j hj]
      exact update_of_ne hj _ _
    · intro c hu hn
      exact (he.touch.keep c hu hn).2.1
  · rw [if_neg hc]
    exact .inr ⟨rfl, hc⟩

end Runs

end Xv6.Fs
