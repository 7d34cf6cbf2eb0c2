import Xv6.Fs.Content
import Xv6.Fs.Tree

/-!
# The tree that a file system holds

`State.tree` reads the tree of names off the disk. The lemmas say how it changes with the disk:
`tree_putD` for the fields of an inode, `tree_claim` when `ialloc` takes an inode, `tree_freed`
when `iput` gives one back, `tree_of_touch` for work on the contents of a file, and `tree_written`
when an entry of a directory is written.
-/

namespace Xv6.Fs

open Function Lib

/-- How many entries fit into a directory. -/
def maxents : ℕ := maxfile * bsize / direntSize

/-- The characters of a name that an entry has room for. -/
def clip (nm : ℕ → UInt8) : ℕ → UInt8 := fun j => if j < dirsiz then nm j else 0

namespace State

/-- A byte of the contents of inode `i`, on disk. -/
def byte (s : State) (i o : ℕ) : UInt8 :=
  (s.data ((s.dinode i).slot s.data (fileSlot (o / bsize)))).get (o % bsize)

/-- The inode number in the `k`-th entry of `i`. -/
def inum (s : State) (i k : ℕ) : ℕ :=
  (s.byte i (direntSize * k)).toNat + 256 * (s.byte i (direntSize * k + 1)).toNat

/-- Inode `i` is a directory with at least `k + 1` entries. -/
def HasEntry (s : State) (i k : ℕ) : Prop :=
  i < s.sb.ninodes ∧ (s.dinode i).type = .dir ∧ direntSize * (k + 1) ≤ (s.dinode i).size

instance (s : State) (i k : ℕ) : Decidable (s.HasEntry i k) := inferInstanceAs (Decidable (_ ∧ _))

/-- **The tree on disk.** -/
def tree (s : State) : Tree where
  type i := if i < s.sb.ninodes then (s.dinode i).type else .free
  nlink i := if i < s.sb.ninodes ∧ (s.dinode i).type ≠ .free then (s.dinode i).nlink else 0
  ent i k := if s.HasEntry i k then s.inum i k else 0
  name i k j :=
    if s.HasEntry i k ∧ s.inum i k ≠ 0 ∧ j < dirsiz then s.byte i (direntSize * k + 2 + j) else 0

variable {lost : ℕ → Prop} {s s' : State} {i j : ℕ}

theorem tree_type (h : i < s.sb.ninodes) : s.tree.type i = (s.dinode i).type := if_pos h

theorem tree_nlink (h : i < s.sb.ninodes) (hf : (s.dinode i).type ≠ .free) :
    s.tree.nlink i = (s.dinode i).nlink := if_pos ⟨h, hf⟩

theorem type_of_tree (h : s.tree.type i ≠ .free) :
    i < s.sb.ninodes ∧ (s.dinode i).type = s.tree.type i := by
  by_cases hi : i < s.sb.ninodes
  · exact ⟨hi, (tree_type hi).symm⟩
  · exact absurd (if_neg hi) h

theorem tree_ent_lt (D k : ℕ) : s.tree.ent D k < 2 ^ 16 := by
  change (if s.HasEntry D k then s.inum D k else 0) < 2 ^ 16
  unfold inum
  have h1 := (s.byte D (direntSize * k)).toNat_lt
  have h2 := (s.byte D (direntSize * k + 1)).toNat_lt
  split_ifs <;> omega

/-- An inode that is not in use is blank. -/
theorem tree_free (h : s.tree.type i = .free) :
    s.tree.nlink i = 0 ∧ (∀ k, s.tree.ent i k = 0) ∧ ∀ k, s.tree.name i k = fun _ => 0 := by
  have hf : ¬ (i < s.sb.ninodes ∧ (s.dinode i).type ≠ .free) := by
    rintro ⟨hi, hf⟩
    exact hf ((tree_type hi).symm.trans h)
  have hno : ∀ k, ¬ s.HasEntry i k := fun k he => hf ⟨he.1, by rw [he.2.1]; exact nofun⟩
  exact ⟨if_neg hf, fun k => if_neg (hno k), fun k => funext fun j => if_neg fun hc => hno k hc.1⟩

/-- An entry fits into the largest file. -/
theorem HasEntry.lt (h : s.WfBut lost) {k : ℕ} (he : s.HasEntry i k) : k < maxents := by
  have hsz := (h.noHoles i he.1 (by rw [he.2.1]; exact nofun)).1
  have h16 := he.2.2
  have : maxfile * bsize = direntSize * maxents := by decide
  rw [this] at hsz
  exact Nat.le_of_mul_le_mul_left (h16.trans hsz) (by decide)

end State

/-! ## Comparing trees inode by inode -/

/-- Two trees show the same of inode `i`. -/
structure Tree.SameAt (T T' : Tree) (i : ℕ) : Prop where
  type : T'.type i = T.type i
  nlink : T'.nlink i = T.nlink i
  ent : T'.ent i = T.ent i
  name : T'.name i = T.name i

theorem Tree.ext_of_sameAt {T T' : Tree} (h : ∀ i, T.SameAt T' i) : T' = T := by
  obtain ⟨_, _, _, _⟩ := T
  obtain ⟨_, _, _, _⟩ := T'
  congr 1
  · exact funext fun i => (h i).type
  · exact funext fun i => (h i).nlink
  · exact funext fun i => (h i).ent
  · exact funext fun i => (h i).name

namespace State

variable {lost : ℕ → Prop} {s s' : State} {i j : ℕ}

/-- An entry is read off its sixteen bytes. -/
theorem entry_congr {k : ℕ} (hhas : s'.HasEntry j k ↔ s.HasEntry j k)
    (hbyte : s.HasEntry j k → ∀ m < direntSize,
      s'.byte j (direntSize * k + m) = s.byte j (direntSize * k + m)) :
    s'.tree.ent j k = s.tree.ent j k ∧ s'.tree.name j k = s.tree.name j k := by
  simp only [tree, hhas]
  by_cases hk : s.HasEntry j k
  · have h0 := hbyte hk 0 (by decide)
    have h1 := hbyte hk 1 (by decide)
    rw [Nat.add_zero] at h0
    have hinum : s'.inum j k = s.inum j k := by
      unfold inum
      rw [h0, h1]
    rw [hinum]
    refine ⟨rfl, funext fun m => ?_⟩
    split_ifs with hc
    · rw [Nat.add_assoc]
      refine hbyte hk _ ?_
      have : direntSize = 2 + dirsiz := by decide
      omega
    · rfl
  · simp only [hk, false_and, if_false, and_self]

/-- The type and the entries that the tree shows depend on the type and, for a directory, on the
contents. -/
theorem same_entries (hsb : s'.sb = s.sb) (ht : (s'.dinode j).type = (s.dinode j).type)
    (hdir : j < s.sb.ninodes → (s.dinode j).type = .dir → (s'.dinode j).size = (s.dinode j).size ∧
      ∀ o < (s.dinode j).size, s'.byte j o = s.byte j o) :
    s'.tree.type j = s.tree.type j ∧ s'.tree.ent j = s.tree.ent j ∧
      s'.tree.name j = s.tree.name j := by
  have hentry : ∀ k, s'.tree.ent j k = s.tree.ent j k ∧ s'.tree.name j k = s.tree.name j k := by
    intro k
    refine entry_congr ?_ fun hk m hm => (hdir hk.1 hk.2.1).2 _ ?_
    · unfold HasEntry
      rw [hsb, ht]
      refine and_congr_right fun hj => and_congr_right fun hd => ?_
      rw [(hdir hj hd).1]
    · have := hk.2.2
      rw [Nat.mul_add] at this
      omega
  refine ⟨?_, funext fun k => (hentry k).1, funext fun k => (hentry k).2⟩
  simp only [tree, hsb, ht]

theorem sameAt (hsb : s'.sb = s.sb) (ht : (s'.dinode j).type = (s.dinode j).type)
    (hn : (s'.dinode j).nlink = (s.dinode j).nlink)
    (hdir : j < s.sb.ninodes → (s.dinode j).type = .dir → (s'.dinode j).size = (s.dinode j).size ∧
      ∀ o < (s.dinode j).size, s'.byte j o = s.byte j o) : s.tree.SameAt s'.tree j := by
  obtain ⟨h1, h2, h3⟩ := same_entries hsb ht hdir
  refine ⟨h1, ?_, h2, h3⟩
  simp only [tree, hsb, ht, hn]

/-- A change of the table alone. -/
theorem tree_of_table (hsb : s'.sb = s.sb) (hn : s'.dinode = s.dinode) (hd : s'.data = s.data) :
    s'.tree = s.tree := by
  refine Tree.ext_of_sameAt fun j => sameAt hsb (by rw [hn]) (by rw [hn]) fun _ _ => ?_
  unfold byte
  rw [hn, hd]
  exact ⟨rfl, fun _ _ => rfl⟩

@[simp] theorem tree_refer : (s.refer i).tree = s.tree :=
  tree_of_table refer_sb refer_dinode refer_data

@[simp] theorem tree_unref : (s.unref i).tree = s.tree := tree_of_table rfl rfl rfl

@[simp] theorem tree_load : (s.load i).tree = s.tree := tree_of_table rfl rfl rfl

/-- The bytes of a locked inode are the ones on disk. -/
theorem byte_eq_memByte (hd : (s.itable i).d = s.dinode i) (o : ℕ) : s.byte i o = s.memByte i o := by
  unfold byte memByte memSlot
  rw [hd]

/-- A new link count for a locked inode. -/
theorem tree_putD (h : s.WfBut lost) (hl : s.Locked i) {d : Dinode} (ht : d.type = (s.itable i).d.type)
    (hs : d.size = (s.itable i).d.size) (ha : d.addrs = (s.itable i).d.addrs) :
    (s.putD i d).tree = s.tree.setNlink i d.nlink := by
  obtain ⟨hd, hf, hi⟩ := h.agree i hl
  rw [hd] at ht hs ha
  have hbyte : ∀ j o, (s.putD i d).byte j o = s.byte j o := by
    intro j o
    unfold byte
    by_cases hj : j = i
    · subst hj
      rw [putD_dinode_self]
      have : d.slot s.data (fileSlot (o / bsize)) = (s.dinode j).slot s.data (fileSlot (o / bsize)) :=
        slot_congr (fun k _ => by rw [ha]) (fun _ => rfl) _
      rw [← this]
      rfl
    · rw [putD_dinode_of_ne d hj]
      rfl
  refine Tree.ext_of_sameAt fun j => ?_
  by_cases hj : j = i
  · subst hj
    have hself := putD_dinode_self (s := s) (i := j) d
    have hsame : _ ∧ (s.putD j d).tree.ent j = s.tree.ent j ∧ _ := same_entries rfl
      (by rw [hself, ht]) fun _ _ => ⟨by rw [hself, hs], fun o _ => hbyte j o⟩
    obtain ⟨h1, h2, h3⟩ := hsame
    refine ⟨h1, ?_, h2, h3⟩
    have hn := tree_nlink (s := s.putD j d) hi (by rw [hself, ht]; exact hf)
    rw [Tree.setNlink_nlink, if_pos rfl, hn, hself]
  · have hother := putD_dinode_of_ne (s := s) d hj
    have : s.tree.SameAt (s.putD i d).tree j := sameAt rfl (by rw [hother]) (by rw [hother])
      fun _ _ => ⟨by rw [hother], fun o _ => hbyte j o⟩
    exact ⟨this.type, this.nlink.trans (update_of_ne hj _ _).symm, this.ent, this.name⟩

/-- A free inode is taken. -/
theorem tree_claim (hi : i < s.sb.ninodes) (hf : (s.dinode i).type = .free) (type : FType) :
    (s.claim i type).tree = s.tree.setType i type := by
  have hself : (s.claim i type).dinode i = { Dinode.zero with type := type } :=
    update_self _ _ _
  have hblank := tree_free ((tree_type hi).trans hf)
  refine Tree.ext_of_sameAt fun j => ?_
  by_cases hj : j = i
  · subst hj
    have hno : ∀ k, ¬ (s.claim j type).HasEntry j k := by
      intro k hk
      have := hk.2.2
      rw [hself] at this
      exact absurd this (Nat.not_le.2 (Nat.mul_pos (by decide) (Nat.succ_pos k)))
    refine ⟨?_, ?_, ?_, ?_⟩
    · rw [Tree.setType_type, if_pos rfl, tree_type (s := s.claim j type) hi, hself]
    · rw [Tree.setType_nlink, hblank.1]
      simp [tree, hself, Dinode.zero]
    · rw [Tree.setType_ent]
      exact funext fun k => (if_neg (hno k)).trans (hblank.2.1 k).symm
    · rw [Tree.setType_name]
      funext k
      rw [hblank.2.2 k]
      exact funext fun m => if_neg fun hc => hno k hc.1
  · have hother : (s.claim i type).dinode j = s.dinode j := update_of_ne hj _ _
    have : s.tree.SameAt (s.claim i type).tree j := sameAt rfl (by rw [hother]) (by rw [hother])
      fun _ _ => ⟨by rw [hother], fun o _ => by unfold byte; rw [hother]; rfl⟩
    exact ⟨this.type.trans (update_of_ne hj _ _).symm, this.nlink, this.ent, this.name⟩

/-- Work on inode `i` does not show in what the tree has of other inodes. -/
theorem sameAt_of_data (h : s.WfAt lost i) (hj : j ≠ i) (hsb : s'.sb = s.sb)
    (hd : s'.dinode j = s.dinode j) (hdata : ∀ c, s.used c = true →
      (∀ σ, s.memSlot i σ ≠ 0 → s.memSlot i σ ≠ c) → s'.data c = s.data c) :
    s.tree.SameAt s'.tree j := by
  refine State.sameAt hsb (by rw [hd]) (by rw [hd]) fun hjn hjd => ⟨by rw [hd], fun o ho => ?_⟩
  have hf : (s.dinode j).type ≠ .free := by rw [hjd]; exact nofun
  have hkeep : ∀ σ, (s.dinode j).slot s.data σ ≠ 0 →
      s'.data ((s.dinode j).slot s.data σ) = s.data ((s.dinode j).slot s.data σ) := by
    intro σ hσ
    obtain ⟨hu, hn⟩ := h.other_owned hjn hj hf hσ
    exact hdata _ hu hn
  have hslot : (s'.dinode j).slot s'.data (fileSlot (o / bsize)) =
      (s.dinode j).slot s.data (fileSlot (o / bsize)) := by
    rw [hd]
    refine slot_congr (fun _ _ => rfl) (fun h0 => ?_) _
    have := hkeep ndirect (by rwa [slot_ndirect])
    rwa [slot_ndirect] at this
  have hno := h.wf.noHoles j hjn
  rw [flush_dinode_of_ne hj] at hno
  have hne := (hno hf).2 (o / bsize) (by
    have := div_mul_le o
    omega)
  unfold byte
  rw [hslot, hkeep _ hne]

theorem Touch.sameAt (ht : Touch i s s') (h : s.WfAt lost i) (hj : j ≠ i) :
    s.tree.SameAt s'.tree j :=
  sameAt_of_data h hj ht.sb (ht.dinode j hj) fun c hu hn => (ht.keep c hu hn).2.1

/-- Work on the contents of an inode that is not a directory. -/
theorem tree_of_touch (ht : Touch i s s') (h : s.WfAt lost i)
    (htype : (s'.dinode i).type = (s.dinode i).type)
    (hn : (s'.dinode i).nlink = (s.dinode i).nlink) (hdir : (s.dinode i).type ≠ .dir) :
    s'.tree = s.tree := by
  refine Tree.ext_of_sameAt fun j => ?_
  by_cases hj : j = i
  · subst hj
    exact State.sameAt ht.sb htype hn fun _ hd => absurd hd hdir
  · exact ht.sameAt h hj

/-- An inode is given back. -/
theorem tree_freed (hf : Freed lost i s s') (h : s.WfAt lost i) : s'.tree = s.tree.free i := by
  refine Tree.ext_of_sameAt fun j => ?_
  by_cases hj : j = i
  · subst hj
    have ht : s'.tree.type j = .free := (tree_type (hf.sb ▸ h.lt_ninodes)).trans hf.type
    obtain ⟨h1, h2, h3⟩ := tree_free ht
    refine ⟨?_, ?_, ?_, ?_⟩
    · rw [Tree.free_type, if_pos rfl, ht]
    · rw [Tree.free_nlink, if_pos rfl, h1]
    · funext k
      rw [Tree.free_ent, if_pos rfl, h2]
    · funext k
      rw [Tree.free_name, if_pos rfl, h3]
  · have := sameAt_of_data h hj hf.sb (hf.dinode j hj) hf.data
    refine ⟨?_, ?_, ?_, ?_⟩
    · rw [Tree.free_type, if_neg hj, this.type]
    · rw [Tree.free_nlink, if_neg hj, this.nlink]
    · funext k
      rw [Tree.free_ent, if_neg hj, this.ent]
    · funext k
      rw [Tree.free_name, if_neg hj, this.name]

/-! ## Writing an entry -/

theorem Dirent.encode_isSome (de : Dirent) (k : ℕ) : (de.encode k).isSome := by
  unfold Dirent.encode
  split_ifs <;> rfl

theorem dirent_fits (k : ℕ) : direntSize * k % bsize + direntSize ≤ bsize := by
  simp only [direntSize, bsize]
  omega

/-- The inode number and the name that an encoded entry shows. -/
theorem Dirent.encode_inum {e : ℕ} (he : e < 2 ^ 16) (nm : ℕ → UInt8) :
    ((Dirent.encode ⟨e, nm⟩ 0).getD 0).toNat + 256 * ((Dirent.encode ⟨e, nm⟩ 1).getD 0).toNat =
      e := by
  simp [Dirent.encode]
  omega

theorem Dirent.encode_name (e : ℕ) (nm : ℕ → UInt8) (j : ℕ) :
    (Dirent.encode ⟨e, nm⟩ (2 + j)).getD 0 = nm j := by
  have h1 : 2 + j ≠ 1 := by omega
  simp [Dirent.encode, h1]

section Written

variable {k e c : ℕ} {nm : ℕ → UInt8}

/-- What writing an entry of the locked directory `i` leaves: all entries but one, and this one
too if the write failed. -/
theorem written_entry (h : s.WfBut lost) (hl : s.Locked i)
    (hk : direntSize * k = (s.dinode i).size ∨ direntSize * (k + 1) ≤ (s.dinode i).size)
    (hw : Written lost i (Dirent.encode ⟨e, nm⟩) (direntSize * k) direntSize s c s') {k' : ℕ}
    (hne : k' ≠ k ∨ c = 0) :
    s'.tree.ent i k' = s.tree.ent i k' ∧ s'.tree.name i k' = s.tree.name i k' := by
  have hl' := hw.touch.locked hl
  obtain ⟨hd, hf, hi⟩ := h.agree i hl
  have hd' := (hw.wf.agree i hl').1
  have hsize : (s'.dinode i).size = max (direntSize * k + c) (s.dinode i).size := by
    rw [← hd', hw.d, ← hd]
    dsimp only
    split_ifs <;> omega
  have htype : (s'.dinode i).type = (s.dinode i).type := by rw [← hd', hw.d, ← hd]
  have hle := hw.le
  refine entry_congr ?_ fun hhas m hm => ?_
  · unfold HasEntry
    rw [hw.touch.sb, htype, hsize]
    refine and_congr_right fun _ => and_congr_right fun _ => ?_
    simp only [direntSize] at hk hle ⊢
    omega
  · have h16 := hhas.2.2
    have hlt : direntSize * k' + m < (s.dinode i).size := by
      rw [Nat.mul_add] at h16
      omega
    have hslot : s.memSlot i (fileSlot ((direntSize * k' + m) / bsize)) ≠ 0 := by
      refine (h.at hl).memSlot_ne_zero ?_
      have := div_mul_le (direntSize * k' + m)
      rw [hd]
      omega
    rw [byte_eq_memByte hd', byte_eq_memByte hd]
    by_cases hkk : k' = k
    · refine hw.beyond (Dirent.encode_isSome _) _ hslot ?_
      rw [hkk, hne.resolve_left fun h => h hkk]
      omega
    · refine hw.outside _ hslot ?_
      simp only [direntSize] at hm ⊢
      omega

/-- An entry of the locked directory `i` has been written, or could not be. -/
theorem tree_written (h : s.WfBut lost) (hl : s.Locked i) (hdir : (s.dinode i).type = .dir)
    (he : e < 2 ^ 16)
    (hk : direntSize * k = (s.dinode i).size ∨ direntSize * (k + 1) ≤ (s.dinode i).size)
    (hw : Written lost i (Dirent.encode ⟨e, nm⟩) (direntSize * k) direntSize s c s') :
    c = 0 ∧ s'.tree = s.tree ∨
      c = direntSize ∧ s'.tree = s.tree.setEnt i k e (if e = 0 then fun _ => 0 else clip nm) := by
  have hl' := hw.touch.locked hl
  obtain ⟨hd, hf, hi⟩ := h.agree i hl
  have hd' := (hw.wf.agree i hl').1
  have htype : (s'.dinode i).type = (s.dinode i).type := by rw [← hd', hw.d, ← hd]
  have hnlink : (s'.dinode i).nlink = (s.dinode i).nlink := by rw [← hd', hw.d, ← hd]
  have hi' : i < s'.sb.ninodes := hw.touch.sb ▸ hi
  have hfields : s'.tree.type i = s.tree.type i ∧ s'.tree.nlink i = s.tree.nlink i := by
    rw [tree_type hi, tree_type hi', tree_nlink hi hf, tree_nlink hi' (htype ▸ hf)]
    exact ⟨htype, hnlink⟩
  have hfit := dirent_fits k
  rcases hw.first with rfl | hfirst
  · refine .inl ⟨rfl, Tree.ext_of_sameAt fun j => ?_⟩
    by_cases hj : j = i
    · subst hj
      have hentry : ∀ k', s'.tree.ent j k' = s.tree.ent j k' ∧ s'.tree.name j k' = s.tree.name j k' :=
        fun k' => written_entry h hl hk hw (.inr rfl)
      exact ⟨hfields.1, hfields.2, funext fun k' => (hentry k').1, funext fun k' => (hentry k').2⟩
    · exact hw.touch.sameAt (h.at hl) hj
  · have hc : c = direntSize := by
      have := hw.le
      omega
    subst hc
    refine .inr ⟨rfl, Tree.ext_of_sameAt fun j => ?_⟩
    by_cases hj : j = i
    · subst hj
      -- the entry itself
      have hself : s'.tree.ent j k = e ∧
          s'.tree.name j k = if e = 0 then fun _ => 0 else clip nm := by
        have hhas : s'.HasEntry j k := by
          refine ⟨hi', htype.trans hdir, ?_⟩
          rw [← hd', hw.d, Nat.mul_add]
          dsimp only
          split_ifs <;> omega
        have hbyte : ∀ m < direntSize, s'.byte j (direntSize * k + m) =
            ((Dirent.encode ⟨e, nm⟩) m).getD 0 := by
          intro m hm
          rw [byte_eq_memByte hd', hw.written _ (by omega) (by omega), Nat.add_sub_cancel_left]
        have hinum : s'.inum j k = e := by
          have h0 := hbyte 0 (by decide)
          have h1 := hbyte 1 (by decide)
          rw [Nat.add_zero] at h0
          unfold inum
          rw [h0, h1]
          exact Dirent.encode_inum he nm
        refine ⟨(if_pos hhas).trans hinum, funext fun m => ?_⟩
        simp only [tree, hhas, hinum, true_and]
        by_cases he0 : e = 0
        · simp [he0]
        · simp only [he0, ne_eq, not_false_eq_true, true_and, if_false, clip]
          split_ifs with hm
          · have h14 : direntSize = 2 + dirsiz := by decide
            rw [Nat.add_assoc, hbyte _ (by omega), Dirent.encode_name]
          · rfl
      refine ⟨hfields.1, hfields.2, funext fun k' => ?_, funext fun k' => ?_⟩
      · by_cases hkk : k' = k
        · rw [Tree.setEnt_ent, if_pos ⟨rfl, hkk⟩, hkk, hself.1]
        · rw [Tree.setEnt_ent, if_neg fun hc => hkk hc.2]
          exact (written_entry h hl hk hw (.inl hkk)).1
      · by_cases hkk : k' = k
        · rw [Tree.setEnt_name, if_pos ⟨rfl, hkk⟩, hkk, hself.2]
        · rw [Tree.setEnt_name, if_neg fun hc => hkk hc.2]
          exact (written_entry h hl hk hw (.inl hkk)).2
    · have := hw.touch.sameAt (h.at hl) hj
      refine ⟨this.type, this.nlink, funext fun k' => ?_, funext fun k' => ?_⟩
      · rw [Tree.setEnt_ent, if_neg fun hc => hj hc.1, this.ent]
      · rw [Tree.setEnt_name, if_neg fun hc => hj hc.1, this.name]

end Written

end State

end Xv6.Fs
