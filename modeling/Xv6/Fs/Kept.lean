import Xv6.Fs.Safe
import Xv6.Fs.Array
import Xv6.Fs.Links

/-!
# Files that a call leaves alone

`State.Same i s s'` says that inode `i` has the same blocks with the same bytes in both states. A
call leaves every inode the same, unless it frees it or writes to it: `Kept` is a `Stable`
invariant.

* `stable_kept`: the operations on inodes keep it.
* `Call.kept_rest`: a call that does not deal with names leaves every inode alone that it does not
  write to.
* `Call.kept_names`: a call that deals with names leaves every inode alone that is referred to and
  is not a directory.
-/

namespace Xv6.Fs

open Lib

namespace State

variable {lost : ℕ → Prop} {s s' s'' : State} {i j : ℕ}

/-- Inode `i` is the same: its type, its size, its blocks and what they hold. -/
structure Same (i : ℕ) (s s' : State) : Prop where
  type : (s'.dinode i).type = (s.dinode i).type
  size : (s'.dinode i).size = (s.dinode i).size
  slot : ∀ σ, (s'.dinode i).slot s'.data σ = (s.dinode i).slot s.data σ
  data : ∀ σ, (s.dinode i).slot s.data σ ≠ 0 →
    s'.data ((s.dinode i).slot s.data σ) = s.data ((s.dinode i).slot s.data σ)

theorem Same.refl (i : ℕ) (s : State) : Same i s s := ⟨rfl, rfl, fun _ => rfl, fun _ _ => rfl⟩

theorem Same.trans (h : Same i s s') (h' : Same i s' s'') : Same i s s'' where
  type := h'.type.trans h.type
  size := h'.size.trans h.size
  slot σ := (h'.slot σ).trans (h.slot σ)
  data σ hσ := by
    have hd := h'.data σ (by rwa [h.slot])
    rw [h.slot] at hd
    exact hd.trans (h.data σ hσ)

/-- The same fields, and the same blocks everywhere. -/
theorem Same.of_fields (ht : (s'.dinode i).type = (s.dinode i).type)
    (hs : (s'.dinode i).size = (s.dinode i).size) (ha : (s'.dinode i).addrs = (s.dinode i).addrs)
    (hd : s'.data = s.data) : Same i s s' where
  type := ht
  size := hs
  slot σ := by
    rw [hd]
    exact slot_congr (fun _ _ => by rw [ha]) (fun _ => rfl) σ
  data _ _ := by rw [hd]

/-- The same fields, and the same blocks but for those of another inode. -/
theorem Same.of_data (h : s.WfAt lost i) (hj : j < s.sb.ninodes) (hji : j ≠ i)
    (hf : (s.dinode j).type ≠ .free) (hd : s'.dinode j = s.dinode j) (hdata : ∀ c, s.used c = true →
      (∀ σ, s.memSlot i σ ≠ 0 → s.memSlot i σ ≠ c) → s'.data c = s.data c) : Same j s s' := by
  have hkeep : ∀ σ, (s.dinode j).slot s.data σ ≠ 0 →
      s'.data ((s.dinode j).slot s.data σ) = s.data ((s.dinode j).slot s.data σ) := by
    intro σ hσ
    obtain ⟨hu, hn⟩ := h.other_owned hj hji hf hσ
    exact hdata _ hu hn
  refine ⟨by rw [hd], by rw [hd], fun σ => ?_, hkeep⟩
  rw [hd]
  refine slot_congr (fun _ _ => rfl) (fun h0 => ?_) σ
  have := hkeep ndirect (by rwa [slot_ndirect])
  rwa [slot_ndirect] at this

/-- The same bytes. -/
theorem Same.content (h : Same i s s') (hw : s.WfBut lost) (hi : i < s.sb.ninodes)
    (hf : (s.dinode i).type ≠ .free) : s'.content i = s.content i := by
  unfold State.content
  rw [h.size]
  refine List.map_congr_left fun o ho => ?_
  have hne := (hw.noHoles i hi hf).2 (o / bsize) ((div_mul_le o).trans_lt (List.mem_range.1 ho))
  unfold byte
  rw [h.slot, h.data _ hne]

end State

/-- The inodes in `P` are what they were in `s₀`, unless they have been freed. -/
structure Kept (lost P : ℕ → Prop) (s₀ s : State) : Prop where
  wf : s.WfBut lost
  sb : s.sb = s₀.sb
  same : ∀ i, P i → (s.dinode i).type = .free ∨ State.Same i s₀ s

section Kept

variable {lost P : ℕ → Prop} {s₀ s s' : State}

theorem Kept.refl (h : s.WfBut lost) : Kept lost P s s := ⟨h, rfl, fun i _ => .inr (.refl i s)⟩

/-- Inodes in use stay the same. -/
theorem Kept.of_used (h : Kept lost P s₀ s) (hw : s'.WfBut lost) (hsb : s'.sb = s.sb)
    (hfree : ∀ i, P i → (s.dinode i).type = .free → (s'.dinode i).type = .free)
    (hsame : ∀ i, P i → (s.dinode i).type ≠ .free →
      (s'.dinode i).type = .free ∨ State.Same i s s') : Kept lost P s₀ s' := by
  refine ⟨hw, hsb.trans h.sb, fun i hi => ?_⟩
  by_cases hf : (s.dinode i).type = .free
  · exact .inl (hfree i hi hf)
  · rcases h.same i hi with hc | hs
    · exact absurd hc hf
    · exact (hsame i hi hf).imp_right fun hs' => hs.trans hs'

/-- Nothing happens on disk. -/
theorem Kept.of_disk (h : Kept lost P s₀ s) (hw : s'.WfBut lost) (hsb : s'.sb = s.sb)
    (hdn : s'.dinode = s.dinode) (hd : s'.data = s.data) : Kept lost P s₀ s' := by
  refine h.of_used hw hsb (fun i _ hf => by rw [hdn, hf]) fun i _ _ => .inr ?_
  exact .of_fields (by rw [hdn]) (by rw [hdn]) (by rw [hdn]) hd

/-- **The operations leave inodes alone**, unless they are written, or freed and allocated again. -/
theorem stable_kept (hP : ∀ i, P i → i < s₀.sb.ninodes) :
    Stable lost (Kept lost P s₀) (fun i => ¬ P i) (fun dn => ∀ i, P i → (dn i).type ≠ .free) where
  wf h := h.wf
  refer i h := h.of_disk (h.wf.refer i) State.refer_sb State.refer_dinode State.refer_data
  unref i h := h.of_disk (h.wf.unref i) rfl rfl rfl
  load h hf hi := h.of_disk (h.wf.load hf hi) rfl rfl rfl
  putD {s j d} h hl ht hs ha := by
    have hd := (h.wf.agree j hl).1
    have hfields : ∀ i, ((s.putD j d).dinode i).type = (s.dinode i).type ∧
        ((s.putD j d).dinode i).size = (s.dinode i).size ∧
        ((s.putD j d).dinode i).addrs = (s.dinode i).addrs := by
      intro i
      by_cases hij : i = j
      · rw [hij, State.putD_dinode_self, ht, hs, ha, hd]
        exact ⟨rfl, rfl, rfl⟩
      · rw [State.putD_dinode_of_ne d hij]
        exact ⟨rfl, rfl, rfl⟩
    refine h.of_used (h.wf.putD hl ht hs ha) rfl (fun i _ hf => by rw [(hfields i).1, hf])
      fun i _ _ => .inr ?_
    obtain ⟨h1, h2, h3⟩ := hfields i
    exact .of_fields h1 h2 h3 rfl
  claim {s j} type h hC hj hf := by
    have hne : ∀ i, P i → (s.claim j type).dinode i = s.dinode i := by
      intro i hi
      refine Function.update_of_ne ?_ _ _
      rintro rfl
      exact hC i hi hf
    refine h.of_used (h.wf.claim hj hf type) rfl (fun i hi hf => by rw [hne i hi, hf])
      fun i hi _ => .inr ?_
    exact .of_fields (by rw [hne i hi]) (by rw [hne i hi]) (by rw [hne i hi]) rfl
  touch {s s' j} h hl hj ht hw := by
    have hne : ∀ i, P i → i ≠ j := by
      rintro i hi rfl
      exact hj hi
    refine h.of_used hw ht.sb (fun i hi hf => by rw [ht.dinode i (hne i hi), hf])
      fun i hi hf => .inr ?_
    exact .of_data (h.wf.at hl) (h.sb ▸ hP i hi) (hne i hi) hf (ht.dinode i (hne i hi))
      fun c hu hn => (ht.keep c hu hn).2.1
  freed {s s' j} h hl hf := by
    refine h.of_used hf.wf hf.sb (fun i _ hi => ?_) fun i hi hu => ?_
    · by_cases hij : i = j
      · rw [hij, hf.type]
      · rw [hf.dinode i hij, hi]
    · by_cases hij : i = j
      · exact .inl (by rw [hij, hf.type])
      · exact .inr (.of_data (h.wf.at hl) (h.sb ▸ hP i hi) hij hu (hf.dinode i hij) hf.data)

end Kept

/-! ## Calls -/

namespace Call

variable {N : ℕ} {T : Tree} {s : Sys} {p cwd : ℕ} {P : ℕ → Prop}

/-- The call has left the inodes in `P` alone, or `open` has truncated one of them. -/
def Leaves (P : ℕ → Prop) (s : Sys) (p : ℕ) (c : Call) (n : ℤ) (s' : Sys) : Prop :=
  Kept (fun _ => False) P s.fs s'.fs ∨ ∃ path omode, c = .open path omode ∧
    Stable.Truncates (Kept (fun _ => False) P s.fs) (fun i => ¬ P i) p omode n s'

/-- **A call that does not deal with names** leaves alone what it does not write to. -/
theorem kept_rest (h : SysOk N T s) (hcwd : (s.procs p).cwd = some cwd) {c : Call}
    (hc : c.onNames = false) (hP : ∀ i, P i → i < s.fs.sb.ninodes)
    (hw : ∀ fd src n r f, c = .write fd src n r → argfd s p fd = some f →
      (s.ftable f).writable = true → (s.ftable f).type = .inode → ¬ P (s.ftable f).ip) :
    Outcome (c.run p cwd s) (Leaves P s p c) Benign :=
  (stable_kept hP).call (.refl h.fs.wf) (h.cwd_ref hcwd) c (fun hn => absurd (hc.symm.trans hn) nofun)
    (fun hn => absurd (hc.symm.trans hn) nofun) hw

/-- **A call that deals with names** leaves alone what is referred to and is not a directory. -/
theorem kept_names (h : SysOk N T s) (hcwd : (s.procs p).cwd = some cwd) {c : Call}
    (hc : c.onNames = true) (hheld : ∀ i, P i → 0 < s.refs i) (hnd : ∀ i, P i → T.type i ≠ .dir) :
    Outcome (c.run p cwd s) (Leaves P s p c) Benign := by
  have hr := h.start
  have hcpos := h.toBooks.cwd_pos hcwd
  have htype : ∀ i, P i → i < s.fs.sb.ninodes ∧ (s.fs.dinode i).type = T.type i := by
    intro i hi
    have hlive := h.live i (hheld i hi)
    rw [← hr.tree] at hlive ⊢
    exact State.type_of_tree hlive
  refine (stable_kept fun i hi => (htype i hi).1).call (.refl hr.wf) (h.cwd_ref hcwd) c (fun _ => ?_)
    (fun _ path => ?_) ?_
  · intro fs i hk hl hd hi
    obtain ⟨hagree, hf, -⟩ := hk.wf.agree i hl
    rw [hagree] at hd
    rcases hk.same i hi with hc | hs
    · exact hf hc
    · exact hnd i hi ((htype i hi).2.symm.trans (hs.type.symm.trans hd))
  · -- following a path frees nothing
    refine (namex_at hr hcpos (h.live cwd hcpos) path true).mono (fun _ fs' hs i hi => ?_)
      fun _ _ => trivial
    have hlive := h.live i (hheld i hi)
    rw [← hs.2.tree] at hlive
    rw [(State.type_of_tree hlive).2]
    exact hlive
  · rintro fd src n r f rfl
    exact absurd hc nofun

end Call

end Xv6.Fs
