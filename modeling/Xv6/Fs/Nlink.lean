import Xv6.Fs.Links

/-!
# The link counter

`link` increments the `short` link count of a file without looking at it. `nlink_counts_names`
says that a run of `link` and `unlink` keeps link counts right, from any state in which they are,
as long as no file is given a name when its count is the largest `short`. `nlink_overflows` is a
run that does: the file has 32767 names before, and a negative count after.
-/

namespace Xv6.Fs

open Lib

/-- `link` and `unlink`. -/
def Call.onLinks : Call → Bool
  | .link _ _ => true
  | .unlink _ => true
  | _ => false

/-- A system whose link counts are right; the processes are in directories. -/
structure Sys.Linked (N : ℕ) (s : Sys) : Prop where
  ok : SysOk N s.fs.tree s
  inv : s.fs.tree.Inv N maxents
  counted : s.fs.tree.Counted N maxents
  cwd : ∀ p cwd, (s.procs p).cwd = some cwd → s.fs.tree.type cwd = .dir

variable {N : ℕ} {T : Tree} {s s' : Sys} {p cwd : ℕ}

/-- What is let go of after `link` or `unlink` has no entries of its own. -/
theorem target_bare {c : Call} {a : Tree.Act} (hc : c.onLinks = true) (ha : Does T cwd c a)
    (hok : a.Ok N maxents T) (hI : (T.apply a).Inv N maxents) {k : ℕ} (h2 : 2 ≤ k) :
    (T.apply a).ent (a.target T) k = 0 := by
  -- a file has no entries
  have hfile : (T.apply a).type (a.target T) ≠ .dir → (T.apply a).ent (a.target T) k = 0 := by
    intro ht
    by_contra hne
    exact ht (hI.slot _ _ hne).2.2
  cases c with
  | link old new =>
    obtain ⟨old', new', ip, nm, dp, name, k', -, -, -, -, -, rfl⟩ := ha
    exact hfile hok.2.2.2.2.2
  | unlink path =>
    obtain ⟨q, dp, name, k', -, -, -, rfl⟩ := ha
    unfold rmAct at *
    split_ifs at * with hd
    · refine (Tree.setEnt_ent T dp k' 0 (fun _ => 0) (T.ent dp k') k).trans ?_
      rw [hok.2.2.2 k h2, ite_self]
    · exact hfile hd
  | _ => exact absurd hc nofun

theorem onLinks_mkdirLinked {c : Call} {a : Tree.Act} (hc : c.onLinks = true)
    (ha : Does T cwd c a) : a.MkdirLinked T := by
  cases c with
  | link old new =>
    obtain ⟨old', new', ip, nm, dp, name, k', -, -, -, -, -, rfl⟩ := ha
    trivial
  | unlink path =>
    obtain ⟨q, dp, name, k', -, -, -, rfl⟩ := ha
    unfold rmAct
    split_ifs <;> trivial
  | _ => exact absurd hc nofun

namespace Sys.Linked

theorem run (h : s.Linked N) (hcwd : (s.procs p).cwd = some cwd) {c : Call} (hc : c.onLinks = true) :
    Outcome (c.run p cwd s) (fun _ s' => ∃ fs', s' = { s with fs := fs' } ∧
      Did N (Does s.fs.tree cwd c) s.fs.tree s.refs fs') (Faults s.fs.tree) := by
  cases c with
  | link old new => exact onFs_at (sysLink_run h.inv.dots h.ok hcwd (.inr (h.cwd p cwd hcwd)) old new)
  | unlink path => exact onFs_at (sysUnlink_run h.inv.dots h.ok hcwd path)
  | _ => exact absurd hc nofun

theorem step (h : s.Linked N) {x : ℕ × Call} (hc : x.2.onLinks = true)
    (hx : Meets (fun T a => a.Short T) s x) (hstep : s.step x = some s') : s'.Linked N := by
  obtain ⟨cwd, n, hcwd, hrun⟩ := Sys.step_some hstep
  obtain ⟨fs', rfl, hdid⟩ := Outcome.of_ok (h.run hcwd hc) hrun
  obtain ⟨T', -, hok'⟩ := h.ok.did hdid
  rw [← hok'.fs.tree] at hok'
  rcases hdid with hat | ⟨a, ha, hok, hne, hat⟩
  · refine ⟨hok', ?_, ?_, ?_⟩ <;> dsimp only <;> rw [hat.tree]
    · exact h.inv
    · exact h.counted
    · exact h.cwd
  · rw [h.inv.settle_parent hok hne fun j => h.ok.start.orphan_pos] at hat
    have hshort := hx cwd a hcwd ha (by rwa [h.ok.fs.num])
    have hI := h.inv.apply maxents_lt hok (h.counted.noWrap hok) (onLinks_mkdirLinked hc ha)
    have hC := h.counted.apply h.inv hok hshort hne
    refine ⟨hok', ?_, ?_, ?_⟩ <;> dsimp only <;> rw [hat.tree]
    · unfold Tree.settle
      split_ifs with hset
      · exact hI.reclaim hset.2
      · exact hI
    · unfold Tree.settle
      split_ifs with hset
      · exact hC.free fun k => target_bare hc ha hok hI
      · exact hC
    · intro p' cwd' hcwd'
      have hpos := h.ok.toBooks.cwd_pos hcwd'
      rw [Tree.settle_type hpos, hok.type hne (h.ok.live cwd' hpos)]
      exact h.cwd p' cwd' hcwd'

/-- An inode with an entry has a positive link count. -/
theorem pos (h : s.Linked N) {D k : ℕ} (h2 : 2 ≤ k) (hne : s.fs.tree.ent D k ≠ 0) :
    1 ≤ (s.fs.tree.nlink (s.fs.tree.ent D k)).toInt := by
  by_cases hd : s.fs.tree.type (s.fs.tree.ent D k) = .dir
  · have hn := h.inv.names_pos h2 hne
    have hdirs := h.inv.dirs _ hd
    rw [h.inv.nlink_toInt hd]
    omega
  · exact h.counted.toInt_pos h.inv h2 hne hd

end Sys.Linked

/-- **Link counts stay right** in every run of `link` and `unlink` that gives no name to a file
whose count is the largest `short`: the count of a file is the number of its names, and the count
of a directory counts its name and its subdirectories. What has an entry has a positive count, so
`unlink` does not panic and `iput` does not free it. -/
theorem nlink_counts_names {N : ℕ} {s₀ s : Sys} (h₀ : s₀.Linked N)
    (hr : Reach Sys.step (fun s x => x.2.onLinks = true ∧ Meets (fun T a => a.Short T) s x) s₀ s) :
    (∀ i, s.fs.tree.type i ≠ .free → (s.fs.tree.nlink i).toInt = s.fs.tree.names N maxents i +
      if s.fs.tree.type i = .dir then
        (s.fs.tree.subs maxents i + if i = rootino then 1 else 0 : ℤ) else 0) ∧
    (∀ D k, 2 ≤ k → s.fs.tree.ent D k ≠ 0 → s.fs.tree.type (s.fs.tree.ent D k) ≠ .free ∧
      1 ≤ (s.fs.tree.nlink (s.fs.tree.ent D k)).toInt) ∧
    (∀ x, x.2.onLinks = true → s.stop x ≠ some (.panic "unlink: nlink < 1")) ∧
    ∀ i, 0 < (s.fs.itable i).ref → 0 < s.fs.tree.names N maxents i →
      ∃ fs', iput i s.fs = .ok ((), fs') ∧ fs'.tree.type i ≠ .free := by
  have h : s.Linked N := hr.inv (I := Sys.Linked N) h₀
    fun s x s' hs hx hstep => hs.step hx.1 hx.2 hstep
  refine ⟨fun i hi => ?_, fun D k h2 hne => ⟨(h.inv.live D k h2 hne).1, h.pos h2 hne⟩,
    fun x hc he => ?_, fun i hi hn => ?_⟩
  · split_ifs with hd hr
    · rw [h.inv.nlink_toInt hd, h.inv.dirs i hd, if_pos hr]
      omega
    · rw [h.inv.nlink_toInt hd, h.inv.dirs i hd, if_neg hr]
      omega
    · rw [h.counted i hi hd, Int.add_zero]
  · obtain ⟨cwd, hcwd, hrun⟩ := Sys.stop_some he
    have hroot : s.fs.tree.type rootino ≠ .free := by
      rw [h.inv.root]
      exact nofun
    rcases Outcome.of_error (h.run hcwd hc) hrun hroot (.inr (.inl rfl)) with ⟨hc, -⟩ | ⟨-, D, k, h2, hne, hlt⟩
    · exact absurd hc (by decide)
    · have := h.pos h2 hne
      omega
  · obtain ⟨fs', hrun, hfree⟩ := iput_of_ok h.ok hi
    refine ⟨fs', hrun, fun hc => ?_⟩
    have hlive := h.ok.live i (by rw [← h.ok.start.ref i]; exact hi)
    have := h.inv.unlinked_names hlive (hfree.1 hc).2
    omega

/-! ## A file with 32767 names

The root directory names the file 2 and the directories 3 to 45, and each of these has 762 entries
that name the file. -/

/-- The inode number in the `k`-th entry of `D`. -/
def fullInum (D k : ℕ) : ℕ :=
  if k = 0 then D
  else if k = 1 then rootino
  else if D = rootino then if k < 46 then k else 0
  else if k < 764 then 2 else 0

/-- The name in the `k`-th entry of `D`: the file is called `f` in the root directory. -/
def fullName (D k : ℕ) : List UInt8 :=
  if k = 0 then dot
  else if k = 1 then dotdot
  else if k = 2 ∧ D = rootino then [102]
  else [65 + UInt8.ofNat (k / 64), 65 + UInt8.ofNat (k % 64)]

/-- The `r`-th byte of the `k`-th entry of `D`. -/
def fullByte (D k r : ℕ) : UInt8 := ((Dirent.encode ⟨fullInum D k, padded (fullName D k)⟩) r).getD 0

/-- The first block of `D`. -/
def fullStart (D : ℕ) : ℕ := if D = rootino then mkfsSb.datastart else mkfsSb.datastart + 1 + 12 * (D - 3)

/-- How many blocks `D` has. -/
def fullBlocks (D : ℕ) : ℕ := if D = rootino then 1 else 12

/-- `D` is a directory of the image. -/
def FullDir (D : ℕ) : Prop := D = rootino ∨ 3 ≤ D ∧ D < 46

instance (D : ℕ) : Decidable (FullDir D) := inferInstanceAs (Decidable (_ ∨ _))

def fullDinode (i : ℕ) : Dinode where
  type := if FullDir i then .dir else if i = 2 then .file else .free
  major := 0
  minor := 0
  nlink := if i = 2 then 0x7FFF else if i = rootino then 44 else 1
  size := if FullDir i then fullBlocks i * bsize else 0
  addrs := fun k => if FullDir i ∧ k < fullBlocks i then fullStart i + k else 0

/-- The blocks from here on are free. -/
def fullEnd : ℕ := mkfsSb.datastart + 1 + 12 * 43

/-- The file system with the file. -/
def fullImage : State where
  sb := mkfsSb
  used := fun b => decide (b < fullEnd)
  dinode := fullDinode
  data := fun b o =>
    if b = mkfsSb.datastart then fullByte rootino (o / direntSize) (o % direntSize)
    else
      let c := b - mkfsSb.datastart - 1
      fullByte (c / 12 + 3) (64 * (c % 12) + o / direntSize) (o % direntSize)
  logged := []
  itable := fun i => ⟨if i = rootino then 1 else 0, false, .zero⟩
  inuse := 1

def fullSys : Sys := { bootSys with fs := fullImage }

theorem fullImage_datastart : mkfsSb.datastart = 46 := rfl

theorem fullEnd_eq : fullEnd = 563 := by decide

theorem fullImage_used {b : ℕ} : fullImage.used b = true ↔ b < fullEnd := by
  simp only [fullImage, decide_eq_true_eq]

theorem fullBlocks_le (i : ℕ) : 0 < fullBlocks i ∧ fullBlocks i ≤ ndirect := by
  unfold fullBlocks ndirect
  split_ifs <;> omega

theorem fullDinode_slot (i σ : ℕ) (data : ℕ → Block) : (fullDinode i).slot data σ =
    if FullDir i ∧ σ < fullBlocks i then fullStart i + σ else 0 := by
  have hle := (fullBlocks_le i).2
  by_cases hσ : σ ≤ ndirect
  · exact slot_of_le hσ
  · rw [slot_of_ind_zero (if_neg (by omega)) hσ, if_neg (by omega)]

theorem fullStart_inj {i j σ τ : ℕ} (hi : FullDir i) (hj : FullDir j) (hσ : σ < fullBlocks i)
    (hτ : τ < fullBlocks j) (h : fullStart i + σ = fullStart j + τ) : i = j ∧ σ = τ := by
  unfold FullDir fullBlocks fullStart rootino at *
  split_ifs at * <;> omega

theorem fullImage_wf : fullImage.Wf := by
  have hds := fullImage_datastart
  have hend := fullEnd_eq
  refine ⟨by decide, by decide, ⟨?_, ?_, ?_, ?_⟩, ?_, ?_⟩
  · intro b hb
    change b < mkfsSb.datastart at hb
    rw [fullImage_used]
    omega
  · intro i _ _ σ hne
    rw [fullImage_used]
    change (fullDinode i).slot _ σ ≠ 0 at hne
    change mkfsSb.datastart ≤ (fullDinode i).slot _ σ ∧ (fullDinode i).slot _ σ < mkfsSb.size ∧
      (fullDinode i).slot _ σ < fullEnd
    have hsize : mkfsSb.size = 2000 := by decide
    rw [fullDinode_slot] at hne ⊢
    split_ifs at hne ⊢ with hc
    · obtain ⟨hd, hσ⟩ := hc
      unfold FullDir fullBlocks fullStart at *
      split_ifs at * <;> omega
    · exact absurd rfl hne
  · intro i _ _ j _ _ σ τ hne he
    change (fullDinode i).slot _ σ ≠ 0 at hne
    change (fullDinode i).slot _ σ = (fullDinode j).slot _ τ at he
    rw [fullDinode_slot] at hne he
    rw [fullDinode_slot] at he
    split_ifs at hne he with h1 h2
    · exact fullStart_inj h1.1 h2.1 h1.2 h2.2 he
    · exact absurd he hne
    · exact absurd rfl hne
    · exact absurd rfl hne
  · intro b hb _ hu _
    rw [fullImage_used] at hu
    change mkfsSb.datastart ≤ b at hb
    have hin : ∀ {D σ}, FullDir D → σ < fullBlocks D → fullStart D + σ = b →
        ∃ i < mkfsSb.ninodes, (fullDinode i).type ≠ .free ∧ ∃ σ, (fullDinode i).slot fullImage.data σ = b := by
      intro D σ hD hσ he
      refine ⟨D, ?_, ?_, σ, ?_⟩
      · change D < 200
        unfold FullDir rootino at hD
        omega
      · exact ne_of_eq_of_ne (if_pos hD) nofun
      · rw [fullDinode_slot, if_pos ⟨hD, hσ⟩, he]
    by_cases hr : b = mkfsSb.datastart
    · exact hin (.inl rfl) (by decide : 0 < fullBlocks rootino) hr.symm
    · refine hin (D := (b - 47) / 12 + 3) (σ := (b - 47) % 12) (.inr (by omega)) ?_ ?_
      · unfold fullBlocks rootino
        split_ifs <;> omega
      · unfold fullStart rootino
        split_ifs <;> omega
  · intro i _ _
    change (fullDinode i).size ≤ _ ∧ ∀ bn, bn * bsize < (fullDinode i).size →
      (fullDinode i).slot _ (fileSlot bn) ≠ 0
    by_cases hd : FullDir i
    · obtain ⟨-, hle⟩ := fullBlocks_le i
      have hsz : (fullDinode i).size = fullBlocks i * bsize := if_pos hd
      rw [hsz]
      refine ⟨Nat.mul_le_mul_right _ (hle.trans (by decide)), fun bn hbn => ?_⟩
      have hlt := Nat.lt_of_mul_lt_mul_right hbn
      have hslot : fileSlot bn = bn := if_pos (hlt.trans_le hle)
      rw [hslot, fullDinode_slot, if_pos ⟨hd, hlt⟩]
      unfold fullStart
      split_ifs <;> omega
    · have hsz : (fullDinode i).size = 0 := if_neg hd
      rw [hsz]
      exact ⟨Nat.zero_le _, fun bn hbn => absurd hbn (Nat.not_lt_zero _)⟩
  · rintro i ⟨-, hv⟩
    exact absurd hv nofun

theorem fullImage_byte {D k r : ℕ} (hD : FullDir D) (hk : k < 64 * fullBlocks D) (hr : r < direntSize) :
    fullImage.byte D (direntSize * k + r) = fullByte D k r := by
  obtain ⟨-, hle⟩ := fullBlocks_le D
  have hdiv : (direntSize * k + r) / bsize = k / 64 := by
    unfold direntSize bsize at *
    omega
  have hmod : (direntSize * k + r) % bsize = direntSize * (k % 64) + r := by
    unfold direntSize bsize at *
    omega
  have hlt : k / 64 < fullBlocks D := by omega
  have hslot : fileSlot (k / 64) = k / 64 := if_pos (hlt.trans_le hle)
  have hb : direntSize * (k % 64) + r < bsize := by
    unfold direntSize bsize at *
    omega
  unfold State.byte
  rw [hdiv, hmod, hslot]
  change Bytes.get (fullImage.data ((fullDinode D).slot _ (k / 64))) _ = _
  rw [fullDinode_slot, if_pos ⟨hD, hlt⟩]
  unfold Bytes.get
  rw [dif_pos hb]
  have h1 : (direntSize * (k % 64) + r) / direntSize = k % 64 := by
    unfold direntSize at *
    omega
  have h2 : (direntSize * (k % 64) + r) % direntSize = r := by
    unfold direntSize at *
    omega
  change (if _ then fullByte rootino ((direntSize * (k % 64) + r) / direntSize)
    ((direntSize * (k % 64) + r) % direntSize) else fullByte _ (64 * _ +
      (direntSize * (k % 64) + r) / direntSize) ((direntSize * (k % 64) + r) % direntSize)) = _
  rw [h1, h2]
  have hds := fullImage_datastart
  by_cases hroot : D = rootino
  · have hk' : k / 64 = 0 := by
      rw [hroot] at hlt
      exact Nat.lt_one_iff.1 hlt
    have hmod' : k % 64 = k := by omega
    rw [if_pos (by rw [hroot, hk']; rfl), hroot, hmod']
  · have hst : fullStart D = mkfsSb.datastart + 1 + 12 * (D - 3) := if_neg hroot
    have hbl : fullBlocks D = 12 := if_neg hroot
    have hD3 : 3 ≤ D := by
      unfold FullDir at hD
      omega
    have hD' : (fullStart D + k / 64 - mkfsSb.datastart - 1) / 12 + 3 = D := by omega
    have hk' : 64 * ((fullStart D + k / 64 - mkfsSb.datastart - 1) % 12) + k % 64 = k := by omega
    rw [if_neg (by omega), hD', hk']

theorem fullImage_hasEntry {D k : ℕ} :
    fullImage.HasEntry D k ↔ FullDir D ∧ k < 64 * fullBlocks D := by
  unfold State.HasEntry
  change D < 200 ∧ (fullDinode D).type = .dir ∧ _ ≤ (fullDinode D).size ↔ _
  constructor
  · rintro ⟨-, ht, hsz⟩
    have hD : FullDir D := by
      by_contra hne
      replace ht := (if_neg hne).symm.trans ht
      split_ifs at ht
    replace hsz := hsz.trans_eq (if_pos hD)
    unfold direntSize bsize at hsz
    exact ⟨hD, by omega⟩
  · rintro ⟨hD, hk⟩
    have hsz : (fullDinode D).size = fullBlocks D * bsize := if_pos hD
    rw [hsz]
    refine ⟨?_, if_pos hD, ?_⟩
    · unfold FullDir rootino at hD
      omega
    · unfold direntSize bsize
      omega

theorem fullImage_inum {D k : ℕ} (hD : FullDir D) (hk : k < 64 * fullBlocks D) :
    fullImage.inum D k = fullInum D k := by
  have h0 := fullImage_byte hD hk (by decide : 0 < direntSize)
  have h1 := fullImage_byte hD hk (by decide : 1 < direntSize)
  rw [Nat.add_zero] at h0
  unfold State.inum
  rw [h0, h1]
  change (UInt8.ofNat (fullInum D k)).toNat + 256 * (UInt8.ofNat (fullInum D k / 256)).toNat = _
  have hlt : fullInum D k < 256 := by
    unfold fullInum
    unfold FullDir rootino at *
    split_ifs <;> omega
  rw [UInt8.toNat_ofNat', UInt8.toNat_ofNat']
  omega

/-- **The entries of the image.** -/
theorem fullImage_ent (D k : ℕ) : fullImage.tree.ent D k =
    if FullDir D ∧ k < 64 * fullBlocks D then fullInum D k else 0 := by
  change (if fullImage.HasEntry D k then fullImage.inum D k else 0) = _
  by_cases h : FullDir D ∧ k < 64 * fullBlocks D
  · rw [if_pos (fullImage_hasEntry.2 h), if_pos h, fullImage_inum h.1 h.2]
  · rw [if_neg fun hc => h (fullImage_hasEntry.1 hc), if_neg h]

theorem fullImage_name {D k : ℕ} (hD : FullDir D) (hk : k < 64 * fullBlocks D)
    (hne : fullInum D k ≠ 0) (hlen : (fullName D k).length ≤ dirsiz) :
    fullImage.tree.name D k = padded (fullName D k) := by
  funext j
  change (if fullImage.HasEntry D k ∧ fullImage.inum D k ≠ 0 ∧ j < dirsiz then
    fullImage.byte D (direntSize * k + 2 + j) else 0) = _
  by_cases hj : j < dirsiz
  · have hr : 2 + j < direntSize := by
      unfold direntSize dirsiz at *
      omega
    rw [if_pos ⟨fullImage_hasEntry.2 ⟨hD, hk⟩, (fullImage_inum hD hk).trans_ne hne, hj⟩,
      Nat.add_assoc, fullImage_byte hD hk hr]
    unfold fullByte Dirent.encode
    rw [if_neg (by omega), if_neg (by omega), Nat.add_sub_cancel_left]
    rfl
  · rw [if_neg fun hc => hj hc.2.2]
    unfold padded
    rw [List.getD_eq_getElem?_getD, List.getElem?_eq_none (by omega)]
    rfl

theorem fullImage_type (i : ℕ) :
    fullImage.tree.type i = if FullDir i then .dir else if i = 2 then .file else .free := by
  by_cases hi : i < 200
  · exact State.tree_type hi
  · have hd : ¬ FullDir i := by
      unfold FullDir rootino
      omega
    rw [if_neg hd, if_neg (by omega : ¬ i = 2)]
    exact if_neg hi

theorem fullImage_nlink {i : ℕ} (h : fullImage.tree.type i ≠ .free) :
    fullImage.tree.nlink i = if i = 2 then 0x7FFF else if i = rootino then 44 else 1 := by
  obtain ⟨hlt, ht⟩ := State.type_of_tree h
  exact State.tree_nlink hlt (by rwa [ht])

section Count

variable {N K : ℕ} {T : Tree} (hN : 46 ≤ N) (hK : 764 ≤ K)
  (hent : ∀ D k, T.ent D k = if FullDir D ∧ k < 64 * fullBlocks D then fullInum D k else 0)

include hent

/-- An ordinary entry names a directory of the root, or the file. -/
theorem full_ordinary {D k : ℕ} (h2 : 2 ≤ k) : T.ent D k =
    if D = rootino then (if k < 46 then k else 0)
    else if 3 ≤ D ∧ D < 46 ∧ k < 764 then 2 else 0 := by
  rw [hent]
  unfold FullDir fullBlocks fullInum rootino
  split_ifs <;> omega

include hN hK

theorem full_names_file : T.names N K 2 = 32767 := by
  have hset : ((Finset.range N ×ˢ Finset.range K).filter fun d => 2 ≤ d.2 ∧ T.ent d.1 d.2 = 2) =
      {(rootino, 2)} ∪ Finset.Ico 3 46 ×ˢ Finset.Ico 2 764 := by
    ext ⟨D, k⟩
    simp only [Finset.mem_filter, Finset.mem_product, Finset.mem_range, Finset.mem_union,
      Finset.mem_singleton, Finset.mem_Ico, Prod.mk.injEq]
    by_cases h2 : 2 ≤ k
    · rw [full_ordinary hent h2]
      unfold rootino
      split_ifs
      · omega
      · exact iff_of_false (fun hc => hc.2.2) (by omega)
      · omega
      · exact iff_of_false (fun hc => hc.2.2) (by omega)
    · omega
  have hdisj : Disjoint {(rootino, 2)} (Finset.Ico 3 46 ×ˢ Finset.Ico 2 764) := by
    rw [Finset.disjoint_singleton_left, Finset.mem_product, Finset.mem_Ico]
    exact fun hc => absurd hc.1.1 (by decide)
  unfold Tree.names
  rw [hset, Finset.card_union_of_disjoint hdisj, Finset.card_singleton, Finset.card_product,
    Nat.card_Ico, Nat.card_Ico]

theorem full_names_dir {i : ℕ} (hi : 3 ≤ i ∧ i < 46) : T.names N K i = 1 := by
  unfold Tree.names
  rw [Finset.card_eq_one]
  refine ⟨(rootino, i), Finset.ext fun ⟨D, k⟩ => ?_⟩
  simp only [Finset.mem_filter, Finset.mem_product, Finset.mem_range, Finset.mem_singleton,
    Prod.mk.injEq]
  by_cases h2 : 2 ≤ k
  · rw [full_ordinary hent h2]
    unfold rootino
    split_ifs <;> omega
  · omega

omit hN in
theorem full_subs_root (htype : ∀ i, T.type i = .dir ↔ FullDir i) : T.subs K rootino = 43 := by
  have hset : ((Finset.range K).filter fun k => 2 ≤ k ∧ T.ent rootino k ≠ 0 ∧
      T.type (T.ent rootino k) = .dir) = Finset.Ico 3 46 := by
    ext k
    rw [Finset.mem_filter, Finset.mem_range, Finset.mem_Ico, htype]
    by_cases h2 : 2 ≤ k
    · rw [full_ordinary hent h2, if_pos rfl]
      unfold FullDir rootino
      split_ifs <;> omega
    · omega
  unfold Tree.subs
  rw [hset, Nat.card_Ico]

end Count

theorem fullSys_idle : fullSys.Idle := bootSys_idle (fun _ => rfl) rfl

theorem fullImage_inv : fullImage.tree.Inv fullImage.sb.ninodes maxents := by
  have hN : fullImage.sb.ninodes = 200 := rfl
  have hK : maxents = 17152 := by decide
  have htype : ∀ i, fullImage.tree.type i = .dir ↔ FullDir i := by
    intro i
    rw [fullImage_type]
    split_ifs with h1 h2
    · exact iff_of_true rfl h1
    · exact iff_of_false nofun h1
    · exact iff_of_false nofun h1
  have hused : ∀ {i}, fullImage.tree.type i ≠ .free → FullDir i ∨ i = 2 := by
    intro i hi
    rw [fullImage_type] at hi
    split_ifs at hi with h1 h2
    · exact .inl h1
    · exact .inr h2
    · exact absurd rfl hi
  have hblocks := fullBlocks_le
  have hnames : ∀ {i}, 3 ≤ i ∧ i < 46 → fullImage.tree.names fullImage.sb.ninodes maxents i = 1 :=
    full_names_dir (by omega) (by omega) fullImage_ent
  have hroot : fullImage.tree.names fullImage.sb.ninodes maxents rootino = 0 := by
    rw [Tree.names_eq_zero]
    intro D _ k _ h2 he
    rw [full_ordinary fullImage_ent h2] at he
    unfold rootino at he
    split_ifs at he <;> omega
  have hsubs : ∀ {i}, 3 ≤ i → fullImage.tree.subs maxents i = 0 := by
    intro i hi
    rw [Tree.subs_eq_zero]
    intro k _ h2 hne ht
    rw [htype, full_ordinary fullImage_ent h2] at ht
    rw [full_ordinary fullImage_ent h2] at hne
    unfold FullDir rootino at *
    split_ifs at * <;> omega
  refine ⟨fun D k hne => ?_, fun i hi => ?_, (htype _).2 (.inl rfl), fun D hD => ?_, fun D hD => ?_,
    fun D k h2 hne => ?_, fun i hi => ?_, fun i hi => ?_, fun i hi hr hz => ?_, fun i hi hd => ?_⟩
  · rw [fullImage_ent] at hne
    split_ifs at hne with hc
    · refine ⟨?_, ?_, (htype D).2 hc.1⟩
      · have := hc.1
        unfold FullDir rootino at this
        omega
      · have := hblocks D
        unfold ndirect at this
        omega
    · exact absurd rfl hne
  · rcases hused hi with h | h
    · unfold FullDir rootino at h
      omega
    · omega
  · rw [htype] at hD
    have h0 : 0 < 64 * fullBlocks D := by
      have := hblocks D
      omega
    refine ⟨(fullImage_ent D 0).trans (if_pos ⟨hD, h0⟩), fullImage_name hD h0 ?_ (by decide : dot.length ≤ dirsiz)⟩
    change D ≠ 0
    unfold FullDir rootino at hD
    omega
  · rw [htype] at hD
    have h1 : 1 < 64 * fullBlocks D := by
      have := hblocks D
      omega
    have hent := (fullImage_ent D 1).trans (if_pos ⟨hD, h1⟩)
    refine ⟨?_, fullImage_name hD h1 (by decide : rootino ≠ 0) (by decide : dotdot.length ≤ dirsiz)⟩
    rw [hent]
    exact (by decide : rootino ≠ 0)
  · rw [full_ordinary fullImage_ent h2] at hne ⊢
    rw [fullImage_type]
    unfold FullDir rootino at *
    split_ifs at * <;> first | omega | exact ⟨nofun, by omega⟩
  · rcases (htype i).1 hi with rfl | h
    · omega
    · rw [hnames h]
  · rw [fullImage_nlink (by rw [hi]; exact nofun)]
    rcases (htype i).1 hi with rfl | h
    · rw [hroot, full_subs_root (by omega) fullImage_ent htype]
      rfl
    · rw [hnames h, hsubs h.1, if_neg (by omega), if_neg (by unfold rootino; omega),
        if_neg (by unfold rootino; omega)]
      rfl
  · rcases (htype i).1 hi with h | h
    · exact absurd h hr
    · exact hsubs h.1
  · rcases hused hi with h | rfl
    · exact absurd ((htype i).2 h) hd
    · rw [fullImage_nlink hi, full_names_file (by omega) (by omega) fullImage_ent]
      decide

theorem fullSys_linked : fullSys.Linked fullSys.fs.sb.ninodes := by
  have hK : maxents = 17152 := by decide
  have hN : fullImage.sb.ninodes = 200 := rfl
  refine ⟨fullSys_idle.ok fullImage_wf ?_ (fun i hi => ?_) fun D hD => ?_, fullImage_inv,
    fun i hi hd => ?_, fun p cwd hcwd => ?_⟩
  · exact ne_of_eq_of_ne fullImage_inv.root nofun
  · change fullImage.tree.nlink i ≠ 0
    rw [fullImage_nlink hi]
    split_ifs <;> decide
  · refine Nat.dvd_trans (by decide : direntSize ∣ bsize) ?_
    change bsize ∣ if FullDir D then fullBlocks D * bsize else 0
    split_ifs
    · exact Nat.dvd_mul_left _ _
    · exact Nat.dvd_zero _
  · have h2 : i = 2 := by
      change fullImage.tree.type i ≠ .free at hi
      change fullImage.tree.type i ≠ .dir at hd
      rw [fullImage_type] at hi hd
      split_ifs at hi hd with h1 h2
      · exact absurd rfl hd
      · exact h2
      · exact absurd rfl hi
    have hnl := fullImage_nlink hi
    have hnames := full_names_file (N := fullImage.sb.ninodes) (K := maxents) (by omega) (by omega)
      fullImage_ent
    rw [h2] at hnl ⊢
    change (fullImage.tree.nlink 2).toInt = (fullImage.tree.names fullImage.sb.ninodes maxents 2 : ℤ)
    rw [hnl, hnames]
    decide
  · rw [fullSys_idle.cwd] at hcwd
    split_ifs at hcwd
    rw [← Option.some.inj hcwd]
    exact fullImage_inv.root

/-- The file loses its name in the root directory: 32766 names are left. -/
theorem nlink_counts_names_full : ∃ s, fullSys.step (0, .unlink [47, 102]) = some s ∧
    (s.fs.tree.nlink 2).toInt = 32766 ∧
      s.fs.tree.names fullSys.fs.sb.ninodes maxents 2 = 32766 := by
  obtain ⟨s, hs, ht, hn⟩ : ∃ s, fullSys.step (0, .unlink [47, 102]) = some s ∧
      s.fs.tree.type 2 = .file ∧ (s.fs.tree.nlink 2).toInt = 32766 := exists_some (by decide +kernel)
  have hm : Meets (fun T a => a.Short T) fullSys (0, .unlink [47, 102]) := by
    rintro cwd a - ⟨q, dp, name, k, -, -, -, rfl⟩ -
    unfold rmAct
    split_ifs <;> trivial
  have hcount := (nlink_counts_names fullSys_linked (.tail .refl ⟨rfl, hm⟩ hs)).1 2
    (by rw [ht]; exact nofun)
  rw [ht, if_neg nofun, hn] at hcount
  exact ⟨s, hs, hn, by omega⟩

/-- Another name for the file makes its link count negative, and removing that name panics. -/
theorem nlink_overflows : fullSys.Linked fullSys.fs.sb.ninodes ∧
    ∃ s, fullSys.step (0, .link [47, 102] [47, 103]) = some s ∧ s.fs.tree.type 2 = .file ∧
      (s.fs.tree.nlink 2).toInt ≠ s.fs.tree.names fullSys.fs.sb.ninodes maxents 2 ∧
      s.stop (0, .unlink [47, 103]) = some (.panic "unlink: nlink < 1") := by
  obtain ⟨s, hs, ht, hn, hstop⟩ : ∃ s, fullSys.step (0, .link [47, 102] [47, 103]) = some s ∧
      s.fs.tree.type 2 = .file ∧ (s.fs.tree.nlink 2).toInt = -32768 ∧
      s.stop (0, .unlink [47, 103]) = some (.panic "unlink: nlink < 1") :=
    exists_some (by decide +kernel)
  exact ⟨fullSys_linked, s, hs, ht, by omega, hstop⟩

end Xv6.Fs
