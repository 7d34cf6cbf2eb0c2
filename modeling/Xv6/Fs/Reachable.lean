import Xv6.Fs.Tree

/-!
# Directories reached from the root

`iput` reclaims an inode once its link count is zero and nobody uses it. Nothing is lost, then, if
every inode with links can be found from the root. `Tree.Exact` says that it can.

* `Exact.apply`: this stays so as long as nothing is given a name in a removed directory.
* `Exact.named`: with no unlinked inode left, every inode in use has a name in a directory reached
  from the root.
-/

namespace Xv6.Fs.Tree

variable {N K : ℕ} {T T' : Tree}

/-- Directories reached from the root by ordinary entries. -/
inductive Reachable (T : Tree) : ℕ → Prop
  | root : Reachable T rootino
  | entry {D k : ℕ} : Reachable T D → 2 ≤ k → T.ent D k ≠ 0 → T.type (T.ent D k) = .dir →
      Reachable T (T.ent D k)

/-- Directories stay reachable if the entries for directories stay, those for `e` apart, and
nothing is reached through `e`. -/
theorem Reachable.mono {e D : ℕ} (hroot : e ≠ rootino) (hbare : ∀ k, 2 ≤ k → T.ent e k = 0)
    (hstep : ∀ D k, 2 ≤ k → T.ent D k ≠ 0 → T.type (T.ent D k) = .dir → T.ent D k ≠ e →
      T'.ent D k = T.ent D k ∧ T'.type (T.ent D k) = .dir)
    (hD : T.Reachable D) (hne : D ≠ e) : T'.Reachable D := by
  induction hD with
  | root => exact .root
  | @entry D k hD h2 h0 ht ih =>
    have hDe : D ≠ e := by
      rintro rfl
      exact h0 (hbare k h2)
    obtain ⟨he, ht'⟩ := hstep D k h2 h0 ht hne
    rw [← he]
    exact .entry (ih hDe) h2 (he.trans_ne h0) (he ▸ ht')

/-- Every link of a file is a name, removed directories are empty, and every directory that has
not been removed is reached from the root. -/
structure Exact (N K : ℕ) (T : Tree) : Prop where
  files : ∀ i, T.type i ≠ .free → T.type i ≠ .dir → (T.nlink i).toNat = T.names N K i
  removed : ∀ D, T.type D = .dir → T.nlink D = 0 → ∀ k, 2 ≤ k → T.ent D k = 0
  linked : ∀ D, T.type D = .dir → T.nlink D ≠ 0 → T.Reachable D

/-- **Nothing is lost**: if all unlinked inodes have been reclaimed, every inode in use has a name
in a directory reached from the root. -/
theorem Exact.named (hx : T.Exact N K) (h : T.Inv N K)
    (hall : ∀ i, T.type i ≠ .free → T.nlink i ≠ 0) {i : ℕ} (hi : T.type i ≠ .free) :
    ∃ D k, T.Reachable D ∧ T.ent D k = i := by
  by_cases hd : T.type i = .dir
  · cases hx.linked i hd (hall i hi) with
    | root => exact ⟨rootino, 0, .root, (h.dot rootino h.root).1⟩
    | @entry D k hD h2 h0 ht => exact ⟨D, k, hD, rfl⟩
  · have hn : T.names N K i ≠ 0 := by
      rw [← hx.files i hi hd]
      intro h0
      exact hall i hi (BitVec.eq_of_toNat_eq h0)
    rw [ne_eq, names_eq_zero] at hn
    push Not at hn
    obtain ⟨D, -, k, -, -, rfl⟩ := hn
    have hDd := (h.slot D k (h.used _ hi).1.ne').2.2
    exact ⟨D, k, hx.linked D hDd (hall D (by rw [hDd]; exact nofun)), rfl⟩

namespace Exact

variable (hx : T.Exact N K) (h : T.Inv N K)

include hx h

/-- Another entry for a file or device in a linked directory. -/
theorem addFile {dp k ip : ℕ} {t : FType} {n : BitVec 16} (nm : ℕ → UInt8) (hdp : T.type dp = .dir)
    (h2 : 2 ≤ k) (hk : k < K) (h0 : T.ent dp k = 0) (hpos : 0 < ip) (ht : T.type ip ≠ .dir)
    (htd : t ≠ .dir) (hl : T.nlink dp ≠ 0) (hn : n.toNat = T.names N K ip + 1) :
    (T.addEntry dp k ip t n nm).Exact N K := by
  set T' := T.addEntry dp k ip t n nm
  have htype : ∀ j, T'.type j = _ := addEntry_type T dp k ip t n nm
  have hnlink : ∀ j, T'.nlink j = _ := addEntry_nlink T dp k ip t n nm
  have hent : ∀ D k', T'.ent D k' = _ := addEntry_ent T dp k ip t n nm
  have hdpN := (h.dir_used hdp).2
  have hnames : ∀ j, j ≠ 0 → T'.names N K j = T.names N K j + if j = ip then 1 else 0 :=
    fun j => addEntry_names hdpN hk h2 h0
  have hdir : ∀ {j}, T'.type j = .dir → j ≠ ip ∧ T.type j = .dir := dir_of_addEntry htd
  refine ⟨?_, ?_, ?_⟩
  · intro j hj hjd
    by_cases hji : j = ip
    · rw [hji, hnlink, if_pos rfl, hnames ip hpos.ne', if_pos rfl, hn]
    · rw [htype, if_neg hji] at hj hjd
      rw [hnlink, if_neg hji, hnames j (h.used j hj).1.ne', if_neg hji]
      exact hx.files j hj hjd
  · intro D hD hn0 k' h2'
    obtain ⟨hDi, hD⟩ := hdir hD
    rw [hnlink, if_neg hDi] at hn0
    rw [hent, if_neg]
    · exact hx.removed D hD hn0 k' h2'
    · rintro ⟨rfl, -⟩
      exact hl hn0
  · intro D hD hn0
    obtain ⟨hDi, hD⟩ := hdir hD
    rw [hnlink, if_neg hDi] at hn0
    refine Reachable.mono (e := ip) ?_ ?_ ?_ (hx.linked D hD hn0) hDi
    · rintro rfl
      exact ht h.root
    · intro k' _
      by_contra hne
      exact ht (h.slot ip k' hne).2.2
    · intro E k' h2' hne htE hEi
      rw [hent, htype, if_neg hEi, if_neg]
      · exact ⟨rfl, htE⟩
      · rintro ⟨rfl, rfl⟩
        exact hne h0

/-- A new directory in a linked one. -/
theorem mkdir {dp k ip : ℕ} {nm : ℕ → UInt8} (hK : K + 3 < 2 ^ 16)
    (ok : (Act.dir dp k ip nm).Ok N K T) (hl : T.nlink dp ≠ 0) :
    (T.apply (.dir dp k ip nm)).Exact N K := by
  obtain ⟨hdp, h2, hk, h0, hip, hpos, hN⟩ := ok
  have hnotip : ∀ {P}, T.type P = .dir → P ≠ ip := fun hP => ne_of_free hP hip
  have hdpN := (h.dir_used hdp).2
  set T' := T.apply (.dir dp k ip nm)
  have htype : ∀ j, T'.type j = _ := apply_dir_type T dp k ip nm
  have hnlink : ∀ j, T'.nlink j = _ := apply_dir_nlink T dp k ip nm
  have hent : ∀ {D k'}, 2 ≤ k' → T'.ent D k' = _ := apply_dir_ordinary T dp k ip nm
  -- what is linked stays reachable
  have hreach : ∀ {D}, T.type D = .dir → T.nlink D ≠ 0 → T'.Reachable D := by
    intro D hD hn0
    refine Reachable.mono (e := ip) (hnotip h.root).symm ?_ ?_ (hx.linked D hD hn0) (hnotip hD)
    · intro k' _
      by_contra hne
      exact hnotip (h.slot ip k' hne).2.2 rfl
    · intro E k' h2' hne htE hEi
      rw [hent h2', htype, if_neg hEi, if_neg]
      · exact ⟨rfl, htE⟩
      · rintro ⟨rfl, rfl⟩
        exact hne h0
  refine ⟨?_, ?_, ?_⟩
  · intro j hj hjd
    have hji : j ≠ ip := by
      rintro rfl
      rw [htype, if_pos rfl] at hjd
      exact hjd rfl
    rw [htype, if_neg hji] at hj hjd
    have hjdp : j ≠ dp := by
      rintro rfl
      exact hjd hdp
    rw [hnlink, if_neg hjdp, if_neg hji,
      apply_dir_names hdpN hk h2 (hnotip hdp) h0 (h.used j hj).1.ne', if_neg hji]
    exact hx.files j hj hjd
  · intro D hD hn0 k' h2'
    have hDd : D ≠ dp := by
      rintro rfl
      have := h.nlink_lt hK hdp
      rw [hnlink, if_pos rfl] at hn0
      bv_omega
    rw [hnlink, if_neg hDd] at hn0
    split_ifs at hn0 with hDi
    · exact absurd hn0 (by decide)
    · rw [htype, if_neg hDi] at hD
      rw [hent h2', if_neg fun hc => hDd hc.1]
      exact hx.removed D hD hn0 k' h2'
  · intro D hD hn0
    by_cases hDi : D = ip
    · have he : T'.ent dp k = ip := by rw [hent h2, if_pos ⟨rfl, rfl⟩]
      rw [hDi, ← he]
      refine .entry (hreach hdp hl) h2 (by rw [he]; exact hpos.ne') ?_
      rw [he, htype, if_pos rfl]
    · rw [htype, if_neg hDi] at hD
      refine hreach hD ?_
      rw [hnlink, if_neg hDi] at hn0
      split_ifs at hn0 with hDd
      · rw [hDd]; exact hl
      · exact hn0

/-- A name of a file or device is removed. -/
theorem unlink {dp k : ℕ} (ok : (Act.unlink dp k).Ok N K T) :
    (T.apply (.unlink dp k)).Exact N K := by
  obtain ⟨h2, hne, htf, htd⟩ := ok
  obtain ⟨hdpN, hk, -⟩ := h.slot dp k hne
  have hent := apply_unlink_ent T dp k
  have hnlink := apply_unlink_nlink T dp k
  have hdir : ∀ {D}, T.type D = .dir → D ≠ T.ent dp k := by
    rintro D hD rfl
    exact htd hD
  refine ⟨?_, ?_, ?_⟩
  · intro j hj hjd
    have hn := apply_unlink_names (T := T) hdpN hk h2 (h.used j hj).1.ne'
    have hf := hx.files j hj hjd
    have hpos := h.names_pos h2 hne
    rw [hnlink]
    split_ifs at hn ⊢ with hje
    · rw [← hje] at hpos ⊢
      have : (T.nlink j - 1).toNat = (T.nlink j).toNat - 1 := by bv_omega
      omega
    · omega
  · intro D hD hn0 k' h2'
    rw [hnlink, if_neg (hdir hD)] at hn0
    rw [hent, hx.removed D hD hn0 k' h2', ite_self]
  · intro D hD hn0
    rw [hnlink, if_neg (hdir hD)] at hn0
    refine Reachable.mono (e := T.ent dp k) (h.live dp k h2 hne).2 ?_ ?_ (hx.linked D hD hn0)
      (hdir hD)
    · intro k' _
      by_contra hne'
      exact htd (h.slot _ k' hne').2.2
    · intro E k' _ _ htE hEe
      rw [hent, if_neg]
      · exact ⟨rfl, htE⟩
      · rintro ⟨rfl, rfl⟩
        exact hEe rfl

/-- An empty directory is removed. -/
theorem rmdir {dp k : ℕ} (ok : (Act.rmdir dp k).Ok N K T) : (T.apply (.rmdir dp k)).Exact N K := by
  obtain ⟨h2, hne, ht, hempty⟩ := ok
  obtain ⟨hdpN, hk, hdp⟩ := h.slot dp k hne
  obtain ⟨-, -, hl1⟩ := h.empty_nlink h2 hne ht hempty
  have hent := apply_rmdir_ent T dp k
  have hpar := h.nlink_parent h2 hne ht
  refine ⟨?_, ?_, ?_⟩
  · intro j hj hjd
    have hje : j ≠ T.ent dp k := by
      rintro rfl
      exact hjd ht
    have hjdp : j ≠ dp := by
      rintro rfl
      exact hjd hdp
    have hn := apply_rmdir_names (T := T) hdpN hk h2 (h.used j hj).1.ne'
    rw [if_neg hje, Nat.add_zero] at hn
    rw [apply_rmdir_nlink hl1, if_neg hje, if_neg hjdp, hn]
    exact hx.files j hj hjd
  · intro D hD hn0 k' h2'
    rw [hent]
    by_cases hDe : D = T.ent dp k
    · rw [hDe, hempty k' h2', ite_self]
    · rw [apply_rmdir_nlink hl1, if_neg hDe] at hn0
      split_ifs at hn0 with hDd
      · bv_omega
      · rw [hx.removed D hD hn0 k' h2', ite_self]
  · intro D hD hn0
    rw [apply_rmdir_nlink hl1] at hn0
    by_cases hDe : D = T.ent dp k
    · rw [if_pos hDe] at hn0
      exact absurd rfl hn0
    · have hl : T.nlink D ≠ 0 := by
        rw [if_neg hDe] at hn0
        split_ifs at hn0 with hDd
        · rw [hDd]
          bv_omega
        · exact hn0
      refine Reachable.mono (h.live dp k h2 hne).2 hempty ?_ (hx.linked D hD hl) hDe
      intro E k' _ _ htE hEe
      rw [hent, if_neg]
      · exact ⟨rfl, htE⟩
      · rintro ⟨rfl, rfl⟩
        exact hEe rfl

/-- An unlinked inode is reclaimed; if it is a directory, no names go with it. -/
theorem reclaim {i : ℕ} (ok : (Act.reclaim i).Ok N K T) : (T.apply (.reclaim i)).Exact N K := by
  obtain ⟨ht, hn⟩ := ok
  have hni := h.unlinked_names ht hn
  have hbare : ∀ k, 2 ≤ k → T.ent i k = 0 := by
    intro k h2
    by_contra hne
    exact hne (hx.removed i (h.slot i k hne).2.2 hn k h2)
  have hent : ∀ D k, 2 ≤ k → (T.apply (.reclaim i)).ent D k = T.ent D k := by
    intro D k h2
    refine (free_ent _ _ _ _).trans ?_
    split_ifs with hD
    · rw [hD, hbare k h2]
    · rfl
  have hother : ∀ {j}, (T.apply (.reclaim i)).type j ≠ .free → j ≠ i ∧
      (T.apply (.reclaim i)).type j = T.type j ∧ (T.apply (.reclaim i)).nlink j = T.nlink j := by
    intro j hj
    have hji : j ≠ i := by
      rintro rfl
      exact hj ((free_type _ _ _).trans (if_pos rfl))
    exact ⟨hji, (free_type _ _ _).trans (if_neg hji), (free_nlink _ _ _).trans (if_neg hji)⟩
  refine ⟨?_, ?_, ?_⟩
  · intro j hj hjd
    obtain ⟨-, ht', hn'⟩ := hother hj
    rw [ht'] at hj hjd
    rw [hn', hx.files j hj hjd]
    exact (Lib.card_filter_same fun p _ => and_congr_right fun h2 => by rw [hent _ _ h2]).symm
  · intro D hD hn0 k h2
    obtain ⟨-, ht', hn'⟩ := hother (j := D) (by rw [hD]; exact nofun)
    rw [hent D k h2]
    exact hx.removed D (ht' ▸ hD) (hn' ▸ hn0) k h2
  · intro D hD hn0
    obtain ⟨hDi, ht', hn'⟩ := hother (j := D) (by rw [hD]; exact nofun)
    refine Reachable.mono (h.unlinked_ne_root hn) hbare ?_ (hx.linked D (ht' ▸ hD) (hn' ▸ hn0)) hDi
    intro E k h2 hne htE hEi
    exact ⟨hent E k h2, (free_type _ _ _).trans ((if_neg hEi).trans htE)⟩

/-- **Every change keeps the tree exact** as long as nothing is given a name in a removed
directory. -/
theorem apply (hK : K + 3 < 2 ^ 16) {a : Act} (ok : a.Ok N K T) (hw : a.NoWrap T)
    (hp : a.ParentLinked T) : (T.apply a).Exact N K := by
  cases a with
  | node dp k ip t nm =>
    obtain ⟨hdp, h2, hk, h0, hip, hpos, -, -, htd⟩ := ok
    refine hx.addFile h nm hdp h2 hk h0 hpos (by rw [hip]; exact nofun) htd hp ?_
    rw [h.names_fresh hpos.ne' hip]
    decide
  | dir dp k ip nm => exact hx.mkdir h hK ok hp
  | link dp k ip nm =>
    obtain ⟨hdp, h2, hk, h0, htf, htd⟩ := ok
    rw [apply_link]
    refine hx.addFile h nm hdp h2 hk h0 (h.used ip htf).1 htd htd hp ?_
    have hne : T.nlink ip ≠ -1 := hw
    rw [← hx.files ip htf htd]
    bv_omega
  | unlink dp k => exact hx.unlink h ok
  | rmdir dp k => exact hx.rmdir h ok
  | reclaim i => exact hx.reclaim h ok

end Exact

end Xv6.Fs.Tree
