import Xv6.Fs.Tree

/-!
# The entry `..`

Ordinary entries never name a free inode (`Tree.Inv`). For the entry `..` this takes more:
`unlink` removes a directory whatever the entries `..` of other directories say, and a removed
directory lives on while some process uses it. `Tree.Up` says that `..` names a linked
directory; `Up.apply` shows that it stays true as long as no directory is removed that the
`..` of an already removed directory names.
-/

namespace Xv6.Fs.Tree

variable {N K : ℕ} {T : Tree}

/-- The entry `..` of every directory names a linked directory, the parent if the directory is
linked itself. -/
structure Up (N K : ℕ) (T : Tree) : Prop where
  root : T.ent rootino 1 = rootino
  dir : ∀ D, T.type D = .dir → D ≠ rootino → T.type (T.ent D 1) = .dir ∧ T.nlink (T.ent D 1) ≠ 0
  parent : ∀ D, T.type D = .dir → T.names N K D ≠ 0 → ∃ k, 2 ≤ k ∧ T.ent (T.ent D 1) k = D

/-- No entry of a directory names a free inode. -/
def NoDangle (T : Tree) : Prop :=
  ∀ D k, T.type D = .dir → T.ent D k ≠ 0 → T.type (T.ent D k) ≠ .free

theorem Inv.noDangle (h : T.Inv N K) (hu : T.Up N K) : T.NoDangle := by
  intro D k hD hne
  rcases Nat.lt_or_ge k 2 with hk | hk
  · rcases (by omega : k = 0 ∨ k = 1) with rfl | rfl
    · rw [(h.dot D hD).1, hD]
      exact nofun
    · by_cases hr : D = rootino
      · rw [hr, hu.root, h.root]
        exact nofun
      · rw [(hu.dir D hD hr).1]
        exact nofun
  · exact (h.live D k hk hne).1

namespace Up

variable (hu : T.Up N K) (h : T.Inv N K)

include hu h

/-- Another entry for a file or device. -/
theorem addFile {dp k ip : ℕ} {t : FType} {n : BitVec 16} (nm : ℕ → UInt8) (hdp : T.type dp = .dir)
    (h2 : 2 ≤ k) (hk : k < K) (h0 : T.ent dp k = 0) (ht : T.type ip ≠ .dir) (htd : t ≠ .dir) :
    (T.addEntry dp k ip t n nm).Up N K := by
  set T' := T.addEntry dp k ip t n nm
  have htype : ∀ j, T'.type j = _ := addEntry_type T dp k ip t n nm
  have hnlink : ∀ j, T'.nlink j = _ := addEntry_nlink T dp k ip t n nm
  have hent : ∀ D k', T'.ent D k' = _ := addEntry_ent T dp k ip t n nm
  have hlow : ∀ D, T'.ent D 1 = T.ent D 1 := by
    intro D
    rw [hent, if_neg (by omega)]
  have hdir : ∀ {j}, T'.type j = .dir → j ≠ ip ∧ T.type j = .dir := dir_of_addEntry htd
  have hdpN := (h.dir_used hdp).2
  refine ⟨by rw [hlow, hu.root], ?_, ?_⟩
  · intro D hD hr
    obtain ⟨hP, hn⟩ := hu.dir D (hdir hD).2 hr
    have hPip : T.ent D 1 ≠ ip := by
      rintro he
      exact ht (he ▸ hP)
    rw [hlow, htype, hnlink, if_neg hPip, if_neg hPip]
    exact ⟨hP, hn⟩
  · intro D hD hn
    obtain ⟨hDi, hD⟩ := hdir hD
    have hD0 := (h.dir_used hD).1.ne'
    rw [addEntry_names hdpN hk h2 h0 hD0, if_neg hDi, Nat.add_zero] at hn
    obtain ⟨k', hk', he⟩ := hu.parent D hD hn
    refine ⟨k', hk', ?_⟩
    rw [hlow, hent, if_neg, he]
    rintro ⟨hc, rfl⟩
    rw [hc, h0] at he
    exact hD0 he.symm

/-- A new directory. -/
theorem mkdir {dp k ip : ℕ} {nm : ℕ → UInt8} (hK : K + 3 < 2 ^ 16)
    (ok : (Act.dir dp k ip nm).Ok N K T) (hl : T.nlink dp ≠ 0) :
    (T.apply (.dir dp k ip nm)).Up N K := by
  obtain ⟨hdp, h2, hk, h0, hip, hpos, hN⟩ := ok
  have hnotip : ∀ {P}, T.type P = .dir → P ≠ ip := fun hP => ne_of_free hP hip
  have hdpN := (h.dir_used hdp).2
  have hup : ∀ D, (T.apply (.dir dp k ip nm)).ent D 1 = if D = ip then dp else T.ent D 1 := by
    intro D
    rw [apply_dir_ent, if_neg (by omega)]
    simp
  -- a linked directory stays linked, the parent included: its count cannot go round
  have hlinked : ∀ P, T.type P = .dir → T.nlink P ≠ 0 →
      (T.apply (.dir dp k ip nm)).type P = .dir ∧ (T.apply (.dir dp k ip nm)).nlink P ≠ 0 := by
    intro P hP hn
    have hPip := hnotip hP
    have hlt := h.nlink_lt hK hP
    rw [apply_dir_type, apply_dir_nlink, if_neg hPip, if_neg hPip]
    refine ⟨hP, ?_⟩
    split_ifs with hPd
    · rw [← hPd]
      bv_omega
    · exact hn
  refine ⟨?_, ?_, ?_⟩
  · rw [hup, if_neg (hnotip h.root), hu.root]
  · intro D hD hr
    rw [hup]
    split_ifs with hDi
    · exact hlinked dp hdp hl
    · rw [apply_dir_type, if_neg hDi] at hD
      obtain ⟨hP, hn⟩ := hu.dir D hD hr
      exact hlinked _ hP hn
  · intro D hD hn
    rw [hup]
    split_ifs with hDi
    · exact ⟨k, h2, by rw [apply_dir_ent, if_pos ⟨rfl, rfl⟩, hDi]⟩
    · rw [apply_dir_type, if_neg hDi] at hD
      have hD0 := (h.dir_used hD).1.ne'
      rw [apply_dir_names hdpN hk h2 (hnotip hdp) h0 hD0, if_neg hDi, Nat.add_zero] at hn
      obtain ⟨k', hk', he⟩ := hu.parent D hD hn
      refine ⟨k', hk', ?_⟩
      rw [apply_dir_ordinary _ _ _ _ _ hk', if_neg, he]
      rintro ⟨hc, rfl⟩
      rw [hc, h0] at he
      exact hD0 he.symm

/-- An entry is cleared; what is left to show is that the directories that the entries `..`
name stay linked. -/
theorem removeEntry {dp k : ℕ} (h2 : 2 ≤ k) (hne : T.ent dp k ≠ 0) {T' : Tree}
    (htype : T'.type = T.type) (hent : T'.ent = (T.setEnt dp k 0 fun _ => 0).ent)
    (hlink : ∀ D, T.type D = .dir → D ≠ rootino → T'.nlink (T.ent D 1) ≠ 0) : T'.Up N K := by
  obtain ⟨hdpN, hk, -⟩ := h.slot dp k hne
  have hent' : ∀ D k', T'.ent D k' = if D = dp ∧ k' = k then 0 else T.ent D k' := by
    intro D k'
    rw [hent, setEnt_ent]
  have hlow : ∀ D, T'.ent D 1 = T.ent D 1 := by
    intro D
    rw [hent', if_neg (by omega)]
  refine ⟨by rw [hlow, hu.root], ?_, ?_⟩
  · intro D hD hr
    rw [htype] at hD
    rw [hlow, htype]
    exact ⟨(hu.dir D hD hr).1, hlink D hD hr⟩
  · intro D hD hn
    rw [htype] at hD
    have hnames := names_clear (T := T) hdpN hk h2 (fun _ => 0)
      (h.dir_used hD).1.ne'
    have hn' : T'.names N K D = (T.setEnt dp k 0 fun _ => 0).names N K D := by
      unfold names
      rw [hent]
    have ho := h.once D hD
    obtain ⟨k', hk', he⟩ := hu.parent D hD (by omega)
    refine ⟨k', hk', ?_⟩
    rw [hlow, hent', if_neg, he]
    -- the only name of a directory is not the one that goes
    rintro ⟨hc, rfl⟩
    rw [hc] at he
    rw [if_pos he.symm] at hnames
    omega

/-- An empty directory is removed that no removed directory has as its parent. -/
theorem rmdir {dp k : ℕ} (ok : (Act.rmdir dp k).Ok N K T) (hs : (Act.rmdir dp k).NoStray T) :
    (T.apply (.rmdir dp k)).Up N K := by
  obtain ⟨h2, hne, ht, hempty⟩ := ok
  obtain ⟨-, -, hl1⟩ := h.empty_nlink h2 hne ht hempty
  refine hu.removeEntry h h2 hne rfl rfl ?_
  intro D hD hr
  -- the removed directory is nobody's parent: not of a linked one, for it is empty
  have hDe : T.ent D 1 ≠ T.ent dp k := by
    by_cases hn : T.names N K D = 0
    · refine hs D hD ?_
      have hd := h.dirs D hD
      rw [hn, h.bare D hD hr hn, if_neg hr] at hd
      exact BitVec.eq_of_toNat_eq hd
    · intro he
      obtain ⟨k', hk', hc⟩ := hu.parent D hD hn
      rw [he, hempty k' hk'] at hc
      rw [← hc] at hD
      exact absurd (h.used 0 (by rw [hD]; exact nofun)).1 (Nat.lt_irrefl 0)
  rw [apply_rmdir_nlink hl1, if_neg hDe]
  split_ifs with hDd
  · -- the parent of the removed directory has a link of its own
    have := h.nlink_parent h2 hne ht
    bv_omega
  · exact (hu.dir D hD hr).2

/-- An unlinked inode is reclaimed. -/
theorem reclaim {i : ℕ} (ok : (Act.reclaim i).Ok N K T) : (T.apply (.reclaim i)).Up N K := by
  obtain ⟨ht, hn⟩ := ok
  have hroot := (h.unlinked_ne_root hn).symm
  have hdir : ∀ {j}, (T.free i).type j = .dir → j ≠ i ∧ T.type j = .dir := by
    intro j hj
    rw [free_type] at hj
    split_ifs at hj with hji
    exact ⟨hji, hj⟩
  -- the inode is not linked, so it is nobody's parent
  have hPi : ∀ {D}, T.type D = .dir → D ≠ rootino → T.ent D 1 ≠ i := by
    rintro D hD hr rfl
    exact (hu.dir D hD hr).2 hn
  refine ⟨?_, ?_, ?_⟩
  · exact (free_ent _ _ _ _).trans ((if_neg hroot).trans hu.root)
  · intro D hD hr
    obtain ⟨hDi, hD⟩ := hdir hD
    have he : (T.apply (.reclaim i)).ent D 1 = T.ent D 1 := (free_ent _ _ _ _).trans (if_neg hDi)
    have hP := hPi hD hr
    rw [he]
    refine ⟨(free_type _ _ _).trans ((if_neg hP).trans (hu.dir D hD hr).1), ?_⟩
    exact ((free_nlink _ _ _).trans (if_neg hP)).trans_ne (hu.dir D hD hr).2
  · intro D hD hn'
    obtain ⟨hDi, hD⟩ := hdir hD
    have hle := names_free_le (T := T) (N := N) (K := K) i (h.dir_used hD).1.ne'
    have hn₀ : T.names N K D ≠ 0 := fun h0 => hn' (Nat.le_zero.1 (h0 ▸ hle))
    have hr : D ≠ rootino := by
      rintro rfl
      exact hn₀ h.names_root
    obtain ⟨k, hk, hc⟩ := hu.parent D hD hn₀
    have he : (T.apply (.reclaim i)).ent D 1 = T.ent D 1 := (free_ent _ _ _ _).trans (if_neg hDi)
    refine ⟨k, hk, ?_⟩
    rw [he]
    exact (free_ent _ _ _ _).trans ((if_neg (hPi hD hr)).trans hc)

/-- **The entries `..` keep naming linked directories** as long as no directory is made in a
removed one and none is removed that is still the parent of a removed one. -/
theorem apply (hK : K + 3 < 2 ^ 16) {a : Act} (ok : a.Ok N K T) (hm : a.MkdirLinked T)
    (hs : a.NoStray T) : (T.apply a).Up N K := by
  cases a with
  | node dp k ip t nm =>
    obtain ⟨hdp, h2, hk, h0, hip, -, -, -, htd⟩ := ok
    exact hu.addFile h nm hdp h2 hk h0 (by rw [hip]; exact nofun) htd
  | dir dp k ip nm => exact hu.mkdir h hK ok hm
  | link dp k ip nm =>
    obtain ⟨hdp, h2, hk, h0, -, htd⟩ := ok
    rw [apply_link]
    exact hu.addFile h nm hdp h2 hk h0 htd htd
  | unlink dp k =>
    obtain ⟨h2, hne, -, htd⟩ := ok
    refine hu.removeEntry h h2 hne rfl rfl fun D hD hr => ?_
    have hDe : T.ent D 1 ≠ T.ent dp k := fun he => htd (he ▸ (hu.dir D hD hr).1)
    exact ((setNlink_nlink _ _ _ _).trans (if_neg hDe)).trans_ne (hu.dir D hD hr).2
  | rmdir dp k => exact hu.rmdir h ok hs
  | reclaim i => exact hu.reclaim h ok

end Up

end Xv6.Fs.Tree
