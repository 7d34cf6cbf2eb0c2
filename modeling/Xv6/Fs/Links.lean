import Xv6.Fs.Runs

/-!
# Link counts

A directory that has not been removed is counted by its name in the parent and by the entries
`..` of its subdirectories; a file is counted by its names. `Tree.links` counts the entries other
than `.` in the directories that are reached from the root.

* `Tree.nlink_eq_links`: in a tree without removed directories the link counts are right.
* `names_form_tree`: they are right, and the directories form a tree, in every run of the calls
  that deal with names.
* `nlink_counts_names`: `link` and `unlink` keep the link counts right as long as no count goes
  past the largest `short`.
-/

namespace Xv6.Fs

open Lib

/-! ## Counting entries -/

namespace Tree

open scoped Classical in
/-- The entries other than `.` that name `i`, in directories reached from the root. -/
noncomputable def links (N K : ℕ) (T : Tree) (i : ℕ) : ℕ :=
  ((Finset.range N ×ˢ Finset.range K).filter fun d =>
    T.Reachable d.1 ∧ d.2 ≠ 0 ∧ T.ent d.1 d.2 = i).card

/-- The directories whose parent is `i`. -/
def children (N : ℕ) (T : Tree) (i : ℕ) : Finset ℕ :=
  (Finset.range N).filter fun D => T.type D = .dir ∧ T.ent D 1 = i

variable {N K : ℕ} {T : Tree}

theorem links_pos {i : ℕ} (h : 0 < T.links N K i) : ∃ D k, T.Reachable D ∧ T.ent D k = i := by
  classical
  obtain ⟨d, hd⟩ := Finset.card_pos.1 h
  obtain ⟨-, hD, -, he⟩ := Finset.mem_filter.1 hd
  exact ⟨d.1, d.2, hD, he⟩

/-- A directory has at most one name. -/
theorem Inv.sole (h : T.Inv N K) {D k D' k' : ℕ} (h2 : 2 ≤ k) (h2' : 2 ≤ k')
    (hne : T.ent D k ≠ 0) (hdir : T.type (T.ent D k) = .dir) (he : T.ent D' k' = T.ent D k) :
    D' = D ∧ k' = k := by
  have hone := h.once _ hdir
  unfold names at hone
  rw [Finset.card_le_one] at hone
  have hmem : ∀ {D₁ k₁}, 2 ≤ k₁ → T.ent D₁ k₁ = T.ent D k →
      (D₁, k₁) ∈ (Finset.range N ×ˢ Finset.range K).filter
        fun p => 2 ≤ p.2 ∧ T.ent p.1 p.2 = T.ent D k := by
    intro D₁ k₁ h2₁ he₁
    obtain ⟨hN, hK, -⟩ := h.slot D₁ k₁ (by rw [he₁]; exact hne)
    exact Finset.mem_filter.2 ⟨Finset.mk_mem_product (Finset.mem_range.2 hN) (Finset.mem_range.2 hK),
      h2₁, he₁⟩
  exact Prod.mk.inj (hone _ (hmem h2' he) _ (hmem h2 rfl))

section Count

variable (h : T.Inv N K) (hu : T.Up N K)

include h hu

/-- The entry `..` of a subdirectory names the directory that it is in. -/
theorem parent_of_entry {D k : ℕ} (h2 : 2 ≤ k) (hne : T.ent D k ≠ 0)
    (hdir : T.type (T.ent D k) = .dir) : T.ent (T.ent D k) 1 = D := by
  obtain ⟨k', h2', hk'⟩ := hu.parent _ hdir (h.names_pos h2 hne).ne'
  exact (h.sole h2 h2' hne hdir hk').1

theorem children_file {i : ℕ} (hi : T.type i ≠ .dir) : T.children N i = ∅ := by
  refine Finset.filter_eq_empty_iff.2 fun D _ hD => hi ?_
  by_cases hr : D = rootino
  · rw [← hD.2, hr, hu.root]
    exact h.root
  · rw [← hD.2]
    exact (hu.dir D hD.1 hr).1

variable (hl : ∀ D, T.type D = .dir → T.nlink D ≠ 0)

include hl

omit hu in
/-- A directory that has not been removed has a name. -/
theorem names_ne_zero {D : ℕ} (hD : T.type D = .dir) (hr : D ≠ rootino) : T.names N K D ≠ 0 := by
  intro h0
  have hn := h.dirs D hD
  rw [h0, h.bare D hD hr h0, if_neg hr] at hn
  exact hl D hD (BitVec.eq_of_toNat_eq hn)

theorem card_children {i : ℕ} (hi : T.type i = .dir) :
    (T.children N i).card = T.subs K i + if i = rootino then 1 else 0 := by
  -- the subdirectories of `i` are the other directories whose parent is `i`
  have himage : (T.children N i).erase rootino =
      ((Finset.range K).filter fun k => 2 ≤ k ∧ T.ent i k ≠ 0 ∧ T.type (T.ent i k) = .dir).image
        (T.ent i) := by
    ext D
    rw [Finset.mem_erase, children, Finset.mem_filter, Finset.mem_image, Finset.mem_range]
    constructor
    · rintro ⟨hr, hlt, hD, rfl⟩
      obtain ⟨k, h2, hk⟩ := hu.parent D hD (names_ne_zero h hl hD hr)
      have hne : T.ent (T.ent D 1) k ≠ 0 := by
        rw [hk]
        exact (h.dir_used hD).1.ne'
      refine ⟨k, Finset.mem_filter.2 ⟨Finset.mem_range.2 (h.slot _ _ hne).2.1, h2, hne, ?_⟩, hk⟩
      rw [hk, hD]
    · rintro ⟨k, hk, rfl⟩
      obtain ⟨-, h2, hne, hdir⟩ := Finset.mem_filter.1 hk
      exact ⟨(h.live i k h2 hne).2, (h.dir_used hdir).2, hdir,
        parent_of_entry h hu h2 hne hdir⟩
  have hinj : Set.InjOn (T.ent i)
      ((Finset.range K).filter fun k => 2 ≤ k ∧ T.ent i k ≠ 0 ∧ T.type (T.ent i k) = .dir) := by
    intro k hk k' hk' he
    obtain ⟨-, h2, hne, hdir⟩ := Finset.mem_filter.1 (Finset.mem_coe.1 hk)
    obtain ⟨-, h2', -, -⟩ := Finset.mem_filter.1 (Finset.mem_coe.1 hk')
    exact (h.sole h2 h2' hne hdir he.symm).2.symm
  have hsubs : ((T.children N i).erase rootino).card = T.subs K i := by
    rw [himage, Finset.card_image_of_injOn hinj]
    rfl
  by_cases hr : i = rootino
  · have hmem : rootino ∈ T.children N i := by
      refine Finset.mem_filter.2 ⟨Finset.mem_range.2 ?_, h.root, by rw [hu.root, hr]⟩
      exact (h.used _ (by rw [h.root]; exact nofun)).2
    rw [if_pos hr, ← hsubs, Finset.card_erase_add_one hmem]
  · have hmem : rootino ∉ T.children N i := by
      intro hc
      exact hr ((Finset.mem_filter.1 hc).2.2.symm.trans hu.root)
    rw [if_neg hr, ← hsubs, Finset.erase_eq_of_notMem hmem]
    rfl

variable (hx : T.Exact N K)

include hx

omit hu in
/-- The entries that count are the ordinary ones and `..`. -/
theorem links_eq {i : ℕ} (hi : T.type i ≠ .free) :
    T.links N K i = T.names N K i + (T.children N i).card := by
  classical
  have hreach : ∀ {D k}, T.ent D k = i → T.Reachable D := by
    intro D k he
    have hD := (h.slot D k (by rw [he]; exact (h.used i hi).1.ne')).2.2
    exact hx.linked D hD (hl D hD)
  have hsplit : ((Finset.range N ×ˢ Finset.range K).filter fun d : ℕ × ℕ =>
      T.Reachable d.1 ∧ d.2 ≠ 0 ∧ T.ent d.1 d.2 = i) =
      ((Finset.range N ×ˢ Finset.range K).filter fun d => 2 ≤ d.2 ∧ T.ent d.1 d.2 = i) ∪
        (T.children N i).image fun D => (D, 1) := by
    ext ⟨D, k⟩
    rw [Finset.mem_union, Finset.mem_filter, Finset.mem_filter, Finset.mem_image]
    constructor
    · rintro ⟨hmem, -, h0, he⟩
      by_cases h1 : k = 1
      · subst h1
        obtain ⟨hN, -, hD⟩ := h.slot D 1 (by rw [he]; exact (h.used i hi).1.ne')
        exact .inr ⟨D, Finset.mem_filter.2 ⟨Finset.mem_range.2 hN, hD, he⟩, rfl⟩
      · exact .inl ⟨hmem, by omega, he⟩
    · rintro (⟨hmem, h2, he⟩ | ⟨D', hD', he⟩)
      · exact ⟨hmem, hreach he, by omega, he⟩
      · obtain ⟨rfl, rfl⟩ := Prod.mk.inj he
        obtain ⟨hlt, hD, hi'⟩ := Finset.mem_filter.1 hD'
        obtain ⟨hN, hK, -⟩ := h.slot D' 1 (by rw [hi']; exact (h.used i hi).1.ne')
        exact ⟨Finset.mk_mem_product (Finset.mem_range.2 hN) (Finset.mem_range.2 hK), hreach hi',
          one_ne_zero, hi'⟩
  have hdisj : Disjoint
      ((Finset.range N ×ˢ Finset.range K).filter fun d => 2 ≤ d.2 ∧ T.ent d.1 d.2 = i)
      ((T.children N i).image fun D => (D, 1)) := by
    rw [Finset.disjoint_left]
    intro d hd hd'
    obtain ⟨D, -, rfl⟩ := Finset.mem_image.1 hd'
    exact absurd (Finset.mem_filter.1 hd).2.1 (Nat.lt_irrefl 1 : ¬ 2 ≤ 1)
  unfold links
  rw [hsplit, Finset.card_union_of_disjoint hdisj,
    Finset.card_image_of_injective _ fun D D' he => (Prod.mk.inj he).1]
  rfl

/-- **Link counts are right** in a tree without removed directories. -/
theorem nlink_eq_links {i : ℕ} (hi : T.type i ≠ .free) : (T.nlink i).toNat = T.links N K i := by
  rw [links_eq h hl hx hi]
  by_cases hd : T.type i = .dir
  · rw [h.dirs i hd, card_children h hu hl hd, Nat.add_assoc]
  · rw [hx.files i hi hd, children_file h hu hd, Finset.card_empty, Nat.add_zero]

end Count

/-! ## Counts that are `short` -/

/-- The link count of a file is the number of its names. -/
def Counted (N K : ℕ) (T : Tree) : Prop :=
  ∀ i, T.type i ≠ .free → T.type i ≠ .dir → (T.nlink i).toInt = T.names N K i

/-- The link count does not go past the largest `short`. -/
def Act.Short (T : Tree) : Act → Prop
  | link _ _ ip _ => T.nlink ip ≠ 0x7FFF
  | _ => True

theorem toInt_succ {n : BitVec 16} (h : n ≠ 0x7FFF) : (n + 1).toInt = n.toInt + 1 := by
  have hne : n.toNat ≠ 0x7FFF := fun hc => h (BitVec.eq_of_toNat_eq hc)
  have hn : (n + 1).toNat = (n.toNat + 1) % 2 ^ 16 := BitVec.toNat_add n 1
  rw [BitVec.toInt_eq_toNat_cond, BitVec.toInt_eq_toNat_cond, hn]
  have := n.isLt
  split_ifs <;> omega

theorem toInt_pred {n : BitVec 16} (h : 1 ≤ n.toInt) : (n - 1).toInt = n.toInt - 1 := by
  have hn : (n - 1).toNat = (2 ^ 16 - 1 + n.toNat) % 2 ^ 16 := BitVec.toNat_sub n 1
  rw [BitVec.toInt_eq_toNat_cond] at h ⊢
  rw [BitVec.toInt_eq_toNat_cond, hn]
  have := n.isLt
  split_ifs at h ⊢ <;> omega

namespace Counted

variable (hc : T.Counted N K) (h : T.Inv N K)

include hc h

theorem toInt_pos {D k : ℕ} (h2 : 2 ≤ k) (hne : T.ent D k ≠ 0) (hf : T.type (T.ent D k) ≠ .dir) :
    1 ≤ (T.nlink (T.ent D k)).toInt := by
  rw [hc _ (h.live D k h2 hne).1 hf]
  exact Int.ofNat_le.2 (h.names_pos h2 hne)

omit h in
/-- A count that is right does not go round to zero. -/
theorem noWrap {a : Act} (ok : a.Ok N K T) : a.NoWrap T := by
  cases a with
  | link dp k ip nm =>
    obtain ⟨-, -, -, -, htf, htd⟩ := ok
    intro hn
    have hcount := hc ip htf htd
    have hneg : (-1 : BitVec 16).toInt = -1 := by decide
    rw [hn, hneg] at hcount
    omega
  | _ => trivial

omit h in
/-- Freeing an inode takes no names away if it is not a directory with entries. -/
theorem free {i : ℕ} (hbare : ∀ k, 2 ≤ k → T.ent i k = 0) : (T.free i).Counted N K := by
  intro j hj hjd
  have hji : j ≠ i := by
    rintro rfl
    exact hj ((free_type _ _ _).trans (if_pos rfl))
  rw [free_type, if_neg hji] at hj hjd
  rw [free_nlink, if_neg hji, hc j hj hjd]
  refine congrArg _ (Lib.card_filter_same fun p _ => and_congr_right fun h2 => ?_).symm
  rw [free_ent]
  split_ifs with hp
  · rw [hp, hbare _ h2]
  · exact Iff.rfl

/-- **A change keeps the counts right** if it does not go past the largest `short`. -/
theorem apply {a : Act} (ok : a.Ok N K T) (hs : a.Short T) (ha : ∀ i, a ≠ .reclaim i) :
    (T.apply a).Counted N K := by
  have hlt : ∀ {D}, T.type D = .dir → D < N := fun hD => (h.dir_used hD).2
  cases a with
  | node dp k ip t nm =>
    obtain ⟨hdp, h2, hk, h0, hip, hpos, -, ht, htd⟩ := ok
    intro j hj hjd
    have htype : (T.apply (.node dp k ip t nm)).type j = if j = ip then t else T.type j :=
      setType_type _ _ _ _
    have hnlink : (T.apply (.node dp k ip t nm)).nlink j = if j = ip then 1 else T.nlink j :=
      setNlink_nlink _ _ _ _
    rw [htype] at hj hjd
    rw [hnlink]
    have hj0 : j ≠ 0 := by
      rintro rfl
      rw [if_neg hpos.ne] at hj
      exact absurd (h.used 0 hj).1 (Nat.lt_irrefl 0)
    have hnames : (T.apply (.node dp k ip t nm)).names N K j = T.names N K j + if j = ip then 1 else 0 :=
      names_setEnt (hlt hdp) hk h2 h0 nm hj0
    rw [hnames]
    split_ifs at hj hjd ⊢ with hji
    · rw [hji, h.names_fresh hpos.ne' hip]
      rfl
    · exact hc j hj hjd
  | dir dp k ip nm =>
    obtain ⟨hdp, h2, hk, h0, hip, hpos, -⟩ := ok
    intro j hj hjd
    rw [apply_dir_type] at hj hjd
    have hji : j ≠ ip := fun hc => hjd (if_pos hc)
    rw [if_neg hji] at hj hjd
    have hjdp : j ≠ dp := by
      rintro rfl
      exact hjd hdp
    have hne : dp ≠ ip := by
      rintro rfl
      exact absurd (hip.symm.trans hdp) nofun
    rw [apply_dir_nlink, if_neg hjdp, if_neg hji,
      apply_dir_names (hlt hdp) hk h2 hne h0 (h.used j hj).1.ne', if_neg hji]
    exact hc j hj hjd
  | link dp k ip nm =>
    obtain ⟨hdp, h2, hk, h0, -, -⟩ := ok
    intro j hj hjd
    change T.type j ≠ .free at hj
    have hnames : (T.apply (.link dp k ip nm)).names N K j = T.names N K j + if j = ip then 1 else 0 :=
      names_setEnt (hlt hdp) hk h2 h0 nm (h.used j hj).1.ne'
    have hnlink : (T.apply (.link dp k ip nm)).nlink j =
        if j = ip then T.nlink ip + 1 else T.nlink j := setNlink_nlink _ _ _ _
    rw [hnames, hnlink]
    split_ifs with hji
    · rw [hji] at hj hjd ⊢
      rw [toInt_succ hs, hc ip hj hjd]
      omega
    · exact hc j hj hjd
  | unlink dp k =>
    obtain ⟨h2, hne, -, hf⟩ := ok
    obtain ⟨hN, hK, -⟩ := h.slot dp k hne
    intro j hj hjd
    change T.type j ≠ .free at hj
    have hnames := apply_unlink_names (T := T) hN hK h2 (h.used j hj).1.ne'
    have hnlink : (T.apply (.unlink dp k)).nlink j =
        if j = T.ent dp k then T.nlink (T.ent dp k) - 1 else T.nlink j := setNlink_nlink _ _ _ _
    rw [hnlink]
    split_ifs at hnames ⊢ with hje
    · rw [toInt_pred (hc.toInt_pos h h2 hne hf), ← hje, hc j hj hjd]
      omega
    · rw [hc j hj hjd]
      omega
  | rmdir dp k =>
    obtain ⟨h2, hne, hd, -⟩ := ok
    obtain ⟨hN, hK, hdp⟩ := h.slot dp k hne
    intro j hj hjd
    change T.type j ≠ .free at hj
    change T.type j ≠ .dir at hjd
    have hje : j ≠ T.ent dp k := by
      rintro rfl
      exact hjd hd
    have hjdp : j ≠ dp := by
      rintro rfl
      exact hjd hdp
    have hnames := apply_rmdir_names (T := T) hN hK h2 (h.used j hj).1.ne'
    rw [if_neg hje] at hnames
    have hnlink : (T.apply (.rmdir dp k)).nlink j = T.nlink j :=
      (setNlink_nlink _ _ _ _).trans ((if_neg hje).trans ((setNlink_nlink _ _ _ _).trans (if_neg hjdp)))
    rw [hnlink, hc j hj hjd]
    omega
  | reclaim i => exact absurd rfl (ha i)

end Counted

/-- The directories reached from the root form a tree, and the link counts are right. -/
structure Nested (N K : ℕ) (T : Tree) : Prop where
  dot : ∀ D, T.Reachable D → T.ent D 0 = D ∧ T.name D 0 = padded dot
  dotdot : ∀ D, T.Reachable D → T.name D 1 = padded dotdot
  top : T.ent rootino 1 = rootino ∧ ∀ D k, 2 ≤ k → T.ent D k ≠ rootino
  /-- Another directory is named once, in its parent. -/
  parent : ∀ D, T.Reachable D → D ≠ rootino → ∃ P k, T.Reachable P ∧ T.ent D 1 = P ∧ 2 ≤ k ∧
    T.ent P k = D ∧ ∀ P' k', 2 ≤ k' → T.ent P' k' = D → P' = P ∧ k' = k
  nlink : ∀ i, T.type i ≠ .free → (T.nlink i).toInt = T.links N K i

/-- What a run of the calls that deal with names keeps. -/
structure Neat (N : ℕ) (T : Tree) : Prop where
  inv : T.Inv N maxents
  up : T.Up N maxents
  exact : T.Exact N maxents
  counted : T.Counted N maxents

theorem Reachable.dir (h : T.Inv N K) {D : ℕ} (hD : T.Reachable D) : T.type D = .dir := by
  cases hD with
  | root => exact h.root
  | entry _ _ _ ht => exact ht

/-- There are fewer entries in a directory than a link count can count. -/
theorem Inv.nlink_toInt (h : T.Inv N maxents) {D : ℕ} (hD : T.type D = .dir) :
    (T.nlink D).toInt = (T.nlink D).toNat := by
  have hd := h.dirs D hD
  have ho := h.once D hD
  have hs := subs_le (T := T) (K := maxents) D
  have hm : maxents + 2 < 2 ^ 15 := by decide
  rw [BitVec.toInt_eq_toNat_cond, if_pos]
  split_ifs at hd <;> omega

namespace Neat

variable (h : T.Neat N)

include h

/-- A change keeps the tree neat if it leaves removed directories alone. -/
theorem apply {a : Act} (ok : a.Ok N maxents T)
    (ha : a.ParentLinked T ∧ a.NoStray T ∧ a.Short T) : (T.apply a).Neat N := by
  obtain ⟨hp, hs, hsh⟩ := ha
  have hm := hp.mkdirLinked
  have hw := h.counted.noWrap ok
  refine ⟨h.inv.apply maxents_lt ok hw hm, h.up.apply h.inv maxents_lt ok hm hs,
    h.exact.apply h.inv maxents_lt ok hw hp, ?_⟩
  by_cases hr : ∃ i, a = .reclaim i
  · obtain ⟨i, rfl⟩ := hr
    refine h.counted.free fun k h2 => ?_
    by_contra hne
    exact hne (h.exact.removed i (h.inv.slot i k hne).2.2 ok.2 k h2)
  · exact h.counted.apply h.inv ok hsh fun i hc => hr ⟨i, hc⟩

variable (hl : ∀ D, T.type D = .dir → T.nlink D ≠ 0)

include hl

theorem toInt_eq_links {i : ℕ} (hi : T.type i ≠ .free) :
    (T.nlink i).toInt = T.links N maxents i := by
  rw [← nlink_eq_links h.inv h.up hl h.exact hi]
  by_cases hd : T.type i = .dir
  · exact h.inv.nlink_toInt hd
  · rw [h.counted i hi hd, h.exact.files i hi hd]

theorem nested : T.Nested N maxents where
  dot D hD := h.inv.dot D (hD.dir h.inv)
  dotdot D hD := (h.inv.dotdot D (hD.dir h.inv)).2
  top := ⟨h.up.root, fun D k h2 hk => (h.inv.live D k h2 (by rw [hk]; decide)).2 hk⟩
  parent D hD hr := by
    cases hD with
    | root => exact absurd rfl hr
    | @entry P k hP h2 hne hd =>
      exact ⟨P, k, hP, parent_of_entry h.inv h.up h2 hne hd, h2, rfl,
        fun P' k' h2' hk' => h.inv.sole h2 h2' hne hd hk'⟩
  nlink i := h.toInt_eq_links hl

omit h in
/-- Nothing is removed from under anything. -/
theorem tidy {a : Act} (ok : a.Ok N maxents T) : a.ParentLinked T ∧ a.NoStray T := by
  cases a with
  | node | dir | link => exact ⟨hl _ ok.1, trivial⟩
  | unlink | reclaim => exact ⟨trivial, trivial⟩
  | rmdir => exact ⟨trivial, fun C hC hn => absurd hn (hl C hC)⟩

end Neat

end Tree

/-! ## Runs of calls that deal with names -/

variable {N : ℕ} {T T' : Tree} {s s' : Sys} {p cwd : ℕ}

/-- Such a call opens no directory and leaves the processes where they are. -/
theorem Call.run_stays (hd : T.Dots) (hN : N ≤ 2 ^ 16) (h : SysOk N T s)
    (hcwd : (s.procs p).cwd = some cwd) {c : Call} (hc : c.onNames = true) :
    Outcome (c.run p cwd s) (fun _ s' => ∃ T', Changed N (Does T cwd c) T T' ∧ SysOk N T' s' ∧
      Stays T' s s') (Faults T) := by
  cases c with
  | mkdir path => exact onFs_stays h (makeNode_run hd hN h hcwd path (by decide) (by decide) 0 0)
  | mknod path major minor =>
    exact onFs_stays h (makeNode_run hd hN h hcwd path (by decide) (by decide) major minor)
  | link old new => exact onFs_stays h (sysLink_run hd h hcwd (.inl hN) old new)
  | unlink path => exact onFs_stays h (sysUnlink_run hd h hcwd path)
  | «open» path omode =>
    exact (sysOpen_run hd hN h hcwd path omode).imp fun _ _ ⟨T', hT', h', hst⟩ =>
      ⟨T', hT', h', hst hc⟩
  | _ => exact absurd hc nofun

theorem Does.ne_reclaim {c : Call} {a : Tree.Act} (h : Does T cwd c a) (i : ℕ) :
    a ≠ .reclaim i := by
  cases c with
  | mkdir | mknod =>
    obtain ⟨q, dp, name, k, ip, -, -, -, rfl⟩ := h
    exact newAct_ne_reclaim _ _ _ _ _ _
  | «open» =>
    obtain ⟨-, q, dp, name, k, ip, -, -, -, rfl⟩ := h
    exact newAct_ne_reclaim _ _ _ _ _ _
  | link =>
    obtain ⟨old', new', ip, nm, dp, name, k, -, -, -, -, -, rfl⟩ := h
    exact nofun
  | unlink =>
    obtain ⟨q, dp, name, k, -, -, -, rfl⟩ := h
    exact rmAct_ne_reclaim _ _ _
  | _ => exact h.elim

/-- No call makes a directory of an inode in use. -/
theorem Changed.dir {c : Call} (h : Changed N (Does T cwd c) T T') {i : ℕ} (hi : T.type i ≠ .free)
    (hd : T'.type i = .dir) : T.type i = .dir := by
  obtain ⟨T₁, hT₁, hr⟩ := h
  have hd₁ := hr.dir hd
  rcases hT₁ with rfl | ⟨a, ha, hok, rfl⟩
  · exact hd₁
  · rwa [hok.type ha.ne_reclaim hi] at hd₁

/-- Every process is in the root directory, and no directory is open. -/
structure Sys.Home (s : Sys) : Prop where
  cwd : ∀ p cwd, (s.procs p).cwd = some cwd → cwd = rootino
  files : ∀ f i, (s.ftable f).Holds i → s.fs.tree.type i ≠ .dir

/-- Then no directory has been removed that is still in use. -/
theorem Sys.Home.linked (hh : s.Home) (hs : SysOk N s.fs.tree s) (hI : s.fs.tree.Inv N maxents)
    (D : ℕ) (hD : s.fs.tree.type D = .dir) : s.fs.tree.nlink D ≠ 0 := by
  intro hn
  have hpos : 0 < s.refs D := hs.fs.orphan_pos (by rw [hD]; exact nofun) hn
  have hfiles : ((Finset.range nfile).filter fun f => (s.ftable f).Holds D).card = 0 := by
    rw [Finset.card_eq_zero, Finset.filter_eq_empty_iff]
    exact fun f _ hf => hh.files f D hf hD
  have hprocs : ((Finset.range nproc).filter fun p => (s.procs p).cwd = some D).card = 0 := by
    rw [Finset.card_eq_zero, Finset.filter_eq_empty_iff]
    exact fun p _ hp => hI.unlinked_ne_root hn (hh.cwd p D hp)
  unfold Sys.refs at hpos
  omega

/-- No inode in use has as many links as a `short` can count. -/
def Sys.Sparse (s : Sys) : Prop :=
  ∀ i, s.fs.tree.type i ≠ .free → s.fs.tree.links s.fs.sb.ninodes maxents i < 0x7FFF

/-- What the calls that deal with names keep. -/
structure Sys.Neat (N : ℕ) (s : Sys) : Prop where
  ok : SysOk N s.fs.tree s
  tree : s.fs.tree.Neat N
  home : s.Home

namespace Sys.Neat

theorem linked (h : s.Neat N) (D : ℕ) (hD : s.fs.tree.type D = .dir) : s.fs.tree.nlink D ≠ 0 :=
  h.home.linked h.ok h.tree.inv D hD

theorem step (h : s.Neat N) (hN : N ≤ 2 ^ 16) (hsp : s.Sparse) {x : ℕ × Call}
    (hx : x.2.onNames = true) (hstep : s.step x = some s') : s'.Neat N := by
  obtain ⟨cwd, n, hcwd, hrun⟩ := Sys.step_some hstep
  obtain ⟨T', hT', hs', hst⟩ := Outcome.of_ok (Call.run_stays h.tree.inv.dots hN h.ok hcwd hx) hrun
  have htree := hs'.fs.tree
  rw [← htree] at hT' hs' hst
  refine ⟨hs', ?_, fun p c hc => h.home.cwd p c (by rwa [← hst.cwd p]), fun f i hi hd => ?_⟩
  · refine hT'.keeps (P := Tree.Neat N) (G := fun T a => a.ParentLinked T ∧ a.NoStray T ∧ a.Short T)
      (fun T a hT hok ha => hT.apply hok ha) (fun _ _ => ⟨trivial, trivial, trivial⟩) h.tree
      fun a _ hok => ?_
    obtain ⟨hp, hns⟩ := Tree.Neat.tidy h.linked hok
    refine ⟨hp, hns, ?_⟩
    cases a with
    | link dp k ip nm =>
      intro hn
      have hlinks := hsp ip hok.2.2.2.2.1
      rw [h.ok.fs.num] at hlinks
      have hcount := h.tree.toInt_eq_links h.linked hok.2.2.2.2.1
      have hmax : (0x7FFF : BitVec 16).toInt = 0x7FFF := by decide
      rw [hn, hmax] at hcount
      omega
    | _ => trivial
  · rcases hst.files f i hi with hold | hnd
    · have hpos : 0 < (s.ftable f).ref := hold.1
      have hlive := h.ok.live i (Sys.refs_pos_of_holds (h.ok.inside f hpos) hold)
      exact h.home.files f i hold (hT'.dir hlive hd)
    · exact hnd hd

end Sys.Neat

theorem Boot.neat {s : Sys} (h : Boot s) : s.Neat s.fs.sb.ninodes := by
  refine ⟨h.ok, ⟨h.inv, h.up, h.exact, fun i hi hd => ?_⟩, fun p c hc => ?_, fun f i hi => ?_⟩
  · have hr : i ≠ rootino := by
      rintro rfl
      exact hd h.root.1
    rw [h.names_file hi hr, (h.files i hi hr).2.1]
    rfl
  · rw [h.cwd] at hc
    split_ifs at hc
    exact (Option.some.inj hc).symm
  · exact absurd hi (File.not_holds (h.ftable f).2 i)

theorem Boot.sparse {s : Sys} (h : Boot s) : s.Sparse := by
  intro i hi
  have hcount := h.neat.tree.toInt_eq_links h.neat.linked hi
  have hone : s.fs.tree.nlink i = 1 := by
    by_cases hr : i = rootino
    · rw [hr, h.root.2]
    · exact (h.files i hi hr).2.1
  have h1 : (1 : BitVec 16).toInt = 1 := by decide
  rw [hone, h1] at hcount
  omega

/-! ## What the calls rely on -/

/-- Locking an inode that is in use and referred to. -/
theorem ilock_ok {r : ℕ → ℕ} {L : List ℕ} {fs : State} {i : ℕ} (h : At N T r L fs)
    (hi : T.type i ≠ .free) (hr : 0 < r i) :
    Outcome (ilock i fs) (fun _ fs' => At N T r (i :: L) fs') (fun _ => False) := by
  have hlock := ilock_at h i
  rw [← h.tree] at hi
  obtain ⟨hlt, htype⟩ := State.type_of_tree hi
  rcases ilock_run h.wf i with ⟨hrun, -⟩ | ⟨-, h0⟩ | ⟨-, hge⟩ | ⟨-, hfree⟩
  · rw [hrun] at hlock ⊢
    exact hlock
  · rw [h.ref i] at h0
    omega
  · omega
  · exact absurd (htype.symm.trans hfree) hi

/-- **`isdirempty`** is true exactly of a directory without ordinary entries. -/
theorem isdirempty_of_ok (h : SysOk N T s) {D : ℕ} (hD : T.type D = .dir) :
    Outcome ((do
        iget D
        ilock D
        isdirempty D : FsM Bool) s.fs)
      (fun b _ => b = true ↔ ∀ k, 2 ≤ k → T.ent D k = 0) (fun e => e = .panic "iget: no inodes") := by
  rcases iget_run s.fs D with ⟨hrun, -⟩ | ⟨hrun, -⟩
  · refine .bind_ok hrun ?_
    refine ((ilock_ok (h.start.refer D) (by rw [hD]; exact nofun) ?_).stops
      fun _ he => he.elim).bind fun _ fs₁ h₁ => ?_
    · rw [more_self]
      exact Nat.succ_pos _
    · exact (isdirempty_at h₁ List.mem_cons_self hD).mono (fun _ _ hs => hs.2) fun _ he => he.elim
  · exact .bind_error hrun rfl

/-- **`iput`** frees an inode exactly when it drops the last reference and no link is left. -/
theorem iput_of_ok (h : SysOk N T s) {i : ℕ} (hi : 0 < (s.fs.itable i).ref) :
    ∃ fs', iput i s.fs = .ok ((), fs') ∧
      (fs'.tree.type i = .free ↔ (s.fs.itable i).ref = 1 ∧ T.nlink i = 0) := by
  have href : (s.fs.itable i).ref = s.refs i := h.start.ref i
  have hlive : T.type i ≠ .free := h.live i (by omega)
  obtain ⟨r, hr⟩ : ∃ r, more r i = s.refs := by
    refine ⟨fun j => s.refs j - if j = i then 1 else 0, funext fun j => ?_⟩
    unfold more
    dsimp only
    split_ifs with hj
    · rw [hj]
      omega
    · rfl
  have hri : r i + 1 = s.refs i := by rw [← hr, more_self]
  obtain ⟨fs', hrun, hat⟩ := iput_at (r := r) (hr ▸ h.start) fun hL => absurd hL List.not_mem_nil
  refine ⟨fs', hrun, ?_⟩
  rw [hat.tree]
  unfold Tree.settle
  split_ifs with hc
  · rw [Tree.free_type, if_pos rfl]
    exact iff_of_true rfl ⟨by omega, hc.2.2⟩
  · exact iff_of_false hlive fun hc' => hc ⟨by omega, hlive, hc'.2⟩

/-- **Link counts and the directory tree.** In every state of a run of the calls that deal with
names, with fewer links to an inode than a `short` can count, the directories form a tree and link
counts are right. So `isdirempty` tells the empty directories, and `iput` frees an inode exactly
when the last link and the last reference are gone. -/
theorem names_form_tree {s₀ s : Sys} (h₀ : Boot s₀)
    (hr : Reach Sys.step (fun s x => x.2.onNames = true ∧ s.Sparse) s₀ s) :
    s.fs.tree.Nested s.fs.sb.ninodes maxents ∧
    (∀ D, s.fs.tree.type D = .dir → s.fs.tree.Reachable D) ∧
    (∀ D, s.fs.tree.type D = .dir → Outcome ((do
        iget D
        ilock D
        isdirempty D : FsM Bool) s.fs)
      (fun b _ => b = true ↔ ∀ k, 2 ≤ k → s.fs.tree.ent D k = 0)
      (fun e => e = .panic "iget: no inodes")) ∧
    (∀ i, 0 < (s.fs.itable i).ref → ∃ fs', iput i s.fs = .ok ((), fs') ∧
      (fs'.tree.type i = .free ↔
        (s.fs.itable i).ref = 1 ∧ s.fs.tree.links s.fs.sb.ninodes maxents i = 0)) ∧
    ∀ i, 0 < i → (s.fs.tree.type i ≠ .free ↔
      0 < s.fs.tree.links s.fs.sb.ninodes maxents i ∨ 0 < (s.fs.itable i).ref) := by
  have hs : s.Neat s₀.fs.sb.ninodes := hr.inv (I := Sys.Neat s₀.fs.sb.ninodes) h₀.neat
    fun s x s' hs hx hstep => hs.step h₀.small hx.2 hx.1 hstep
  rw [hs.ok.fs.num]
  have hnlink : ∀ {i}, s.fs.tree.type i ≠ .free →
      (s.fs.tree.nlink i = 0 ↔ s.fs.tree.links s₀.fs.sb.ninodes maxents i = 0) := by
    intro i hi
    have hcount := Tree.nlink_eq_links hs.tree.inv hs.tree.up hs.linked hs.tree.exact hi
    rw [← hcount]
    exact ⟨fun hn => by rw [hn]; rfl, fun hn => BitVec.eq_of_toNat_eq hn⟩
  have href : ∀ i, (s.fs.itable i).ref = s.refs i := hs.ok.start.ref
  refine ⟨hs.tree.nested hs.linked, fun D hD => hs.tree.exact.linked D hD (hs.linked D hD),
    fun D hD => isdirempty_of_ok hs.ok hD, fun i hi => ?_, fun i hi => ⟨fun ht => ?_, ?_⟩⟩
  · obtain ⟨fs', hrun, hfree⟩ := iput_of_ok hs.ok hi
    have hlive := hs.ok.live i (by rwa [← href])
    exact ⟨fs', hrun, hfree.trans (and_congr_right fun _ => hnlink hlive)⟩
  · by_cases hn : s.fs.tree.nlink i = 0
    · refine .inr ?_
      rw [href]
      exact hs.ok.fs.orphan_pos ht hn
    · exact .inl (Nat.pos_of_ne_zero fun h0 => hn ((hnlink ht).2 h0))
  · rintro (hl | hp)
    · obtain ⟨D, k, hreach, he⟩ := Tree.links_pos hl
      have hno := hs.tree.inv.noDangle hs.tree.up D k (hreach.dir hs.tree.inv)
        (by rw [he]; exact hi.ne')
      rwa [he] at hno
    · exact hs.ok.live i (by rwa [← href])

theorem names_form_tree_mkdir : ∃ s, bootSys.step (0, .mkdir [97]) = some s ∧
    s.fs.tree.type 2 = .dir ∧ s.fs.tree.Nested s.fs.sb.ninodes maxents := by
  obtain ⟨s, hs, -, ht⟩ := bootSys_mkdir_step
  exact ⟨s, hs, ht,
    (names_form_tree bootSys_boot (.tail .refl ⟨rfl, bootSys_boot.sparse⟩ hs)).1⟩

end Xv6.Fs
