import Xv6.Fs.Dir
import Xv6.Lib.Count

/-!
# The tree of names

The file system as a user sees it, without blocks, sizes or the inode table: every inode has
a type, a link count and, if it is a directory, numbered entries. `Tree.Act` lists the ways in
which the calls change this picture; each stands for a whole call or, for `reclaim`, for the
moment an unlinked inode loses its last reference.

* `Tree.apply`: the picture after a change; `Act.Ok`: when the code makes it.
* `Tree.Inv`: link counts agree with the entries, and no ordinary entry names a free inode.
* `Inv.apply`: every change keeps this, as long as a link count does not go round to zero and
  no directory is made in a removed one.
* `Dots.apply`: every change keeps the entries `.` and `..`, whatever the link counts are.
-/

namespace Xv6.Fs

open Function

/-- What the calls that deal with names can see of the file system. -/
structure Tree where
  type : ℕ → FType
  nlink : ℕ → BitVec 16
  /-- `ent D k` is the inode number in the `k`-th entry of directory `D`, 0 if it is empty. -/
  ent : ℕ → ℕ → ℕ
  /-- The characters of the name in that entry. -/
  name : ℕ → ℕ → ℕ → UInt8

namespace Tree

/-- Give inode `i` a type. -/
def setType (T : Tree) (i : ℕ) (t : FType) : Tree := { T with type := update T.type i t }

/-- Set a link count. -/
def setNlink (T : Tree) (i : ℕ) (n : BitVec 16) : Tree :=
  { T with nlink := update T.nlink i n }

/-- Write an entry of a directory. -/
def setEnt (T : Tree) (D k e : ℕ) (nm : ℕ → UInt8) : Tree :=
  { T with
    ent := update T.ent D (update (T.ent D) k e)
    name := update T.name D (update (T.name D) k nm) }

/-- Free inode `i`. -/
def free (T : Tree) (i : ℕ) : Tree :=
  { type := update T.type i .free
    nlink := update T.nlink i 0
    ent := update T.ent i fun _ => 0
    name := update T.name i fun _ _ => 0 }

section Access

variable (T : Tree) (i j D k e : ℕ) (t : FType) (n : BitVec 16) (nm : ℕ → UInt8)

@[simp] theorem setType_nlink : (T.setType i t).nlink = T.nlink := rfl
@[simp] theorem setType_ent : (T.setType i t).ent = T.ent := rfl
@[simp] theorem setType_name : (T.setType i t).name = T.name := rfl
@[simp] theorem setNlink_type : (T.setNlink i n).type = T.type := rfl
@[simp] theorem setNlink_ent : (T.setNlink i n).ent = T.ent := rfl
@[simp] theorem setNlink_name : (T.setNlink i n).name = T.name := rfl
@[simp] theorem setEnt_type : (T.setEnt D k e nm).type = T.type := rfl
@[simp] theorem setEnt_nlink : (T.setEnt D k e nm).nlink = T.nlink := rfl

theorem setType_type : (T.setType i t).type j = if j = i then t else T.type j :=
  update_apply _ _ _ _

theorem setType_self : T.setType i (T.type i) = T := by
  unfold setType
  rw [update_eq_self]

theorem setNlink_nlink : (T.setNlink i n).nlink j = if j = i then n else T.nlink j :=
  update_apply _ _ _ _

theorem setEnt_ent (D' k' : ℕ) :
    (T.setEnt D k e nm).ent D' k' = if D' = D ∧ k' = k then e else T.ent D' k' := by
  unfold setEnt
  by_cases hD : D' = D
  · subst hD
    simp [update_apply]
  · simp [hD]

theorem setEnt_name (D' k' : ℕ) :
    (T.setEnt D k e nm).name D' k' = if D' = D ∧ k' = k then nm else T.name D' k' := by
  unfold setEnt
  by_cases hD : D' = D
  · subst hD
    simp [update_apply]
  · simp [hD]

theorem free_type : (T.free i).type j = if j = i then .free else T.type j :=
  update_apply _ _ _ _

theorem free_nlink : (T.free i).nlink j = if j = i then 0 else T.nlink j :=
  update_apply _ _ _ _

theorem free_ent : (T.free i).ent j k = if j = i then 0 else T.ent j k := by
  unfold free
  by_cases hj : j = i
  · subst hj; simp
  · simp [hj]

theorem free_name : (T.free i).name j k = if j = i then (fun _ => 0) else T.name j k := by
  unfold free
  by_cases hj : j = i
  · subst hj; simp
  · simp [hj]

end Access

/-! ## Counting entries -/

section Count

variable (N K : ℕ) (T : Tree)

/-- How many entries name inode `i`; the entries `.` and `..` do not count. -/
def names (i : ℕ) : ℕ :=
  ((Finset.range N ×ˢ Finset.range K).filter fun p => 2 ≤ p.2 ∧ T.ent p.1 p.2 = i).card

/-- How many entries of directory `D` name directories. -/
def subs (D : ℕ) : ℕ :=
  ((Finset.range K).filter fun k => 2 ≤ k ∧ T.ent D k ≠ 0 ∧ T.type (T.ent D k) = .dir).card

variable {N K T}

variable {i : ℕ}

theorem names_eq_zero :
    T.names N K i = 0 ↔ ∀ D < N, ∀ k < K, 2 ≤ k → T.ent D k ≠ i := by
  unfold names
  rw [Finset.card_eq_zero, Finset.filter_eq_empty_iff]
  constructor
  · intro h D hD k hk h2 he
    exact h (Finset.mk_mem_product (Finset.mem_range.2 hD) (Finset.mem_range.2 hk)) ⟨h2, he⟩
  · rintro h ⟨D, k⟩ hp ⟨h2, he⟩
    obtain ⟨hD, hk⟩ := Finset.mem_product.1 hp
    exact h D (Finset.mem_range.1 hD) k (Finset.mem_range.1 hk) h2 he

variable {D : ℕ}

theorem subs_eq_zero :
    T.subs K D = 0 ↔ ∀ k < K, 2 ≤ k → T.ent D k ≠ 0 → T.type (T.ent D k) ≠ .dir := by
  unfold subs
  rw [Finset.card_eq_zero, Finset.filter_eq_empty_iff]
  constructor
  · intro h k hk h2 hne ht
    exact h (Finset.mem_range.2 hk) ⟨h2, hne, ht⟩
  · rintro h k hk ⟨h2, hne, ht⟩
    exact h k (Finset.mem_range.1 hk) h2 hne ht

theorem subs_le (D : ℕ) : T.subs K D ≤ K := by
  unfold subs
  exact (Finset.card_filter_le _ _).trans (Finset.card_range K).le

variable {e k : ℕ}

/-- Filling an empty entry. -/
theorem names_setEnt (hD : D < N) (hk : k < K) (h2 : 2 ≤ k) (h0 : T.ent D k = 0)
    (nm : ℕ → UInt8) (hi : i ≠ 0) :
    (T.setEnt D k e nm).names N K i = T.names N K i + if i = e then 1 else 0 := by
  have hmem : (D, k) ∈ Finset.range N ×ˢ Finset.range K :=
    Finset.mk_mem_product (Finset.mem_range.2 hD) (Finset.mem_range.2 hk)
  have hother : ∀ p : ℕ × ℕ, p ≠ (D, k) → (T.setEnt D k e nm).ent p.1 p.2 = T.ent p.1 p.2 := by
    rintro ⟨D', k'⟩ hne
    rw [setEnt_ent, if_neg]
    rintro ⟨rfl, rfl⟩
    exact hne rfl
  have hself : (T.setEnt D k e nm).ent D k = e := by rw [setEnt_ent, if_pos ⟨rfl, rfl⟩]
  unfold names
  split_ifs with he
  · refine Lib.card_filter_gain hmem (fun h => hi ?_) ⟨h2, hself.trans he.symm⟩ ?_
    · rw [← h.2]
      exact h0
    · intro p _ hne
      rw [hother p hne]
  · refine Lib.card_filter_same fun p _ => ?_
    by_cases hp : p = (D, k)
    · subst hp
      dsimp only
      rw [hself, h0]
      exact ⟨fun h => absurd h.2.symm he, fun h => absurd h.2.symm hi⟩
    · rw [hother p hp]

/-- Clearing an entry. -/
theorem names_clear (hD : D < N) (hk : k < K) (h2 : 2 ≤ k) (nm : ℕ → UInt8)
    (hi : i ≠ 0) :
    (T.setEnt D k 0 nm).names N K i + (if i = T.ent D k then 1 else 0) = T.names N K i := by
  -- clearing is the reverse of filling
  have h0 : (T.setEnt D k 0 nm).ent D k = 0 := by rw [setEnt_ent, if_pos ⟨rfl, rfl⟩]
  have hback : ∀ j, ((T.setEnt D k 0 nm).setEnt D k (T.ent D k) nm).names N K j =
      T.names N K j := by
    intro j
    refine Lib.card_filter_same fun p _ => ?_
    rw [setEnt_ent, setEnt_ent]
    split_ifs with hp
    · rw [hp.1, hp.2]
    · exact Iff.rfl
  rw [← hback i, names_setEnt hD hk h2 h0 nm hi]

theorem subs_setEnt (hk : k < K) (h2 : 2 ≤ k) (h0 : T.ent D k = 0) (nm : ℕ → UInt8)
    (D' : ℕ) : (T.setEnt D k e nm).subs K D' =
      T.subs K D' + if D' = D ∧ e ≠ 0 ∧ T.type e = .dir then 1 else 0 := by
  have hself : (T.setEnt D k e nm).ent D k = e := by rw [setEnt_ent, if_pos ⟨rfl, rfl⟩]
  have hother : ∀ k', ¬ (D' = D ∧ k' = k) → (T.setEnt D k e nm).ent D' k' = T.ent D' k' := by
    intro k' hne
    rw [setEnt_ent, if_neg hne]
  unfold subs
  rw [setEnt_type]
  split_ifs with hc
  · obtain ⟨rfl, he, ht⟩ := hc
    refine Lib.card_filter_gain (Finset.mem_range.2 hk) (fun h => h.2.1 h0) ?_ ?_
    · rw [hself]
      exact ⟨h2, he, ht⟩
    · intro k' _ hne
      rw [hother k' fun h => hne h.2]
  · refine Lib.card_filter_same fun k' _ => ?_
    by_cases hk' : D' = D ∧ k' = k
    · obtain ⟨rfl, rfl⟩ := hk'
      rw [hself, h0]
      exact ⟨fun h => absurd ⟨rfl, h.2⟩ hc, fun h => absurd rfl h.2.1⟩
    · rw [hother k' hk']

theorem subs_clear (hk : k < K) (h2 : 2 ≤ k) (nm : ℕ → UInt8) (D' : ℕ) :
    (T.setEnt D k 0 nm).subs K D' +
      (if D' = D ∧ T.ent D k ≠ 0 ∧ T.type (T.ent D k) = .dir then 1 else 0) = T.subs K D' := by
  have h0 : (T.setEnt D k 0 nm).ent D k = 0 := by rw [setEnt_ent, if_pos ⟨rfl, rfl⟩]
  have hent : ∀ k', ((T.setEnt D k 0 nm).setEnt D k (T.ent D k) nm).ent D' k' = T.ent D' k' := by
    intro k'
    rw [setEnt_ent, setEnt_ent]
    split_ifs with hp
    · rw [hp.1, hp.2]
    · rfl
  have hback : ((T.setEnt D k 0 nm).setEnt D k (T.ent D k) nm).subs K D' = T.subs K D' := by
    refine Lib.card_filter_same fun k' _ => ?_
    rw [hent]
    rfl
  rw [← hback, subs_setEnt hk h2 h0]
  rfl

/-- The entries `.` and `..` do not count. -/
theorem names_setEnt_low (hk : k < 2) (nm : ℕ → UInt8) (i : ℕ) :
    (T.setEnt D k e nm).names N K i = T.names N K i := by
  refine Lib.card_filter_same fun p _ => ?_
  rw [setEnt_ent]
  split_ifs with hp
  · omega
  · exact Iff.rfl

theorem subs_setEnt_low (hk : k < 2) (nm : ℕ → UInt8) (D' : ℕ) :
    (T.setEnt D k e nm).subs K D' = T.subs K D' := by
  refine Lib.card_filter_same fun k' _ => ?_
  rw [setEnt_ent]
  split_ifs with hp
  · omega
  · exact Iff.rfl

/-- Freeing an inode removes names. -/
theorem names_free_le (i : ℕ) {j : ℕ} (hj : j ≠ 0) :
    (T.free i).names N K j ≤ T.names N K j := by
  refine Finset.card_le_card fun p hp => ?_
  obtain ⟨hp, h2, he⟩ := Finset.mem_filter.1 hp
  refine Finset.mem_filter.2 ⟨hp, h2, ?_⟩
  rw [free_ent] at he
  split_ifs at he
  · exact absurd he.symm hj
  · exact he

/-- The type of an inode that no entry names does not matter. -/
theorem subs_congr {T' : Tree} (he : ∀ k, 2 ≤ k → T'.ent D k = T.ent D k)
    (ht : ∀ k, 2 ≤ k → T.ent D k ≠ 0 → T'.type (T.ent D k) = T.type (T.ent D k)) :
    T'.subs K D = T.subs K D := by
  refine Lib.card_filter_same fun k _ => ?_
  refine and_congr_right fun h2 => ?_
  rw [he k h2]
  exact and_congr_right fun hne => by rw [ht k h2 hne]

end Count

/-! ## What the calls do -/

/-- The changes of the tree. -/
inductive Act
  /-- `create` of a file or a device: inode `ip` gets the `k`-th entry of `dp`. -/
  | node (dp k ip : ℕ) (t : FType) (nm : ℕ → UInt8)
  /-- `create` of a directory. -/
  | dir (dp k ip : ℕ) (nm : ℕ → UInt8)
  /-- `link`: another entry for `ip`. -/
  | link (dp k ip : ℕ) (nm : ℕ → UInt8)
  /-- `unlink` of the `k`-th entry of `dp`, which names a file or a device. -/
  | unlink (dp k : ℕ)
  /-- `unlink` of the `k`-th entry of `dp`, which names a directory. -/
  | rmdir (dp k : ℕ)
  /-- The last reference to an unlinked inode is dropped. -/
  | reclaim (i : ℕ)

/-- The tree after a change. -/
def apply (T : Tree) : Act → Tree
  | .node dp k ip t nm => ((T.setType ip t).setNlink ip 1).setEnt dp k ip nm
  | .dir dp k ip nm =>
    (((((T.setType ip .dir).setNlink ip 1).setEnt ip 0 ip (padded dot)).setEnt ip 1 dp
      (padded dotdot)).setEnt dp k ip nm).setNlink dp (T.nlink dp + 1)
  | .link dp k ip nm => (T.setNlink ip (T.nlink ip + 1)).setEnt dp k ip nm
  | .unlink dp k => (T.setEnt dp k 0 fun _ => 0).setNlink (T.ent dp k) (T.nlink (T.ent dp k) - 1)
  | .rmdir dp k =>
    ((T.setEnt dp k 0 fun _ => 0).setNlink dp (T.nlink dp - 1)).setNlink (T.ent dp k)
      (T.nlink (T.ent dp k) - 1)
  | .reclaim i => T.free i

/-- Inode `ip`, now of type `t` with `n` links, gets the `k`-th entry of `dp`. -/
def addEntry (T : Tree) (dp k ip : ℕ) (t : FType) (n : BitVec 16) (nm : ℕ → UInt8) : Tree :=
  ((T.setType ip t).setNlink ip n).setEnt dp k ip nm

section Apply

variable (T : Tree) (dp k ip : ℕ) (t : FType) (n : BitVec 16) (nm : ℕ → UInt8)

theorem addEntry_type (j : ℕ) :
    (T.addEntry dp k ip t n nm).type j = if j = ip then t else T.type j := setType_type _ _ _ _

theorem addEntry_nlink (j : ℕ) :
    (T.addEntry dp k ip t n nm).nlink j = if j = ip then n else T.nlink j := setNlink_nlink _ _ _ _

theorem addEntry_ent (D k' : ℕ) : (T.addEntry dp k ip t n nm).ent D k' =
    if D = dp ∧ k' = k then ip else T.ent D k' := setEnt_ent _ _ _ _ _ _ _

theorem apply_link :
    T.apply (.link dp k ip nm) = T.addEntry dp k ip (T.type ip) (T.nlink ip + 1) nm := by
  unfold addEntry
  rw [setType_self]
  rfl

theorem apply_unlink_ent (D k' : ℕ) : (T.apply (.unlink dp k)).ent D k' =
    if D = dp ∧ k' = k then 0 else T.ent D k' := setEnt_ent _ _ _ _ (fun _ => 0) _ _

theorem apply_rmdir_ent (D k' : ℕ) : (T.apply (.rmdir dp k)).ent D k' =
    if D = dp ∧ k' = k then 0 else T.ent D k' := setEnt_ent _ _ _ _ (fun _ => 0) _ _

theorem apply_unlink_nlink (j : ℕ) : (T.apply (.unlink dp k)).nlink j =
    if j = T.ent dp k then T.nlink (T.ent dp k) - 1 else T.nlink j := setNlink_nlink _ _ _ _

theorem apply_dir_type (j : ℕ) :
    (T.apply (.dir dp k ip nm)).type j = if j = ip then .dir else T.type j :=
  setType_type _ _ _ _

theorem apply_dir_nlink (j : ℕ) : (T.apply (.dir dp k ip nm)).nlink j =
    if j = dp then T.nlink dp + 1 else if j = ip then 1 else T.nlink j := by
  refine (setNlink_nlink _ _ _ _).trans ?_
  split_ifs with h1 h2
  · rfl
  · exact (setNlink_nlink _ _ _ _).trans (if_pos h2)
  · exact (setNlink_nlink _ _ _ _).trans (if_neg h2)

theorem apply_dir_ent (D k' : ℕ) : (T.apply (.dir dp k ip nm)).ent D k' =
    if D = dp ∧ k' = k then ip else if D = ip ∧ k' = 1 then dp
      else if D = ip ∧ k' = 0 then ip else T.ent D k' := by
  refine (setEnt_ent _ dp k ip nm D k').trans ?_
  rw [setEnt_ent, setEnt_ent]
  rfl

theorem apply_dir_ordinary {D k' : ℕ} (h2 : 2 ≤ k') : (T.apply (.dir dp k ip nm)).ent D k' =
    if D = dp ∧ k' = k then ip else T.ent D k' := by
  rw [apply_dir_ent, if_neg (by omega : ¬ (D = ip ∧ k' = 1)),
    if_neg (by omega : ¬ (D = ip ∧ k' = 0))]

theorem apply_dir_name (D k' : ℕ) : (T.apply (.dir dp k ip nm)).name D k' =
    if D = dp ∧ k' = k then nm else if D = ip ∧ k' = 1 then padded dotdot
      else if D = ip ∧ k' = 0 then padded dot else T.name D k' := by
  refine (setEnt_name _ dp k ip nm D k').trans ?_
  rw [setEnt_name, setEnt_name]
  rfl

variable {T dp k ip t n nm}

variable {j : ℕ}

/-- A directory is an old one. -/
theorem dir_of_addEntry (htd : t ≠ .dir) (hj : (T.addEntry dp k ip t n nm).type j = .dir) :
    j ≠ ip ∧ T.type j = .dir := by
  rw [addEntry_type] at hj
  split_ifs at hj with hji
  · exact absurd hj htd
  · exact ⟨hji, hj⟩

variable {K N : ℕ}

theorem addEntry_names (hdp : dp < N) (hk : k < K) (h2 : 2 ≤ k) (h0 : T.ent dp k = 0) (hj : j ≠ 0) :
    (T.addEntry dp k ip t n nm).names N K j = T.names N K j + if j = ip then 1 else 0 :=
  names_setEnt (T := (T.setType ip t).setNlink ip n) hdp hk h2 h0 nm hj

theorem apply_dir_names (hdp : dp < N) (hk : k < K) (h2 : 2 ≤ k) (hne : dp ≠ ip)
    (h0 : T.ent dp k = 0) (hj : j ≠ 0) :
    (T.apply (.dir dp k ip nm)).names N K j = T.names N K j + if j = ip then 1 else 0 := by
  refine (names_setEnt hdp hk h2 ?_ nm hj).trans ?_
  · rw [setEnt_ent, if_neg fun hc => hne hc.1, setEnt_ent, if_neg fun hc => hne hc.1]
    exact h0
  · rw [names_setEnt_low (by omega), names_setEnt_low (by omega)]
    rfl

theorem apply_rmdir_nlink (hl : T.nlink (T.ent dp k) = 1) (j : ℕ) :
    (T.apply (.rmdir dp k)).nlink j =
      if j = T.ent dp k then 0 else if j = dp then T.nlink dp - 1 else T.nlink j := by
  refine (setNlink_nlink _ _ _ _).trans ?_
  split_ifs with h1 h2
  · rw [hl]; decide
  · exact (setNlink_nlink _ _ _ _).trans (if_pos h2)
  · exact (setNlink_nlink _ _ _ _).trans (if_neg h2)

theorem apply_rmdir_names (hdp : dp < N) (hk : k < K) (h2 : 2 ≤ k) (hj : j ≠ 0) :
    (T.apply (.rmdir dp k)).names N K j + (if j = T.ent dp k then 1 else 0) = T.names N K j :=
  names_clear hdp hk h2 (fun _ => 0) hj

theorem apply_unlink_names (hdp : dp < N) (hk : k < K) (h2 : 2 ≤ k) (hj : j ≠ 0) :
    (T.apply (.unlink dp k)).names N K j + (if j = T.ent dp k then 1 else 0) = T.names N K j :=
  names_clear hdp hk h2 (fun _ => 0) hj

end Apply

/-- When the code makes a change: entries go into empty slots of directories, new inodes are
free ones, only empty directories are removed, and only unlinked inodes are reclaimed. -/
def Act.Ok (N K : ℕ) (T : Tree) : Act → Prop
  | node dp k ip t _ =>
    T.type dp = .dir ∧ 2 ≤ k ∧ k < K ∧ T.ent dp k = 0 ∧ T.type ip = .free ∧ 0 < ip ∧ ip < N ∧
      t ≠ .free ∧ t ≠ .dir
  | dir dp k ip _ =>
    T.type dp = .dir ∧ 2 ≤ k ∧ k < K ∧ T.ent dp k = 0 ∧ T.type ip = .free ∧ 0 < ip ∧ ip < N
  | link dp k ip _ =>
    T.type dp = .dir ∧ 2 ≤ k ∧ k < K ∧ T.ent dp k = 0 ∧ T.type ip ≠ .free ∧ T.type ip ≠ .dir
  | unlink dp k =>
    2 ≤ k ∧ T.ent dp k ≠ 0 ∧ T.type (T.ent dp k) ≠ .free ∧ T.type (T.ent dp k) ≠ .dir
  | rmdir dp k =>
    2 ≤ k ∧ T.ent dp k ≠ 0 ∧ T.type (T.ent dp k) = .dir ∧ ∀ j, 2 ≤ j → T.ent (T.ent dp k) j = 0
  | reclaim i => T.type i ≠ .free ∧ T.nlink i = 0

/-- The link count, a `short`, does not go round to zero. -/
def Act.NoWrap (T : Tree) : Act → Prop
  | link _ _ ip _ => T.nlink ip ≠ -1
  | _ => True

/-- No directory is made in a directory that has been removed. -/
def Act.MkdirLinked (T : Tree) : Act → Prop
  | dir dp _ _ _ => T.nlink dp ≠ 0
  | _ => True

/-- Nothing is given a name in a directory that has been removed. -/
def Act.ParentLinked (T : Tree) : Act → Prop
  | node dp _ _ _ _ => T.nlink dp ≠ 0
  | dir dp _ _ _ => T.nlink dp ≠ 0
  | link dp _ _ _ => T.nlink dp ≠ 0
  | _ => True

/-- No directory is removed while the entry `..` of a removed directory names it. -/
def Act.NoStray (T : Tree) : Act → Prop
  | rmdir dp k => ∀ C, T.type C = .dir → T.nlink C = 0 → T.ent C 1 ≠ T.ent dp k
  | _ => True

/-! ## Link counts -/

/-- Link counts agree with the entries. -/
structure Inv (N K : ℕ) (T : Tree) : Prop where
  slot : ∀ D k, T.ent D k ≠ 0 → D < N ∧ k < K ∧ T.type D = .dir
  used : ∀ i, T.type i ≠ .free → 0 < i ∧ i < N
  root : T.type rootino = .dir
  dot : ∀ D, T.type D = .dir → T.ent D 0 = D ∧ T.name D 0 = padded dot
  dotdot : ∀ D, T.type D = .dir → T.ent D 1 ≠ 0 ∧ T.name D 1 = padded dotdot
  /-- An ordinary entry names an inode in use other than the root. -/
  live : ∀ D k, 2 ≤ k → T.ent D k ≠ 0 → T.type (T.ent D k) ≠ .free ∧ T.ent D k ≠ rootino
  /-- A directory is named at most once. -/
  once : ∀ i, T.type i = .dir → T.names N K i ≤ 1
  /-- Its link count counts that name and its subdirectories. -/
  dirs : ∀ i, T.type i = .dir →
    (T.nlink i).toNat = T.names N K i + T.subs K i + if i = rootino then 1 else 0
  /-- A removed directory has no subdirectories. -/
  bare : ∀ i, T.type i = .dir → i ≠ rootino → T.names N K i = 0 → T.subs K i = 0
  /-- A file has at least as many links as names. -/
  files : ∀ i, T.type i ≠ .free → T.type i ≠ .dir → T.names N K i ≤ (T.nlink i).toNat

section Keeping

variable {N K : ℕ} {T : Tree}

theorem ne_of_free {D i : ℕ} (hD : T.type D = .dir) (hi : T.type i = .free) : D ≠ i := by
  rintro rfl
  rw [hD] at hi
  exact FType.noConfusion hi

namespace Inv

variable (h : T.Inv N K)

include h

variable {D : ℕ}

theorem dir_used (hD : T.type D = .dir) : 0 < D ∧ D < N := h.used D (by rw [hD]; exact nofun)

variable {i : ℕ}

theorem names_fresh (hi : i ≠ 0) (ht : T.type i = .free) : T.names N K i = 0 := by
  rw [names_eq_zero]
  rintro D - k - h2 rfl
  exact (h.live D k h2 hi).1 ht

theorem names_root : T.names N K rootino = 0 := by
  rw [names_eq_zero]
  intro D _ k _ h2 he
  exact (h.live D k h2 (by rw [he]; decide)).2 he

variable {k : ℕ}

theorem names_pos (h2 : 2 ≤ k) (hne : T.ent D k ≠ 0) : 0 < T.names N K (T.ent D k) := by
  refine Nat.pos_of_ne_zero fun h0 => ?_
  obtain ⟨hD, hk, -⟩ := h.slot D k hne
  exact names_eq_zero.1 h0 D hD k hk h2 rfl

theorem unlinked_names (ht : T.type i ≠ .free) (hn : T.nlink i = 0) :
    T.names N K i = 0 := by
  by_cases hd : T.type i = .dir
  · have := h.dirs i hd
    rw [hn] at this
    simp at this
    omega
  · have := h.files i ht hd
    rw [hn] at this
    simpa using this

theorem unlinked_ne_root (hn : T.nlink i = 0) : i ≠ rootino := by
  rintro rfl
  have := h.dirs _ h.root
  rw [hn, if_pos rfl] at this
  simp at this

/-- There are fewer entries in a directory than a link count can count. -/
theorem nlink_lt (hK : K + 3 < 2 ^ 16) (hD : T.type D = .dir) :
    (T.nlink D).toNat + 1 < 2 ^ 16 := by
  have hd := h.dirs D hD
  have ho := h.once D hD
  have hs := subs_le (T := T) (K := K) D
  split_ifs at hd <;> omega

/-- A directory with a subdirectory has a link besides. -/
theorem nlink_parent (h2 : 2 ≤ k) (hne : T.ent D k ≠ 0) (ht : T.type (T.ent D k) = .dir) :
    2 ≤ (T.nlink D).toNat := by
  obtain ⟨-, hk, hD⟩ := h.slot D k hne
  have hd := h.dirs D hD
  have hsub : T.subs K D ≠ 0 := fun h0 => subs_eq_zero.1 h0 k hk h2 hne ht
  by_cases hr : D = rootino
  · rw [if_pos hr] at hd
    omega
  · have hn : T.names N K D ≠ 0 := fun h0 => hsub (h.bare D hD hr h0)
    omega

variable {dp : ℕ}

/-- Another entry for a file or device, which may be new. -/
theorem addFile {ip : ℕ} {t : FType} {n : BitVec 16} (nm : ℕ → UInt8) (hdp : T.type dp = .dir)
    (h2 : 2 ≤ k) (hk : k < K) (h0 : T.ent dp k = 0) (hpos : 0 < ip) (hN : ip < N)
    (ht : T.type ip = .free ∨ T.type ip = t) (htf : t ≠ .free) (htd : t ≠ .dir)
    (hn : T.names N K ip + 1 ≤ n.toNat) :
    (T.addEntry dp k ip t n nm).Inv N K := by
  have htd' : T.type ip ≠ .dir := by
    rcases ht with h' | h'
    · rw [h']; exact nofun
    · rw [h']; exact htd
  have hroot : ip ≠ rootino := by
    rintro rfl
    exact htd' h.root
  have hdpip : dp ≠ ip := by
    rintro rfl
    exact htd' hdp
  set T' := T.addEntry dp k ip t n nm
  have htype : ∀ j, T'.type j = _ := addEntry_type T dp k ip t n nm
  have hdir : ∀ {j}, T'.type j = .dir → j ≠ ip ∧ T.type j = .dir := dir_of_addEntry htd
  have hfree : ∀ {j}, T.type j ≠ .free → T'.type j ≠ .free := by
    intro j hj
    rw [htype]
    split_ifs
    · exact htf
    · exact hj
  have hnlink : ∀ j, T'.nlink j = _ := addEntry_nlink T dp k ip t n nm
  have hent : ∀ D k', T'.ent D k' = _ := addEntry_ent T dp k ip t n nm
  have hlow : ∀ D k', k' < 2 → T'.ent D k' = T.ent D k' ∧ T'.name D k' = T.name D k' := by
    intro D k' hk'
    have hne : ¬ (D = dp ∧ k' = k) := by omega
    exact ⟨(hent D k').trans (if_neg hne), (setEnt_name _ _ _ _ _ _ _).trans (if_neg hne)⟩
  have hdpN := (h.dir_used hdp).2
  have hnames : ∀ j, j ≠ 0 → T'.names N K j = T.names N K j + if j = ip then 1 else 0 :=
    fun j => addEntry_names hdpN hk h2 h0
  have hsubs : ∀ D, T'.subs K D = T.subs K D := by
    intro D
    have hno : ¬ (D = dp ∧ ip ≠ 0 ∧ ((T.setType ip t).setNlink ip n).type ip = .dir) := by
      rintro ⟨-, -, h'⟩
      exact (hdir h').1 rfl
    refine (subs_setEnt (T := (T.setType ip t).setNlink ip n) hk h2 h0 nm D).trans ?_
    rw [if_neg hno, Nat.add_zero]
    refine Lib.card_filter_same fun k' _ => and_congr_right fun _ => and_congr_right fun _ => ?_
    refine ⟨fun h' => (hdir h').2, fun h' => (htype _).trans ?_⟩
    rw [if_neg]
    · exact h'
    · intro he
      exact htd' (he ▸ h')
  have hzero : ∀ {j}, T.type j = .dir → j ≠ 0 := fun hj => (h.dir_used hj).1.ne'
  refine ⟨?_, ?_, ?_, ?_, ?_, ?_, ?_, ?_, ?_, ?_⟩
  · intro D k' hne
    rw [hent] at hne
    rw [htype]
    split_ifs at hne with hp
    · rw [hp.1, hp.2, if_neg hdpip]
      exact ⟨hdpN, hk, hdp⟩
    · obtain ⟨h1, h2, h3⟩ := h.slot D k' hne
      refine ⟨h1, h2, ?_⟩
      rw [if_neg, h3]
      rintro rfl
      exact htd' h3
  · intro j hj
    rw [htype] at hj
    split_ifs at hj with hji
    · rw [hji]; exact ⟨hpos, hN⟩
    · exact h.used j hj
  · rw [htype, if_neg hroot.symm, h.root]
  · intro D hD
    obtain ⟨he, hn⟩ := hlow D 0 (by omega)
    rw [he, hn]
    exact h.dot D (hdir hD).2
  · intro D hD
    obtain ⟨he, hn⟩ := hlow D 1 (by omega)
    rw [he, hn]
    exact h.dotdot D (hdir hD).2
  · intro D k' h2' hne
    rw [hent] at hne ⊢
    split_ifs at hne ⊢ with hp
    · refine ⟨?_, hroot⟩
      rw [htype, if_pos rfl]
      exact htf
    · obtain ⟨h3, h4⟩ := h.live D k' h2' hne
      exact ⟨hfree h3, h4⟩
  · intro j hj
    obtain ⟨hji, hj⟩ := hdir hj
    rw [hnames j (hzero hj), if_neg hji]
    exact h.once j hj
  · intro j hj
    obtain ⟨hji, hj⟩ := hdir hj
    rw [hnames j (hzero hj), hnlink, hsubs, if_neg hji, if_neg hji]
    exact h.dirs j hj
  · intro j hj hjr
    obtain ⟨hji, hj⟩ := hdir hj
    rw [hnames j (hzero hj), hsubs, if_neg hji]
    exact h.bare j hj hjr
  · intro j hj hjd
    by_cases hji : j = ip
    · rw [hji, hnames ip (by omega), hnlink, if_pos rfl, if_pos rfl]
      exact hn
    · rw [htype, if_neg hji] at hj hjd
      rw [hnames j (h.used j hj).1.ne', hnlink, if_neg hji, if_neg hji]
      exact h.files j hj hjd

/-- An entry is cleared; what is left to show is that the link counts agree again. -/
theorem removeEntry (h2 : 2 ≤ k) (hne : T.ent dp k ≠ 0) {T' : Tree}
    (htype : T'.type = T.type) (hent : T'.ent = (T.setEnt dp k 0 fun _ => 0).ent)
    (hname : T'.name = (T.setEnt dp k 0 fun _ => 0).name)
    (hdirs : ∀ i, T.type i = .dir →
      (T'.nlink i).toNat = T'.names N K i + T'.subs K i + if i = rootino then 1 else 0)
    (hbare : ∀ i, T.type i = .dir → i ≠ rootino → T'.names N K i = 0 → T'.subs K i = 0)
    (hfiles : ∀ i, T.type i ≠ .free → T.type i ≠ .dir → T'.names N K i ≤ (T'.nlink i).toNat) :
    T'.Inv N K := by
  obtain ⟨hD, hk, -⟩ := h.slot dp k hne
  have hent' : ∀ D k', T'.ent D k' = if D = dp ∧ k' = k then 0 else T.ent D k' := by
    intro D k'
    rw [hent, setEnt_ent]
  have hlow : ∀ D k', k' < 2 → T'.ent D k' = T.ent D k' ∧ T'.name D k' = T.name D k' := by
    intro D k' hk'
    have hne : ¬ (D = dp ∧ k' = k) := by omega
    rw [hent', hname, setEnt_name, if_neg hne, if_neg hne]
    exact ⟨rfl, rfl⟩
  have hsub : ∀ {D k'}, T'.ent D k' ≠ 0 → T'.ent D k' = T.ent D k' := by
    intro D k' hne'
    rw [hent'] at hne' ⊢
    split_ifs at hne' ⊢ with hp
    · exact absurd rfl hne'
    · rfl
  rw [← htype] at hdirs hbare hfiles
  refine ⟨?_, ?_, ?_, ?_, ?_, ?_, ?_, hdirs, hbare, hfiles⟩
  · intro D k' hne'
    rw [htype]
    exact h.slot D k' (hsub hne' ▸ hne')
  · rw [htype]; exact h.used
  · rw [htype]; exact h.root
  · intro D hD
    rw [htype] at hD
    rw [(hlow D 0 (by omega)).1, (hlow D 0 (by omega)).2]
    exact h.dot D hD
  · intro D hD
    rw [htype] at hD
    rw [(hlow D 1 (by omega)).1, (hlow D 1 (by omega)).2]
    exact h.dotdot D hD
  · intro D k' h2' hne'
    rw [htype, hsub hne']
    exact h.live D k' h2' (hsub hne' ▸ hne')
  · intro i hi
    rw [htype] at hi
    have hc := names_clear (T := T) hD hk h2 (fun _ => 0)
      (h.dir_used hi).1.ne'
    have hn : T'.names N K i = (T.setEnt dp k 0 fun _ => 0).names N K i := by
      unfold names
      rw [hent]
    have := h.once i hi
    omega

/-- A name of a file or device is removed. -/
theorem unlink (ok : (Act.unlink dp k).Ok N K T) : (T.apply (.unlink dp k)).Inv N K := by
  obtain ⟨h2, hne, htf, htd⟩ := ok
  obtain ⟨hD, hk, -⟩ := h.slot dp k hne
  have hnlink := apply_unlink_nlink T dp k
  have hnames : ∀ j, j ≠ 0 → (T.apply (.unlink dp k)).names N K j +
      (if j = T.ent dp k then 1 else 0) = T.names N K j :=
    fun j hj => apply_unlink_names hD hk h2 hj
  have hsubs : ∀ D, (T.apply (.unlink dp k)).subs K D = T.subs K D := by
    intro D
    have := subs_clear (T := T) (D := dp) hk h2 (fun _ => 0) D
    rwa [if_neg fun hc => htd hc.2.2] at this
  -- a directory is not the inode that loses a name
  have hdir : ∀ {j}, T.type j = .dir → j ≠ T.ent dp k ∧
      (T.apply (.unlink dp k)).names N K j = T.names N K j := by
    intro j hj
    have hje : j ≠ T.ent dp k := by
      rintro rfl
      exact htd hj
    have := hnames j (h.dir_used hj).1.ne'
    rw [if_neg hje] at this
    exact ⟨hje, this⟩
  refine h.removeEntry h2 hne rfl rfl rfl ?_ ?_ ?_
  · intro j hj
    rw [hnlink, if_neg (hdir hj).1, hsubs, (hdir hj).2]
    exact h.dirs j hj
  · intro j hj hjr
    rw [hsubs, (hdir hj).2]
    exact h.bare j hj hjr
  · intro j hj hjd
    have hn := hnames j (h.used j hj).1.ne'
    have hf := h.files j hj hjd
    have hpos := h.names_pos h2 hne
    rw [hnlink]
    split_ifs at hn ⊢ with hje
    · rw [← hje] at hpos ⊢
      have : (T.nlink j - 1).toNat = (T.nlink j).toNat - 1 := by bv_omega
      omega
    · omega

/-- An empty directory has the one link that its name gives it. -/
theorem empty_nlink (h2 : 2 ≤ k) (hne : T.ent dp k ≠ 0) (ht : T.type (T.ent dp k) = .dir)
    (hempty : ∀ j, 2 ≤ j → T.ent (T.ent dp k) j = 0) :
    T.names N K (T.ent dp k) = 1 ∧ T.subs K (T.ent dp k) = 0 ∧ T.nlink (T.ent dp k) = 1 := by
  have h1 := h.names_pos h2 hne
  have h3 := h.once _ ht
  have hs : T.subs K (T.ent dp k) = 0 := subs_eq_zero.2 fun j _ hj hne' => absurd (hempty j hj) hne'
  have hd := h.dirs _ ht
  rw [if_neg (h.live dp k h2 hne).2, hs] at hd
  refine ⟨by omega, hs, ?_⟩
  apply BitVec.eq_of_toNat_eq
  rw [hd]
  simp
  omega

/-- An empty directory is removed. -/
theorem rmdir (ok : (Act.rmdir dp k).Ok N K T) : (T.apply (.rmdir dp k)).Inv N K := by
  obtain ⟨h2, hne, ht, hempty⟩ := ok
  obtain ⟨hD, hk, hdp⟩ := h.slot dp k hne
  obtain ⟨hn1, hs0, hl1⟩ := h.empty_nlink h2 hne ht hempty
  have hdpe : dp ≠ T.ent dp k := by
    intro he
    rw [← he] at hempty
    exact hne (hempty k h2)
  have hnlink := apply_rmdir_nlink hl1
  have hnames : ∀ j, j ≠ 0 → (T.apply (.rmdir dp k)).names N K j +
      (if j = T.ent dp k then 1 else 0) = T.names N K j :=
    fun j hj => apply_rmdir_names hD hk h2 hj
  have hsubs : ∀ D, (T.apply (.rmdir dp k)).subs K D + (if D = dp then 1 else 0) =
      T.subs K D := by
    intro D
    have := subs_clear (T := T) (D := dp) hk h2 (fun _ => 0) D
    simp only [hne, ht, ne_eq, not_false_eq_true, and_true] at this
    exact this
  refine h.removeEntry h2 hne rfl rfl rfl ?_ ?_ ?_
  · intro j hj
    have h3 := hnames j (h.dir_used hj).1.ne'
    have h4 := hsubs j
    have h5 := h.dirs j hj
    rw [hnlink]
    by_cases hje : j = T.ent dp k
    · rw [if_pos hje, if_neg (hje ▸ (h.live dp k h2 hne).2)]
      rw [if_pos hje, hje, hn1] at h3
      rw [if_neg (hje ▸ hdpe.symm), hje, hs0] at h4
      rw [hje]
      simp
      omega
    · rw [if_neg hje] at h3 ⊢
      by_cases hjd : j = dp
      · subst hjd
        rw [if_pos rfl] at h4 ⊢
        have : (T.nlink j - 1).toNat = (T.nlink j).toNat - 1 := by bv_omega
        omega
      · rw [if_neg hjd] at h4 ⊢
        omega
  · intro j hj hjr h0
    have h3 := hnames j (h.dir_used hj).1.ne'
    have h4 := hsubs j
    by_cases hje : j = T.ent dp k
    · rw [hje, hs0] at h4
      rw [hje]
      omega
    · rw [if_neg hje] at h3
      have := h.bare j hj hjr (by omega)
      omega
  · intro j hj hjd
    have h3 := hnames j (h.used j hj).1.ne'
    have hje : j ≠ T.ent dp k := by
      rintro rfl
      exact hjd ht
    have hjdp : j ≠ dp := by
      rintro rfl
      exact hjd hdp
    rw [if_neg hje] at h3
    rw [hnlink, if_neg hje, if_neg hjdp]
    have := h.files j hj hjd
    omega

/-- A new directory, in a directory that is linked itself. -/
theorem dir {ip : ℕ} {nm : ℕ → UInt8} (hK : K + 3 < 2 ^ 16)
    (ok : (Act.dir dp k ip nm).Ok N K T) (hl : T.nlink dp ≠ 0) :
    (T.apply (.dir dp k ip nm)).Inv N K := by
  obtain ⟨hdp, h2, hk, h0, hip, hpos, hN⟩ := ok
  have hroot : ip ≠ rootino := (ne_of_free h.root hip).symm
  have hdpip := ne_of_free hdp hip
  obtain ⟨hdp0, hdpN⟩ := h.dir_used hdp
  have hipent : ∀ k', T.ent ip k' = 0 := by
    intro k'
    by_contra hne
    exact ne_of_free (h.slot ip k' hne).2.2 hip rfl
  set T₁ := (T.setType ip .dir).setNlink ip 1 with hT₁
  set T₂ := (T₁.setEnt ip 0 ip (padded Fs.dot)).setEnt ip 1 dp (padded Fs.dotdot) with hT₂
  set T' := T.apply (.dir dp k ip nm) with hT'
  have htype : ∀ j, T'.type j = _ := apply_dir_type T dp k ip nm
  have hnlink : ∀ j, T'.nlink j = _ := apply_dir_nlink T dp k ip nm
  have hent : ∀ D k', T'.ent D k' = _ := apply_dir_ent T dp k ip nm
  have hname : ∀ D k', T'.name D k' = _ := apply_dir_name T dp k ip nm
  have hT₂k : T₂.ent dp k = 0 := by
    rw [hT₂, setEnt_ent, if_neg fun hc => hdpip hc.1, setEnt_ent, if_neg fun hc => hdpip hc.1]
    exact h0
  have hnames : ∀ j, j ≠ 0 → T'.names N K j = T.names N K j + if j = ip then 1 else 0 :=
    fun j hj => apply_dir_names hdpN hk h2 hdpip h0 hj
  have hsubs : ∀ D, T'.subs K D = T.subs K D + if D = dp then 1 else 0 := by
    intro D
    refine (subs_setEnt (T := T₂) hk h2 hT₂k nm D).trans ?_
    have htip : T₂.type ip = .dir := (setType_type _ _ _ _).trans (if_pos rfl)
    rw [hT₂, subs_setEnt_low (by omega), subs_setEnt_low (by omega)]
    have h1 : T₁.subs K D = T.subs K D := by
      refine subs_congr (fun _ _ => rfl) fun k' h2' hne => ?_
      refine (setType_type _ _ _ _).trans (if_neg fun he => ?_)
      exact (h.live D k' h2' hne).1 (he ▸ hip)
    rw [h1]
    have : (D = dp ∧ ip ≠ 0 ∧ T₂.type ip = .dir) ↔ D = dp :=
      ⟨fun hc => hc.1, fun hc => ⟨hc, by omega, htip⟩⟩
    simp only [← hT₂, this]
  have hnip := h.names_fresh (by omega) hip
  -- the old directories
  have hold : ∀ {j}, T'.type j = .dir → j ≠ ip → T.type j = .dir ∧ j ≠ 0 := by
    intro j hj hji
    rw [htype, if_neg hji] at hj
    exact ⟨hj, (h.dir_used hj).1.ne'⟩
  have hlow : ∀ D, ¬ (D = dp ∧ 0 = k) ∧ ¬ (D = dp ∧ 1 = k) := fun D => by omega
  refine ⟨?_, ?_, ?_, ?_, ?_, ?_, ?_, ?_, ?_, ?_⟩
  · intro D k' hne
    rw [hent] at hne
    rw [htype]
    split_ifs at hne with h3 h4 h5
    · rw [h3.1, h3.2, if_neg hdpip]
      exact ⟨hdpN, hk, hdp⟩
    · rw [h4.1, h4.2, if_pos rfl]
      exact ⟨hN, by omega, rfl⟩
    · rw [h5.1, h5.2, if_pos rfl]
      exact ⟨hN, by omega, rfl⟩
    · obtain ⟨h6, h7, h8⟩ := h.slot D k' hne
      refine ⟨h6, h7, ?_⟩
      split_ifs
      · rfl
      · exact h8
  · intro j hj
    rw [htype] at hj
    split_ifs at hj with hji
    · rw [hji]; exact ⟨hpos, hN⟩
    · exact h.used j hj
  · rw [htype, if_neg hroot.symm, h.root]
  · intro D hD
    rw [hent, hname, if_neg (hlow D).1, if_neg (hlow D).1]
    by_cases hDi : D = ip
    · simp [hDi]
    · simp only [hDi, false_and, if_false]
      exact h.dot D (hold hD hDi).1
  · intro D hD
    rw [hent, hname, if_neg (hlow D).2, if_neg (hlow D).2]
    by_cases hDi : D = ip
    · simp [hDi, hdp0.ne']
    · simp only [hDi, false_and, if_false]
      exact h.dotdot D (hold hD hDi).1
  · intro D k' h2' hne
    rw [hent, if_neg (by omega : ¬ (D = ip ∧ k' = 1)), if_neg (by omega : ¬ (D = ip ∧ k' = 0))]
      at hne ⊢
    split_ifs at hne ⊢ with h3
    · refine ⟨?_, hroot⟩
      rw [htype, if_pos rfl]
      exact nofun
    · obtain ⟨h6, h7⟩ := h.live D k' h2' hne
      refine ⟨?_, h7⟩
      rw [htype]
      split_ifs
      · exact nofun
      · exact h6
  · intro j hj
    by_cases hji : j = ip
    · rw [hji, hnames ip (by omega), hnip, if_pos rfl]
    · obtain ⟨hj', hj0⟩ := hold hj hji
      rw [hnames j hj0, if_neg hji]
      exact h.once j hj'
  · intro j hj
    by_cases hji : j = ip
    · have hs : T.subs K ip = 0 :=
        subs_eq_zero.2 fun k' _ _ hne => absurd (hipent k') hne
      rw [hji, hnlink, hnames ip (by omega), hsubs, hnip, hs, if_neg hdpip.symm, if_pos rfl,
        if_pos rfl, if_neg hdpip.symm, if_neg hroot]
      rfl
    · obtain ⟨hj', hj0⟩ := hold hj hji
      have hd := h.dirs j hj'
      have hlt := h.nlink_lt hK hj'
      rw [hnames j hj0, hnlink, hsubs, if_neg hji, if_neg hji]
      by_cases hjd : j = dp
      · rw [if_pos hjd, if_pos hjd, ← hjd]
        have : (T.nlink j + 1).toNat = (T.nlink j).toNat + 1 := by bv_omega
        omega
      · rw [if_neg hjd, if_neg hjd]
        omega
  · intro j hj hjr h3
    by_cases hji : j = ip
    · rw [hji, hnames ip (by omega), if_pos rfl] at h3
      omega
    · obtain ⟨hj', hj0⟩ := hold hj hji
      rw [hnames j hj0, if_neg hji] at h3
      have hb := h.bare j hj' hjr h3
      rw [hsubs, hb]
      split_ifs with hjd
      · have hd := h.dirs j hj'
        rw [hb, if_neg hjr, hjd] at hd
        rw [hjd] at h3
        exact absurd (BitVec.eq_of_toNat_eq (by rw [hd, h3]; rfl)) hl
      · rfl
  · intro j hj hjd
    have hji : j ≠ ip := by
      rintro rfl
      rw [htype, if_pos rfl] at hjd
      exact hjd rfl
    rw [htype, if_neg hji] at hj hjd
    have hjdp : j ≠ dp := by
      rintro rfl
      exact hjd hdp
    rw [hnames j (h.used j hj).1.ne', hnlink, if_neg hji, if_neg hjdp, if_neg hji]
    exact h.files j hj hjd

/-- An unlinked inode is reclaimed. Entries of a directory that has been removed go with it. -/
theorem reclaim (ok : (Act.reclaim i).Ok N K T) : (T.apply (.reclaim i)).Inv N K := by
  obtain ⟨ht, hn⟩ := ok
  have hni := h.unlinked_names ht hn
  have hroot := h.unlinked_ne_root hn
  set T' := T.apply (.reclaim i)
  have htype : ∀ j, T'.type j = if j = i then .free else T.type j := fun j => free_type _ _ _
  have hent : ∀ D k, T'.ent D k = if D = i then 0 else T.ent D k := fun D k => free_ent _ _ _ _
  have hname : ∀ D k, T'.name D k = if D = i then (fun _ => 0) else T.name D k :=
    fun D k => free_name _ _ _ _
  have hnlink : ∀ j, T'.nlink j = if j = i then 0 else T.nlink j := fun j => free_nlink _ _ _
  have hne : ∀ {j}, T'.type j ≠ .free → j ≠ i ∧ T.type j ≠ .free := by
    intro j hj
    rw [htype] at hj
    split_ifs at hj with hji
    · exact absurd rfl hj
    · exact ⟨hji, hj⟩
  have hsame : ∀ {D k}, T'.ent D k ≠ 0 → D ≠ i ∧ T.ent D k ≠ 0 ∧ T'.ent D k = T.ent D k := by
    intro D k hD
    rw [hent] at hD ⊢
    split_ifs at hD ⊢ with hDi
    · exact absurd rfl hD
    · exact ⟨hDi, hD, rfl⟩
  -- no ordinary entry names the inode
  have hnot : ∀ D k, 2 ≤ k → T.ent D k ≠ 0 → T.ent D k ≠ i := by
    rintro D k h2 hD rfl
    have := h.names_pos h2 hD
    omega
  have hle : ∀ j, j ≠ 0 → T'.names N K j ≤ T.names N K j := fun j hj => names_free_le i hj
  -- the inode held no entries for directories
  have hdirs : ∀ j, T.type j = .dir → T'.names N K j = T.names N K j := by
    intro j hj
    have hj0 := (h.dir_used hj).1.ne'
    refine Lib.card_filter_same fun p _ => and_congr_right fun h2 => ?_
    rw [hent]
    split_ifs with hp
    · refine ⟨fun he => absurd he.symm hj0, fun he => ?_⟩
      have hpk : T.ent p.1 p.2 ≠ 0 := he ▸ hj0
      obtain ⟨-, hk, hd⟩ := h.slot p.1 p.2 hpk
      rw [hp] at hd he hpk
      have := subs_eq_zero.1 (h.bare i hd hroot hni) p.2 hk h2 hpk
      exact absurd (he ▸ hj) this
    · exact Iff.rfl
  have hsubs : ∀ D, D ≠ i → T'.subs K D = T.subs K D := by
    intro D hD
    refine subs_congr (fun k _ => (hent D k).trans (if_neg hD)) fun k h2 hDk => ?_
    rw [htype, if_neg (hnot D k h2 hDk)]
  have hdir : ∀ {j}, T'.type j = .dir → j ≠ i ∧ T.type j = .dir := by
    intro j hj
    have hji := (hne (j := j) (by rw [hj]; exact nofun)).1
    rw [htype, if_neg hji] at hj
    exact ⟨hji, hj⟩
  refine ⟨?_, ?_, ?_, ?_, ?_, ?_, ?_, ?_, ?_, ?_⟩
  · intro D k hD
    obtain ⟨hDi, hD, -⟩ := hsame hD
    rw [htype, if_neg hDi]
    exact h.slot D k hD
  · intro j hj
    exact h.used j (hne hj).2
  · rw [htype, if_neg hroot.symm, h.root]
  · intro D hD
    rw [hent, hname, if_neg (hdir hD).1, if_neg (hdir hD).1]
    exact h.dot D (hdir hD).2
  · intro D hD
    rw [hent, hname, if_neg (hdir hD).1, if_neg (hdir hD).1]
    exact h.dotdot D (hdir hD).2
  · intro D k h2 hD
    obtain ⟨-, hD, he⟩ := hsame hD
    rw [he, htype, if_neg (hnot D k h2 hD)]
    exact h.live D k h2 hD
  · intro j hj
    rw [hdirs j (hdir hj).2]
    exact h.once j (hdir hj).2
  · intro j hj
    rw [hdirs j (hdir hj).2, hsubs j (hdir hj).1, hnlink, if_neg (hdir hj).1]
    exact h.dirs j (hdir hj).2
  · intro j hj
    rw [hdirs j (hdir hj).2, hsubs j (hdir hj).1]
    exact h.bare j (hdir hj).2
  · intro j hj hjd
    obtain ⟨hji, hjf⟩ := hne hj
    rw [htype, if_neg hji] at hjd
    rw [hnlink, if_neg hji]
    exact (hle j (h.used j hjf).1.ne').trans (h.files j hjf hjd)

end Inv

/-- **Every change keeps the link counts right**, as long as a count does not wrap and no
directory is made in a removed one. -/
theorem Inv.apply (h : T.Inv N K) (hK : K + 3 < 2 ^ 16) {a : Act} (ok : a.Ok N K T)
    (hw : a.NoWrap T) (hm : a.MkdirLinked T) : (T.apply a).Inv N K := by
  cases a with
  | node dp k ip t nm =>
    obtain ⟨hdp, h2, hk, h0, hip, hpos, hN, htf, htd⟩ := ok
    refine h.addFile nm hdp h2 hk h0 hpos hN (.inl hip) htf htd ?_
    rw [h.names_fresh (by omega) hip]
    decide
  | dir dp k ip nm => exact h.dir hK ok hm
  | link dp k ip nm =>
    obtain ⟨hdp, h2, hk, h0, htf, htd⟩ := ok
    obtain ⟨hpos, hN⟩ := h.used ip htf
    rw [apply_link]
    refine h.addFile nm hdp h2 hk h0 hpos hN (.inr rfl) htf htd ?_
    have hf := h.files ip htf htd
    have hne : T.nlink ip ≠ -1 := hw
    have : (T.nlink ip + 1).toNat = (T.nlink ip).toNat + 1 := by bv_omega
    omega
  | unlink dp k => exact h.unlink ok
  | rmdir dp k => exact h.rmdir ok
  | reclaim i => exact h.reclaim ok

end Keeping

/-! ## What needs no link counts -/

/-- Inode 0 is not in use, and a directory starts with `.` and `..`. -/
structure Dots (T : Tree) : Prop where
  zero : T.type 0 = .free
  dot : ∀ D, T.type D = .dir → T.ent D 0 = D ∧ T.name D 0 = padded dot
  dotdot : ∀ D, T.type D = .dir → T.ent D 1 ≠ 0 ∧ T.name D 1 = padded dotdot

theorem Inv.dots {N K : ℕ} {T : Tree} (h : T.Inv N K) : T.Dots where
  zero := by
    by_contra hne
    exact absurd (h.used 0 hne).1 (Nat.lt_irrefl 0)
  dot := h.dot
  dotdot := h.dotdot

namespace Dots

variable {N K : ℕ} {T T' : Tree} (h : T.Dots)

include h

theorem pos {i : ℕ} (hi : T.type i ≠ .free) : 0 < i := by
  refine Nat.pos_of_ne_zero ?_
  rintro rfl
  exact hi h.zero

/-- The first empty slot of a directory comes after `.` and `..`. -/
theorem two_le {D k : ℕ} (hD : T.type D = .dir) (h0 : T.ent D k = 0) : 2 ≤ k := by
  have hpos := h.pos (by rw [hD]; exact nofun : T.type D ≠ .free)
  have hdot := (h.dot D hD).1
  have hdd := (h.dotdot D hD).1
  by_contra hlt
  rcases (by omega : k = 0 ∨ k = 1) with rfl | rfl
  · omega
  · exact hdd h0

/-- The directories are old ones and keep their first two entries. -/
theorem of_low (h0 : T'.type 0 = .free) (hlow : ∀ D, T'.type D = .dir → T.type D = .dir ∧
    ∀ k < 2, T'.ent D k = T.ent D k ∧ T'.name D k = T.name D k) : T'.Dots where
  zero := h0
  dot D hD := by
    obtain ⟨hD', hl⟩ := hlow D hD
    rw [(hl 0 (by omega)).1, (hl 0 (by omega)).2]
    exact h.dot D hD'
  dotdot D hD := by
    obtain ⟨hD', hl⟩ := hlow D hD
    rw [(hl 1 (by omega)).1, (hl 1 (by omega)).2]
    exact h.dotdot D hD'

theorem free (i : ℕ) : (T.free i).Dots := by
  refine h.of_low ?_ fun D hD => ?_
  · rw [free_type, h.zero, ite_self]
  · rw [free_type] at hD
    split_ifs at hD with hi
    refine ⟨hD, fun k _ => ?_⟩
    rw [free_ent, free_name, if_neg hi, if_neg hi]
    exact ⟨rfl, rfl⟩

/-- **Every change keeps the first two entries.** -/
theorem apply {a : Act} (ok : a.Ok N K T) : (T.apply a).Dots := by
  -- the first two entries of a directory are not written
  have hlow : ∀ {T₁ : Tree} {dp k e : ℕ} {nm : ℕ → UInt8}, 2 ≤ k → T₁.ent = T.ent → T₁.name = T.name →
      ∀ D, ∀ k' < 2, (T₁.setEnt dp k e nm).ent D k' = T.ent D k' ∧
        (T₁.setEnt dp k e nm).name D k' = T.name D k' := by
    intro T₁ dp k e nm h2 he hn D k' hk'
    rw [setEnt_ent, setEnt_name, if_neg (by omega), if_neg (by omega), he, hn]
    exact ⟨rfl, rfl⟩
  cases a with
  | node dp k ip t nm =>
    obtain ⟨-, h2, -, -, -, hpos, -, -, htd⟩ := ok
    have htype : ∀ j, (T.apply (.node dp k ip t nm)).type j = if j = ip then t else T.type j :=
      fun j => setType_type _ _ _ _
    refine h.of_low ?_ fun D hD => ⟨?_, hlow h2 rfl rfl D⟩
    · rw [htype, if_neg hpos.ne, h.zero]
    · rw [htype] at hD
      split_ifs at hD
      · exact absurd hD htd
      · exact hD
  | dir dp k ip nm =>
    obtain ⟨hdp, h2, -, -, -, hpos, -⟩ := ok
    have hdp0 := h.pos (by rw [hdp]; exact nofun : T.type dp ≠ .free)
    have hk : ∀ D, ¬ (D = dp ∧ 0 = k) ∧ ¬ (D = dp ∧ 1 = k) := fun D => by omega
    refine ⟨?_, fun D hD => ?_, fun D hD => ?_⟩
    · rw [apply_dir_type, if_neg hpos.ne, h.zero]
    · rw [apply_dir_type] at hD
      rw [apply_dir_ent, apply_dir_name, if_neg (hk D).1, if_neg (hk D).1]
      by_cases hDi : D = ip
      · simp [hDi]
      · simp only [hDi, false_and, if_false] at hD ⊢
        exact h.dot D hD
    · rw [apply_dir_type] at hD
      rw [apply_dir_ent, apply_dir_name, if_neg (hk D).2, if_neg (hk D).2]
      by_cases hDi : D = ip
      · simp [hDi, hdp0.ne']
      · simp only [hDi, false_and, if_false] at hD ⊢
        exact h.dotdot D hD
  | link dp k ip nm => exact h.of_low h.zero fun D hD => ⟨hD, hlow ok.2.1 rfl rfl D⟩
  | unlink dp k | rmdir dp k => exact h.of_low h.zero fun D hD => ⟨hD, hlow ok.1 rfl rfl D⟩
  | reclaim i => exact h.free i

end Dots

end Tree

end Xv6.Fs
