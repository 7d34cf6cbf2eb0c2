import Xv6.Fs.View
import Xv6.Fs.Ownership
import Xv6.Fs.Dotdot

/-!
# The code looks names up in the tree

`At N T r L s` says that a running call sees the tree `T`: the disk holds it, `r` counts the
references to each inode, and the inodes in `L` are locked. Every inode without links is in
memory, so that dropping its last reference frees it. The lemmas below say what the operations on
inodes, entries and paths do to such a state.

* `namex_at`: path lookup returns what `Tree.resolve` computes and leaves the tree alone.
* `dirlink_at`: a new entry goes into the first empty slot.
* `iput_at`: dropping a reference may free the inode: `Tree.settle`.
-/

namespace Xv6.Fs

open Lib

/-! ## Lookup in the tree -/

namespace Tree

variable (T : Tree)

/-- The `k`-th entry of `D` has the name. -/
def Matches (D : ℕ) (name : List UInt8) (k : ℕ) : Prop :=
  T.ent D k ≠ 0 ∧ namecmp (padded name) (T.name D k) = true

instance (D : ℕ) (name : List UInt8) (k : ℕ) : Decidable (T.Matches D name k) :=
  inferInstanceAs (Decidable (_ ∧ _))

/-- The first entry of `D` with the name. -/
def lookup (D : ℕ) (name : List UInt8) : Option ℕ :=
  (List.range maxents).find? fun k => decide (T.Matches D name k)

/-- The path walked from `ip`: the inode it leads to or, for `nameiparent`, the directory that
should hold its last element. -/
def walk (nameiparent : Bool) :
    (fuel ip : ℕ) → (path name : List UInt8) → Option (ℕ × List UInt8)
  | 0, _, _, _ => none
  | fuel + 1, ip, path, name =>
    match skipelem path with
    | none => if nameiparent then none else some (ip, name)
    | some (name, path) =>
      if T.type ip ≠ .dir then none
      else if nameiparent ∧ path = [] then some (ip, name)
      else (T.lookup ip name).bind fun k => walk nameiparent fuel (T.ent ip k) path name

/-- The path walked from the root or from the current directory. -/
def resolve (cwd : ℕ) (path : List UInt8) (nameiparent : Bool) : Option (ℕ × List UInt8) :=
  T.walk nameiparent (path.length + 1) (if path.head? = some slash then rootino else cwd) path []

/-- The tree after a reference to `i` is dropped, `r` counting the others. -/
def settle (r : ℕ → ℕ) (i : ℕ) : Tree :=
  if r i = 0 ∧ T.type i ≠ .free ∧ T.nlink i = 0 then T.free i else T

variable {T}

variable {D : ℕ} {name : List UInt8}

theorem lookup_eq_none :
    T.lookup D name = none ↔ ∀ k < maxents, ¬ T.Matches D name k := by
  unfold lookup
  simp [List.find?_eq_none]

theorem lookup_eq_some {k : ℕ} (hk : k < maxents) (hm : T.Matches D name k)
    (hno : ∀ j < k, ¬ T.Matches D name j) : T.lookup D name = some k := by
  unfold lookup
  rw [List.find?_range_eq_some]
  simpa [hm, hk] using hno

theorem lookup_some {k : ℕ} (h : T.lookup D name = some k) :
    k < maxents ∧ T.Matches D name k := by
  unfold lookup at h
  have hk := List.mem_of_find?_eq_some h
  rw [List.mem_range] at hk
  have hm := List.find?_some h
  rw [decide_eq_true_eq] at hm
  exact ⟨hk, hm⟩

theorem settle_of {r : ℕ → ℕ} {i : ℕ} (h : T.type i ≠ .free → T.nlink i = 0 → 0 < r i) :
    T.settle r i = T := by
  unfold settle
  rw [if_neg]
  rintro ⟨h0, ht, hn⟩
  have := h ht hn
  omega

end Tree

/-- One more reference to `i`. -/
def more (r : ℕ → ℕ) (i : ℕ) : ℕ → ℕ := fun j => r j + if j = i then 1 else 0

theorem more_self (r : ℕ → ℕ) (i : ℕ) : more r i i = r i + 1 := by simp [more]

theorem more_of_ne (r : ℕ → ℕ) {i j : ℕ} (h : j ≠ i) : more r i j = r j := by simp [more, h]

theorem le_more (r : ℕ → ℕ) (i j : ℕ) : r j ≤ more r i j := Nat.le_add_right _ _

theorem more_comm (r : ℕ → ℕ) (i j : ℕ) : more (more r i) j = more (more r j) i := by
  funext k
  simp only [more]
  omega

/-- A running call sees the tree `T`, with `r` references to the inodes and those in `L` locked. -/
structure At (N : ℕ) (T : Tree) (r : ℕ → ℕ) (L : List ℕ) (s : State) : Prop where
  wf : s.Wf
  num : s.sb.ninodes = N
  tree : s.tree = T
  ref : ∀ j, (s.itable j).ref = r j
  locked : ∀ j ∈ L, s.Locked j
  /-- An inode without links is in memory. -/
  orphan : ∀ j, T.type j ≠ .free → T.nlink j = 0 → s.Locked j
  /-- A directory consists of whole entries. -/
  aligned : ∀ j, T.type j = .dir → direntSize ∣ (s.dinode j).size

/-- The stops that show that a count or an entry is wrong. -/
def Broken (e : Stop) : Prop :=
  e = .panic "ilock: no type" ∨ e = .panic "unlink: nlink < 1" ∨ e = .panic "filedup" ∨
    e = .panic "fileclose"

/-- The other ways to stop. -/
def Quiet (e : Stop) : Prop := ¬ Broken e

/-- If a lookup stops in a broken way, an entry names a free inode. -/
def Dangling (T : Tree) (e : Stop) : Prop :=
  Broken e → e = .panic "ilock: no type" ∧ ¬ T.NoDangle

/-- If `unlink` stops in a broken way, an entry names a free inode or one whose link count is not
positive. -/
def Blames (T : Tree) (e : Stop) : Prop :=
  Broken e → (e = .panic "ilock: no type" ∧ ¬ T.NoDangle) ∨ e = .panic "unlink: nlink < 1" ∧
    ∃ D k, 2 ≤ k ∧ T.ent D k ≠ 0 ∧ (T.nlink (T.ent D k)).toInt < 1

/-- `Dangling`, as long as there is a root directory. -/
def Astray (T : Tree) (e : Stop) : Prop := T.type rootino ≠ .free → Dangling T e

/-- `Blames`, as long as there is a root directory. -/
def Faults (T : Tree) (e : Stop) : Prop := T.type rootino ≠ .free → Blames T e

variable {T : Tree} {e : Stop}

theorem Quiet.astray (h : Quiet e) : Astray T e := fun _ he => absurd he h

theorem Quiet.faults (h : Quiet e) : Faults T e := fun _ he => absurd he h

theorem Astray.faults (h : Astray T e) : Faults T e :=
  fun hroot he => .inl (h hroot he)

theorem noInodes_quiet : Quiet noInodes := nofun

/-! ## Inodes -/

section Inodes

variable {N : ℕ} {T : Tree} {r : ℕ → ℕ} {L : List ℕ} {s : State} {i : ℕ}

namespace At

variable (h : At N T r L s)

include h

variable {j : ℕ}

theorem orphan_pos (ht : T.type j ≠ .free) (hn : T.nlink j = 0) : 0 < r j := by
  rw [← h.ref j]
  exact (h.orphan j ht hn).1

theorem locked_pos (hj : j ∈ L) : 0 < r j := by
  rw [← h.ref j]
  exact (h.locked j hj).1

/-- A locked inode shows its fields in the tree. -/
theorem fields (hj : j ∈ L) : (s.itable j).d = s.dinode j ∧ j < N ∧ T.type j ≠ .free ∧
    (s.dinode j).type = T.type j ∧ (s.dinode j).nlink = T.nlink j := by
  obtain ⟨hd, hf, hlt⟩ := h.wf.agree j (h.locked j hj)
  have ht := State.tree_type hlt
  have hn := State.tree_nlink hlt hf
  rw [h.tree] at ht hn
  exact ⟨hd, h.num ▸ hlt, ht ▸ hf, ht.symm, hn.symm⟩

theorem subset {L' : List ℕ} (hL : ∀ j ∈ L', j ∈ L) : At N T r L' s :=
  { h with locked := fun j hj => h.locked j (hL j hj) }

theorem unlocked : At N T r [] s := h.subset nofun

theorem refer (i : ℕ) : At N T (more r i) L (s.refer i) where
  wf := h.wf.refer i
  num := by rw [State.refer_sb, h.num]
  tree := by rw [State.tree_refer, h.tree]
  ref j := by rw [State.refer_ref, h.ref j]; rfl
  locked j hj := State.refer_locked.2 (h.locked j hj)
  orphan j ht hn := State.refer_locked.2 (h.orphan j ht hn)
  aligned j ht := by
    rw [State.refer_dinode]
    exact h.aligned j ht

/-- A new link count. -/
theorem putD (hi : i ∈ L) {d : Dinode} (ht : d.type = (s.itable i).d.type)
    (hs : d.size = (s.itable i).d.size) (ha : d.addrs = (s.itable i).d.addrs) :
    At N (T.setNlink i d.nlink) r L (s.putD i d) where
  wf := h.wf.putD (h.locked i hi) ht hs ha
  num := h.num
  tree := by rw [State.tree_putD h.wf (h.locked i hi) ht hs ha, h.tree]
  ref j := by rw [State.putD_ref, h.ref j]
  locked j hj := (State.putD_locked d).2 (h.locked j hj)
  orphan j htj hn := by
    refine (State.putD_locked d).2 ?_
    by_cases hj : j = i
    · rw [hj]
      exact h.locked i hi
    · rw [Tree.setNlink_nlink, if_neg hj] at hn
      exact h.orphan j htj hn
  aligned j htj := by
    have hal := h.aligned j htj
    by_cases hj : j = i
    · subst hj
      rw [State.putD_dinode_self, hs, (h.fields hi).1]
      exact hal
    · rwa [State.putD_dinode_of_ne d hj]

/-- Work on the contents of a locked inode. -/
theorem touch {T' : Tree} {s' : State} (ht : State.Touch i s s') (hw : s'.Wf) (htree : s'.tree = T')
    (htype : T'.type = T.type) (hn : T'.nlink = T.nlink)
    (hal : T.type i = .dir → direntSize ∣ (s'.dinode i).size) : At N T' r L s' := by
  have hit : ∀ j, (s'.itable j).ref = (s.itable j).ref ∧
      (s'.itable j).valid = (s.itable j).valid := by
    intro j
    by_cases hj : j = i
    · subst hj
      exact ⟨ht.ref, ht.valid⟩
    · rw [ht.itable j hj]
      exact ⟨rfl, rfl⟩
  have hlock : ∀ j, s.Locked j → s'.Locked j := by
    intro j hj
    unfold State.Locked
    rw [(hit j).1, (hit j).2]
    exact hj
  refine ⟨hw, by rw [ht.sb, h.num], htree, fun j => (hit j).1.trans (h.ref j),
    fun j hj => hlock j (h.locked j hj), fun j hf h0 => hlock j (h.orphan j ?_ ?_), fun j hd => ?_⟩
  · rwa [← htype]
  · rwa [← hn]
  · rw [htype] at hd
    by_cases hj : j = i
    · subst hj
      exact hal hd
    · rw [ht.dinode j hj]
      exact h.aligned j hd

end At

theorem iget_at (h : At N T r L s) (i : ℕ) :
    Outcome (iget i s) (fun _ s' => s' = s.refer i ∧ At N T (more r i) L s' ∧ ¬ s.Full i)
      (fun e => e = noInodes ∧ s.Full i) := by
  rcases iget_run s i with ⟨hr, hroom⟩ | ⟨hr, hfull⟩
  · rw [hr]; exact .ok ⟨rfl, h.refer i, hroom⟩
  · rw [hr]; exact .error ⟨rfl, hfull⟩

theorem ilock_at (h : At N T r L s) (i : ℕ) :
    Outcome (ilock i s) (fun _ s' => At N T r (i :: L) s')
      (fun e => Broken e → e = .panic "ilock: no type" ∧ T.type i = .free) := by
  rcases ilock_run h.wf i with ⟨hr, href, hf, hi⟩ | ⟨hr, -⟩ | ⟨hr, -⟩ | ⟨hr, hf⟩
  · rw [hr]
    refine .ok ⟨h.wf.load hf hi, h.num, by rw [State.tree_load, h.tree], fun j => ?_, fun j hj => ?_,
      fun j ht hn => State.load_locked (h.orphan j ht hn), h.aligned⟩
    · rw [State.load_ref, h.ref j]
    · rcases List.mem_cons.1 hj with rfl | hj
      · exact State.load_locked_self href
      · exact State.load_locked (h.locked j hj)
  · rw [hr]; exact .error nofun
  · rw [hr]; exact .error nofun
  · rw [hr]
    refine .error fun _ => ⟨rfl, ?_⟩
    by_contra hne
    rw [← h.tree] at hne
    exact hne ((State.type_of_tree hne).2.symm.trans hf)

/-- Locking an inode that is in use. -/
theorem ilock_used (h : At N T r L s) (hi : T.type i ≠ .free) :
    Outcome (ilock i s) (fun _ s' => At N T r (i :: L) s') Quiet :=
  (ilock_at h i).stops fun _ he hb => hi (he hb).2

/-- Locking an inode that is in use unless some entry names a free one. -/
theorem ilock_named (h : At N T r L s)
    (hi : T.type rootino ≠ .free → T.NoDangle → T.type i ≠ .free) :
    Outcome (ilock i s) (fun _ s' => At N T r (i :: L) s') (Astray T) :=
  (ilock_at h i).stops fun _ he hroot hb =>
    ⟨(he hb).1, fun hno => hi hroot hno (he hb).2⟩

theorem iunlock_at (h : At N T r L s) (hi : 0 < r i) : iunlock i s = .ok ((), s) := by
  rcases iunlock_run s i with ⟨hr, -⟩ | ⟨-, h0⟩
  · exact hr
  · rw [h.ref i] at h0
    omega

/-- **`iput`** drops a reference, and with the last one an inode that has no links. -/
theorem iput_at (h : At N T (more r i) L s) (hL : i ∈ L → 0 < r i) :
    ∃ s', iput i s = .ok ((), s') ∧ At N (T.settle r i) r L s' := by
  have href := h.ref i
  rw [more_self] at href
  rcases iput_run h.wf i with ⟨s', hr, hf, hl, h1, hn⟩ | ⟨hr, hno⟩
  · have h0 : r i = 0 := by omega
    obtain ⟨hd, hfree, hlt⟩ := h.wf.agree i hl
    have ht := State.tree_type hlt
    have hn' := State.tree_nlink hlt hfree
    rw [h.tree] at ht hn'
    have hset : T.settle r i = T.free i := by
      unfold Tree.settle
      rw [if_pos ⟨h0, by rwa [ht], by rw [hn', ← hd, hn]⟩]
    have hlock : ∀ j, j ≠ i → s.Locked j → s'.Locked j := by
      intro j hj hl
      unfold State.Locked
      rw [hf.itable j hj]
      exact hl
    rw [hset]
    refine ⟨s', hr, hf.wf, by rw [hf.sb, h.num], ?_, fun j => ?_, fun j hj => ?_, fun j htj hnj => ?_,
      fun j htj => ?_⟩
    · rw [State.tree_freed hf (h.wf.at hl), h.tree]
    · by_cases hj : j = i
      · rw [hj, hf.ref, h0]
      · rw [hf.itable j hj, h.ref j, more_of_ne r hj]
    · refine hlock j ?_ (h.locked j hj)
      rintro rfl
      have := hL hj
      omega
    · rw [Tree.free_type] at htj
      rw [Tree.free_nlink] at hnj
      split_ifs at htj hnj with hj
      · exact absurd rfl htj
      · exact hlock j hj (h.orphan j htj hnj)
    · rw [Tree.free_type] at htj
      split_ifs at htj with hj
      rw [hf.dinode j hj]
      exact h.aligned j htj
  · -- an inode without links is in memory, so it has other references
    have hpos : T.type i ≠ .free → T.nlink i = 0 → 0 < r i := by
      intro ht hn
      have hl := h.orphan i ht hn
      obtain ⟨hd, hfree, hlt⟩ := h.wf.agree i hl
      have hn' := State.tree_nlink hlt hfree
      rw [h.tree, hn] at hn'
      by_contra h0
      exact hno ⟨by omega, hl.2, by rw [hd, ← hn']⟩
    have hlock : ∀ j, (j = i → 0 < r i) → s.Locked j → (s.unref i).Locked j := by
      intro j hj hl
      refine State.unref_locked hl ?_
      by_cases hji : j = i
      · have := hj hji
        exact .inr (by omega)
      · exact .inl hji
    rw [Tree.settle_of hpos]
    refine ⟨s.unref i, hr, h.wf.unref i, h.num, by rw [State.tree_unref, h.tree], fun j => ?_,
      fun j hj => hlock j (fun he => hL (he ▸ hj)) (h.locked j hj),
      fun j ht hn => hlock j (fun he => hpos (he ▸ ht) (he ▸ hn)) (h.orphan j ht hn), h.aligned⟩
    rw [State.unref_ref, h.ref j]
    simp only [more]
    omega

theorem iunlockput_at (h : At N T (more r i) L s) (hL : i ∈ L → 0 < r i) :
    ∃ s', iunlockput i s = .ok ((), s') ∧ At N (T.settle r i) r L s' := by
  obtain ⟨s', hr, h'⟩ := iput_at h hL
  refine ⟨s', ?_, h'⟩
  have hpos : 0 < more r i i := by
    rw [more_self]
    omega
  rw [iunlockput, Run.bind_of_ok (iunlock_at h hpos), hr]

/-- Every inode without links has a reference. -/
def Tree.Retains (T : Tree) (r : ℕ → ℕ) : Prop := ∀ j, T.type j ≠ .free → T.nlink j = 0 → 0 < r j

/-- Letting go of an inode that others refer to, if it has no links. -/
theorem iput_held (h : At N T (more r i) L s) (hL : i ∈ L → 0 < r i)
    (hi : T.type i ≠ .free → T.nlink i = 0 → 0 < r i) :
    ∃ s', iput i s = .ok ((), s') ∧ At N T r L s' := by
  have := iput_at h hL
  rwa [Tree.settle_of hi] at this

theorem iunlockput_held (h : At N T (more r i) L s) (hL : i ∈ L → 0 < r i)
    (hi : T.type i ≠ .free → T.nlink i = 0 → 0 < r i) :
    ∃ s', iunlockput i s = .ok ((), s') ∧ At N T r L s' := by
  have := iunlockput_at h hL
  rwa [Tree.settle_of hi] at this

theorem addLink_at (h : At N T r L s) (hi : i ∈ L) (k : BitVec 16) :
    ∃ s', addLink i k s = .ok ((), s') ∧ At N (T.setNlink i (T.nlink i + k)) r L s' := by
  obtain ⟨hd, -, -, -, hn⟩ := h.fields hi
  refine ⟨_, updateD_run s i _, ?_⟩
  have hn' : T.nlink i = (s.itable i).d.nlink := by rw [hd, hn]
  rw [hn']
  exact h.putD hi (d := { (s.itable i).d with nlink := (s.itable i).d.nlink + k }) rfl rfl rfl

end Inodes

/-! ## Entries -/

theorem strncmpEq_congr (s : ℕ → UInt8) {t t' : ℕ → UInt8} : ∀ {n k : ℕ},
    (∀ m, k ≤ m → m < k + n → t m = t' m) → strncmpEq s t n k = strncmpEq s t' n k := by
  intro n
  induction n with
  | zero => exact fun _ => rfl
  | succ n ih =>
    intro k h
    unfold strncmpEq
    rw [h k le_rfl (by omega), ih fun m h1 h2 => h m (by omega) (by omega)]

theorem namecmp_congr (s : ℕ → UInt8) {t t' : ℕ → UInt8} (h : ∀ m < dirsiz, t m = t' m) :
    namecmp s t = namecmp s t' := strncmpEq_congr s fun m _ hm => h m (by omega)

theorem memBytes_getD (s : State) (i off : ℕ) {n m : ℕ} (h : m < n) :
    (s.memBytes i off n).getD m 0 = s.memByte i (off + m) := by
  simp [State.memBytes, h]

section Entries

variable {N : ℕ} {T : Tree} {r : ℕ → ℕ} {L : List ℕ} {s : State} {dp : ℕ}

variable {k : ℕ} (h : At N T r L s)

include h

theorem At.ent_size (hne : T.ent dp k ≠ 0) :
    s.HasEntry dp k ∧ T.ent dp k = s.inum dp k := by
  rw [← h.tree] at hne ⊢
  by_cases hk : s.HasEntry dp k
  · exact ⟨hk, if_pos hk⟩
  · exact absurd (if_neg hk) hne

/-- Only directories have entries. -/
theorem At.ent_dir (hne : T.ent dp k ≠ 0) : T.type dp = .dir := by
  obtain ⟨hlt, hdir, -⟩ := (h.ent_size hne).1
  rw [← h.tree]
  exact (State.tree_type hlt).trans hdir

/-- Past the end of a directory there are no entries. -/
theorem At.ent_past (hk : (s.dinode dp).size < direntSize * (k + 1)) :
    T.ent dp k = 0 := by
  by_contra hne
  have := (h.ent_size hne).1.2.2
  omega

variable (hdp : dp ∈ L) (hdir : T.type dp = .dir)

include hdp hdir

/-- Reading an entry of a locked directory. -/
theorem readi_at
    (hoff : direntSize * k < (s.itable dp).d.size) :
    ∃ (n : ℤ) (bytes : List UInt8),
      readi dp kernelDst (direntSize * k) direntSize s = .ok ((n, bytes), s) ∧
      n = direntSize ∧ direntSize * (k + 1) ≤ (s.dinode dp).size ∧
        (Dirent.decode bytes).inum = T.ent dp k ∧
        (T.ent dp k ≠ 0 → ∀ nm, namecmp nm (Dirent.decode bytes).name =
          namecmp nm (T.name dp k)) := by
  have hat := h.wf.at (h.locked dp hdp)
  obtain ⟨hd, hN, -, ht, -⟩ := h.fields hdp
  have hsz := hat.size_le
  have hlim : maxfile * bsize + direntSize < 2 ^ 32 := by decide
  have h16 : direntSize * (k + 1) ≤ (s.dinode dp).size := by
    obtain ⟨n, hn⟩ := h.aligned dp hdir
    rw [hd, hn] at hoff
    rw [hn]
    exact Nat.mul_le_mul_left _ (Nat.lt_of_mul_lt_mul_left hoff)
  have hmin : min direntSize ((s.itable dp).d.size - direntSize * k) = direntSize := by
    rw [← hd, Nat.mul_add] at h16
    omega
  have hr := readi_run hat hoff.le (by omega : direntSize * k + direntSize < 2 ^ 32)
  rw [hmin] at hr
  refine ⟨_, _, hr, rfl, ?_⟩
  have hhas : s.HasEntry dp k := ⟨h.num ▸ hN, ht.trans hdir, h16⟩
  have hbyte : ∀ m < direntSize, (s.memBytes dp (direntSize * k) direntSize).getD m 0 =
      s.byte dp (direntSize * k + m) := by
    intro m hm
    rw [memBytes_getD _ _ _ hm, State.byte_eq_memByte hd]
  have hinum : (Dirent.decode (s.memBytes dp (direntSize * k) direntSize)).inum = T.ent dp k := by
    have h0 := hbyte 0 (by decide)
    have h1 := hbyte 1 (by decide)
    rw [Nat.add_zero] at h0
    rw [← h.tree]
    refine Eq.trans ?_ (if_pos hhas).symm
    simp only [Dirent.decode, h0, h1, State.inum]
  refine ⟨h16, hinum, fun hne nm => namecmp_congr nm fun m hm => ?_⟩
  have hlt : m + 2 < direntSize := by
    simp only [dirsiz, direntSize] at hm ⊢
    omega
  rw [← h.tree] at hne ⊢
  have hne' : s.inum dp k ≠ 0 := fun h0 => hne ((if_pos hhas).trans h0)
  refine Eq.trans ?_ (if_pos ⟨hhas, hne', hm⟩).symm
  simp only [Dirent.decode, hbyte _ hlt]
  rw [Nat.add_comm m 2, Nat.add_assoc]

theorem dirlookupFrom_at
    (name : List UInt8) : ∀ fuel k, (∀ j < k, ¬ T.Matches dp name j) →
    (s.dinode dp).size ≤ direntSize * (k + fuel) →
    Outcome (dirlookupFrom dp name fuel (direntSize * k) s)
      (fun res s' => (res = none ∧ s' = s ∧ ∀ j, ¬ T.Matches dp name j) ∨
        ∃ k, T.Matches dp name k ∧ (∀ j < k, ¬ T.Matches dp name j) ∧
          res = some (T.ent dp k, direntSize * k) ∧ s' = s.refer (T.ent dp k) ∧
          ¬ s.Full (T.ent dp k))
      (fun e => e = noInodes ∧ ∃ k, T.Matches dp name k ∧ (∀ j < k, ¬ T.Matches dp name j) ∧
        s.Full (T.ent dp k)) := by
  obtain ⟨hd, -, -, -, -⟩ := h.fields hdp
  -- nothing after the end
  have hend : ∀ {k}, (∀ j < k, ¬ T.Matches dp name j) → (s.dinode dp).size ≤ direntSize * k →
      ∀ j, ¬ T.Matches dp name j := by
    intro k hno hsz j hm
    by_cases hj : j < k
    · exact hno j hj hm
    · refine hm.1 (h.ent_past (hsz.trans_lt ?_))
      simp only [direntSize]
      omega
  intro fuel
  induction fuel with
  | zero =>
    intro k hno hsz
    exact .ok (.inl ⟨rfl, rfl, hend hno hsz⟩)
  | succ fuel ih =>
    intro k hno hsz
    unfold dirlookupFrom
    rw [Run.get_bind]
    refine .ite (fun hoff => ?_) fun hoff => .ok (.inl ⟨rfl, rfl, hend hno ?_⟩)
    · obtain ⟨n, bytes, hr, hn, -, hinum, hname⟩ := readi_at h hdp hdir hoff
      refine .bind_ok hr (.ite (fun hne => absurd hn hne) fun _ => ?_)
      have hsz' : (s.dinode dp).size ≤ direntSize * (k + 1 + fuel) := by
        rwa [Nat.add_assoc, Nat.add_comm 1]
      have hno' : ¬ T.Matches dp name k → ∀ j < k + 1, ¬ T.Matches dp name j := by
        intro hk j hj
        by_cases hjk : j = k
        · rwa [hjk]
        · exact hno j (by omega)
      refine .ite (fun h0 => ih (k + 1) (hno' fun hm => hm.1 (hinum ▸ h0)) hsz') fun h0 => ?_
      have hne : T.ent dp k ≠ 0 := hinum ▸ h0
      refine .ite (fun hm => ?_) fun hm => ih (k + 1) (hno' fun hk => hm ?_) hsz'
      · have hmatch : T.Matches dp name k := by
          refine ⟨hne, ?_⟩
          rw [← hname hne]
          exact hm
        rw [hinum]
        refine ((iget_at h _).stops fun e he => ⟨he.1, k, hmatch, hno, he.2⟩).bind
          fun _ s' hs => .ok (.inr ⟨k, hmatch, hno, rfl, hs.1, hs.2.2⟩)
      · rw [hname hne]
        exact hk.2
    · rw [← hd]
      omega

/-- **`dirlookup`** finds the first entry with the name, if there is room for its inode. -/
theorem dirlookup_at (name : List UInt8) :
    Outcome (dirlookup dp name s)
      (fun res s' => (res = none ∧ T.lookup dp name = none ∧ s' = s) ∨
        ∃ k, T.lookup dp name = some k ∧ res = some (T.ent dp k, direntSize * k) ∧
          s' = s.refer (T.ent dp k) ∧ ¬ s.Full (T.ent dp k))
      (fun e => e = noInodes ∧ ∃ k, T.lookup dp name = some k ∧ s.Full (T.ent dp k)) := by
  obtain ⟨hd, -, -, ht, -⟩ := h.fields hdp
  have hfirst : ∀ {k}, T.Matches dp name k → (∀ j < k, ¬ T.Matches dp name j) →
      T.lookup dp name = some k := fun hm hno =>
    Tree.lookup_eq_some ((h.ent_size hm.1).1.lt h.wf) hm hno
  unfold dirlookup
  rw [Run.get_bind, hd, ht, if_neg (not_not.2 hdir)]
  have hfuel : (s.dinode dp).size ≤ direntSize * (0 + ((s.dinode dp).size / direntSize + 1)) := by
    simp only [direntSize]
    omega
  refine (dirlookupFrom_at h hdp hdir name _ 0 (fun j hj => absurd hj (Nat.not_lt_zero j))
    hfuel).mono (fun res s' hres => ?_) fun e he => ?_
  · rcases hres with ⟨rfl, rfl, hno⟩ | ⟨k, hm, hno, rfl, rfl, hroom⟩
    · exact .inl ⟨rfl, Tree.lookup_eq_none.2 fun k _ => hno k, rfl⟩
    · exact .inr ⟨k, hfirst hm hno, rfl, rfl, hroom⟩
  · obtain ⟨he, k, hm, hno, hfull⟩ := he
    exact ⟨he, k, hfirst hm hno, hfull⟩

theorem emptyFrom_at :
    ∀ fuel k, (∀ j < k, T.ent dp j ≠ 0) → (s.dinode dp).size ≤ direntSize * (k + fuel) →
    Outcome (emptyFrom dp fuel (direntSize * k) s)
      (fun off s' => s' = s ∧ ∃ k, off = direntSize * k ∧ T.ent dp k = 0 ∧
        (∀ j < k, T.ent dp j ≠ 0) ∧
        ((s.dinode dp).size ≤ direntSize * k ∨ direntSize * (k + 1) ≤ (s.dinode dp).size))
      (fun _ => False) := by
  obtain ⟨hd, -, -, -, -⟩ := h.fields hdp
  have hend : ∀ {k}, (s.dinode dp).size ≤ direntSize * k → T.ent dp k = 0 := by
    intro k hsz
    refine h.ent_past (hsz.trans_lt ?_)
    simp only [direntSize]
    omega
  intro fuel
  induction fuel with
  | zero =>
    intro k hno hsz
    exact .ok ⟨rfl, k, rfl, hend hsz, hno, .inl hsz⟩
  | succ fuel ih =>
    intro k hno hsz
    unfold emptyFrom
    rw [Run.get_bind]
    refine .ite (fun hoff => ?_) fun hoff => ?_
    · obtain ⟨n, bytes, hr, hn, h16, hinum, -⟩ := readi_at h hdp hdir hoff
      refine .bind_ok hr (.ite (fun hne => absurd hn hne) fun _ => ?_)
      refine .ite (fun h0 => .ok ⟨rfl, k, rfl, hinum ▸ h0, hno, .inr h16⟩) fun h0 => ?_
      refine ih (k + 1) (fun j hj => ?_) (by rwa [Nat.add_assoc, Nat.add_comm 1])
      by_cases hjk : j = k
      · rw [hjk, ← hinum]
        exact h0
      · exact hno j (by omega)
    · have hsz' : (s.dinode dp).size ≤ direntSize * k := by
        rw [← hd]
        omega
      exact .ok ⟨rfl, k, rfl, hend hsz', hno, .inl hsz'⟩

/-- **`isdirempty`** looks at all entries but the first two. -/
theorem isdirempty_at :
    Outcome (isdirempty dp s)
      (fun b s' => s' = s ∧ (b = true ↔ ∀ k, 2 ≤ k → T.ent dp k = 0)) (fun _ => False) := by
  obtain ⟨hd, -, -, -, -⟩ := h.fields hdp
  have hfrom : ∀ fuel k, 2 ≤ k → (∀ j, 2 ≤ j → j < k → T.ent dp j = 0) →
      (s.dinode dp).size ≤ direntSize * (k + fuel) →
      Outcome (isdiremptyFrom dp fuel (direntSize * k) s)
        (fun b s' => s' = s ∧ (b = true ↔ ∀ k, 2 ≤ k → T.ent dp k = 0)) (fun _ => False) := by
    have hend : ∀ {k}, (∀ j, 2 ≤ j → j < k → T.ent dp j = 0) →
        (s.dinode dp).size ≤ direntSize * k → ∀ j, 2 ≤ j → T.ent dp j = 0 := by
      intro k hno hsz j hj
      by_cases hjk : j < k
      · exact hno j hj hjk
      · refine h.ent_past (hsz.trans_lt ?_)
        simp only [direntSize]
        omega
    intro fuel
    induction fuel with
    | zero =>
      intro k _ hno hsz
      exact .ok ⟨rfl, fun _ => hend hno hsz, fun _ => rfl⟩
    | succ fuel ih =>
      intro k h2 hno hsz
      unfold isdiremptyFrom
      rw [Run.get_bind]
      refine .ite (fun hoff => ?_) fun hoff => ?_
      · obtain ⟨n, bytes, hr, hn, -, hinum, -⟩ := readi_at h hdp hdir hoff
        refine .bind_ok hr (.ite (fun hne => absurd hn hne) fun _ => ?_)
        refine .ite (fun h0 => .ok ⟨rfl, by rintro ⟨⟩, fun hall => ?_⟩) fun h0 => ?_
        · exact absurd (hinum.trans (hall k h2)) h0
        · refine ih (k + 1) (by omega) (fun j hj hjk => ?_) (by rwa [Nat.add_assoc, Nat.add_comm 1])
          by_cases hjk' : j = k
          · rw [hjk', ← hinum]
            exact not_not.1 h0
          · exact hno j hj (by omega)
      · have hsz' : (s.dinode dp).size ≤ direntSize * k := by
          rw [← hd]
          omega
        exact .ok ⟨rfl, fun _ => hend hno hsz', fun _ => rfl⟩
  unfold isdirempty
  rw [Run.get_bind, Nat.mul_comm 2]
  refine hfrom _ 2 le_rfl (fun j h1 h2 => by omega) ?_
  rw [hd]
  simp only [direntSize]
  omega

/-- Writing the `k`-th entry of a locked directory, an existing one or the one after the last. -/
theorem writei_at {e : ℕ}
    (nm : ℕ → UInt8) (he : e < 2 ^ 16)
    (hk : (s.dinode dp).size ≤ direntSize * k ∨ direntSize * (k + 1) ≤ (s.dinode dp).size) :
    Outcome (writei dp (Dirent.encode ⟨e, nm⟩) (direntSize * k) direntSize s)
      (fun n s' => (n ≠ direntSize ∧ At N T r L s') ∨ n = direntSize ∧ k < maxents ∧
        At N (T.setEnt dp k e (if e = 0 then fun _ => 0 else clip nm)) r L s') (fun _ => False) := by
  obtain ⟨hd, hN, -, ht, -⟩ := h.fields hdp
  have hl := h.locked dp hdp
  rcases writei_run (h.wf.at hl) (Dirent.encode ⟨e, nm⟩) (direntSize * k)
      (by decide : direntSize < 2 ^ 32) with ⟨hr, -⟩ | ⟨c, s', hr, hw⟩
  · rw [hr]
    exact .ok (.inl ⟨by decide, h⟩)
  · rw [hr]
    have hstart := hw.start
    rw [hd] at hstart
    have hal : direntSize ∣ c → T.type dp = .dir → direntSize ∣ (s'.dinode dp).size := by
      intro hc hdir
      rw [← (hw.wf.agree dp (hw.touch.locked hl)).1, hw.d]
      dsimp only
      split_ifs
      · exact Nat.dvd_add (Nat.dvd_mul_right _ _) hc
      · rw [hd]
        exact h.aligned dp hdir
    rcases State.tree_written h.wf hl (ht.trans hdir) he (by omega) hw with ⟨rfl, htree⟩ | ⟨rfl, htree⟩
    · exact .ok (.inl ⟨by decide, h.touch hw.touch hw.wf (htree.trans h.tree) rfl rfl
        (hal (Nat.dvd_zero _))⟩)
    · rw [h.tree] at htree
      have hk' : direntSize * (k + 1) ≤ direntSize * maxents := by
        have : direntSize * maxents = maxfile * bsize := by decide
        rw [this, Nat.mul_add]
        exact hw.fits
      refine .ok (.inr ⟨rfl, Nat.le_of_mul_le_mul_left hk' (by decide), ?_⟩)
      exact h.touch hw.touch hw.wf htree rfl rfl (hal (Nat.dvd_refl _))

/-- **`dirlink`** writes a new entry into the first empty slot, or changes nothing. -/
theorem dirlink_at (name : List UInt8)
    {inum : ℕ} (h0 : inum ≠ 0) (hi : inum < 2 ^ 16) :
    Outcome (dirlink dp name inum s)
      (fun n s' => (n < 0 ∧ At N T r L s') ∨ ¬ n < 0 ∧ T.lookup dp name = none ∧
        ∃ k < maxents, T.ent dp k = 0 ∧ (∀ j < k, T.ent dp j ≠ 0) ∧
          At N (T.setEnt dp k inum (clip (padded name))) r L s')
      (fun e => e = noInodes ∧ T.lookup dp name ≠ none) := by
  obtain ⟨hd, -, -, -, -⟩ := h.fields hdp
  unfold dirlink
  refine ((dirlookup_at h hdp hdir name).stops ?_).bind fun res s₁ hres => ?_
  · rintro e ⟨rfl, k, hk, -⟩
    exact ⟨rfl, by rw [hk]; exact nofun⟩
  rcases hres with ⟨rfl, hno, rfl⟩ | ⟨k, -, rfl, rfl, -⟩
  · dsimp only
    rw [Run.get_bind]
    have hfuel : (s₁.dinode dp).size ≤
        direntSize * (0 + ((s₁.itable dp).d.size / direntSize + 1)) := by
      rw [hd]
      simp only [direntSize]
      omega
    refine (emptyFrom_at h hdp hdir _ 0 (fun j hj => absurd hj (Nat.not_lt_zero j))
      hfuel).never.bind fun off s₂ hs => ?_
    obtain ⟨rfl, k, rfl, hk0, hbefore, hsz⟩ := hs
    refine (writei_at h hdp hdir (padded name) hi hsz).never.bind fun n s₃ hs => ?_
    rcases hs with ⟨hn, hat⟩ | ⟨hn, hk, hat⟩
    · refine .ite (fun _ => .ok (.inl ⟨by decide, hat⟩)) fun hc => absurd hn hc
    · rw [if_neg h0] at hat
      refine .ite (fun hc => absurd hn hc) fun _ => .ok (.inr ?_)
      exact ⟨by decide, hno, k, hk, hk0, hbefore, hat⟩
  · -- the name is there already; the reference that `dirlookup` took is dropped again
    obtain ⟨s', hr, hat⟩ := iput_held (h.refer (T.ent dp k)) (fun hL => h.locked_pos hL)
      fun ht hn => h.orphan_pos ht hn
    exact .bind_ok hr (.ok (.inl ⟨by decide, hat⟩))

end Entries

/-! ## Paths -/

section Paths

variable {N : ℕ} {T : Tree} {r : ℕ → ℕ} {L : List ℕ} {s : State}

/-- The references that a result of a lookup adds. -/
def moreFound (r : ℕ → ℕ) (res : Option (ℕ × List UInt8)) : ℕ → ℕ :=
  match res with
  | none => r
  | some p => more r p.1

theorem skipelem_length {path elem rest : List UInt8} (h : skipelem path = some (elem, rest)) :
    rest.length < path.length := by
  unfold skipelem at h
  dsimp only at h
  split_ifs at h with hs
  obtain ⟨-, rfl⟩ := Prod.mk.inj (Option.some.inj h)
  have hle := (List.dropWhile_suffix (l := path) (· = slash)).length_le
  -- the first character that is left is not a slash
  have hpos : 0 < ((path.dropWhile (· = slash)).takeWhile (· ≠ slash)).length := by
    obtain ⟨c, cs, hc⟩ := List.exists_cons_of_ne_nil hs
    have hne : c ≠ slash := by
      have := List.head_dropWhile_not (fun c => decide (c = slash)) hs
      simpa [hc] using this
    rw [hc, List.takeWhile_cons_of_pos (by simpa using hne)]
    exact Nat.succ_pos _
  have hdrop := (List.dropWhile_suffix (l := (path.dropWhile (· = slash)).drop
    ((path.dropWhile (· = slash)).takeWhile (· ≠ slash)).length) (· = slash)).length_le
  rw [List.length_drop] at hdrop
  have hne : 0 < (path.dropWhile (· = slash)).length := List.length_pos_iff.2 hs
  omega

/-- The walk of `namex` from an inode in use: it stops at a free inode only if an entry names
one. -/
theorem namexFrom_at (parent : Bool) (hr : T.Retains r) :
    ∀ (fuel ip : ℕ) (path name : List UInt8) (s : State), path.length < fuel →
    At N T (more r ip) [] s → (T.type rootino ≠ .free → T.NoDangle → T.type ip ≠ .free) →
    Outcome (namexFrom parent fuel ip path name s)
      (fun res s' => res = T.walk parent fuel ip path name ∧ At N T (moreFound r res) [] s')
      (Astray T) := by
  intro fuel
  induction fuel with
  | zero =>
    intro ip path name s hlen
    omega
  | succ fuel ih =>
    intro ip path name s hlen h hip
    unfold namexFrom Tree.walk
    cases hskip : skipelem path with
    | none =>
      dsimp only
      cases parent with
      | false => exact .ok ⟨rfl, h⟩
      | true =>
        obtain ⟨s', hrun, h'⟩ := iput_held h (by simp) (hr ip)
        exact .bind_ok hrun (.ok ⟨rfl, h'⟩)
    | some p =>
      obtain ⟨elem, rest⟩ := p
      have hshort := skipelem_length hskip
      dsimp only
      refine (ilock_named h hip).bind fun _ s₁ h₁ => ?_
      have hput : ∀ {s₂ : State}, At N T (more r ip) [ip] s₂ →
          ∃ s', iunlockput ip s₂ = .ok ((), s') ∧ At N T r [] s' := by
        intro s₂ h₂
        exact iunlockput_held h₂.unlocked (by simp) (hr ip)
      obtain ⟨hd, -, hfree, ht, -⟩ := h₁.fields List.mem_cons_self
      rw [Run.get_bind, hd, ht]
      by_cases hdir : T.type ip = .dir
      · rw [if_neg (not_not.2 hdir), if_neg (not_not.2 hdir)]
        by_cases hlast : parent = true ∧ rest = []
        · rw [if_pos hlast, if_pos hlast]
          refine .bind_ok (iunlock_at h₁ (h₁.locked_pos List.mem_cons_self)) (.ok ⟨rfl, ?_⟩)
          exact h₁.unlocked
        · rw [if_neg hlast, if_neg hlast]
          refine ((dirlookup_at h₁ List.mem_cons_self hdir elem).stops
            fun e he => he.1 ▸ noInodes_quiet.astray).bind fun res s₂ hres => ?_
          rcases hres with ⟨rfl, hno, rfl⟩ | ⟨k, hk, rfl, rfl, -⟩
          · rw [hno]
            obtain ⟨s', hrun, h'⟩ := hput h₁
            exact .bind_ok hrun (.ok ⟨rfl, h'⟩)
          · rw [hk]
            have h₂ := h₁.refer (T.ent ip k)
            rw [more_comm] at h₂
            obtain ⟨s', hrun, h'⟩ := iunlockput_held h₂.unlocked (by simp)
              fun ht hn => (hr ip ht hn).trans_le (le_more r _ ip)
            refine .bind_ok hrun (ih _ _ _ s' (by omega) h' fun _ hno => hno ip k hdir ?_)
            exact (Tree.lookup_some hk).2.1
      · rw [if_pos hdir, if_pos hdir]
        obtain ⟨s', hrun, h'⟩ := hput h₁
        exact .bind_ok hrun (.ok ⟨rfl, h'⟩)

/-- **`namex`** computes `Tree.resolve`. -/
theorem namex_at {cwd : ℕ} (h : At N T r [] s) (hc : 0 < r cwd) (hcwd : T.type cwd ≠ .free)
    (path : List UInt8) (parent : Bool) :
    Outcome (namex cwd path parent s)
      (fun res s' => res = T.resolve cwd path parent ∧ At N T (moreFound r res) [] s')
      (Astray T) := by
  have hr : T.Retains r := fun _ => h.orphan_pos
  unfold namex Tree.resolve
  by_cases hs : path.head? = some slash
  · rw [if_pos hs, if_pos hs]
    refine ((iget_at h rootino).stops fun e he =>
      he.1 ▸ noInodes_quiet.astray).bind fun _ s' hs => ?_
    exact namexFrom_at parent hr _ _ _ _ s' (Nat.lt_succ_self _) hs.2.1 fun hroot _ => hroot
  · rw [if_neg hs, if_neg hs]
    refine .bind_ok (idup_run (by rwa [h.ref cwd])) ?_
    exact namexFrom_at parent hr _ _ _ _ _ (Nat.lt_succ_self _) (h.refer cwd) fun _ _ => hcwd

/-- The result of `nameiparent` is a directory. -/
theorem Tree.walk_parent {dp : ℕ} {name : List UInt8} :
    ∀ {fuel ip : ℕ} {path nm : List UInt8}, T.walk true fuel ip path nm = some (dp, name) →
    T.type dp = .dir := by
  intro fuel
  induction fuel with
  | zero => exact fun h => absurd h nofun
  | succ fuel ih =>
    intro ip path nm h
    unfold walk at h
    cases hskip : skipelem path with
    | none =>
      rw [hskip] at h
      exact absurd h nofun
    | some p =>
      rw [hskip] at h
      dsimp only at h
      split_ifs at h with hdir hlast
      · obtain ⟨rfl, -⟩ := Prod.mk.inj (Option.some.inj h)
        exact not_not.1 hdir
      · obtain ⟨k, -, hk⟩ := Option.bind_eq_some_iff.1 h
        exact ih hk

/-- What holds where a path starts, and of every inode that an entry names, holds where it leads. -/
theorem Tree.walk_ind {P : ℕ → Prop} {e : ℕ} {name : List UInt8}
    (hent : ∀ D k, T.type D = .dir → T.ent D k ≠ 0 → P (T.ent D k)) {parent : Bool} :
    ∀ {fuel ip : ℕ} {path nm : List UInt8}, P ip →
    T.walk parent fuel ip path nm = some (e, name) → P e := by
  intro fuel
  induction fuel with
  | zero => exact fun _ h => absurd h nofun
  | succ fuel ih =>
    intro ip path nm hip h
    unfold walk at h
    cases hskip : skipelem path with
    | none =>
      rw [hskip] at h
      dsimp only at h
      split_ifs at h with hp
      obtain ⟨rfl, -⟩ := Prod.mk.inj (Option.some.inj h)
      exact hip
    | some p =>
      rw [hskip] at h
      dsimp only at h
      split_ifs at h with hdir hlast
      · obtain ⟨rfl, -⟩ := Prod.mk.inj (Option.some.inj h)
        exact hip
      · obtain ⟨k, hlook, hk⟩ := Option.bind_eq_some_iff.1 h
        exact ih (hent ip k (not_not.1 hdir) (Tree.lookup_some hlook).2.1) hk

/-- Looking up only reads types and entries. -/
theorem Tree.walk_setNlink (i : ℕ) (n : BitVec 16) (parent : Bool) :
    ∀ (fuel ip : ℕ) (path nm : List UInt8),
    (T.setNlink i n).walk parent fuel ip path nm = T.walk parent fuel ip path nm := by
  intro fuel
  induction fuel with
  | zero => exact fun _ _ _ => rfl
  | succ fuel ih =>
    intro ip path nm
    unfold walk
    have hl : ∀ name, (T.setNlink i n).lookup ip name = T.lookup ip name := fun _ => rfl
    simp only [ih, hl, setNlink_type, setNlink_ent]

end Paths

end Xv6.Fs
