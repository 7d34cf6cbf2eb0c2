import Xv6.Fs.Content
import Xv6.Fs.Image
import Xv6.Lib.Reach

/-!
# Block ownership is kept by every operation

From a well-formed file system, whatever its directories hold, each operation that returns
leaves a well-formed file system, and none ever frees a free block or goes past the blocks of an
inode. Other invariants of the blocks are kept in the same way: `Stable` lists what the operations
do to a file system, `Keeps` is what one of them guarantees when it returns, `Benign` how it may
stop. Directory operations can still stop for other reasons (a directory whose size is not a
multiple of an entry, an entry that names a free inode, a full inode table).

* `Stable.create`, `Stable.link`, `Stable.unlink`: the calls keep such an invariant.
* `block_ownership`: for the invariant that blocks are owned once.
-/

namespace Xv6.Fs

open Lib

/-- The ways to stop other than freeing a free block or going past the blocks of an inode. -/
def Benign (e : Stop) : Prop :=
  ¬ (e = .panic "freeing free block" ∨ e = .panic "bmap: out of range")

/-- What the operations on inodes keep, as long as they write only to the inodes in `W` and
allocate inodes only while `C` holds of the disk. -/
structure Stable (lost : ℕ → Prop) (K : State → Prop) (W : ℕ → Prop) (C : (ℕ → Dinode) → Prop) :
    Prop where
  wf : ∀ {s}, K s → s.WfBut lost
  refer : ∀ {s} i, K s → K (s.refer i)
  unref : ∀ {s} i, K s → K (s.unref i)
  load : ∀ {s i}, K s → (s.dinode i).type ≠ .free → i < s.sb.ninodes → K (s.load i)
  putD : ∀ {s i} {d : Dinode}, K s → s.Locked i → d.type = (s.itable i).d.type →
    d.size = (s.itable i).d.size → d.addrs = (s.itable i).d.addrs → K (s.putD i d)
  claim : ∀ {s i} type, K s → C s.dinode → i < s.sb.ninodes → (s.dinode i).type = .free →
    K (s.claim i type)
  touch : ∀ {s s' i}, K s → s.Locked i → W i → State.Touch i s s' → s'.WfBut lost → K s'
  freed : ∀ {s s' i}, K s → s.Locked i → Freed lost i s s' → K s'

/-- A well-formed file system stays one, whatever is written and allocated. -/
theorem stable_wfBut (lost : ℕ → Prop) :
    Stable lost (fun s => s.WfBut lost) (fun _ => True) (fun _ => True) where
  wf h := h
  refer i h := h.refer i
  unref i h := h.unref i
  load h := h.load
  putD h hl ht hs ha := h.putD hl ht hs ha
  claim type h _ hi hf := h.claim hi hf type
  touch _ _ _ _ hw := hw
  freed _ _ hf := hf.wf

/-- The count of the entries in use stays right as well. -/
theorem stable_tallied (lost : ℕ → Prop) :
    Stable lost (fun s => s.WfBut lost ∧ s.Tallied) (fun _ => True) (fun _ => True) where
  wf h := h.1
  refer i h := ⟨h.1.refer i, h.2.refer i⟩
  unref i h := ⟨h.1.unref i, h.2.drop (fun _ => State.unref_ref) rfl⟩
  load h hf hi := ⟨h.1.load hf hi, h.2.congr (fun _ => State.load_ref) rfl⟩
  putD h hl ht hs ha := ⟨h.1.putD hl ht hs ha, h.2.congr (fun _ => State.putD_ref _) rfl⟩
  claim type h _ hi hf := ⟨h.1.claim hi hf type, h.2.congr (fun _ => rfl) rfl⟩
  touch h _ _ ht hw := ⟨hw, h.2.congr (fun j => (ht.counts j).1) ht.inuse⟩
  freed h _ hf := ⟨hf.wf, h.2.drop hf.counts (hf.inuse.trans (if_pos hf.last).symm)⟩

/-- The invariant holds, and the inodes locked before are still locked and referenced as often. -/
structure Keeps (K : State → Prop) (s s' : State) : Prop where
  inv : K s'
  locked : ∀ j, s.Locked j → s'.Locked j
  ref : ∀ j, (s.itable j).ref ≤ (s'.itable j).ref

/-- The invariant holds, and dropping a reference to `i` has let go of no inode that is referenced
otherwise. -/
structure Drops (K : State → Prop) (i : ℕ) (s s' : State) : Prop where
  inv : K s'
  locked : ∀ j, j ≠ i ∨ 2 ≤ (s.itable i).ref → s.Locked j → s'.Locked j
  ref : ∀ j, (s'.itable j).ref = (s.itable j).ref - if j = i then 1 else 0

theorem iget_keeps (s : State) (i : ℕ) :
    Outcome (iget i s) (fun _ s' => s' = s.refer i) Benign := by
  rcases iget_run s i with ⟨hr, -⟩ | ⟨hr, -⟩
  · rw [hr]; exact .ok rfl
  · rw [hr]; exact .error nofun

theorem iunlock_keeps (s : State) (i : ℕ) :
    Outcome (iunlock i s) (fun _ s' => s' = s) Benign := by
  rcases iunlock_run s i with ⟨hr, -⟩ | ⟨hr, -⟩
  · rw [hr]; exact .ok rfl
  · rw [hr]; exact .error nofun

section Keeps

variable {lost : ℕ → Prop} {K : State → Prop} {W : ℕ → Prop} {C : (ℕ → Dinode) → Prop}
  {s s' s'' : State} {i : ℕ}

theorem Keeps.refl (h : K s) : Keeps K s s := ⟨h, fun _ hj => hj, fun _ => le_rfl⟩

theorem Keeps.trans (h : Keeps K s s') (h' : Keeps K s' s'') : Keeps K s s'' :=
  ⟨h'.inv, fun j hj => h'.locked j (h.locked j hj), fun j => (h.ref j).trans (h'.ref j)⟩

theorem Keeps.of_touch (ht : State.Touch i s s') (h : K s') : Keeps K s s' :=
  ⟨h, fun _ => ht.locked, fun j => (ht.counts j).1.ge⟩

end Keeps

namespace Stable

variable {lost : ℕ → Prop} {K : State → Prop} {W : ℕ → Prop} {C : (ℕ → Dinode) → Prop}
  (hK : Stable lost K W C) {s : State} {i dp ip : ℕ} (h : K s)

include hK h

/-! ## Inodes -/

theorem keeps_refer (i : ℕ) : Keeps K s (s.refer i) :=
  ⟨hK.refer i h, fun _ => State.refer_locked.2, fun j => by rw [State.refer_ref]; omega⟩

/-- Taking a reference and dropping it again. -/
theorem keeps_refer_unref (i : ℕ) : Keeps K s ((s.refer i).unref i) := by
  refine ⟨hK.unref i (hK.refer i h), fun j hj => ?_, fun j => ?_⟩
  · refine State.unref_locked (State.refer_locked.2 hj) ?_
    by_cases hji : j = i
    · subst hji
      have := hj.1
      rw [State.refer_ref, if_pos rfl]
      exact .inr (by omega)
    · exact .inl hji
  · rw [State.unref_ref, State.refer_ref]
    omega

theorem ilock (i : ℕ) :
    Outcome (Fs.ilock i s) (fun _ s' => Keeps K s s' ∧ s'.Locked i ∧ s'.dinode = s.dinode) Benign := by
  rcases ilock_run (hK.wf h) i with ⟨hr, href, hf, hi⟩ | ⟨hr, -⟩ | ⟨hr, -⟩ | ⟨hr, -⟩
  · rw [hr]
    exact .ok ⟨⟨hK.load h hf hi, fun _ => State.load_locked, fun _ => State.load_ref.ge⟩,
      State.load_locked_self href, rfl⟩
  · rw [hr]; exact .error nofun
  · rw [hr]; exact .error nofun
  · rw [hr]; exact .error nofun

theorem iput (i : ℕ) : Outcome (Fs.iput i s) (fun _ s' => Drops K i s s') Benign := by
  rcases iput_run (hK.wf h) i with ⟨s', hr, hf, hl, href, -⟩ | ⟨hr, -⟩
  · rw [hr]
    refine .ok ⟨hK.freed h hl hf, fun j hj hl => ?_, hf.counts⟩
    have hji : j ≠ i := by omega
    unfold State.Locked
    rw [hf.itable j hji]
    exact hl
  · rw [hr]
    exact .ok ⟨hK.unref i h, fun j hj hl => State.unref_locked hl hj, fun _ => State.unref_ref⟩

theorem iunlockput (i : ℕ) : Outcome (Fs.iunlockput i s) (fun _ s' => Drops K i s s') Benign := by
  refine (iunlock_keeps s i).bind fun _ s' hs => ?_
  subst hs
  exact hK.iput h i

/-- New fields for a locked inode, other than its blocks. -/
theorem updateD (hl : s.Locked i) (f : Dinode → Dinode) (ht : ∀ d, (f d).type = d.type)
    (hs : ∀ d, (f d).size = d.size) (ha : ∀ d, (f d).addrs = d.addrs) :
    Outcome (Fs.updateD i f s) (fun _ s' => Keeps K s s') Benign := by
  rw [updateD_run]
  exact .ok ⟨hK.putD h hl (ht _) (hs _) (ha _), fun j => (State.putD_locked _).2,
    fun j => (State.putD_ref _).ge⟩

theorem addLink (hl : s.Locked i) (k : BitVec 16) :
    Outcome (Fs.addLink i k s) (fun _ s' => Keeps K s s') Benign :=
  hK.updateD h hl _ (fun _ => rfl) (fun _ => rfl) fun _ => rfl

theorem ialloc (hC : C s.dinode) (type : FType) :
    Outcome (Fs.ialloc type s)
      (fun r s' => Keeps K s s' ∧ ∀ i, r = some i → (s.dinode i).type = .free) Benign := by
  rcases ialloc_run s type with ⟨hr, -⟩ | ⟨i, -, hi, hf, ⟨hr, -⟩ | ⟨hr, -⟩⟩
  · rw [hr]; exact .ok ⟨.refl h, nofun⟩
  · rw [hr]
    have hc : Keeps K s (s.claim i type) := ⟨hK.claim type h hC hi hf, fun _ hj => hj, fun _ => le_rfl⟩
    refine .ok ⟨hc.trans (hK.keeps_refer hc.inv i), fun j hj => ?_⟩
    rw [← Option.some.inj hj]
    exact hf
  · rw [hr]; exact .error nofun

theorem writei (hl : s.Locked i) (hW : W i) (src : Src) (off : ℕ) {n : ℕ} (hn : n < 2 ^ 32) :
    Outcome (Fs.writei i src off n s) (fun _ s' => Keeps K s s') Benign := by
  rcases writei_run ((hK.wf h).at hl) src off hn with ⟨hr, -⟩ | ⟨c, s', hr, hw⟩
  · rw [hr]; exact .ok (.refl h)
  · rw [hr]; exact .ok (.of_touch hw.touch (hK.touch h hl hW hw.touch hw.wf))

theorem itrunc (hl : s.Locked i) (hW : W i) :
    Outcome (Fs.itrunc i s) (fun _ s' => Keeps K s s') Benign := by
  obtain ⟨s', hr, he⟩ := itrunc_run ((hK.wf h).at hl)
  rw [hr]
  exact .ok (.of_touch he.touch (hK.touch h hl hW he.touch he.wf))

/-! ## Directories -/

/-- Reading an entry of a locked directory changes nothing. -/
theorem readi_dirent (hl : s.Locked dp) {off : ℕ} (hoff : off < (s.itable dp).d.size) :
    ∃ r, readi dp kernelDst off direntSize s = .ok (r, s) := by
  have hat := (hK.wf h).at hl
  have hsz := hat.size_le
  have hlim : maxfile * bsize + direntSize < 2 ^ 32 := by decide
  exact ⟨_, readi_run hat hoff.le (by omega)⟩

theorem dirlookupFrom (hl : s.Locked dp) (name : List UInt8) :
    ∀ fuel off, Outcome (Fs.dirlookupFrom dp name fuel off s)
      (fun r s' => (r = none ∧ s' = s) ∨ ∃ p, r = some p ∧ s' = s.refer p.1) Benign := by
  intro fuel
  induction fuel with
  | zero =>
    intro off
    exact .ok (.inl ⟨rfl, rfl⟩)
  | succ fuel ih =>
    intro off
    unfold Fs.dirlookupFrom
    rw [Run.get_bind]
    refine .ite (fun hoff => ?_) fun _ => .ok (.inl ⟨rfl, rfl⟩)
    obtain ⟨⟨r, bytes⟩, hr⟩ := hK.readi_dirent h hl hoff
    refine .bind_ok hr (.ite (fun _ => .error nofun) fun _ => .ite (fun _ => ih _) fun _ =>
      .ite (fun _ => ?_) fun _ => ih _)
    refine (iget_keeps s _).bind fun _ s' hs => .ok (.inr ⟨_, rfl, hs⟩)

/-- Looking up a name only returns if the inode is a directory. -/
theorem dirlookup (hl : s.Locked dp) (name : List UInt8) :
    Outcome (Fs.dirlookup dp name s) (fun r s' => (s.itable dp).d.type = .dir ∧
      ((r = none ∧ s' = s) ∨ ∃ p, r = some p ∧ s' = s.refer p.1)) Benign := by
  unfold Fs.dirlookup
  rw [Run.get_bind]
  refine .ite (fun _ => .error nofun) fun hdir => ?_
  exact (hK.dirlookupFrom h hl name _ _).imp fun _ _ hs => ⟨not_not.1 hdir, hs⟩

theorem emptyFrom (hl : s.Locked dp) :
    ∀ fuel off, Outcome (Fs.emptyFrom dp fuel off s) (fun _ s' => s' = s) Benign := by
  intro fuel
  induction fuel with
  | zero => exact fun _ => .ok rfl
  | succ fuel ih =>
    intro off
    unfold Fs.emptyFrom
    rw [Run.get_bind]
    refine .ite (fun hoff => ?_) fun _ => .ok rfl
    obtain ⟨⟨r, bytes⟩, hr⟩ := hK.readi_dirent h hl hoff
    exact .bind_ok hr (.ite (fun _ => .error nofun) fun _ => .ite (fun _ => .ok rfl) fun _ => ih _)

theorem isdirempty (hl : s.Locked dp) :
    Outcome (Fs.isdirempty dp s) (fun _ s' => s' = s) Benign := by
  have hfrom : ∀ fuel off, Outcome (isdiremptyFrom dp fuel off s) (fun _ s' => s' = s) Benign := by
    intro fuel
    induction fuel with
    | zero => exact fun _ => .ok rfl
    | succ fuel ih =>
      intro off
      unfold isdiremptyFrom
      rw [Run.get_bind]
      refine .ite (fun hoff => ?_) fun _ => .ok rfl
      obtain ⟨⟨r, bytes⟩, hr⟩ := hK.readi_dirent h hl hoff
      exact .bind_ok hr
        (.ite (fun _ => .error nofun) fun _ => .ite (fun _ => .ok rfl) fun _ => ih _)
  exact hfrom _ _

/-- Taking a reference just to drop it never frees the inode. -/
theorem iput_refer (i : ℕ) : Fs.iput i (s.refer i) = .ok ((), (s.refer i).unref i) := by
  rcases iput_run ((hK.wf h).refer i) i with ⟨s', -, -, hl, href, -⟩ | ⟨hr, -⟩
  · have := (State.refer_locked.1 hl).1
    rw [State.refer_ref, if_pos rfl] at href
    omega
  · exact hr

/-- An entry is added to a directory, if directories may be written. -/
theorem dirlink (hl : s.Locked dp) (hW : (s.itable dp).d.type = .dir → W dp) (name : List UInt8)
    (inum : ℕ) : Outcome (Fs.dirlink dp name inum s) (fun _ s' => Keeps K s s') Benign := by
  unfold Fs.dirlink
  refine (hK.dirlookup h hl name).bind fun r s' ⟨hdir, hr⟩ => ?_
  rcases hr with ⟨rfl, rfl⟩ | ⟨⟨ip, off⟩, rfl, rfl⟩
  · dsimp only
    rw [Run.get_bind]
    refine (hK.emptyFrom h hl _ _).bind fun off s'' hs => ?_
    subst hs
    refine (hK.writei h hl (hW hdir) _ off (by decide)).bind fun r s' hk => ?_
    exact .ite (fun _ => .ok hk) fun _ => .ok hk
  · exact .bind_ok (hK.iput_refer h ip) (.ok (hK.keeps_refer_unref h ip))

/-! ## Paths and the calls that change the tree -/

/-- The references that a result of a lookup adds. -/
def found (r : Option (ℕ × List UInt8)) (j : ℕ) : ℕ :=
  match r with
  | none => 0
  | some p => if j = p.1 then 1 else 0

omit h in
/-- The loop of `namex` gives back the references it takes, but for the one to the inode it
returns; `r` counts the references of others. -/
theorem namexFrom (parent : Bool) (r : ℕ → ℕ) :
    ∀ (fuel ip : ℕ) (path name : List UInt8) (s : State), K s →
    (∀ j, r j + (if j = ip then 1 else 0) ≤ (s.itable j).ref) →
    Outcome (Fs.namexFrom parent fuel ip path name s)
      (fun res s' => K s' ∧ ∀ j, r j + found res j ≤ (s'.itable j).ref) Benign := by
  intro fuel
  induction fuel with
  | zero => exact fun ip _ _ s h href => .ok ⟨h, fun j => by have := href j; simp only [found]; omega⟩
  | succ fuel ih =>
    intro ip path name s h href
    -- giving up the inode at hand
    have hput : ∀ {s₁ s₂ : State}, Drops K ip s₁ s₂ →
        (∀ j, r j + (if j = ip then 1 else 0) ≤ (s₁.itable j).ref) →
        K s₂ ∧ ∀ j, r j + found none j ≤ (s₂.itable j).ref := by
      intro s₁ s₂ hd h₁
      refine ⟨hd.inv, fun j => ?_⟩
      rw [hd.ref j]
      have := h₁ j
      simp only [found]
      omega
    unfold Fs.namexFrom
    cases skipelem path with
    | none =>
      refine .ite (fun _ => ?_) fun _ => .ok ⟨h, href⟩
      exact (hK.iput h ip).bind fun _ s' hs => .ok (hput hs href)
    | some p =>
      obtain ⟨elem, rest⟩ := p
      refine (hK.ilock h ip).bind fun _ s₁ ⟨hk, hl, _⟩ => ?_
      have href₁ := fun j => (href j).trans (hk.ref j)
      rw [Run.get_bind]
      refine .ite (fun _ => ?_) fun _ => .ite (fun _ => ?_) fun _ => ?_
      · exact (hK.iunlockput hk.inv ip).bind fun _ s' hs => .ok (hput hs href₁)
      · refine (iunlock_keeps s₁ ip).bind fun _ s' hs => .ok ?_
        subst hs
        exact ⟨hk.inv, href₁⟩
      · refine (hK.dirlookup hk.inv hl elem).bind fun res s₂ ⟨_, hr⟩ => ?_
        rcases hr with ⟨rfl, rfl⟩ | ⟨⟨next, off⟩, rfl, rfl⟩
        · exact (hK.iunlockput hk.inv ip).bind fun _ s' hs => .ok (hput hs href₁)
        · refine (hK.iunlockput (hK.refer next hk.inv) ip).bind fun _ s' hs => ih _ _ _ s' hs.inv ?_
          intro j
          rw [hs.ref j, State.refer_ref]
          have := href₁ j
          omega

variable {cwd : ℕ}

theorem namex (hc : 0 < (s.itable cwd).ref) (path : List UInt8) (parent : Bool) :
    Outcome (Fs.namex cwd path parent s)
      (fun res s' => K s' ∧ ∀ j, (s.itable j).ref + found res j ≤ (s'.itable j).ref) Benign := by
  refine .ite (fun _ => ?_) fun _ => ?_
  · refine (iget_keeps s rootino).bind fun _ s' hs => ?_
    subst hs
    exact hK.namexFrom _ _ _ _ _ _ _ (hK.refer rootino h) fun j => by rw [State.refer_ref]
  · refine .bind_ok (idup_run hc) ?_
    exact hK.namexFrom _ _ _ _ _ _ _ (hK.refer cwd h) fun j => by rw [State.refer_ref]

theorem namei (hc : 0 < (s.itable cwd).ref) (path : List UInt8) :
    Outcome (Fs.namei cwd path s) (fun _ s' => K s' ∧ 0 < (s'.itable cwd).ref) Benign := by
  refine (hK.namex h hc path false).bind fun r s₁ ⟨h₁, href⟩ => .ok ⟨h₁, ?_⟩
  have := href cwd
  omega

/-- The invariant holds, and the inode that `create` returns is locked. -/
def Made (K : State → Prop) (r : Option ℕ) (s' : State) : Prop :=
  K s' ∧ ∀ i, r = some i → s'.Locked i

theorem createFail (hl : s.Locked ip) : Outcome (Fs.createFail dp ip s) (Made K) Benign := by
  refine (hK.updateD h hl (fun d => { d with nlink := 0 }) (fun _ => rfl) (fun _ => rfl)
    fun _ => rfl).bind fun _ s₁ hk => ?_
  refine (hK.iunlockput hk.inv ip).bind fun _ s₂ hs => ?_
  exact (hK.iunlockput hs.inv dp).bind fun _ s₃ hs => .ok ⟨hs.inv, nofun⟩

theorem linkBad (ip : ℕ) : Outcome (Fs.linkBad ip s) (fun _ s' => K s') Benign := by
  refine (hK.ilock h ip).bind fun _ s₁ ⟨hk₁, hi₁, _⟩ => ?_
  refine (hK.addLink hk₁.inv hi₁ (-1)).bind fun _ s₂ hk₂ => ?_
  exact (hK.iunlockput hk₂.inv ip).bind fun _ s' hs => .ok hs.inv

theorem unlinkBad (dp : ℕ) : Outcome (Fs.unlinkBad dp s) (fun _ s' => K s') Benign :=
  (hK.iunlockput h dp).bind fun _ _ hs => .ok hs.inv

theorem unlinkEntry (hd : s.Locked dp) (hW : W dp) (hi : s.Locked ip)
    (href : ip ≠ dp ∨ 2 ≤ (s.itable dp).ref) (off : ℕ) :
    Outcome (Fs.unlinkEntry dp ip off s) (fun _ s' => K s') Benign := by
  refine (hK.writei h hd hW _ off (by decide)).bind fun r s₁ hk₁ => ?_
  refine .ite (fun _ => .error nofun) fun _ => ?_
  rw [Run.get_bind]
  have hend : ∀ {s₂ : State}, Keeps K s s₂ → Outcome ((do
      Fs.iunlockput dp
      Fs.addLink ip (-1)
      Fs.iunlockput ip
      return 0 : FsM ℤ) s₂) (fun _ s' => K s') Benign := by
    intro s₂ hk
    refine (hK.iunlockput hk.inv dp).bind fun _ s₃ hs₃ => ?_
    have hl := hs₃.locked ip (href.imp_right fun h2 => h2.trans (hk.ref dp)) (hk.locked ip hi)
    refine (hK.addLink hs₃.inv hl (-1)).bind fun _ s₄ hk₄ => ?_
    exact (hK.iunlockput hk₄.inv ip).bind fun _ s' hs => .ok hs.inv
  refine .ite (fun _ => ?_) fun _ => hend hk₁
  exact (hK.addLink hk₁.inv (hk₁.locked dp hd) (-1)).bind fun _ s₂ hk₂ => hend (hk₁.trans hk₂)

variable (hdir : ∀ s i, K s → s.Locked i → (s.itable i).d.type = .dir → W i)

include hdir

theorem createEntry (hd : s.Locked dp) (hi : s.Locked ip) (hne : ip ≠ dp) (name : List UInt8)
    (type : FType) : Outcome (Fs.createEntry dp name type ip s) (Made K) Benign := by
  refine (hK.dirlink h hd (hdir s dp h hd) name ip).bind fun r s₁ hk => ?_
  refine .ite (fun _ => hK.createFail hk.inv (hk.locked ip hi)) fun _ => ?_
  have hend : ∀ {s₂ : State}, Keeps K s s₂ →
      Outcome ((do Fs.iunlockput dp; return some ip : FsM (Option ℕ)) s₂) (Made K) Benign := by
    refine fun h₂ => (hK.iunlockput h₂.inv dp).bind fun _ s' hs => .ok ⟨hs.inv, fun j hj => ?_⟩
    rw [← Option.some.inj hj]
    exact hs.locked ip (.inl hne) (h₂.locked ip hi)
  refine .ite (fun _ => ?_) fun _ => hend hk
  exact (hK.addLink hk.inv (hk.locked dp hd) 1).bind fun _ s' hs => hend (hk.trans hs)

theorem createNew (hd : s.Locked dp) (name : List UInt8) (type : FType) (major minor : BitVec 16)
    {ip : ℕ} (hne : ip ≠ dp) :
    Outcome (Fs.createNew dp name type major minor ip s) (Made K) Benign := by
  refine (hK.ilock h ip).bind fun _ s₁ ⟨hk₁, hi₁, _⟩ => ?_
  refine (hK.updateD hk₁.inv hi₁ (fun d => { d with major := major, minor := minor, nlink := 1 })
    (fun _ => rfl) (fun _ => rfl) fun _ => rfl).bind fun _ s₂ hk₂ => ?_
  have hi₂ := hk₂.locked ip hi₁
  have hd₂ := hk₂.locked dp (hk₁.locked dp hd)
  refine .ite (fun _ => ?_) fun _ => hK.createEntry hk₂.inv hdir hd₂ hi₂ hne name type
  refine (hK.dirlink hk₂.inv hi₂ (hdir s₂ ip hk₂.inv hi₂) dot ip).bind fun r s₃ hk₃ => ?_
  have hi₃ := hk₃.locked ip hi₂
  refine .ite (fun _ => hK.createFail hk₃.inv hi₃) fun _ => ?_
  refine (hK.dirlink hk₃.inv hi₃ (hdir s₃ ip hk₃.inv hi₃) dotdot dp).bind fun r s₄ hk₄ => ?_
  have hi₄ := hk₄.locked ip hi₃
  refine .ite (fun _ => hK.createFail hk₄.inv hi₄) fun _ => ?_
  exact hK.createEntry hk₄.inv hdir (hk₄.locked dp (hk₃.locked dp hd₂)) hi₄ hne name type

variable (hc : 0 < (s.itable cwd).ref)

include hc

/-- `create`, if inodes may be allocated once the path has been followed. -/
theorem create (path : List UInt8)
    (hC : Outcome (Fs.namex cwd path true s) (fun _ s' => C s'.dinode) (fun _ => True))
    (type : FType) (major minor : BitVec 16) :
    Outcome (Fs.create cwd path type major minor s) (Made K) Benign := by
  refine (((hK.namex h hc path true).and hC).stops fun _ he => he.1).bind
    fun r s₁ ⟨⟨h₁, _⟩, hC₁⟩ => ?_
  rcases r with _ | ⟨dp, name⟩
  · exact .ok ⟨h₁, nofun⟩
  refine (hK.ilock h₁ dp).bind fun _ s₂ ⟨hk₂, hd₂, hdn⟩ => ?_
  rw [← hdn] at hC₁
  refine (hK.dirlookup hk₂.inv hd₂ name).bind fun r s₃ ⟨_, hr⟩ => ?_
  rcases hr with ⟨rfl, rfl⟩ | ⟨⟨ip, off⟩, rfl, rfl⟩
  · refine (hK.ialloc hk₂.inv hC₁ type).bind fun r s₄ ⟨hk₄, hfree⟩ => ?_
    rcases r with _ | ip
    · exact (hK.iunlockput hk₄.inv dp).bind fun _ s' hs => .ok ⟨hs.inv, nofun⟩
    · have hne : ip ≠ dp := by
        rintro rfl
        exact ((hK.wf hk₂.inv).agree ip hd₂).2.1 (hfree ip rfl)
      exact hK.createNew hk₄.inv hdir (hk₄.locked dp hd₂) name type major minor hne
  · refine (hK.iunlockput (hK.refer ip hk₂.inv) dp).bind fun _ s₄ hs => ?_
    refine (hK.ilock hs.inv ip).bind fun _ s₅ ⟨hk₅, hi₅, _⟩ => ?_
    rw [Run.get_bind]
    refine .ite (fun _ => .ok ⟨hk₅.inv, fun j hj => ?_⟩) fun _ => ?_
    · rw [← Option.some.inj hj]
      exact hi₅
    · exact (hK.iunlockput hk₅.inv ip).bind fun _ s' hs => .ok ⟨hs.inv, nofun⟩

theorem link (old new : List UInt8) :
    Outcome (Fs.link cwd old new s) (fun _ s' => K s') Benign := by
  refine (hK.namei h hc old).bind fun r s₁ ⟨h₁, hc₁⟩ => ?_
  rcases r with _ | ip
  · exact .ok h₁
  refine (hK.ilock h₁ ip).bind fun _ s₂ ⟨hk₂, hi₂, _⟩ => ?_
  rw [Run.get_bind]
  refine .ite (fun _ => (hK.iunlockput hk₂.inv ip).bind fun _ s' hs => .ok hs.inv) fun _ => ?_
  refine (hK.addLink hk₂.inv hi₂ 1).bind fun _ s₃ hk₃ => ?_
  refine (iunlock_keeps s₃ ip).bind fun _ s₄ hs => ?_
  subst hs
  have hc₄ : 0 < (s₄.itable cwd).ref := hc₁.trans_le ((hk₂.ref cwd).trans (hk₃.ref cwd))
  refine (hK.namex hk₃.inv hc₄ new true).bind fun r s₅ ⟨h₅, _⟩ => ?_
  rcases r with _ | ⟨dp, name⟩
  · exact hK.linkBad h₅ ip
  refine (hK.ilock h₅ dp).bind fun _ s₆ ⟨hk₆, hd₆, _⟩ => ?_
  refine (hK.dirlink hk₆.inv hd₆ (hdir s₆ dp hk₆.inv hd₆) name ip).bind fun r s₇ hk₇ => ?_
  refine .ite (fun _ => ?_) fun _ => ?_
  · exact (hK.iunlockput hk₇.inv dp).bind fun _ s' hs => hK.linkBad hs.inv ip
  · refine (hK.iunlockput hk₇.inv dp).bind fun _ s₈ hs => ?_
    exact (hK.iput hs.inv ip).bind fun _ s' hs => .ok hs.inv

theorem unlink (path : List UInt8) :
    Outcome (Fs.unlink cwd path s) (fun _ s' => K s') Benign := by
  refine (hK.namex h hc path true).bind fun r s₁ ⟨h₁, _⟩ => ?_
  rcases r with _ | ⟨dp, name⟩
  · exact .ok h₁
  refine (hK.ilock h₁ dp).bind fun _ s₂ ⟨hk₂, hd₂, _⟩ => ?_
  refine .ite (fun _ => hK.unlinkBad hk₂.inv dp) fun _ => ?_
  refine (hK.dirlookup hk₂.inv hd₂ name).bind fun r s₃ ⟨htype, hr⟩ => ?_
  rcases hr with ⟨rfl, rfl⟩ | ⟨⟨ip, off⟩, rfl, rfl⟩
  · exact hK.unlinkBad hk₂.inv dp
  have hk₃ := hK.keeps_refer hk₂.inv ip
  refine (hK.ilock hk₃.inv ip).bind fun _ s₄ ⟨hk₄, hi₄, _⟩ => ?_
  have hd₄ := hk₄.locked dp (hk₃.locked dp hd₂)
  -- if the entry names the directory itself, the lookup has taken a second reference to it
  have href : ip ≠ dp ∨ 2 ≤ (s₄.itable dp).ref := by
    by_cases hne : ip = dp
    · right
      have h1 := hk₄.ref dp
      have h2 := hd₂.1
      rw [State.refer_ref, if_pos hne.symm] at h1
      omega
    · exact .inl hne
  have hentry := hK.unlinkEntry hk₄.inv hd₄ (hdir s₂ dp hk₂.inv hd₂ htype) hi₄ href off
  rw [Run.get_bind]
  refine .ite (fun _ => .error nofun) fun _ => .ite (fun _ => ?_) fun _ => hentry
  refine (hK.isdirempty hk₄.inv hi₄).bind fun e s₅ hs => ?_
  subst hs
  refine .ite (fun _ => hentry) fun _ => ?_
  exact (hK.iunlockput hk₄.inv ip).bind fun _ s' hs => hK.unlinkBad hs.inv dp

theorem sysLink (old new : List UInt8) :
    Outcome (Fs.sysLink cwd old new s) (fun _ s' => K s') Benign := by
  unfold Fs.sysLink
  rcases argstr old with _ | old
  · exact .ok h
  rcases argstr new with _ | new
  · exact .ok h
  · exact hK.link h hdir hc old new

theorem sysUnlink (path : List UInt8) :
    Outcome (Fs.sysUnlink cwd path s) (fun _ s' => K s') Benign := by
  unfold Fs.sysUnlink
  rcases argstr path with _ | path
  · exact .ok h
  · exact hK.unlink h hdir hc path

end Stable

/-! ## Sequences of operations -/

/-- The operations on files; `iget` and `ilock` are how a process comes by a locked inode. -/
inductive FsOp
  | iget (i : ℕ)
  | ilock (i : ℕ)
  | writei (i : ℕ) (src : Src) (off n : ℕ)
  | itrunc (i : ℕ)
  | iput (i : ℕ)
  | create (cwd : ℕ) (path : List UInt8) (type : FType) (major minor : BitVec 16)
  | link (cwd : ℕ) (old new : List UInt8)
  | unlink (cwd : ℕ) (path : List UInt8)

namespace FsOp

/-- Run an operation. -/
def exec : FsOp → FsM Unit
  | iget i => Fs.iget i
  | ilock i => Fs.ilock i
  | writei i src off n => do let _ ← Fs.writei i src off n
  | itrunc i => Fs.itrunc i
  | iput i => Fs.iput i
  | create cwd path type major minor => do let _ ← Fs.create cwd path type major minor
  | link cwd old new => do let _ ← sysLink cwd old new
  | unlink cwd path => do let _ ← sysUnlink cwd path

/-- What the caller has to see to: `writei` and `itrunc` need the inode locked, a length is an
unsigned 32-bit number, and a process holds a reference to its current directory. -/
def Ready (s : State) : FsOp → Prop
  | writei i _ _ n => s.Locked i ∧ n < 2 ^ 32
  | itrunc i => s.Locked i
  | create cwd _ _ _ _ => 0 < (s.itable cwd).ref
  | link cwd _ _ => 0 < (s.itable cwd).ref
  | unlink cwd _ => 0 < (s.itable cwd).ref
  | _ => True

/-- The state after an operation that returns. -/
def step (s : State) (op : FsOp) : Option State :=
  match op.exec s with
  | .ok (_, s') => some s'
  | .error _ => none

theorem exec_wf {lost : ℕ → Prop} {s : State} (h : s.WfBut lost) (op : FsOp) (hop : op.Ready s) :
    Outcome (op.exec s) (fun _ s' => s'.WfBut lost) Benign := by
  have hK := stable_wfBut lost
  cases op with
  | iget i =>
    refine (iget_keeps s i).imp fun _ s' hs => ?_
    rw [hs]
    exact h.refer i
  | ilock i => exact (hK.ilock h i).imp fun _ _ hs => hs.1.inv
  | writei i src off n =>
    exact (hK.writei h hop.1 trivial src off hop.2).bind fun _ _ hs => .ok hs.inv
  | itrunc i => exact (hK.itrunc h hop trivial).imp fun _ _ hs => hs.inv
  | iput i => exact (hK.iput h i).imp fun _ _ hs => hs.inv
  | create cwd path type major minor =>
    refine (hK.create h (fun _ _ _ _ _ => trivial) hop path ?_ type major minor).bind
      fun _ _ hs => .ok hs.1
    exact .of_true
  | link cwd old new =>
    exact (hK.sysLink h (fun _ _ _ _ _ => trivial) hop old new).bind fun _ _ hs => .ok hs
  | unlink cwd path =>
    exact (hK.sysUnlink h (fun _ _ _ _ _ => trivial) hop path).bind fun _ _ hs => .ok hs

end FsOp

/-- **Block ownership.** From a good file system without holes, whose in-memory inodes agree
with the disk, every sequence of operations leads to good states: each block in use is in
exactly one slot of one inode, and no operation frees a free block. -/
theorem block_ownership {s₀ s : State} (h₀ : s₀.Wf)
    (hr : Reach FsOp.step (fun s op => op.Ready s) s₀ s) (op : FsOp) (hop : op.Ready s) :
    s.Wf ∧ Outcome (op.exec s)
      (fun _ s' => s'.Wf ∧ Good s'.sb s'.dinode s'.used s'.data)
      (fun e => e ≠ .panic "freeing free block") := by
  have hwf : s.Wf := by
    refine hr.inv (I := fun s => s.Wf) h₀ fun s op s' h hop hs => ?_
    unfold FsOp.step at hs
    split at hs
    · next s'' he =>
      cases hs
      exact (FsOp.exec_wf h op hop).of_ok he
    · exact absurd hs nofun
  exact ⟨hwf, (FsOp.exec_wf hwf op hop).mono (fun _ s' h => ⟨h, h.good⟩) fun e he hc =>
    he (.inl hc)⟩

/-- The creation of a file in a fresh file system. -/
theorem block_ownership_mkfsImage :
    mkfsImage.Wf ∧ Outcome ((FsOp.create rootino [97] .file 0 0).exec mkfsImage)
      (fun _ s' => s'.Wf ∧ Good s'.sb s'.dinode s'.used s'.data)
      (fun e => e ≠ .panic "freeing free block") :=
  block_ownership mkfsImage_wf .refl (.create rootino [97] .file 0 0)
    (show 0 < (mkfsImage.itable rootino).ref by decide)

end Xv6.Fs
