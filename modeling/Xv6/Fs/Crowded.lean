import Xv6.Fs.Runs

/-!
# A full table of inodes

`iget` panics when it needs an entry of the table of inodes and all `NINODE` are in use. A lookup
holds a reference to the directory it searches, so it needs room for the directory and for the inode
that it finds there.

* `Tree.JamsPath`, `Tree.JamsNew`: following a path, or making a file there, comes to an inode for
  which there is no room.
* `lookups_crowd`: exactly then does `open` or `chdir` panic.
-/

namespace Xv6.Fs

open Lib

/-! ## Entries in use -/

/-- The entries that a reference to `i` takes when `r` counts the other references. -/
def slotFor (r : ℕ → ℕ) (i : ℕ) : ℕ := if r i = 0 then 1 else 0

/-- Searching directory `d` leads to inode `j`, for which the table has no entry and no room; `r`
counts the references, and `n` the entries in use, before the lookup. -/
def Crowded (r : ℕ → ℕ) (n d j : ℕ) : Prop := r j = 0 ∧ j ≠ d ∧ ninode ≤ n + slotFor r d

/-- Two references take as many entries in either order. -/
theorem slotFor_comm (r : ℕ → ℕ) (i j : ℕ) :
    slotFor r i + slotFor (more r i) j = slotFor r j + slotFor (more r j) i := by
  by_cases hij : i = j
  · rw [hij]
  · unfold slotFor
    rw [more_of_ne r hij, more_of_ne r (Ne.symm hij), Nat.add_comm]

section Inodes

variable {N : ℕ} {T : Tree} {r : ℕ → ℕ} {L : List ℕ} {s s' : State} {n i d : ℕ}

theorem At.full_iff (h : At N T r L s) (j : ℕ) : s.Full j ↔ r j = 0 ∧ ninode ≤ s.inuse := by
  unfold State.Full
  rw [h.ref]

theorem At.full_iff_crowded (h : At N T (more r d) L s) (hn : s.inuse = n + slotFor r d) (j : ℕ) :
    s.Full j ↔ Crowded r n d j := by
  rw [h.full_iff, hn]
  unfold Crowded
  by_cases hj : j = d
  · rw [hj, more_self]
    exact ⟨fun hc => absurd hc.1 (Nat.succ_ne_zero _), fun hc => absurd rfl hc.2.1⟩
  · rw [more_of_ne r hj]
    exact ⟨fun hc => ⟨hc.1, hj, hc.2⟩, fun hc => ⟨hc.1, hc.2.2⟩⟩

theorem At.inuse_refer (h : At N T r L s) (i : ℕ) : (s.refer i).inuse = s.inuse + slotFor r i := by
  have hr := h.ref i
  unfold State.refer slotFor
  split_ifs
  · omega
  · rfl
  · rfl
  · omega

/-- Dropping a reference that is not the last one to an inode without links. -/
theorem At.iput_unref (h : At N T (more r i) L s)
    (hi : T.type i ≠ .free → T.nlink i = 0 → 0 < r i) : iput i s = .ok ((), s.unref i) := by
  rcases iput_run h.wf i with ⟨s', -, -, hl, h1, hn⟩ | ⟨hrun, -⟩
  · obtain ⟨hd, hfree, hlt⟩ := h.wf.agree i hl
    have ht := State.tree_type hlt
    have hn' := State.tree_nlink hlt hfree
    have href := h.ref i
    rw [h.tree] at ht hn'
    rw [more_self] at href
    have := hi (by rwa [ht]) (by rw [hn', ← hd, hn])
    omega
  · exact hrun

theorem At.inuse_iput (h : At N T (more r i) L s)
    (hi : T.type i ≠ .free → T.nlink i = 0 → 0 < r i) (hrun : iput i s = .ok ((), s'))
    (hn : s.inuse = n + slotFor r i) : s'.inuse = n := by
  rw [h.iput_unref hi] at hrun
  obtain ⟨-, rfl⟩ := Prod.mk.inj (Except.ok.inj hrun)
  have href := h.ref i
  rw [more_self] at href
  unfold slotFor at hn
  unfold State.unref
  dsimp only
  split_ifs at hn ⊢ <;> omega

theorem At.inuse_iunlockput (h : At N T (more r i) L s)
    (hi : T.type i ≠ .free → T.nlink i = 0 → 0 < r i) (hrun : iunlockput i s = .ok ((), s'))
    (hn : s.inuse = n + slotFor r i) : s'.inuse = n := by
  unfold iunlockput at hrun
  have hpos : 0 < more r i i := by
    rw [more_self]
    exact Nat.succ_pos _
  rw [Run.bind_of_ok (iunlock_at h hpos)] at hrun
  exact h.inuse_iput hi hrun hn

/-- `ilock` takes no entry, and locks every inode that is in use. -/
theorem ilock_room (h : At N T r L s) (hpos : 0 < r i) :
    Outcome (ilock i s) (fun _ s' => At N T r (i :: L) s' ∧ s'.inuse = s.inuse)
      (fun e => e ≠ noInodes ∧ T.type i = .free) := by
  have hfree : (i < s.sb.ninodes → (s.dinode i).type = .free) → T.type i = .free := by
    intro hf
    rw [← h.tree]
    by_contra hne
    obtain ⟨hi, ht⟩ := State.type_of_tree hne
    exact hne (by rw [State.tree_type hi, hf hi])
  suffices hroom : Outcome (ilock i s) (fun _ s' => s'.inuse = s.inuse)
      (fun e => e ≠ noInodes ∧ T.type i = .free) from
    ((ilock_at h i).and hroom).stops fun _ he => he.2
  rcases ilock_run h.wf i with ⟨hrun, -⟩ | ⟨-, h0⟩ | ⟨hrun, hge⟩ | ⟨hrun, hf⟩
  · rw [hrun]
    exact .ok rfl
  · rw [h.ref] at h0
    omega
  · rw [hrun]
    exact .error ⟨by decide, hfree fun hi => by omega⟩
  · rw [hrun]
    exact .error ⟨by decide, hfree fun _ => hf⟩

end Inodes

/-! ## Paths -/

section Paths

variable (T : Tree) (r : ℕ → ℕ) (n : ℕ)

/-- The walk from `ip` comes to an inode for which there is no room. -/
def Tree.Jams (nameiparent : Bool) : (fuel ip : ℕ) → (path : List UInt8) → Prop
  | 0, _, _ => False
  | fuel + 1, ip, path =>
    match skipelem path with
    | none => False
    | some (name, path) => T.type ip = .dir ∧ ¬ (nameiparent = true ∧ path = []) ∧
        ∃ k, T.lookup ip name = some k ∧
          (Crowded r n ip (T.ent ip k) ∨ Jams nameiparent fuel (T.ent ip k) path)

/-- Following the path from the root or from the current directory does. -/
def Tree.JamsPath (cwd : ℕ) (path : List UInt8) (nameiparent : Bool) : Prop :=
  if path.head? = some slash then
    (r rootino = 0 ∧ ninode ≤ n) ∨ T.Jams r n nameiparent (path.length + 1) rootino path
  else T.Jams r n nameiparent (path.length + 1) cwd path

/-- There is no room for the inode with the name in `dp` or, if there is none, for a new one. -/
def Tree.JamsEntry (N dp : ℕ) (name : List UInt8) : Prop :=
  (∃ k, T.lookup dp name = some k ∧ Crowded r n dp (T.ent dp k)) ∨
    T.lookup dp name = none ∧ (∃ i, 1 ≤ i ∧ i < N ∧ T.type i = .free) ∧ ninode ≤ n + slotFor r dp

/-- Opening the file at the path, or making it if it is not there, jams. -/
def Tree.JamsNew (N cwd : ℕ) (path : List UInt8) : Prop :=
  T.JamsPath r n cwd path true ∨ ∃ dp name, T.resolve cwd path true = some (dp, name) ∧
    T.JamsEntry r n N dp name

variable {T r n} {N : ℕ} {s : State}

/-- How a lookup stops: for want of room if it jams, and otherwise where it leads nowhere. -/
def Stuck (J : Prop) (res : Option (ℕ × List UInt8)) (e : Stop) : Prop :=
  e = noInodes ∧ J ∨ e ≠ noInodes ∧ ¬ J ∧ res = none

/-- How a lookup that starts at `ip` stops; other than for want of room it does so only at a free
inode. -/
def StuckAt (T : Tree) (ip : ℕ) (J : Prop) (res : Option (ℕ × List UInt8)) (e : Stop) : Prop :=
  Stuck J res e ∧ (e ≠ noInodes → T.type ip ≠ .free → ¬ T.NoDangle)

/-- The entries that a result of a lookup takes. -/
def slotFound (r : ℕ → ℕ) (res : Option (ℕ × List UInt8)) : ℕ :=
  match res with
  | none => 0
  | some p => slotFor r p.1

theorem namexFrom_room (parent : Bool) (hr : T.Retains r) :
    ∀ (fuel ip : ℕ) (path name : List UInt8) (s : State), path.length < fuel →
    At N T (more r ip) [] s → s.inuse = n + slotFor r ip →
    Outcome (namexFrom parent fuel ip path name s)
      (fun res s' => ¬ T.Jams r n parent fuel ip path ∧ s'.inuse = n + slotFound r res)
      (StuckAt T ip (T.Jams r n parent fuel ip path) (T.walk parent fuel ip path name)) := by
  intro fuel
  induction fuel with
  | zero =>
    intro ip path name s hlen
    omega
  | succ fuel ih =>
    intro ip path name s hlen h hn
    unfold namexFrom Tree.Jams Tree.walk
    cases hskip : skipelem path with
    | none =>
      dsimp only
      cases parent with
      | false => exact .ok ⟨not_false, hn⟩
      | true =>
        obtain ⟨s', hrun, -⟩ := iput_held h (by simp) (hr ip)
        exact .bind_ok hrun (.ok ⟨not_false, h.inuse_iput (hr ip) hrun hn⟩)
    | some p =>
      obtain ⟨elem, rest⟩ := p
      have hshort := skipelem_length hskip
      dsimp only
      -- a walk that ends here has not jammed
      have hput : ∀ {P : Prop} {s₁ : State}, At N T (more r ip) [ip] s₁ → s₁.inuse = n + slotFor r ip →
          ¬ P → ∀ E, Outcome ((do iunlockput ip; return none : FsM (Option (ℕ × List UInt8))) s₁)
            (fun res s' => ¬ P ∧ s'.inuse = n + slotFound r res) E := by
        intro P s₁ h₁ hn₁ hP E
        have h₂ := h₁.unlocked
        obtain ⟨s', hrun, -⟩ := iunlockput_held h₂ (by simp) (hr ip)
        exact .bind_ok hrun (.ok ⟨hP, h₁.inuse_iunlockput (hr ip) hrun hn₁⟩)
      refine ((ilock_room h (by rw [more_self]; exact Nat.succ_pos _)).stops ?_).bind
        fun _ s₁ hs₁ => ?_
      · rintro e ⟨hne, hf⟩
        have hdir : T.type ip ≠ .dir := by
          rw [hf]
          decide
        exact ⟨.inr ⟨hne, fun hc => hdir hc.1, if_pos hdir⟩, fun _ hc => absurd hf hc⟩
      obtain ⟨h₁, hn₁⟩ := hs₁
      rw [hn] at hn₁
      obtain ⟨hd, -, -, ht, -⟩ := h₁.fields List.mem_cons_self
      rw [Run.get_bind, hd, ht]
      refine .ite (fun hdir => hput h₁ hn₁ (fun hc => hdir hc.1) _) fun hdir => ?_
      rw [not_not] at hdir
      refine .ite (fun hlast => ?_) fun hlast => ?_
      · refine .bind_ok (iunlock_at h₁ (h₁.locked_pos List.mem_cons_self)) (.ok ⟨?_, hn₁⟩)
        exact fun hc => hc.2.1 hlast
      -- the directory is searched
      refine ((dirlookup_at h₁ List.mem_cons_self hdir elem).stops ?_).bind
        fun res s₂ hres => ?_
      · rintro e ⟨rfl, k, hk, hfull⟩
        exact ⟨.inl ⟨rfl, hdir, hlast, k, hk, .inl ((h₁.full_iff_crowded hn₁ _).1 hfull)⟩,
          fun hne => absurd rfl hne⟩
      rcases hres with ⟨rfl, hno, rfl⟩ | ⟨k, hk, rfl, rfl, hroom⟩
      · refine hput h₁ hn₁ ?_ _
        rintro ⟨-, -, k, hk, -⟩
        rw [hno] at hk
        cases hk
      · have hiff : T.Jams r n parent fuel (T.ent ip k) rest ↔ T.type ip = .dir ∧
            ¬ (parent = true ∧ rest = []) ∧ ∃ k, T.lookup ip elem = some k ∧
              (Crowded r n ip (T.ent ip k) ∨ T.Jams r n parent fuel (T.ent ip k) rest) := by
          refine ⟨fun hj => ⟨hdir, hlast, k, hk, .inr hj⟩, ?_⟩
          rintro ⟨-, -, k', hk', hj⟩
          rw [hk] at hk'
          obtain rfl := Option.some.inj hk'
          exact hj.resolve_left fun hc => hroom ((h₁.full_iff_crowded hn₁ _).2 hc)
        have h₂ := h₁.refer (T.ent ip k)
        have hn₂ := h₁.inuse_refer (T.ent ip k)
        rw [more_comm] at h₂
        have hr₂ : T.type ip ≠ .free → T.nlink ip = 0 → 0 < more r (T.ent ip k) ip :=
          fun ht hn => (hr ip ht hn).trans_le (le_more r _ ip)
        obtain ⟨s', hrun, h'⟩ := iunlockput_held h₂.unlocked (by simp) hr₂
        have hn' : s'.inuse = n + slotFor r (T.ent ip k) := by
          refine h₂.inuse_iunlockput hr₂ hrun (hn₂.trans ?_)
          rw [hn₁, Nat.add_assoc, Nat.add_assoc, slotFor_comm]
        refine .bind_ok hrun ?_
        simp only [← hiff]
        rw [if_neg (not_not.2 hdir), if_neg hlast, hk]
        refine (ih _ _ _ s' (by omega) h' hn').stops ?_
        rintro e ⟨he, hdangle⟩
        refine ⟨he, fun hne _ hno => hdangle hne (hno ip k hdir ?_) hno⟩
        exact (Tree.lookup_some hk).2.1

theorem namex_room {cwd : ℕ} (h : At N T r [] s) (hn : s.inuse = n) (hc : 0 < r cwd)
    (path : List UInt8) (parent : Bool) :
    Outcome (namex cwd path parent s)
      (fun res s' => ¬ T.JamsPath r n cwd path parent ∧ s'.inuse = n + slotFound r res)
      (StuckAt T (if path.head? = some slash then rootino else cwd) (T.JamsPath r n cwd path parent)
        (T.resolve cwd path parent)) := by
  have hr : T.Retains r := fun _ => h.orphan_pos
  unfold namex Tree.JamsPath Tree.resolve
  by_cases hs : path.head? = some slash
  · rw [if_pos hs, if_pos hs, if_pos hs]
    refine ((iget_at h rootino).stops ?_).bind ?_
    · rintro e ⟨rfl, hfull⟩
      rw [h.full_iff, hn] at hfull
      exact ⟨.inl ⟨rfl, .inl hfull⟩, fun hne => absurd rfl hne⟩
    · rintro _ s' ⟨rfl, h', hroom⟩
      rw [h.full_iff, hn] at hroom
      simp only [hroom, false_or]
      exact namexFrom_room parent hr _ _ _ _ _ (Nat.lt_succ_self _) h' (by rw [h.inuse_refer, hn])
  · rw [if_neg hs, if_neg hs, if_neg hs]
    refine .bind_ok (idup_run (by rwa [h.ref cwd])) ?_
    exact namexFrom_room parent hr _ _ _ _ _ (Nat.lt_succ_self _) (h.refer cwd)
      (by rw [h.inuse_refer, hn])

/-- `create` for `open`. -/
theorem create_room {cwd : ℕ} (hd : T.Dots) (hN : N ≤ 2 ^ 16) (h : At N T r [] s) (hn : s.inuse = n)
    (hlive : ∀ j, 0 < r j → T.type j ≠ .free) (hc : 0 < r cwd) (path : List UInt8) :
    Outcome (create cwd path .file 0 0 s) (fun _ _ => ¬ T.JamsNew r n N cwd path)
      (fun e => e = noInodes ↔ T.JamsNew r n N cwd path) := by
  have hr : T.Retains r := fun _ => h.orphan_pos
  unfold create
  refine (((namex_at h hc (hlive cwd hc) path true).and (namex_room h hn hc path true)).stops fun e he => ?_).bind fun res s₁ ⟨⟨hres, h₁⟩, hno, hn₁⟩ => ?_
  · rcases he.2.1 with ⟨rfl, hj⟩ | ⟨hne, hj, hres⟩
    · exact ⟨fun _ => .inl hj, fun _ => rfl⟩
    · refine ⟨fun hc => absurd hc hne, fun hc => ?_⟩
      rcases hc with hc | ⟨dp, name, hc, -⟩
      · exact absurd hc hj
      · rw [hres] at hc
        exact absurd hc nofun
  rcases res with _ | ⟨dp, name⟩
  · refine .ok fun hj => ?_
    rcases hj with hj | ⟨dp, name, hj, -⟩
    · exact hno hj
    · rw [← hres] at hj
      exact absurd hj nofun
  have hdir := Tree.walk_parent hres.symm
  change At N T (more r dp) [] s₁ at h₁
  change s₁.inuse = n + slotFor r dp at hn₁
  have hiff : T.JamsNew r n N cwd path ↔ T.JamsEntry r n N dp name := by
    unfold Tree.JamsNew
    rw [← hres]
    constructor
    · rintro (hj | ⟨dp', name', heq, hj⟩)
      · exact absurd hj hno
      · obtain ⟨rfl, rfl⟩ := Prod.mk.inj (Option.some.inj heq)
        exact hj
    · exact fun hj => .inr ⟨dp, name, rfl, hj⟩
  rw [hiff]
  refine ((ilock_room h₁ (by rw [more_self]; exact Nat.succ_pos _)).stops
    fun e he => absurd (hdir.symm.trans he.2) nofun).bind fun _ s₂ ⟨h₂, hn₂⟩ => ?_
  rw [hn₁] at hn₂
  refine ((dirlookup_at h₂ List.mem_cons_self hdir name).stops ?_).bind
    fun res s₃ hs => ?_
  · rintro e ⟨rfl, k, hk, hfull⟩
    exact ⟨fun _ => .inl ⟨k, hk, (h₂.full_iff_crowded hn₂ _).1 hfull⟩, fun _ => rfl⟩
  rcases hs with ⟨rfl, hlook, rfl⟩ | ⟨k, hlook, rfl, rfl, hroom⟩
  · -- a new inode
    have hiff' : T.JamsEntry r n N dp name ↔
        (∃ i, 1 ≤ i ∧ i < N ∧ T.type i = .free) ∧ ninode ≤ n + slotFor r dp := by
      refine ⟨fun hj => ?_, fun hj => .inr ⟨hlook, hj⟩⟩
      rcases hj with ⟨k, hk, -⟩ | ⟨-, hj⟩
      · rw [hlook] at hk
        exact absurd hk nofun
      · exact hj
    have hfree : ∀ {i}, i < s₃.sb.ninodes → (s₃.dinode i).type = T.type i := by
      intro i hi
      rw [← h₂.tree, State.tree_type hi]
    have hnum := h₂.num
    rw [hiff']
    rcases ialloc_run s₃ .file with ⟨hrun, hnone⟩ | ⟨ip, h1, hip, hf, halloc⟩
    · refine .bind_ok hrun ?_
      obtain ⟨s', hrun', -⟩ := iunlockput_held h₂.unlocked nofun (hr dp)
      refine .bind_ok hrun' (.ok ?_)
      rintro ⟨⟨i, h1, hi, hf⟩, -⟩
      exact hnone i h1 (by omega) (by rw [hfree (by omega), hf])
    · have hfree' : T.type ip = .free := by rw [← hfree hip, hf]
      have hr0 : r ip = 0 := by
        by_contra h0
        exact hlive ip (Nat.pos_of_ne_zero h0) hfree'
      have hne : ip ≠ dp := by
        rintro rfl
        rw [hfree'] at hdir
        exact absurd hdir nofun
      have hfull : s₃.Full ip ↔ ninode ≤ n + slotFor r dp := by
        rw [h₂.full_iff_crowded hn₂]
        exact ⟨fun hc => hc.2.2, fun hc => ⟨hr0, hne, hc⟩⟩
      rcases halloc with ⟨hrun, hroom⟩ | ⟨hrun, hno'⟩
      · have hno' : ¬ ((∃ i, 1 ≤ i ∧ i < N ∧ T.type i = .free) ∧ ninode ≤ n + slotFor r dp) :=
          fun hc => hroom (hfull.2 hc.2)
        refine .bind_ok hrun ?_
        have hfile : FType.file ≠ .free := nofun
        exact (createNew_at hd hN h₂ hdir h1 hip hf hfile hr0 hr name 0 0).mono
          (fun _ _ _ => hno') fun e he => absurd hlook (he.2 nofun)
      · refine .bind_error hrun ⟨fun _ => ⟨⟨ip, h1, by omega, hfree'⟩, hfull.1 hno'⟩, fun _ => rfl⟩
  · -- the name is there
    have hj : ¬ T.JamsEntry r n N dp name := by
      rintro (⟨k', hk', hc⟩ | ⟨hc, -⟩)
      · rw [hlook] at hk'
        obtain rfl := Option.some.inj hk'
        exact hroom ((h₂.full_iff_crowded hn₂ _).2 hc)
      · rw [hlook] at hc
        exact absurd hc nofun
    have h₃ := h₂.refer (T.ent dp k)
    rw [more_comm] at h₃
    obtain ⟨s₄, hrun₄, h₄⟩ := iunlockput_held h₃.unlocked nofun
      fun ht hn => (hr dp ht hn).trans_le (le_more r _ dp)
    refine .bind_ok hrun₄ ?_
    refine ((ilock_room h₄ (by rw [more_self]; exact Nat.succ_pos _)).stops
      fun e he => ⟨fun hc => absurd hc he.1, fun hc => absurd hc hj⟩).bind fun _ s₅ hs => ?_
    have h₅ := hs.1
    rw [Run.get_bind]
    refine .ite (fun _ => .ok hj) fun _ => ?_
    obtain ⟨s', hrun', -⟩ := iunlockput_held h₅.unlocked nofun fun ht hn => hr _ ht hn
    exact .bind_ok hrun' (.ok hj)

end Paths

/-! ## What needs no room -/

/-- The computation never stops for want of an entry of the table. -/
def Ample {σ α : Type} (m : StateT σ (Except Stop) α) : Prop :=
  Preserves (fun _ => True) (fun e => e ≠ noInodes) m

namespace Ample

theorem of_panic {α : Type} {text : String} (h : Stop.panic text ≠ noInodes) :
    Ample (panic text : FsM α) := .of_throw h

theorem of_bfree (b : ℕ) : Ample (bfree b) :=
  .of_get fun _ => .of_ite (of_panic (by decide))
    (.of_bind (.of_modify fun _ _ => trivial) fun _ => .of_modify fun _ _ => trivial)

theorem of_setD (i : ℕ) (f : Dinode → Dinode) : Ample (setD i f) := .of_modify fun _ _ => trivial

theorem of_iupdate (i : ℕ) : Ample (iupdate i) :=
  .of_bind (.of_modify fun _ _ => trivial) fun _ => .of_get fun _ => .of_modify fun _ _ => trivial

theorem of_freeDirect (i : ℕ) : ∀ ks, Ample (freeDirect i ks)
  | [] => .of_pure _
  | _ :: ks => .of_get fun _ => .of_ite
      (.of_bind (of_bfree _) fun _ => .of_bind (of_setD i _) fun _ => of_freeDirect i ks)
      (of_freeDirect i ks)

theorem of_freeIndirect (a : Block) : ∀ js, Ample (freeIndirect a js)
  | [] => .of_pure _
  | _ :: js => .of_ite (.of_bind (of_bfree _) fun _ => of_freeIndirect a js) (of_freeIndirect a js)

theorem of_itrunc (i : ℕ) : Ample (itrunc i) := by
  refine .of_bind (of_freeDirect i _) fun _ => .of_bind (.of_get fun s => ?_) fun _ =>
    .of_bind (of_setD i _) fun _ => of_iupdate i
  exact .of_ite (.of_bind (of_freeIndirect _ _) fun _ => .of_bind (of_bfree _) fun _ => of_setD i _)
    (.of_pure _)

theorem of_iput (i : ℕ) : Ample (iput i) := by
  have hdrop : Ample (drop i) := .of_modify fun _ _ => trivial
  have hfree : Ample (ifree i) := .of_bind (of_itrunc i) fun _ => .of_bind (of_setD i _) fun _ =>
    .of_bind (of_iupdate i) fun _ => .of_modify fun _ _ => trivial
  exact .of_get fun _ => .of_ite (.of_bind hfree fun _ => hdrop) hdrop

theorem of_ilock (i : ℕ) : Ample (ilock i) :=
  .of_get fun _ => .of_ite (of_panic (by decide)) (.of_ite (.of_pure _) (.of_ite
    (.of_throw (by decide)) (.of_ite (of_panic (by decide)) (.of_modify fun _ _ => trivial))))

theorem of_iunlock (i : ℕ) : Ample (iunlock i) :=
  .of_get fun _ => .of_ite (of_panic (by decide)) (.of_pure _)

theorem of_iunlockput (i : ℕ) : Ample (iunlockput i) := .of_bind (of_iunlock i) fun _ => of_iput i

theorem of_onFs {α : Type} {m : FsM α} (h : Ample m) : Ample (onFs m) := by
  intro s _
  have hm := h s.fs trivial
  unfold onFs
  cases hrun : m s.fs with
  | ok a => exact .ok trivial
  | error e => exact .error (hm.of_error hrun)

theorem of_setProc (p : ℕ) (g : Proc → Proc) : Ample (setProc p g) := .of_modify fun _ _ => trivial

theorem of_setFile (f : ℕ) (g : File → File) : Ample (setFile f g) := .of_modify fun _ _ => trivial

theorem of_filealloc : Ample filealloc := by
  refine .of_get fun s => ?_
  cases (List.range nfile).find? fun f => decide ((s.ftable f).ref = 0) with
  | none => exact .of_pure _
  | some f => exact .of_bind (of_setFile f _) fun _ => .of_pure _

theorem of_fdalloc (p f : ℕ) : Ample (fdalloc p f) := by
  refine .of_get fun s => ?_
  cases (List.range nofile).find? fun fd => ((s.procs p).ofile fd).isNone with
  | none => exact .of_pure _
  | some fd => exact .of_bind (of_setProc p _) fun _ => .of_pure _

theorem of_fileclose (f : ℕ) : Ample (fileclose f) := by
  refine .of_get fun s => .of_ite (.of_throw (by decide)) (.of_ite (of_setFile f _) ?_)
  refine .of_bind (of_setFile f _) fun _ => ?_
  cases (s.ftable f).type with
  | none => exact .of_pure _
  | pipe =>
    refine .of_get fun s' => ?_
    cases s'.pipes (s.ftable f).pipe with
    | none => exact .of_throw (by decide)
    | some e => exact .of_modify fun _ _ => trivial
  | inode | device => exact of_onFs (of_iput _)

theorem of_openInode (p ip omode : ℕ) : Ample (openInode p ip omode) := by
  have hfail : Ample (do onFs (iunlockput ip); return (-1 : ℤ)) :=
    .of_bind (of_onFs (of_iunlockput ip)) fun _ => .of_pure _
  refine .of_get fun s => .of_ite hfail (.of_bind of_filealloc fun r => ?_)
  cases r with
  | none => exact hfail
  | some f =>
    refine .of_bind (of_fdalloc p f) fun fd => ?_
    cases fd with
    | none => exact .of_bind (of_fileclose f) fun _ => hfail
    | some fd =>
      refine .of_bind (.of_get fun _ => .of_bind (of_setFile f _) fun _ => ?_) fun _ => .of_pure _
      have hun : Ample (onFs (iunlock ip)) := of_onFs (of_iunlock ip)
      exact .of_ite (.of_bind (of_onFs (of_itrunc ip)) fun _ => hun) hun

theorem of_fork (p cwd q : ℕ) : Ample (fork p cwd q) := by
  have hdup : ∀ fds, Ample (dupAll p q fds) := by
    intro fds
    induction fds with
    | nil => exact .of_pure _
    | cons fd fds ih =>
      refine .of_get fun s => ?_
      cases (s.procs p).ofile fd with
      | none => exact ih
      | some f =>
        refine .of_bind (.of_get fun _ => .of_ite (.of_throw (by decide)) (of_setFile f _)) fun _ => ?_
        exact .of_bind (of_setProc q _) fun _ => ih
  refine .of_get fun s => .of_ite (.of_bind (hdup _) fun _ => ?_) (.of_pure _)
  exact .of_bind (of_onFs (.of_modify fun _ _ => trivial)) fun _ => .of_bind (of_setProc q _) fun _ =>
    .of_pure _

end Ample

/-! ## Calls -/

/-- The run stops for want of an entry exactly if `J`. -/
def StopsIff {σ α : Type} (J : Prop) (r : Except Stop (α × σ)) : Prop :=
  Outcome r (fun _ _ => ¬ J) (fun e => e = noInodes ↔ J)

theorem Ample.stopsIff {σ α : Type} {m : StateT σ (Except Stop) α} (h : Ample m) {J : Prop}
    (hJ : ¬ J) (s : σ) : StopsIff J (m s) :=
  (h s trivial).mono (fun _ _ _ => hJ) fun _ he => ⟨fun hc => absurd hc he, fun hc => absurd hc hJ⟩

theorem StopsIff.iff {σ α : Type} {J : Prop} {r : Except Stop (α × σ)} (h : StopsIff J r) :
    r = .error noInodes ↔ J := by
  unfold StopsIff Outcome at h
  split at h
  · exact ⟨nofun, fun hc => absurd hc h⟩
  · exact ⟨fun hc => h.1 (Except.error.inj hc), fun hc => congrArg _ (h.2 hc)⟩

/-- The call comes to an inode for which there is no room; `r` counts the references and `n` the
entries in use. -/
def Call.Jams (T : Tree) (N : ℕ) (r : ℕ → ℕ) (n cwd : ℕ) : Call → Prop
  | .open path omode => ∃ path', argstr path = some path' ∧
      ((omode.testBit oCreate = true ∧ T.JamsNew r n N cwd path') ∨
        omode.testBit oCreate = false ∧ T.JamsPath r n cwd path' false)
  | .chdir path => ∃ path', argstr path = some path' ∧ T.JamsPath r n cwd path' false
  | _ => False

/-- The calls that look up files and hold on to them. -/
def Call.holds : Call → Bool
  | .open _ _ => true
  | .chdir _ => true
  | .fork _ => true
  | _ => false

section Calls

variable {N : ℕ} {T : Tree} {s : Sys} {p cwd : ℕ}

theorem namei_room (h : SysOk N T s) (hcwd : (s.procs p).cwd = some cwd) (path : List UInt8)
    {J : Prop} (hJ : J ↔ T.JamsPath s.refs s.fs.inuse cwd path false) {k : Option ℕ → SysM ℤ}
    (hk : ∀ r, Ample (k r)) : StopsIff J ((onFs (namei cwd path) >>= k) s) := by
  have hc := h.toBooks.cwd_pos hcwd
  have hn : Outcome (namei cwd path s.fs) (fun _ _ => ¬ J) (fun e => e = noInodes ↔ J) := by
    refine ((namex_room h.start rfl hc path false).stops ?_).bind
      fun res fs' hs => .ok (mt hJ.1 hs.1)
    rintro e ⟨⟨rfl, hj⟩ | ⟨hne, hj, -⟩, -⟩
    · exact ⟨fun _ => hJ.2 hj, fun _ => rfl⟩
    · exact ⟨fun hc => absurd hc hne, fun hc => absurd (hJ.1 hc) hj⟩
  refine (onFs_at hn).bind ?_
  rintro r _ ⟨fs', rfl, hno⟩
  exact (hk r).stopsIff hno _

/-- **`open`, `chdir` and `fork`** stop for want of an entry exactly if they jam. -/
theorem Call.room (hd : T.Dots) (hN : N ≤ 2 ^ 16) (h : SysOk N T s)
    (hcwd : (s.procs p).cwd = some cwd) {c : Call} (hc : c.holds = true) :
    StopsIff (c.Jams T N s.refs s.fs.inuse cwd) (c.run p cwd s) := by
  have hpos := h.toBooks.cwd_pos hcwd
  cases c with
  | «open» path omode =>
    change StopsIff _ (sysOpen p cwd path omode s)
    unfold sysOpen
    cases hpath : argstr path with
    | none =>
      refine .ok ?_
      rintro ⟨path', hp, -⟩
      rw [hpath] at hp
      exact absurd hp nofun
    | some path' =>
      have hJ : (Call.open path omode).Jams T N s.refs s.fs.inuse cwd ↔
          (omode.testBit oCreate = true ∧ T.JamsNew s.refs s.fs.inuse N cwd path') ∨
            omode.testBit oCreate = false ∧ T.JamsPath s.refs s.fs.inuse cwd path' false := by
        refine ⟨fun ⟨path'', hp, hj⟩ => ?_, fun hj => ⟨path', hpath, hj⟩⟩
        rw [hpath] at hp
        rwa [Option.some.inj hp]
      dsimp only
      unfold openPath
      cases hcreate : omode.testBit oCreate with
      | true =>
        simp only [hcreate, true_and, false_and, or_false, Bool.true_eq_false] at hJ
        rw [if_pos rfl]
        refine (onFs_at ((create_room hd hN h.start rfl h.live hpos path').mono
          (fun _ _ hs => mt hJ.1 hs) fun e he => he.trans hJ.symm)).bind ?_
        rintro r _ ⟨fs', rfl, hno⟩
        cases r with
        | none => exact .ok hno
        | some ip => exact (Ample.of_openInode p ip omode).stopsIff hno _
      | false =>
        simp only [hcreate, true_and, false_and, false_or, Bool.false_eq_true] at hJ
        rw [if_neg Bool.false_ne_true]
        refine namei_room h hcwd path' hJ fun r => ?_
        cases r with
        | none => exact .of_pure _
        | some ip =>
          refine .of_bind (Ample.of_onFs (.of_ilock ip)) fun _ => .of_get fun _ => ?_
          refine .of_ite ?_ (Ample.of_openInode p ip omode)
          exact .of_bind (Ample.of_onFs (.of_iunlockput ip)) fun _ => .of_pure _
  | chdir path =>
    change StopsIff _ (sysChdir p cwd path s)
    unfold sysChdir
    cases hpath : argstr path with
    | none =>
      refine .ok ?_
      rintro ⟨path', hp, -⟩
      rw [hpath] at hp
      exact absurd hp nofun
    | some path' =>
      have hJ : (Call.chdir path).Jams T N s.refs s.fs.inuse cwd ↔
          T.JamsPath s.refs s.fs.inuse cwd path' false := by
        refine ⟨fun ⟨path'', hp, hj⟩ => ?_, fun hj => ⟨path', hpath, hj⟩⟩
        rw [hpath] at hp
        rwa [Option.some.inj hp]
      refine namei_room h hcwd path' hJ fun r => ?_
      cases r with
      | none => exact .of_pure _
      | some ip =>
        refine .of_bind (Ample.of_onFs (.of_ilock ip)) fun _ => .of_get fun _ => .of_ite ?_ ?_
        · exact .of_bind (Ample.of_onFs (.of_iunlockput ip)) fun _ => .of_pure _
        · exact .of_bind (Ample.of_onFs (.of_iunlock ip)) fun _ =>
            .of_bind (Ample.of_onFs (.of_iput cwd)) fun _ =>
              .of_bind (Ample.of_setProc p _) fun _ => .of_pure _
  | fork q => exact (Ample.of_fork p cwd q).stopsIff not_false s
  | _ => exact absurd hc nofun

end Calls

/-- **A call runs out of inodes exactly if a lookup on its way does**: in every state of every run,
`open`, `chdir` and `fork` panic in `iget` exactly if the path leads to an inode that is not in the
table while all `NINODE` entries are taken, the one of the directory that is searched included. -/
theorem lookups_crowd {s₀ s : Sys} (h₀ : Boot s₀) (hr : Reach Sys.step (fun _ _ => True) s₀ s)
    (p : ℕ) {c : Call} (hc : c.holds = true) :
    s.stop (p, c) = some (.panic "iget: no inodes") ↔ ∃ cwd, (s.procs p).cwd = some cwd ∧
      c.Jams s.fs.tree s.fs.sb.ninodes s.refs s.fs.inuse cwd := by
  have h := h₀.reach_sane hr
  have hnum := h.ok.fs.num
  constructor
  · intro hstop
    obtain ⟨cwd, hcwd, hrun⟩ := Sys.stop_some hstop
    refine ⟨cwd, hcwd, ?_⟩
    rw [hnum]
    exact (Call.room h.dots h₀.small h.ok hcwd hc).iff.1 hrun
  · rintro ⟨cwd, hcwd, hj⟩
    rw [hnum] at hj
    have hrun := (Call.room h.dots h₀.small h.ok hcwd hc).iff.2 hj
    unfold Sys.stop
    rw [hcwd]
    dsimp only
    rw [hrun]
    rfl

/-- A process has made two files, and opens the first one again. -/
theorem lookups_crowd_open : ∃ s, Reach Sys.step (fun _ _ => True) bootSys s ∧
    (s.fs.itable 2).ref = 1 ∧ (s.fs.itable 3).ref = 1 ∧ ¬ ∃ cwd, (s.procs 0).cwd = some cwd ∧
      (Call.open [97] 0).Jams s.fs.tree s.fs.sb.ninodes s.refs s.fs.inuse cwd := by
  obtain ⟨s, hr, h2, h3, hstop⟩ : ∃ s, Reach Sys.step (fun _ _ => True) bootSys s ∧
      (s.fs.itable 2).ref = 1 ∧ (s.fs.itable 3).ref = 1 ∧
      s.stop (0, .open [97] 0) ≠ some (.panic "iget: no inodes") :=
    exists_reach [(0, .open [97] 0x200), (0, .open [98] 0x200)] (by decide +kernel)
  exact ⟨s, hr, h2, h3, mt (lookups_crowd bootSys_boot hr 0 rfl).2 hstop⟩

/-! ## Fifty files

The image that `mkfs` writes when it is given fifty empty files, and four processes that open them. -/

/-- The entries of the root directory. -/
def manyEntry (k : ℕ) : Dirent :=
  if k = 0 then ⟨rootino, padded dot⟩
  else if k = 1 then ⟨rootino, padded dotdot⟩
  else if k < 52 then ⟨k, padded [UInt8.ofNat (46 + k)]⟩
  else ⟨0, fun _ => 0⟩

/-- The block with the entries. -/
def manyBlock : Lib.Bytes bsize := fun o =>
  ((manyEntry (o.val / direntSize)).encode (o.val % direntSize)).getD 0

/-- An empty file with one name. -/
def emptyDinode : Dinode := { Dinode.zero with type := .file, nlink := 1 }

/-- The image. -/
def manyImage : State :=
  { mkfsImage with
    dinode := fun i => if i = rootino then rootDinode else if 2 ≤ i ∧ i < 52 then emptyDinode else .zero
    data := fun b => if b = mkfsSb.datastart then manyBlock else fun _ => 0 }

/-- The system that boots from it. -/
def manySys : Sys := { bootSys with fs := manyImage }

theorem manyImage_dinode {i : ℕ} (h : (manyImage.dinode i).type ≠ .free) :
    (i = rootino ∧ manyImage.dinode i = rootDinode) ∨
      (2 ≤ i ∧ i < 52) ∧ manyImage.dinode i = emptyDinode := by
  unfold manyImage at h ⊢
  dsimp only at h ⊢
  split_ifs at h ⊢ with h1 h2
  · exact .inl ⟨h1, rfl⟩
  · exact .inr ⟨h2, rfl⟩
  · exact absurd rfl h

theorem manyImage_wf : manyImage.Wf := by
  refine .of_root rfl (fun _ => decide_eq_true_iff) rfl (fun i hi ht => ?_) fun _ => rfl
  obtain ⟨hr, -⟩ | ⟨-, hd⟩ := manyImage_dinode ht
  · exact absurd hr hi
  · rw [hd]
    exact ⟨rfl, fun _ _ => rfl⟩

theorem manyImage_ent {k : ℕ} (h2 : 2 ≤ k) :
    manyImage.tree.ent rootino k = if k < 52 then k else 0 := by
  by_cases hk : k < 64
  · have hall : ∀ k < 64, 2 ≤ k → manyImage.tree.ent rootino k = if k < 52 then k else 0 := by
      decide
    exact hall k hk h2
  · rw [if_neg (by omega)]
    refine if_neg fun hhas => ?_
    have : direntSize * (k + 1) ≤ 1024 := hhas.2.2
    simp only [direntSize] at this
    omega

theorem manyImage_tree {i : ℕ} (h2 : 2 ≤ i) (hi : i < 52) :
    manyImage.tree.type i = .file ∧ manyImage.tree.nlink i = 1 := by
  have hlt : i < manyImage.sb.ninodes := by
    have : manyImage.sb.ninodes = 200 := rfl
    omega
  have hd : manyImage.dinode i = emptyDinode := by
    unfold manyImage
    dsimp only
    rw [if_neg (by unfold rootino; omega), if_pos ⟨h2, hi⟩]
  refine ⟨(State.tree_type hlt).trans (by rw [hd]; rfl), ?_⟩
  rw [State.tree_nlink hlt (by rw [hd]; exact nofun), hd]
  rfl

theorem manySys_boot : Boot manySys where
  toIdle := bootSys_idle (fun _ => rfl) rfl
  wf := manyImage_wf
  small := by decide
  aligned := by decide
  unused := by decide
  root := by decide
  dot := ⟨by decide, State.tree_name_padded (by decide) (by decide)⟩
  dotdot := ⟨by decide, State.tree_name_padded (by decide) (by decide)⟩
  named k h2 hne := by
    change manyImage.tree.ent rootino k ≠ 0 at hne
    change manyImage.tree.type (manyImage.tree.ent rootino k) ≠ _ ∧ manyImage.tree.ent rootino k ≠ _
    rw [manyImage_ent h2] at hne ⊢
    split_ifs at hne ⊢ with hk
    · rw [(manyImage_tree h2 hk).1]
      exact ⟨nofun, by unfold rootino; omega⟩
    · exact absurd rfl hne
  files i hi hr := by
    obtain ⟨hlt, ht⟩ := State.type_of_tree hi
    rcases manyImage_dinode (fun hf => hi (ht.symm.trans hf)) with ⟨hc, -⟩ | ⟨⟨h2, h52⟩, -⟩
    · exact absurd hc hr
    obtain ⟨htype, hlink⟩ := manyImage_tree h2 h52
    refine ⟨?_, hlink, i, h2, fun k' hk' => ?_⟩
    · change manyImage.tree.type i ≠ .dir
      rw [htype]
      exact nofun
    · change manyImage.tree.ent rootino k' = i ↔ k' = i
      rw [manyImage_ent hk']
      split_ifs with h
      · exact Iff.rfl
      · exact ⟨fun hc => absurd hc (by omega), fun hc => absurd hc (by omega)⟩

/-- After three forks each process opens sixteen files, the last one only one. -/
def manyCalls : List (ℕ × Call) :=
  [(0, .fork 1), (0, .fork 2), (0, .fork 3)] ++
    (List.range 49).map fun k => (k / 16, .open [UInt8.ofNat (48 + k)] 0)

/-- **The table overflows.** Four processes hold the root directory and 49 files, well within
`NPROC`, `NOFILE` and `NFILE`; the next `open` panics. -/
theorem inode_table_overflows : Boot manySys ∧ ∃ s,
    Reach Sys.step (fun _ x => x.2.holds = true) manySys s ∧
      s.stop (3, .open [97] 0) = some (.panic "iget: no inodes") :=
  ⟨manySys_boot, exists_reach manyCalls (by decide +kernel)⟩

end Xv6.Fs
