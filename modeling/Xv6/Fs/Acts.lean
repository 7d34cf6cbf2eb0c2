import Xv6.Fs.Names
import Xv6.Fs.Call

/-!
# The calls make the changes of the tree

`create`, `link` and `unlink`, if they return, have made one change of `Tree.Act` or none, whatever
the link counts are. On every error path the steps taken so far are undone.

* `create_at`, `link_at`, `unlink_at`: what each of them does to the tree and to the references.
* `Does`: the changes that a system call may make, read off the paths it is given.
-/

namespace Xv6.Fs

open Function Lib

/-! ## Changes to one inode -/

namespace Tree

variable {T T' T'' : Tree} {i j : ℕ}

theorem SameAt.refl : T.SameAt T j := ⟨rfl, rfl, rfl, rfl⟩

theorem SameAt.trans (h : T.SameAt T' j) (h' : T'.SameAt T'' j) : T.SameAt T'' j :=
  ⟨h'.type.trans h.type, h'.nlink.trans h.nlink, h'.ent.trans h.ent, h'.name.trans h.name⟩

theorem sameAt_setType (hj : j ≠ i) (t : FType) : T.SameAt (T.setType i t) j :=
  ⟨update_of_ne hj _ _, rfl, rfl, rfl⟩

theorem sameAt_setNlink (hj : j ≠ i) (n : BitVec 16) : T.SameAt (T.setNlink i n) j :=
  ⟨rfl, update_of_ne hj _ _, rfl, rfl⟩

theorem sameAt_setEnt (hj : j ≠ i) (k e : ℕ) (nm : ℕ → UInt8) : T.SameAt (T.setEnt i k e nm) j :=
  ⟨rfl, rfl, update_of_ne hj _ _, update_of_ne hj _ _⟩

/-- Nothing is known of inode `i`. -/
structure Blank (T : Tree) (i : ℕ) : Prop where
  type : T.type i = .free
  nlink : T.nlink i = 0
  ent : ∀ k, T.ent i k = 0
  name : ∀ k, T.name i k = fun _ => 0

/-- Freeing a blank inode that has been worked on takes the work back. -/
theorem free_of_blank (hb : T.Blank i) (h : ∀ j, j ≠ i → T.SameAt T' j) : T'.free i = T := by
  refine ext_of_sameAt fun j => ?_
  by_cases hj : j = i
  · subst hj
    refine ⟨?_, ?_, funext fun k => ?_, funext fun k => ?_⟩
    · rw [free_type, if_pos rfl, hb.type]
    · rw [free_nlink, if_pos rfl, hb.nlink]
    · rw [free_ent, if_pos rfl, hb.ent]
    · rw [free_name, if_pos rfl, hb.name]
  · have := h j hj
    refine ⟨?_, ?_, funext fun k => ?_, funext fun k => ?_⟩
    · rw [free_type, if_neg hj, this.type]
    · rw [free_nlink, if_neg hj, this.nlink]
    · rw [free_ent, if_neg hj, this.ent]
    · rw [free_name, if_neg hj, this.name]

theorem setNlink_setNlink (T : Tree) (i : ℕ) (m n : BitVec 16) :
    (T.setNlink i m).setNlink i n = T.setNlink i n := by
  unfold setNlink
  rw [update_idem]

theorem setNlink_self (T : Tree) (i : ℕ) : T.setNlink i (T.nlink i) = T := by
  unfold setNlink
  rw [update_eq_self]

variable {r : ℕ → ℕ}

theorem settle_congr {r' : ℕ → ℕ} (h : r i = r' i) : T.settle r i = T.settle r' i := by
  unfold settle
  rw [h]

theorem settle_sameAt (hj : j ≠ i) : T.SameAt (T.settle r i) j := by
  unfold settle
  split_ifs
  · exact ⟨by rw [free_type, if_neg hj], by rw [free_nlink, if_neg hj],
      funext fun k => by rw [free_ent, if_neg hj], funext fun k => by rw [free_name, if_neg hj]⟩
  · exact .refl

/-- A link count of another inode may be set before or after. -/
theorem settle_setNlink (hj : j ≠ i) (n : BitVec 16) :
    (T.settle r i).setNlink j n = (T.setNlink j n).settle r i := by
  have hn : (T.setNlink j n).nlink i = T.nlink i := by rw [setNlink_nlink, if_neg hj.symm]
  unfold settle
  rw [hn, setNlink_type]
  split_ifs
  · unfold free setNlink
    dsimp only
    rw [update_comm hj]
  · rfl

theorem settle_type (hj : 0 < r j) : (T.settle r i).type j = T.type j := by
  unfold settle
  split_ifs with hc
  · rw [free_type, if_neg]
    rintro rfl
    omega
  · rfl

end Tree

/-! ## `create` -/

section Create

variable {N : ℕ} {T : Tree} {r : ℕ → ℕ} {L : List ℕ} {s : State} {dp ip : ℕ}

theorem At.blank (h : At N T r L s) (ht : T.type ip = .free) : T.Blank ip := by
  have := h.tree ▸ ht
  obtain ⟨h1, h2, h3⟩ := State.tree_free this
  rw [h.tree] at h1 h2 h3
  exact ⟨ht, h1, h2, h3⟩

/-- `create` gives up: the new inode is freed again. -/
theorem createFail_at {T' : Tree} (h : At N T' (more (more r dp) ip) L s) (hip : ip ∈ L)
    (hb : T.Blank ip) (hsame : ∀ j, j ≠ ip → T.SameAt T' j) (hr0 : r ip = 0) (hne : ip ≠ dp)
    (hr : T.Retains r) :
    ∃ s', createFail dp ip s = .ok (none, s') ∧ At N T r [] s' := by
  obtain ⟨-, -, hfree, -, -⟩ := h.fields hip
  have h₁ := (h.putD hip (d := { (s.itable ip).d with nlink := 0 }) rfl rfl rfl).unlocked
  obtain ⟨s₂, hr₂, h₂⟩ := iunlockput_at h₁ nofun
  -- nobody else refers to the new inode
  have hset : (T'.setNlink ip 0).settle (more r dp) ip = T := by
    unfold Tree.settle
    rw [if_pos]
    · refine Tree.free_of_blank hb fun j hj => (hsame j hj).trans (Tree.sameAt_setNlink hj 0)
    · exact ⟨by rw [more_of_ne r hne, hr0], hfree, by rw [Tree.setNlink_nlink, if_pos rfl]⟩
  rw [hset] at h₂
  obtain ⟨s₃, hr₃, h₃⟩ := iunlockput_held h₂ nofun (hr dp)
  refine ⟨s₃, ?_, h₃⟩
  unfold createFail
  rw [Run.bind_of_ok (updateD_run s ip _), Run.bind_of_ok hr₂, Run.bind_of_ok hr₃]
  rfl

variable {type : FType}

/-- A free inode is taken and given its first link. -/
theorem newInode_at (h : At N T r L s) (h1 : 1 ≤ ip) (hip : ip < s.sb.ninodes)
    (hf : (s.dinode ip).type = .free) (ht : type ≠ .free) (major minor : BitVec 16) :
    ∃ s₁ s₂, ilock ip ((s.claim ip type).refer ip) = .ok ((), s₁) ∧
      updateD ip (fun d => { d with major := major, minor := minor, nlink := 1 }) s₁ = .ok ((), s₂) ∧
      At N ((T.setType ip type).setNlink ip 1) (more r ip) (ip :: L) s₂ := by
  have hw := (h.wf.claim hip hf type).refer ip
  set s₀ := (s.claim ip type).refer ip with hs₀
  have hdin : s₀.dinode ip = { Dinode.zero with type := type } := by
    rw [hs₀, State.refer_dinode]
    exact update_self _ _ _
  have hsb : s₀.sb = s.sb := State.refer_sb
  have href : 0 < (s₀.itable ip).ref := by
    rw [hs₀, State.refer_ref, if_pos rfl]
    omega
  have hlock : ∀ j, s.Locked j → s₀.Locked j := fun j hj => State.refer_locked.2 hj
  have hrun : ilock ip s₀ = .ok ((), s₀.load ip) := by
    rcases ilock_run hw ip with ⟨hr, -⟩ | ⟨-, h0⟩ | ⟨-, hlt⟩ | ⟨-, hfree⟩
    · exact hr
    · omega
    · rw [hsb] at hlt
      omega
    · rw [hdin] at hfree
      exact absurd hfree ht
  have hw₁ : (s₀.load ip).Wf := hw.load (by rw [hdin]; exact ht) (by rw [hsb]; exact hip)
  have hl₁ := State.load_locked_self (s := s₀) href
  set d : Dinode := { ((s₀.load ip).itable ip).d with major := major, minor := minor, nlink := 1 }
  refine ⟨_, _, hrun, updateD_run _ ip _, hw₁.putD (d := d) hl₁ rfl rfl rfl, ?_, ?_, ?_, ?_, ?_, ?_⟩
  · change s₀.sb.ninodes = N
    rw [hsb, h.num]
  · refine (State.tree_putD (d := d) hw₁ hl₁ rfl rfl rfl).trans ?_
    rw [State.tree_load, hs₀, State.tree_refer, State.tree_claim hip hf, h.tree]
  · intro j
    rw [State.putD_ref, State.load_ref, hs₀, State.refer_ref]
    exact congrArg (· + _) (h.ref j)
  · intro j hj
    refine (State.putD_locked _).2 ?_
    rcases List.mem_cons.1 hj with rfl | hj
    · exact hl₁
    · exact State.load_locked (hlock j (h.locked j hj))
  · intro j htj hn
    by_cases hj : j = ip
    · rw [Tree.setNlink_nlink, if_pos hj] at hn
      exact absurd hn (by decide)
    · rw [Tree.setNlink_nlink, if_neg hj] at hn
      rw [Tree.setNlink_type, Tree.setType_type, if_neg hj] at htj
      exact (State.putD_locked _).2 (State.load_locked (hlock j (h.orphan j htj hn)))
  · intro j htj
    by_cases hj : j = ip
    · subst hj
      have hsz : d.size = 0 := by
        change ((s₀.load j).itable j).d.size = 0
        rw [(hw₁.agree j hl₁).1]
        exact congrArg Dinode.size hdin
      rw [State.putD_dinode_self, hsz]
      exact Nat.dvd_zero _
    · rw [Tree.setNlink_type, Tree.setType_type, if_neg hj] at htj
      rw [State.putD_dinode_of_ne d hj]
      have : (s₀.load ip).dinode j = s.dinode j := by
        change s₀.dinode j = _
        rw [hs₀, State.refer_dinode]
        exact update_of_ne hj _ _
      rw [this]
      exact h.aligned j htj

/-- The change that `create` makes. -/
def newAct (type : FType) (dp k ip : ℕ) (nm : ℕ → UInt8) : Tree.Act :=
  if type = .dir then .dir dp k ip nm else .node dp k ip type nm

/-- The tree with the new inode ready to be named. -/
def fresh (T : Tree) (type : FType) (dp ip : ℕ) : Tree :=
  if type = .dir then
    (((T.setType ip .dir).setNlink ip 1).setEnt ip 0 ip (padded dot)).setEnt ip 1 dp (padded dotdot)
  else (T.setType ip type).setNlink ip 1

theorem fresh_sameAt (type : FType) (dp : ℕ) {j : ℕ} (hj : j ≠ ip) :
    T.SameAt (fresh T type dp ip) j := by
  have h₁ := fun t => (Tree.sameAt_setType (T := T) hj t).trans (Tree.sameAt_setNlink hj 1)
  unfold fresh
  split_ifs
  · exact ((h₁ _).trans (Tree.sameAt_setEnt hj _ _ _)).trans (Tree.sameAt_setEnt hj _ _ _)
  · exact h₁ _

theorem lookup_sameAt {T' : Tree} (h : T.SameAt T' dp) (name : List UInt8) :
    T'.lookup dp name = T.lookup dp name := by
  have hk : ∀ k, T'.Matches dp name k ↔ T.Matches dp name k := by
    intro k
    unfold Tree.Matches
    rw [h.ent, h.name]
  unfold Tree.lookup
  simp only [hk]

/-- The new inode gets its name. -/
theorem createEntry_at (hd : T.Dots) (hN : N ≤ 2 ^ 16)
    (h : At N (fresh T type dp ip) (more (more r dp) ip) L s) (hdp : dp ∈ L) (hip : ip ∈ L)
    (hdir : T.type dp = .dir) (hb : T.Blank ip) (h1 : 1 ≤ ip) (htype : type ≠ .free)
    (hr0 : r ip = 0) (hr : T.Retains r) (name : List UInt8) :
    Outcome (createEntry dp name type ip s)
      (fun res s' => (res = none ∧ At N T r [] s') ∨
        ∃ k, res = some ip ∧ T.lookup dp name = none ∧
          (newAct type dp k ip (clip (padded name))).Ok N maxents T ∧
          At N ((T.apply (newAct type dp k ip (clip (padded name)))).settle r dp) (more r ip) [ip] s')
      (fun e => e = noInodes ∧ T.lookup dp name ≠ none) := by
  have hne : dp ≠ ip := by
    rintro rfl
    rw [hb.type] at hdir
    exact FType.noConfusion hdir
  have hsame : T.SameAt (fresh T type dp ip) dp := fresh_sameAt type dp hne
  have hipN := (h.fields hip).2.1
  unfold createEntry
  refine ((dirlink_at h hdp (hsame.type.trans hdir) name (by omega : ip ≠ 0) (by omega)).stops fun e he => ⟨he.1, by rw [← lookup_sameAt hsame]; exact he.2⟩).bind
    fun n s₁ hs => ?_
  rcases hs with ⟨hn, h₁⟩ | ⟨hn, hlook, k, hk, hk0, -, h₁⟩
  · refine .ite (fun _ => ?_) fun hc => absurd hn hc
    obtain ⟨s', hrun, h'⟩ := createFail_at h₁ hip hb (fun j hj => fresh_sameAt type dp hj) hr0
      hne.symm hr
    rw [hrun]
    exact .ok (.inl ⟨rfl, h'⟩)
  · rw [lookup_sameAt hsame] at hlook
    rw [hsame.ent] at hk0
    have h2 := hd.two_le hdir hk0
    refine .ite (fun hc => absurd hc hn) fun _ => ?_
    -- at last the directory is let go of
    have hend : ∀ {s₂ : State} {T₂ : Tree}, At N T₂ (more (more r dp) ip) L s₂ →
        ∃ s', (do iunlockput dp; return some ip : FsM (Option ℕ)) s₂ = .ok (some ip, s') ∧
          At N (T₂.settle r dp) (more r ip) [ip] s' := by
      intro s₂ T₂ h₂
      rw [more_comm] at h₂
      obtain ⟨s', hrun, h'⟩ := iunlockput_at
        (h₂.subset (fun j hj => by rw [List.mem_singleton.1 hj]; exact hip : ∀ j ∈ [ip], j ∈ L))
        fun hL => absurd (List.mem_singleton.1 hL) hne
      rw [Tree.settle_congr (more_of_ne r hne)] at h'
      refine ⟨s', ?_, h'⟩
      rw [Run.bind_of_ok hrun]
      rfl
    by_cases htd : type = .dir
    · subst htd
      obtain ⟨s₂, hrun, h₂⟩ := addLink_at h₁ hdp 1
      have hn₂ : ((fresh T .dir dp ip).setEnt dp k ip (clip (padded name))).nlink dp = T.nlink dp :=
        hsame.nlink
      rw [hn₂] at h₂
      obtain ⟨s', hrun', h'⟩ := hend h₂
      refine .ite (fun _ => .bind_ok hrun ?_) fun hc => absurd rfl hc
      dsimp only
      rw [hrun']
      refine .ok (.inr ⟨k, rfl, hlook, ⟨hdir, h2, hk, hk0, hb.type, h1, hipN⟩, h'⟩)
    · have hact : newAct type dp k ip (clip (padded name)) =
          .node dp k ip type (clip (padded name)) := if_neg htd
      have hfresh : fresh T type dp ip = (T.setType ip type).setNlink ip 1 := if_neg htd
      rw [hfresh] at h₁
      obtain ⟨s', hrun', h'⟩ := hend h₁
      refine .ite (fun hc => absurd hc htd) fun _ => ?_
      dsimp only
      rw [hrun']
      refine .ok (.inr ⟨k, rfl, hlook, ?_⟩)
      rw [hact]
      exact ⟨⟨hdir, h2, hk, hk0, hb.type, h1, hipN, htype, htd⟩, h'⟩

theorem clip_padded_dot : clip (padded dot) = padded dot := by
  funext j
  rcases Nat.lt_or_ge j dirsiz with hj | hj
  · exact if_pos hj
  · refine (if_neg (Nat.not_lt.2 hj)).trans ?_
    have : dot.length ≤ j := le_trans (by decide) hj
    rw [padded, List.getD_eq_getElem?_getD, List.getElem?_eq_none this]
    rfl

theorem clip_padded_dotdot : clip (padded dotdot) = padded dotdot := by
  funext j
  rcases Nat.lt_or_ge j dirsiz with hj | hj
  · exact if_pos hj
  · refine (if_neg (Nat.not_lt.2 hj)).trans ?_
    have : dotdot.length ≤ j := le_trans (by decide) hj
    rw [padded, List.getD_eq_getElem?_getD, List.getElem?_eq_none this]
    rfl

/-- The new inode is set up and gets its name. -/
theorem createNew_at (hd : T.Dots) (hN : N ≤ 2 ^ 16) (h : At N T (more r dp) [dp] s)
    (hdir : T.type dp = .dir) (h1 : 1 ≤ ip) (hip : ip < s.sb.ninodes)
    (hf : (s.dinode ip).type = .free) (htype : type ≠ .free) (hr0 : r ip = 0)
    (hr : T.Retains r) (name : List UInt8)
    (major minor : BitVec 16) :
    Outcome (createNew dp name type major minor ip ((s.claim ip type).refer ip))
      (fun res s' => (res = none ∧ At N T r [] s') ∨
        ∃ k, res = some ip ∧ T.lookup dp name = none ∧
          (newAct type dp k ip (clip (padded name))).Ok N maxents T ∧
          At N ((T.apply (newAct type dp k ip (clip (padded name)))).settle r dp) (more r ip) [ip] s')
      (fun e => e = noInodes ∧ (type ≠ .dir → T.lookup dp name ≠ none)) := by
  have hfree : T.type ip = .free := by
    rw [← h.tree]
    exact (State.tree_type hip).trans hf
  have hb := h.blank hfree
  have hne : ip ≠ dp := by
    rintro rfl
    rw [hfree] at hdir
    exact FType.noConfusion hdir
  have hip0 : ip ≠ 0 := by omega
  obtain ⟨s₁, s₂, hr₁, hr₂, h₂⟩ := newInode_at h h1 hip hf htype major minor
  have hip16 : ip < 2 ^ 16 := (h.num ▸ hip).trans_le hN
  have hdp16 : dp < 2 ^ 16 := (h.fields List.mem_cons_self).2.1.trans_le hN
  have hself : ip ∈ [ip, dp] := List.mem_cons_self
  have hpar : dp ∈ [ip, dp] := List.mem_cons_of_mem _ List.mem_cons_self
  unfold createNew
  refine .bind_ok hr₁ (.bind_ok hr₂ (.ite (fun htd => ?_) fun htd => ?_))
  · subst htd
    -- on failure the inode is freed again
    have hfail : ∀ {s₃ : State} {T₃ : Tree}, At N T₃ (more (more r dp) ip) [ip, dp] s₃ →
        (∀ j, j ≠ ip → T.SameAt T₃ j) → ∃ s', createFail dp ip s₃ = .ok (none, s') ∧
          At N T r [] s' := fun h₃ hsame => createFail_at h₃ hself hb hsame hr0 hne hr
    have hsame₁ : ∀ j, j ≠ ip → T.SameAt ((T.setType ip .dir).setNlink ip 1) j := fun j hj =>
      (Tree.sameAt_setType hj _).trans (Tree.sameAt_setNlink hj 1)
    have htype₁ : ((T.setType ip .dir).setNlink ip 1).type ip = .dir := by
      rw [Tree.setNlink_type, Tree.setType_type, if_pos rfl]
    have hdirs : ∀ {e : Stop} {P Q : Prop}, e = noInodes ∧ Q →
        e = noInodes ∧ (FType.dir ≠ .dir → P) := fun he => ⟨he.1, fun hc => absurd rfl hc⟩
    refine ((dirlink_at h₂ hself htype₁ dot hip0 hip16).stops fun _ => hdirs).bind fun n s₃ hs => ?_
    rcases hs with ⟨hn, h₃⟩ | ⟨hn, -, k, -, hk0, hbefore, h₃⟩
    · refine .ite (fun _ => ?_) fun hc => absurd hn hc
      obtain ⟨s', hrun, h'⟩ := hfail h₃ hsame₁
      rw [hrun]
      exact .ok (.inl ⟨rfl, h'⟩)
    refine .ite (fun hc => absurd hc hn) fun _ => ?_
    -- the first slot is empty
    have hk : k = 0 := by
      by_contra hne0
      exact hbefore 0 (by omega) (hb.ent 0)
    subst hk
    rw [clip_padded_dot] at h₃
    have hsame₂ := fun j (hj : j ≠ ip) =>
      (hsame₁ j hj).trans (Tree.sameAt_setEnt hj 0 ip (padded dot))
    have hdp0 : dp ≠ 0 := (hd.pos (by rw [hdir]; exact nofun)).ne'
    refine ((dirlink_at h₃ hself htype₁ dotdot hdp0 hdp16).stops
      fun _ => hdirs).bind fun n s₄ hs => ?_
    rcases hs with ⟨hn, h₄⟩ | ⟨hn, -, k, -, hk0, hbefore, h₄⟩
    · refine .ite (fun _ => ?_) fun hc => absurd hn hc
      obtain ⟨s', hrun, h'⟩ := hfail h₄ hsame₂
      rw [hrun]
      exact .ok (.inl ⟨rfl, h'⟩)
    refine .ite (fun hc => absurd hc hn) fun _ => ?_
    -- only the first slot is filled
    have hk : k = 1 := by
      rw [Tree.setEnt_ent] at hk0
      have hk' : k ≠ 0 := by
        rintro rfl
        rw [if_pos ⟨rfl, rfl⟩] at hk0
        exact hip0 hk0
      by_contra hne1
      refine hbefore 1 (by omega) ?_
      rw [Tree.setEnt_ent, if_neg (by omega)]
      exact hb.ent 1
    subst hk
    have hfresh : fresh T .dir dp ip = (((T.setType ip .dir).setNlink ip 1).setEnt ip 0 ip
        (padded dot)).setEnt ip 1 dp (padded dotdot) := if_pos rfl
    rw [clip_padded_dotdot, ← hfresh] at h₄
    exact (createEntry_at hd hN h₄ hpar hself hdir hb h1 htype hr0 hr name).stops fun _ => hdirs
  · have hfresh : fresh T type dp ip = (T.setType ip type).setNlink ip 1 := if_neg htd
    rw [← hfresh] at h₂
    exact (createEntry_at hd hN h₂ hpar hself hdir hb h1 htype hr0 hr name).stops
      fun _ he => ⟨he.1, fun _ => he.2⟩

/-- **`create`** finds a file, makes the change of the tree or leaves it alone. -/
theorem create_at {cwd : ℕ} (hd : T.Dots) (hN : N ≤ 2 ^ 16) (h : At N T r [] s)
    (hlive : ∀ j, 0 < r j → T.type j ≠ .free) (hc : 0 < r cwd) (path : List UInt8)
    (htype : type ≠ .free) (major minor : BitVec 16) :
    Outcome (create cwd path type major minor s)
      (fun res s' => (res = none ∧ At N T r [] s') ∨
        (∃ ip, res = some ip ∧ type = .file ∧ T.type ip ≠ .dir ∧ At N T (more r ip) [ip] s') ∨
        ∃ dp name k ip, T.resolve cwd path true = some (dp, name) ∧ T.lookup dp name = none ∧
          (newAct type dp k ip (clip (padded name))).Ok N maxents T ∧ res = some ip ∧
          At N ((T.apply (newAct type dp k ip (clip (padded name)))).settle r dp) (more r ip) [ip] s')
      (Astray T) := by
  have hr : T.Retains r := fun _ => h.orphan_pos
  unfold create
  refine (namex_at h hc (hlive cwd hc) path true).bind fun res s₁ ⟨hres, h₁⟩ => ?_
  rcases res with _ | ⟨dp, name⟩
  · exact .ok (.inl ⟨rfl, h₁⟩)
  have hdir := Tree.walk_parent hres.symm
  change At N T (more r dp) [] s₁ at h₁
  refine (ilock_named h₁ fun _ _ => by rw [hdir]; exact nofun).bind fun _ s₂ h₂ => ?_
  refine ((dirlookup_at h₂ List.mem_cons_self hdir name).stops
    fun e he => he.1 ▸ noInodes_quiet.astray).bind fun res s₃ hs => ?_
  rcases hs with ⟨rfl, hlook, rfl⟩ | ⟨k, hlook, rfl, rfl, -⟩
  · dsimp only
    rcases ialloc_run s₃ type with ⟨hrun, -⟩ | ⟨ip, h1, hip, hf, ⟨hrun, -⟩ | ⟨hrun, -⟩⟩
    · refine .bind_ok hrun ?_
      obtain ⟨s', hrun', h'⟩ := iunlockput_held h₂.unlocked nofun (hr dp)
      exact .bind_ok hrun' (.ok (.inl ⟨rfl, h'⟩))
    · refine .bind_ok hrun ?_
      have hfree : T.type ip = .free := by
        rw [← h₂.tree]
        exact (State.tree_type hip).trans hf
      have hr0 : r ip = 0 := by
        by_contra h0
        exact hlive ip (Nat.pos_of_ne_zero h0) hfree
      refine (createNew_at hd hN h₂ hdir h1 hip hf htype hr0 hr name major minor).mono ?_
        fun e he => he.1 ▸ noInodes_quiet.astray
      intro res s' hs
      rcases hs with hs | ⟨k, hres', hlook, hok, hat⟩
      · exact .inl hs
      · exact .inr (.inr ⟨dp, name, k, ip, hres.symm, hlook, hok, hres', hat⟩)
    · exact .bind_error hrun (Quiet.astray nofun)
  · -- the name is there
    have h₃ := h₂.refer (T.ent dp k)
    have hput : ∀ {i : ℕ} {L' : List ℕ} {s' : State}, At N T (more r i) L' s' →
        ∃ s'', iunlockput i s' = .ok ((), s'') ∧ At N T r [] s'' := fun hat =>
      iunlockput_held hat.unlocked nofun fun ht hn => hr _ ht hn
    rw [more_comm] at h₃
    obtain ⟨s₄, hrun₄, h₄⟩ := iunlockput_held h₃.unlocked nofun
      fun ht hn => (hr dp ht hn).trans_le (le_more r _ dp)
    refine .bind_ok hrun₄ ?_
    refine (ilock_named h₄ fun _ hno => hno dp k hdir (Tree.lookup_some hlook).2.1).bind
      fun _ s₅ h₅ => ?_
    obtain ⟨hmem, -, -, ht, -⟩ := h₅.fields List.mem_cons_self
    rw [Run.get_bind, hmem, ht]
    refine .ite (fun hfile => .ok (.inr (.inl ⟨_, rfl, hfile.1, ?_, h₅⟩))) fun _ => ?_
    · rcases hfile.2 with hft | hft
      · rw [hft]; exact nofun
      · rw [hft]; exact nofun
    · obtain ⟨s', hrun', h'⟩ := hput h₅
      exact .bind_ok hrun' (.ok (.inl ⟨rfl, h'⟩))

end Create

/-! ## `link` -/

section Link

variable {N : ℕ} {T : Tree} {r : ℕ → ℕ} {s : State}

/-- **`namei`** finds the inode that the path leads to. -/
theorem namei_at {cwd : ℕ} (h : At N T r [] s)
    (hlive : ∀ j, 0 < r j → T.type j ≠ .free) (hc : 0 < r cwd) (path : List UInt8) :
    Outcome (namei cwd path s) (fun res s' => (res = none ∧ At N T r [] s') ∨
      ∃ ip nm, res = some ip ∧ T.resolve cwd path false = some (ip, nm) ∧
        (T.type rootino ≠ .free → T.NoDangle → T.type ip ≠ .free) ∧ At N T (more r ip) [] s')
      (Astray T) := by
  refine (namex_at h hc (hlive cwd hc) path false).bind fun res s' ⟨hres, hat⟩ => .ok ?_
  rcases res with _ | ⟨ip, nm⟩
  · exact .inl ⟨rfl, hat⟩
  · refine .inr ⟨ip, nm, rfl, hres.symm, fun hroot hno => ?_, hat⟩
    refine Tree.walk_ind (P := fun i => T.type i ≠ .free) hno ?_ hres.symm
    split_ifs
    · exact hroot
    · exact hlive cwd hc

/-- `sys_link` gives up: the link count goes back to what it was. -/
theorem linkBad_at {ip : ℕ} (h : At N (T.setNlink ip (T.nlink ip + 1)) (more r ip) [] s)
    (ht : T.type ip ≠ .free) (hr : T.Retains r) :
    Outcome (linkBad ip s) (fun _ s' => At N T r [] s') Quiet := by
  unfold linkBad
  refine (ilock_used h ht).bind fun _ s₁ h₁ => ?_
  obtain ⟨s₂, hrun₂, h₂⟩ := addLink_at h₁ List.mem_cons_self (-1)
  have hback : T.nlink ip + 1 + -1 = T.nlink ip := by bv_omega
  rw [Tree.setNlink_nlink, if_pos rfl, Tree.setNlink_setNlink, hback, Tree.setNlink_self] at h₂
  obtain ⟨s₃, hrun₃, h₃⟩ := iunlockput_held h₂.unlocked nofun (hr ip)
  exact .bind_ok hrun₂ (.bind_ok hrun₃ (.ok h₃))

/-- **`sys_link`** adds a name for a file, or leaves the tree alone. If the link count has gone
round to zero, the file may be freed. -/
theorem link_at {cwd : ℕ} (hdots : T.Dots) (hN : N ≤ 2 ^ 16 ∨ T.type cwd = .dir)
    (h : At N T r [] s) (hlive : ∀ j, 0 < r j → T.type j ≠ .free) (hc : 0 < r cwd)
    (old new : List UInt8) :
    Outcome (link cwd old new s)
      (fun _ s' => At N T r [] s' ∨
        ∃ ip nm dp name k, T.resolve cwd old false = some (ip, nm) ∧
          T.resolve cwd new true = some (dp, name) ∧ T.lookup dp name = none ∧
          (Tree.Act.link dp k ip (clip (padded name))).Ok N maxents T ∧
          At N ((T.apply (.link dp k ip (clip (padded name)))).settle r ip) r [] s')
      (Astray T) := by
  have hr : T.Retains r := fun _ => h.orphan_pos
  unfold link
  refine (namei_at h hlive hc old).bind fun res s₁ hs => ?_
  rcases hs with ⟨rfl, h₁⟩ | ⟨ip, nm, rfl, hres, hused, h₁⟩
  · exact .ok (.inl h₁)
  refine (ilock_named h₁ hused).bind fun _ s₂ h₂ => ?_
  obtain ⟨hd, hipN, htf, ht, -⟩ := h₂.fields List.mem_cons_self
  rw [Run.get_bind, hd, ht]
  refine .ite (fun _ => ?_) fun htd => ?_
  · obtain ⟨s', hrun, h'⟩ := iunlockput_held h₂.unlocked nofun (hr ip)
    exact .bind_ok hrun (.ok (.inl h'))
  obtain ⟨s₃, hrun₃, h₃⟩ := addLink_at h₂ List.mem_cons_self 1
  refine .bind_ok hrun₃ (.bind_ok (iunlock_at h₃ (h₃.locked_pos List.mem_cons_self)) ?_)
  replace h₃ := h₃.unlocked
  set T₁ := T.setNlink ip (T.nlink ip + 1) with hT₁
  -- whatever has no links now is referred to
  have hr₁ : T₁.Retains (more r ip) := fun _ => h₃.orphan_pos
  have hc₁ : 0 < more r ip cwd := hc.trans_le (le_more r ip cwd)
  refine ((namex_at h₃ hc₁ (hlive cwd hc) new true).stops
    (fun _ he => he : ∀ e, Astray T₁ e → Astray T e)).bind fun res s₄ ⟨hres', h₄⟩ => ?_
  rcases res with _ | ⟨dp, name⟩
  · exact (linkBad_at h₄ htf hr).mono (fun _ _ hs => .inl hs) fun e he => he.astray
  change At N T₁ (more (more r ip) dp) [] s₄ at h₄
  have hpar : T.resolve cwd new true = some (dp, name) := by
    rw [hres']
    exact (Tree.walk_setNlink ip _ true _ _ _ _).symm
  have hdir : T.type dp = .dir := Tree.walk_parent hpar
  have hdp₁ : T₁.type dp ≠ .free := by
    rw [Tree.setNlink_type, hdir]
    exact nofun
  refine (ilock_named h₄ fun _ _ => hdp₁).bind fun _ s₅ h₅ => ?_
  have hip0 := (hdots.pos htf).ne'
  have hip16 : ip < 2 ^ 16 := by
    rcases hN with hN | hcd
    · exact hipN.trans_le hN
    · -- the number of a file that a path leads to stands in an entry
      refine Tree.walk_ind (P := fun i => T.type i ≠ .dir → i < 2 ^ 16) (fun D k _ _ _ => ?_) ?_ hres
        htd
      · rw [← h.tree]
        exact State.tree_ent_lt D k
      · split_ifs
        · exact fun _ => by decide
        · exact fun hne => absurd hcd hne
  have hput : ∀ {T₂ : Tree} {s' : State}, At N T₂ (more (more r ip) dp) [dp] s' →
      T₂.type = T₁.type → T₂.nlink = T₁.nlink →
      ∃ s'', iunlockput dp s' = .ok ((), s'') ∧ At N T₂ (more r ip) [] s'' := by
    intro T₂ s' hat h1 h2
    refine iunlockput_held hat.unlocked nofun ?_
    rw [h1, h2]
    exact hr₁ dp
  refine ((dirlink_at h₅ List.mem_cons_self hdir name hip0 hip16).stops fun e he => he.1 ▸ noInodes_quiet.astray).bind fun n s₆ hs => ?_
  rcases hs with ⟨hn, h₆⟩ | ⟨hn, hlook, k, hk, hk0, -, h₆⟩
  · refine .ite (fun _ => ?_) fun hc => absurd hn hc
    obtain ⟨s', hrun, h'⟩ := hput h₆ rfl rfl
    exact .bind_ok hrun ((linkBad_at h' htf hr).mono (fun _ _ hs => .inl hs) fun e he => he.astray)
  · refine .ite (fun hc => absurd hc hn) fun _ => ?_
    obtain ⟨s₇, hrun₇, h₇⟩ := hput h₆ rfl rfl
    obtain ⟨s₈, hrun₈, h₈⟩ := iput_at h₇ nofun
    refine .bind_ok hrun₇ (.bind_ok hrun₈ (.ok (.inr ?_)))
    exact ⟨ip, nm, dp, name, k, hres, hpar, hlook,
      ⟨hdir, hdots.two_le hdir hk0, hk, hk0, htf, htd⟩, h₈⟩

end Link

/-! ## `unlink` -/

section Unlink

variable {N : ℕ} {T : Tree} {r : ℕ → ℕ} {s : State} {dp k : ℕ}

/-- The change that `unlink` makes. -/
def rmAct (T : Tree) (dp k : ℕ) : Tree.Act :=
  if T.type (T.ent dp k) = .dir then .rmdir dp k else .unlink dp k

/-- An entry other than `.` and `..` is removed. -/
theorem unlinkEntry_at
    (h : At N T (more (more r dp) (T.ent dp k)) [T.ent dp k, dp] s) (h2 : 2 ≤ k)
    (hne : T.ent dp k ≠ 0) (hempty : T.type (T.ent dp k) = .dir → ∀ j, 2 ≤ j →
      T.ent (T.ent dp k) j = 0) :
    (rmAct T dp k).Ok N maxents T ∧
      Outcome (unlinkEntry dp (T.ent dp k) (direntSize * k) s)
        (fun _ s' => At N (((T.apply (rmAct T dp k)).settle r dp).settle r (T.ent dp k)) r [] s')
        Quiet := by
  set ip := T.ent dp k with hip
  have hdir := h.ent_dir hne
  have hself : ip ∈ [ip, dp] := List.mem_cons_self
  have hpar : dp ∈ [ip, dp] := List.mem_cons_of_mem _ List.mem_cons_self
  obtain ⟨hd, -, htf, ht, -⟩ := h.fields hself
  have hipdp : ip ≠ dp := by
    intro he
    have := hempty (he ▸ hdir) k h2
    rw [he, ← hip] at this
    exact hne this
  have hsub : ∀ n : BitVec 16, n + -1 = n - 1 := fun n => (BitVec.sub_eq_add_neg n 1).symm
  have hok : (rmAct T dp k).Ok N maxents T := by
    unfold rmAct
    split_ifs with htd
    · exact ⟨h2, hne, htd, hempty htd⟩
    · exact ⟨h2, hne, htf, htd⟩
  refine ⟨hok, ?_⟩
  have hsz := (h.ent_size hne).1.2.2
  unfold unlinkEntry
  refine (writei_at h hpar hdir (fun _ => 0) (by decide : 0 < 2 ^ 16) (.inr hsz)).never.bind
    fun n s₁ hs => ?_
  rcases hs with ⟨hn, h₁⟩ | ⟨hn, -, h₁⟩
  · exact .ite (fun _ => .error nofun) fun hc => absurd hn hc
  rw [if_pos rfl] at h₁
  refine .ite (fun hc => absurd hn hc) fun _ => ?_
  obtain ⟨hd₁, -, -, ht₁, -⟩ := h₁.fields hself
  rw [Run.get_bind, hd₁, ht₁]
  -- the directory is let go of, then the inode loses its link
  have hend : ∀ {s₂ : State} {T₂ : Tree}, At N T₂ (more (more r dp) ip) [ip, dp] s₂ →
      T₂.nlink ip = T.nlink ip → T₂.setNlink ip (T.nlink ip - 1) = T.apply (rmAct T dp k) →
      Outcome ((do
        iunlockput dp
        addLink ip (-1)
        iunlockput ip
        return 0 : FsM ℤ) s₂)
        (fun _ s' => At N (((T.apply (rmAct T dp k)).settle r dp).settle r ip) r [] s') Quiet := by
    intro s₂ T₂ h₂ hn₂ hT₂
    rw [more_comm] at h₂
    obtain ⟨s₃, hrun₃, h₃⟩ := iunlockput_at
      (h₂.subset (fun j hj => List.mem_of_mem_head? (by rw [List.mem_singleton.1 hj]; rfl) :
        ∀ j ∈ [ip], j ∈ [ip, dp]))
      fun hL => absurd (List.mem_singleton.1 hL).symm hipdp
    rw [Tree.settle_congr (more_of_ne r hipdp.symm)] at h₃
    obtain ⟨s₄, hrun₄, h₄⟩ := addLink_at h₃ List.mem_cons_self (-1)
    rw [(Tree.settle_sameAt hipdp).nlink, hn₂, hsub, Tree.settle_setNlink hipdp, hT₂] at h₄
    obtain ⟨s₅, hrun₅, h₅⟩ := iunlockput_at h₄.unlocked nofun
    exact .bind_ok hrun₃ (.bind_ok hrun₄ (.bind_ok hrun₅ (.ok h₅)))
  refine .ite (fun htd => ?_) fun htd => ?_
  · have hact : rmAct T dp k = .rmdir dp k := if_pos htd
    obtain ⟨s₂, hrun₂, h₂⟩ := addLink_at h₁ hpar (-1)
    rw [hsub] at h₂
    refine .bind_ok hrun₂ (hend h₂ ?_ ?_)
    · rw [Tree.setNlink_nlink, if_neg hipdp, Tree.setEnt_nlink]
    · rw [hact]
      rfl
  · have hact : rmAct T dp k = .unlink dp k := if_neg htd
    refine hend h₁ rfl ?_
    rw [hact]
    rfl

/-- **`sys_unlink`** removes a name, and with it the inode if nothing else refers to it, or
leaves the tree alone. -/
theorem unlink_at {cwd : ℕ} (hdots : T.Dots) (h : At N T r [] s)
    (hlive : ∀ j, 0 < r j → T.type j ≠ .free) (hc : 0 < r cwd) (path : List UInt8) :
    Outcome (unlink cwd path s)
      (fun _ s' => At N T r [] s' ∨
        ∃ dp name k, T.resolve cwd path true = some (dp, name) ∧ T.lookup dp name = some k ∧
          (rmAct T dp k).Ok N maxents T ∧
          At N (((T.apply (rmAct T dp k)).settle r dp).settle r (T.ent dp k)) r [] s')
      (Faults T) := by
  have hr : T.Retains r := fun _ => h.orphan_pos
  have hput : ∀ {i : ℕ} {r' : ℕ → ℕ} {L : List ℕ} {s' : State}, At N T (more r' i) L s' →
      (∀ j, r j ≤ r' j) → ∃ s'', iunlockput i s' = .ok ((), s'') ∧ At N T r' [] s'' :=
    fun hat hle => iunlockput_held hat.unlocked nofun fun ht hn => (hr _ ht hn).trans_le (hle _)
  have hbad : ∀ {dp : ℕ} {L : List ℕ} {s' : State}, At N T (more r dp) L s' →
      ∃ s'', unlinkBad dp s' = .ok (-1, s'') ∧ At N T r [] s'' := by
    intro dp L s' hat
    obtain ⟨s'', hrun, h'⟩ := hput hat fun _ => le_rfl
    refine ⟨s'', ?_, h'⟩
    unfold unlinkBad
    rw [Run.bind_of_ok hrun]
    rfl
  unfold unlink
  refine ((namex_at h hc (hlive cwd hc) path true).stops
    fun e he => he.faults).bind fun res s₁ ⟨hres, h₁⟩ => ?_
  rcases res with _ | ⟨dp, name⟩
  · exact .ok (.inl h₁)
  have hdir := Tree.walk_parent hres.symm
  change At N T (more r dp) [] s₁ at h₁
  have hdp : T.type dp ≠ .free := by
    rw [hdir]
    exact nofun
  refine ((ilock_used h₁ hdp).stops fun e he => he.faults).bind
    fun _ s₂ h₂ => ?_
  refine .ite (fun _ => ?_) fun hnot => ?_
  · obtain ⟨s', hrun, h'⟩ := hbad h₂
    rw [hrun]
    exact .ok (.inl h')
  refine ((dirlookup_at h₂ List.mem_cons_self hdir name).stops
    fun e he => he.1 ▸ noInodes_quiet.faults).bind fun res s₃ hs => ?_
  rcases hs with ⟨rfl, hlook, rfl⟩ | ⟨k, hlook, rfl, rfl, -⟩
  · obtain ⟨s', hrun, h'⟩ := hbad h₂
    dsimp only
    rw [hrun]
    exact .ok (.inl h')
  obtain ⟨-, hne, hmatch⟩ := Tree.lookup_some hlook
  -- the names of the first two entries are ruled out
  have h2 : 2 ≤ k := by
    by_contra hlt
    rcases (by omega : k = 0 ∨ k = 1) with rfl | rfl
    · rw [(hdots.dot dp hdir).2] at hmatch
      exact hnot (.inl hmatch)
    · rw [(hdots.dotdot dp hdir).2] at hmatch
      exact hnot (.inr hmatch)
  have h₃ := h₂.refer (T.ent dp k)
  refine ((ilock_named h₃ fun _ hno => hno dp k hdir hne).stops
    fun e he => he.faults).bind fun _ s₄ h₄ => ?_
  obtain ⟨hd, -, -, ht, hn⟩ := h₄.fields List.mem_cons_self
  rw [Run.get_bind, hd, ht, hn]
  refine .ite (fun hlt => .error fun _ _ => .inr ⟨rfl, dp, k, h2, hne, hlt⟩) fun _ => ?_
  have hfinish : (T.type (T.ent dp k) = .dir → ∀ j, 2 ≤ j → T.ent (T.ent dp k) j = 0) →
      Outcome (unlinkEntry dp (T.ent dp k) (direntSize * k) s₄)
        (fun _ s' => At N T r [] s' ∨
          ∃ dp name k, T.resolve cwd path true = some (dp, name) ∧ T.lookup dp name = some k ∧
            (rmAct T dp k).Ok N maxents T ∧
            At N (((T.apply (rmAct T dp k)).settle r dp).settle r (T.ent dp k)) r [] s')
        (Faults T) := by
    intro hempty
    obtain ⟨hok, hout⟩ := unlinkEntry_at h₄ h2 hne hempty
    exact hout.mono (fun _ s' h' => .inr ⟨dp, name, k, hres.symm, hlook, hok, h'⟩)
      fun e he => he.faults
  refine .ite (fun htd => ?_) fun htd => hfinish fun hc => absurd hc htd
  refine ((isdirempty_at h₄ List.mem_cons_self htd).stops
    fun e he => he.elim).bind fun b s₅ ⟨hs, hb⟩ => ?_
  subst hs
  refine .ite (fun htrue => hfinish fun _ => hb.1 htrue) fun _ => ?_
  obtain ⟨s₆, hrun₆, h₆⟩ := hput h₄ fun j => le_more r dp j
  obtain ⟨s₇, hrun₇, h₇⟩ := hbad h₆
  refine .bind_ok hrun₆ ?_
  rw [hrun₇]
  exact .ok (.inl h₇)

end Unlink

/-! ## What a call may do -/

/-- Inodes without links have been freed, one after the other. -/
inductive Tree.Reclaims (T : Tree) : Tree → Prop
  | refl : Reclaims T T
  | free {T' : Tree} {i : ℕ} : Reclaims T T' → T'.type i ≠ .free → T'.nlink i = 0 →
      Reclaims T (T'.free i)

namespace Tree.Reclaims

variable {T T' T'' : Tree}

theorem settle (h : T.Reclaims T') (r : ℕ → ℕ) (i : ℕ) : T.Reclaims (T'.settle r i) := by
  unfold Tree.settle
  split_ifs with hc
  · exact .free h hc.2.1 hc.2.2
  · exact h

theorem trans (h : T.Reclaims T') (h' : T'.Reclaims T'') : T.Reclaims T'' := by
  induction h' with
  | refl => exact h
  | free _ ht hn ih => exact .free ih ht hn

/-- Freeing makes no directories. -/
theorem dir (h : T.Reclaims T') {i : ℕ} (hi : T'.type i = .dir) : T.type i = .dir := by
  induction h with
  | refl => exact hi
  | free _ _ _ ih =>
    rw [free_type] at hi
    split_ifs at hi
    exact ih hi

end Tree.Reclaims

/-- The tree has changed by at most one of the changes in `D`, and inodes without links may have
been freed. -/
def Changed (N : ℕ) (D : Tree.Act → Prop) (T T' : Tree) : Prop :=
  ∃ T₁, (T₁ = T ∨ ∃ a, D a ∧ a.Ok N maxents T ∧ T₁ = T.apply a) ∧ T₁.Reclaims T'

theorem Changed.of_reclaims {N : ℕ} {D : Tree.Act → Prop} {T T' : Tree} (h : T.Reclaims T') :
    Changed N D T T' := ⟨T, .inl rfl, h⟩

theorem Changed.reclaims {N : ℕ} {D : Tree.Act → Prop} {T T' T'' : Tree} (h : Changed N D T T')
    (h' : T'.Reclaims T'') : Changed N D T T'' := by
  obtain ⟨T₁, hT₁, hr⟩ := h
  exact ⟨T₁, hT₁, hr.trans h'⟩

/-- A new inode of the type is named by the path. -/
def Creates (T : Tree) (cwd : ℕ) (path : List UInt8) (type : FType) (a : Tree.Act) : Prop :=
  ∃ q dp name k ip, argstr path = some q ∧ T.resolve cwd q true = some (dp, name) ∧
    T.lookup dp name = none ∧ a = newAct type dp k ip (clip (padded name))

/-- The changes of the tree that a call of a process with current directory `cwd` may make, apart
from freeing inodes. -/
def Does (T : Tree) (cwd : ℕ) : Call → Tree.Act → Prop
  | .mkdir path, a => Creates T cwd path .dir a
  | .open path omode, a => omode.testBit oCreate = true ∧ Creates T cwd path .file a
  | .mknod path _ _, a => Creates T cwd path .device a
  | .link old new, a => ∃ old' new' ip nm dp name k, argstr old = some old' ∧
      argstr new = some new' ∧ T.resolve cwd old' false = some (ip, nm) ∧
      T.resolve cwd new' true = some (dp, name) ∧ T.lookup dp name = none ∧
      a = .link dp k ip (clip (padded name))
  | .unlink path, a => ∃ q dp name k, argstr path = some q ∧
      T.resolve cwd q true = some (dp, name) ∧ T.lookup dp name = some k ∧ a = rmAct T dp k
  | _, _ => False

end Xv6.Fs
