import Xv6.Fs.Files

/-!
# The calls keep the accounts

Between two calls the running call holds nothing: `SysOk N T s`. From such a state every call that
returns leads to such a state again, its tree changed by what the call may do (`Does`). A call that
stops in a broken way shows that the tree was broken before: `Faults`.

* `Call.run_at`: all of this, for every call.
-/

namespace Xv6.Fs

open Lib

/-- The accounts between two calls. -/
abbrev SysOk (N : ℕ) (T : Tree) (s : Sys) : Prop := SysAt N T (fun _ => 0) (fun _ => 0) [] none s

/-- The run of a call that may make the changes in `D` keeps the accounts. -/
def Balanced (N : ℕ) (D : Tree.Act → Prop) (T : Tree) (r : Except Stop (ℤ × Sys)) : Prop :=
  Outcome r (fun _ s' => ∃ T', Changed N D T T' ∧ SysOk N T' s') (Faults T)

variable {N : ℕ} {T T' : Tree} {e g : ℕ → ℕ} {L : List ℕ} {q : Option ℕ} {s : Sys} {f p cwd : ℕ}

section

variable {D : Tree.Act → Prop}

theorem Balanced.of_ok {r : Except Stop (ℤ × Sys)} {n : ℤ} {s' : Sys} (hr : r = .ok (n, s'))
    (hT : T.Reclaims T') (h : SysOk N T' s') : Balanced N D T r := by
  rw [hr]
  exact .ok ⟨T', .of_reclaims hT, h⟩

/-- The references when a call starts. -/
theorem SysAt.start (h : SysOk N T s) : At N T s.refs [] s.fs := h.fs.congr fun _ => rfl

theorem SysAt.ofStart {r : ℕ → ℕ} {fs' : State} (h : SysOk N T s) (hr : ∀ j, s.refs j + e j = r j)
    (hfs : At N T' r L fs') (ht : ∀ j, 0 < s.refs j → T'.type j = T.type j) :
    SysAt N T' e (fun _ => 0) L none { s with fs := fs' } :=
  h.withFs (hfs.congr hr) ht

/-! ## Names -/

/-- No change takes the type of an inode in use, freeing apart. -/
theorem Tree.Act.Ok.type {a : Tree.Act} {K j : ℕ} (ok : a.Ok N K T) (ha : ∀ i, a ≠ .reclaim i)
    (hj : T.type j ≠ .free) : (T.apply a).type j = T.type j := by
  cases a with
  | node dp k ip t nm =>
    obtain ⟨-, -, -, -, hip, -⟩ := ok
    refine (Tree.setType_type _ _ _ _).trans (if_neg ?_)
    rintro rfl
    exact hj hip
  | dir dp k ip nm =>
    obtain ⟨-, -, -, -, hip, -⟩ := ok
    rw [Tree.apply_dir_type, if_neg]
    rintro rfl
    exact hj hip
  | link dp k ip nm => rfl
  | unlink dp k => rfl
  | rmdir dp k => rfl
  | reclaim i => exact absurd rfl (ha i)

/-- What the code lets go of when it has made a change. -/
def Tree.Act.target (T : Tree) : Tree.Act → ℕ
  | .node _ _ ip _ _ => ip
  | .dir _ _ ip _ => ip
  | .link _ _ ip _ => ip
  | .unlink dp k => T.ent dp k
  | .rmdir dp k => T.ent dp k
  | .reclaim i => i

/-- The directory whose entry a change writes. -/
def Tree.Act.parent : Tree.Act → ℕ
  | .node dp _ _ _ _ => dp
  | .dir dp _ _ _ => dp
  | .link dp _ _ _ => dp
  | .unlink dp _ => dp
  | .rmdir dp _ => dp
  | .reclaim i => i

/-- A directory whose link count is right keeps a link. -/
theorem Tree.Inv.settle_parent {a : Tree.Act} {r : ℕ → ℕ} (hI : T.Inv N maxents)
    (ok : a.Ok N maxents T) (ha : ∀ i, a ≠ .reclaim i)
    (hr : T.Retains r) :
    (T.apply a).settle r a.parent = T.apply a := by
  have hsame : (T.apply a).nlink a.parent = T.nlink a.parent → T.type a.parent = .dir →
      (T.apply a).settle r a.parent = T.apply a := fun hn hd =>
    Tree.settle_of fun _ hn0 => hr _ (by rw [hd]; exact nofun) (hn.symm.trans hn0)
  cases a with
  | node dp k ip t nm =>
    have hne : dp ≠ ip := by
      rintro rfl
      exact absurd (ok.1.symm.trans ok.2.2.2.2.1) nofun
    exact hsame ((Tree.setNlink_nlink _ _ _ _).trans (if_neg hne)) ok.1
  | dir dp k ip nm =>
    refine Tree.settle_of fun _ hn0 => ?_
    have hlt := hI.nlink_lt (by decide) ok.1
    change (T.apply (.dir dp k ip nm)).nlink dp = 0 at hn0
    rw [Tree.apply_dir_nlink, if_pos rfl] at hn0
    bv_omega
  | link dp k ip nm =>
    have hne : dp ≠ ip := by
      rintro rfl
      exact ok.2.2.2.2.2 ok.1
    exact hsame ((Tree.setNlink_nlink _ _ _ _).trans (if_neg hne)) ok.1
  | unlink dp k =>
    have hdp := (hI.slot dp k ok.2.1).2.2
    refine hsame ((Tree.setNlink_nlink _ _ _ _).trans (if_neg ?_)) hdp
    intro he
    exact ok.2.2.2 (he ▸ hdp)
  | rmdir dp k =>
    obtain ⟨h2, hne, hd, hempty⟩ := ok
    have hlt := hI.nlink_parent h2 hne hd
    have hdp : dp ≠ T.ent dp k := by
      intro he
      rw [← he] at hempty
      exact hne (hempty k h2)
    refine Tree.settle_of fun _ hn0 => ?_
    have hn : (T.apply (.rmdir dp k)).nlink dp = T.nlink dp - 1 :=
      (Tree.setNlink_nlink _ _ _ _).trans ((if_neg hdp).trans
        ((Tree.setNlink_nlink _ _ _ _).trans (if_pos rfl)))
    rw [show Tree.Act.parent (.rmdir dp k) = dp from rfl, hn] at hn0
    bv_omega
  | reclaim i => exact absurd rfl (ha i)

/-- Nothing has happened, or a change in `D` has been made and what it is about let go of. -/
def Did (N : ℕ) (D : Tree.Act → Prop) (T : Tree) (r : ℕ → ℕ) (fs' : State) : Prop :=
  At N T r [] fs' ∨ ∃ a, D a ∧ a.Ok N maxents T ∧ (∀ i, a ≠ .reclaim i) ∧
    At N (((T.apply a).settle r a.parent).settle r (a.target T)) r [] fs'

/-- A change is accounted for. -/
theorem SysAt.did {fs' : State} (h : SysOk N T s) (hdid : Did N D T s.refs fs') :
    ∃ T', Changed N D T T' ∧ SysOk N T' { s with fs := fs' } := by
  rcases hdid with hat | ⟨a, ha, hok, hne, hat⟩
  · exact ⟨T, .of_reclaims .refl, h.ofStart (fun _ => rfl) hat fun _ _ => rfl⟩
  · refine ⟨_, ⟨T.apply a, .inr ⟨a, ha, hok, rfl⟩, .settle (.settle .refl _ _) _ _⟩,
      h.ofStart (fun _ => rfl) hat fun j hj => ?_⟩
    rw [Tree.settle_type hj, Tree.settle_type hj]
    exact hok.type hne (h.live j hj)

/-- The processes stay where they are, and no directory has been opened. -/
structure Stays (T : Tree) (s s' : Sys) : Prop where
  cwd : ∀ p, (s'.procs p).cwd = (s.procs p).cwd
  files : ∀ f i, (s'.ftable f).Holds i → (s.ftable f).Holds i ∨ T.type i ≠ .dir

/-- A call that works on the file system only. -/
theorem onFs_stays {m : FsM ℤ} (h : SysOk N T s)
    (hm : Outcome (m s.fs) (fun _ => Did N D T s.refs) (Faults T)) :
    Outcome (onFs m s) (fun _ s' => ∃ T', Changed N D T T' ∧ SysOk N T' s' ∧ Stays T' s s')
      (Faults T) := by
  refine (onFs_at hm).imp ?_
  rintro _ s' ⟨fs', rfl, hdid⟩
  obtain ⟨T', hT', h'⟩ := h.did hdid
  exact ⟨T', hT', h', fun _ => rfl, fun _ _ hi => .inl hi⟩

theorem onFs_balanced {m : FsM ℤ} (h : SysOk N T s)
    (hm : Outcome (m s.fs) (fun _ => Did N D T s.refs) (Faults T)) : Balanced N D T (onFs m s) :=
  (onFs_stays h hm).imp fun _ _ ⟨T', hT', h', _⟩ => ⟨T', hT', h'⟩

theorem newAct_ne_reclaim (type : FType) (dp k ip : ℕ) (nm : ℕ → UInt8) (i : ℕ) :
    newAct type dp k ip nm ≠ .reclaim i := by
  unfold newAct
  split_ifs <;> exact nofun

theorem rmAct_ne_reclaim (dp k i : ℕ) : rmAct T dp k ≠ .reclaim i := by
  unfold rmAct
  split_ifs <;> exact nofun

theorem newAct_target (type : FType) (dp k ip : ℕ) (nm : ℕ → UInt8) :
    (newAct type dp k ip nm).target T = ip := by
  unfold newAct
  split_ifs <;> rfl

theorem rmAct_target (dp k : ℕ) : (rmAct T dp k).target T = T.ent dp k := by
  unfold rmAct
  split_ifs <;> rfl

theorem newAct_parent (type : FType) (dp k ip : ℕ) (nm : ℕ → UInt8) :
    (newAct type dp k ip nm).parent = dp := by
  unfold newAct
  split_ifs <;> rfl

theorem rmAct_parent (dp k : ℕ) : (rmAct T dp k).parent = dp := by
  unfold rmAct
  split_ifs <;> rfl

end

section Names

variable (hd : T.Dots) (hN : N ≤ 2 ^ 16) (h : SysOk N T s) (hcwd : (s.procs p).cwd = some cwd)

include h hcwd

include hd hN in
theorem makeNode_run (path : List UInt8) {type : FType} (htype : type ≠ .free)
    (hnf : type ≠ .file) (major minor : BitVec 16) :
    Outcome (makeNode cwd path type major minor s.fs)
      (fun _ => Did N (Creates T cwd path type) T s.refs) (Faults T) := by
  have hr := h.start
  have hc := h.toBooks.cwd_pos hcwd
  unfold makeNode
  cases hpath : argstr path with
  | none => exact .ok (.inl hr)
  | some path' =>
    refine ((create_at hd hN hr h.live hc path' htype major minor).stops
      fun e he => he.faults).bind fun res s₁ hs => ?_
    rcases hs with ⟨rfl, h₁⟩ | ⟨ip, -, hf, -⟩ | ⟨dp, name, k, ip, hres, hlook, hok, rfl, h₁⟩
    · exact .ok (.inl h₁)
    · exact absurd hf hnf
    · obtain ⟨s₂, hrun, h₂⟩ := iunlockput_at h₁.unlocked nofun
      refine .bind_ok hrun (.ok (.inr ⟨_, ⟨path', dp, name, k, ip, hpath, hres, hlook, rfl⟩, hok,
        newAct_ne_reclaim _ _ _ _ _, ?_⟩))
      rwa [newAct_target, newAct_parent]

include hd in
theorem sysLink_run (hN : N ≤ 2 ^ 16 ∨ T.type cwd = .dir) (old new : List UInt8) :
    Outcome (sysLink cwd old new s.fs) (fun _ => Did N (Does T cwd (.link old new)) T s.refs)
      (Faults T) := by
  have hr := h.start
  have hc := h.toBooks.cwd_pos hcwd
  unfold sysLink
  cases hold : argstr old with
  | none => exact .ok (.inl hr)
  | some old' =>
    cases hnew : argstr new with
    | none => exact .ok (.inl hr)
    | some new' =>
      refine (link_at hd hN hr h.live hc old' new').mono ?_ fun e he => he.faults
      rintro _ s' (hs | ⟨ip, nm, dp, name, k, h1, h2, h3, hok, hs⟩)
      · exact .inl hs
      · refine .inr ⟨_, ⟨old', new', ip, nm, dp, name, k, hold, hnew, h1, h2, h3, rfl⟩, hok, nofun, ?_⟩
        -- the link count of the directory is what it was
        have hne : dp ≠ ip := by
          rintro rfl
          exact hok.2.2.2.2.2 hok.1
        have hset : (T.apply (.link dp k ip (clip (padded name)))).settle s.refs dp =
            T.apply (.link dp k ip (clip (padded name))) :=
          Tree.settle_of fun ht hn => hr.orphan_pos ht
            (((Tree.setNlink_nlink _ _ _ _).trans (if_neg hne)).symm.trans hn)
        change At N (((T.apply _).settle s.refs dp).settle s.refs ip) s.refs [] s'
        rwa [hset]

include hd in
theorem sysUnlink_run (path : List UInt8) :
    Outcome (sysUnlink cwd path s.fs) (fun _ => Did N (Does T cwd (.unlink path)) T s.refs)
      (Faults T) := by
  have hr := h.start
  have hc := h.toBooks.cwd_pos hcwd
  unfold sysUnlink
  cases hpath : argstr path with
  | none => exact .ok (.inl hr)
  | some path' =>
    refine (unlink_at hd hr h.live hc path').imp ?_
    rintro _ s' (hs | ⟨dp, name, k, h1, h2, hok, hs⟩)
    · exact .inl hs
    · refine .inr ⟨_, ⟨path', dp, name, k, hpath, h1, h2, rfl⟩, hok, rmAct_ne_reclaim _ _, ?_⟩
      rwa [rmAct_target, rmAct_parent]

/-- `sys_chdir`: the reference that `namei` returns takes the place of the old one. -/
theorem sysChdir_at (path : List UInt8) : Balanced N (fun _ => False) T (sysChdir p cwd path s) := by
  have hr := h.start
  have hc := h.toBooks.cwd_pos hcwd
  unfold sysChdir
  cases argstr path with
  | none => exact .of_ok rfl .refl h
  | some path' =>
    refine (onFs_at ((namei_at hr h.live hc path').stops fun e he => he.faults)).bind ?_
    rintro res _ ⟨fs₁, rfl, ⟨rfl, h₁⟩ | ⟨ip, nm, rfl, -, hused, h₁⟩⟩
    · exact .ok ⟨T, .of_reclaims .refl, h.ofStart (fun _ => rfl) h₁ fun _ _ => rfl⟩
    refine (onFs_at ((ilock_named (s := fs₁) h₁ hused).stops fun e he => he.faults)).bind ?_
    rintro _ _ ⟨fs₂, rfl, h₂⟩
    have hat : SysAt N T (more (fun _ => 0) ip) (fun _ => 0) [ip] none { s with fs := fs₂ } :=
      h.ofStart (fun j => by simp only [more]; omega) h₂ fun _ _ => rfl
    rw [Run.get_bind]
    refine .ite (fun _ => ?_) fun hdir => ?_
    · obtain ⟨T', fs', hrun, hT, h'⟩ := iunlockput_drop hat
      exact .bind_ok hrun (.ok ⟨T', .of_reclaims hT, h'⟩)
    obtain ⟨-, -, hfree, -, -⟩ := h₂.fields List.mem_cons_self
    refine .bind_ok (onFs_run (iunlock_at h₂ (h₂.locked_pos List.mem_cons_self))) ?_
    -- the directory changes before the old one is dropped, which makes no difference
    have hp : p < nproc := h.procs p (by rw [hcwd]; rintro ⟨⟩)
    have hbooks : Books N T (more (fun _ => 0) cwd) (fun _ => 0) [] none
        (({ s with fs := fs₂ } : Sys).putCwd p (some ip)) := by
      refine (hat.toBooks.withFs hat.fs.unlocked
        fun _ _ => rfl).putCwd hp (fun _ hq _ => hq) (by rintro ⟨⟩) (fun i => ?_) fun i hi => ?_
      · dsimp only
        rw [hcwd]
        simp only [more, Option.some.injEq, eq_comm]
        omega
      · rw [← Option.some.inj hi]
        exact hfree
    obtain ⟨T', fs', hrun, hT, h'⟩ := iput_drop (⟨hbooks, h.pipes⟩ : SysAt N T _ _ [] none _)
    have hrun' := onFs_procs (s := ({ s with fs := fs₂ } : Sys).putCwd p (some ip)) (iput cwd) s.procs
    rw [hrun] at hrun'
    exact .bind_ok hrun' (.ok ⟨T', .of_reclaims hT, h'⟩)

end Names

/-! ## Descriptors -/

section Descriptors

variable {D : Tree.Act → Prop}

theorem argfd_some {fd : ℕ} (h : argfd s p fd = some f) : (s.procs p).ofile fd = some f := by
  unfold argfd at h
  split_ifs at h
  exact h

theorem sysClose_at (h : SysOk N T s) (fd : ℕ) : Balanced N D T (sysClose p fd s) := by
  unfold sysClose
  rw [Run.get_bind]
  cases hf : argfd s p fd with
  | none => exact .of_ok rfl .refl h
  | some f =>
    obtain ⟨T', s', hrun, -, hT, h'⟩ := fileclose_at (h.take (argfd_some hf))
    have hset : setOfile p fd none s = .ok ((), s.putOfile p fd none) := rfl
    exact Outcome.bind_ok hset (.bind_ok hrun (.ok ⟨T', .of_reclaims hT, h'⟩))

theorem sysDup_at (h : SysOk N T s) (hcwd : (s.procs p).cwd = some cwd) (fd : ℕ) :
    Balanced N D T (sysDup p fd s) := by
  have hsome : (s.procs p).cwd ≠ none := by
    rw [hcwd]
    exact nofun
  unfold sysDup
  rw [Run.get_bind]
  cases hf : argfd s p fd with
  | none => exact .of_ok rfl .refl h
  | some f =>
    rcases fdalloc_run s p f with hrun | ⟨fd', hfd', h0, hrun⟩
    · exact Outcome.bind_ok hrun (.ok ⟨T, .of_reclaims .refl, h⟩)
    · -- the file gets its reference after the descriptor, which makes no difference
      have hpos := h.toBooks.pos_of_slot (argfd_some hf)
      obtain ⟨-, h₁⟩ := filedup_at h hpos
      have h₂ := h₁.give (h.procs p hsome) hfd' h0 (.inl hsome)
      have hdup : filedup f (s.putOfile p fd' (some f)) = .ok ((), (s.putFile f
          { s.ftable f with ref := (s.ftable f).ref + 1 }).putOfile p fd' (some f)) := by
        unfold filedup
        have : ¬ ((s.putOfile p fd' (some f)).ftable f).ref < 1 := Nat.not_lt.2 hpos
        rw [Run.get_bind, if_neg this]
        rfl
      exact Outcome.bind_ok hrun (.bind_ok hdup (.ok ⟨T, .of_reclaims .refl, h₂⟩))

/-- `pipealloc`: two files, or what has been taken is given back. -/
theorem pipealloc_at (h : SysAt N T e g [] q s) (page : ℕ) :
    (∃ T' s', pipealloc page s = .ok (none, s') ∧ T.Reclaims T' ∧ SysAt N T' e g [] q s') ∨
      ∃ f0 f1 s', pipealloc page s = .ok (some (f0, f1), s') ∧ s'.procs = s.procs ∧
        SysAt N T e (more (more g f0) f1) [] q s' := by
  unfold pipealloc
  rcases filealloc_at h with hrun₀ | ⟨f0, hf0, hfree0, hrun₀, h₁⟩
  · refine .inl ⟨T, s, ?_, .refl, h⟩
    rw [Run.bind_of_ok hrun₀]
    rfl
  rw [Run.bind_of_ok hrun₀]
  set s₁ := s.putFile f0 { s.ftable f0 with ref := 1 } with hs₁
  have hft₁ : s₁.ftable f0 = { s.ftable f0 with ref := 1 } := Sys.putFile_self _
  dsimp only
  rcases filealloc_at h₁ with hrun₁ | ⟨f1, hf1, hfree1, hrun₁, h₂⟩
  · obtain ⟨T', s', hrun, -, hT, h'⟩ := fileclose_at h₁
    refine .inl ⟨T', s', ?_, hT, h'⟩
    rw [Run.bind_of_ok hrun₁]
    dsimp only
    rw [Run.bind_of_ok hrun]
    rfl
  rw [Run.bind_of_ok hrun₁]
  dsimp only
  rw [Run.get_bind]
  have hne : f0 ≠ f1 := by
    rintro rfl
    rw [hft₁] at hfree1
    exact absurd hfree1 one_ne_zero
  set s₂ := s₁.putFile f1 { s₁.ftable f1 with ref := 1 } with hs₂
  by_cases hpage : page = 0 ∨ (s₂.pipes page).isSome
  · rw [if_pos hpage]
    rw [more_comm] at h₂
    obtain ⟨T₃, s₃, hrun₃, -, hT₃, h₃⟩ := fileclose_at h₂
    obtain ⟨T₄, s₄, hrun₄, -, hT₄, h₄⟩ := fileclose_at h₃
    refine .inl ⟨T₄, s₄, ?_, hT₃.trans hT₄, h₄⟩
    rw [Run.bind_of_ok hrun₃, Run.bind_of_ok hrun₄]
    rfl
  · rw [if_neg hpage]
    have hnone : s.pipes page = none := by
      have := (not_or.1 hpage).2
      rwa [Option.not_isSome_iff_eq_none] at this
    have hft0 : s₂.ftable f0 = { s.ftable f0 with ref := 1 } := by
      rw [hs₂, Sys.putFile_of_ne _ hne, hft₁]
    have hft1 : s₂.ftable f1 = { s.ftable f1 with ref := 1 } := by
      rw [hs₂, Sys.putFile_self, hs₁, Sys.putFile_of_ne _ hne.symm]
    have hidle0 := h.idle f0 hfree0
    have hidle1 : (s.ftable f1).type = .none := by
      refine h.idle f1 ?_
      rwa [hs₁, Sys.putFile_of_ne _ hne.symm] at hfree1
    have hno : ∀ {fl : File} (i : ℕ), fl.type = .pipe → ¬ fl.Holds i := by
      rintro fl i ht ⟨-, hc | hc, -⟩ <;> rw [ht] at hc <;> exact FdType.noConfusion hc
    set fl0 : File := { s₂.ftable f0 with
      type := .pipe, readable := true, writable := false, pipe := page } with hfl0
    set s₃ := s₂.putFile f0 fl0 with hs₃
    set fl1 : File := { s₃.ftable f1 with
      type := .pipe, readable := false, writable := true, pipe := page } with hfl1
    -- neither file refers to an inode before or after
    have hput : ∀ {s' : Sys} {f' : ℕ} {fl : File}, Books N T e (more (more g f0) f1) [] q s' →
        f' < nfile → (s'.ftable f').type = .none → 0 < (s'.ftable f').ref →
        fl.ref = (s'.ftable f').ref → fl.type = .pipe →
        Books N T e (more (more g f0) f1) [] q (s'.putFile f' fl) := by
      intro s' f' fl hb hf' ht hpos href htype
      refine hb.putFile hf' (fun h0 => by omega) (href.trans (hb.files f')) (fun _ _ => rfl)
        (fun i => ?_) (fun i hi => absurd hi (hno i htype)) fun hi => ?_
      · rw [if_neg (hno i htype), if_neg (File.not_holds ht i)]
      · exact absurd (htype.symm.trans hi) nofun
    have hb₃ : Books N T e (more (more g f0) f1) [] q s₃ :=
      hput h₂.toBooks hf0 (by rw [hft0]; exact hidle0) (by rw [hft0]; exact one_pos) rfl rfl
    have hft1' : s₃.ftable f1 = { s.ftable f1 with ref := 1 } := by
      rw [hs₃, Sys.putFile_of_ne _ hne.symm, hft1]
    have hb₄ : Books N T e (more (more g f0) f1) [] q (s₃.putFile f1 fl1) :=
      hput hb₃ hf1 (by rw [hft1']; exact hidle1) (by rw [hft1']; exact one_pos) rfl rfl
    refine .inr ⟨f0, f1, { s₃.putFile f1 fl1 with
      pipes := Function.update s₂.pipes page (some ⟨true, true⟩) }, rfl, rfl, { hb₄ with }, ?_⟩
    refine h₂.pipes.alloc hnone hne ?_ ?_ ⟨rfl, rfl, rfl⟩ ⟨rfl, rfl, rfl⟩
    · rw [hft0]
      exact fun hc => absurd (hidle0.symm.trans hc) nofun
    · rw [hft1]
      exact fun hc => absurd (hidle1.symm.trans hc) nofun

/-- Two files that the call still holds are closed. -/
theorem closeTwo_at {f0 f1 : ℕ} (h : SysAt N T (fun _ => 0) (more (more (fun _ => 0) f0) f1) [] none s) :
    Balanced N D T ((do
      fileclose f0
      fileclose f1
      return -1 : SysM ℤ) s) := by
  rw [more_comm] at h
  obtain ⟨T₁, s₁, hrun₁, -, hT₁, h₁⟩ := fileclose_at h
  obtain ⟨T₂, s₂, hrun₂, -, hT₂, h₂⟩ := fileclose_at h₁
  exact Outcome.bind_ok hrun₁ (.bind_ok hrun₂ (.ok ⟨T₂, .of_reclaims (hT₁.trans hT₂), h₂⟩))

theorem sysPipe_at (h : SysOk N T s) (hcwd : (s.procs p).cwd = some cwd) (page : ℕ) (copied : Bool) :
    Balanced N D T (sysPipe p page copied s) := by
  have hp : p < nproc := h.procs p (by rw [hcwd]; exact nofun)
  unfold sysPipe
  rcases pipealloc_at h page with ⟨T', s₁, hrun, hT, h₁⟩ | ⟨rf, wf, s₁, hrun, hprocs, h₁⟩
  · exact Outcome.bind_ok hrun (.ok ⟨T', .of_reclaims hT, h₁⟩)
  refine Outcome.bind_ok hrun ?_
  have hsome : (s₁.procs p).cwd ≠ none := by
    rw [hprocs, hcwd]
    exact nofun
  rcases fdalloc_run s₁ p rf with hrun₀ | ⟨fd0, hfd0, hfree0, hrun₀⟩
  · exact .bind_ok hrun₀ (closeTwo_at h₁)
  refine .bind_ok hrun₀ ?_
  rw [more_comm] at h₁
  have h₂ := h₁.give hp hfd0 hfree0 (.inl hsome)
  set s₂ := s₁.putOfile p fd0 (some rf) with hs₂
  have hof0 : (s₂.procs p).ofile fd0 = some rf := by
    rw [hs₂, Sys.putOfile_ofile, if_pos ⟨rfl, rfl⟩]
  have hset : ∀ (s' : Sys) (fd : ℕ), setOfile p fd none s' = .ok ((), s'.putOfile p fd none) :=
    fun _ _ => rfl
  rcases fdalloc_run s₂ p wf with hrun₁ | ⟨fd1, hfd1, hfree1, hrun₁⟩
  · have h₃ := h₂.take hof0
    rw [more_comm] at h₃
    exact .bind_ok hrun₁ (.bind_ok (hset _ _) (closeTwo_at h₃))
  refine .bind_ok hrun₁ ?_
  have hsome₂ : (s₂.procs p).cwd ≠ none := by rwa [hs₂, Sys.putOfile_cwd]
  have h₃ := h₂.give hp hfd1 hfree1 (.inl hsome₂)
  cases copied with
  | true => exact .ok ⟨T, .of_reclaims .refl, h₃⟩
  | false =>
    set s₃ := s₂.putOfile p fd1 (some wf) with hs₃
    have hne : fd0 ≠ fd1 := by
      rintro rfl
      rw [hof0] at hfree1
      exact absurd hfree1 nofun
    have hof₃ : (s₃.procs p).ofile fd0 = some rf := by
      rw [hs₃, Sys.putOfile_ofile, if_neg fun hc => hne hc.2, hof0]
    have hof₄ : ((s₃.putOfile p fd0 none).procs p).ofile fd1 = some wf := by
      rw [Sys.putOfile_ofile, if_neg fun hc => hne hc.2.symm, hs₃, Sys.putOfile_ofile,
        if_pos ⟨rfl, rfl⟩]
    exact .bind_ok (hset _ _) (.bind_ok (hset _ _) (closeTwo_at ((h₃.take hof₃).take hof₄)))

end Descriptors

/-! ## Reading and writing -/

section Contents

variable {D : Tree.Act → Prop}

/-- The offset of a file is moved. -/
theorem SysAt.putOff (h : SysAt N T e g L q s) (hpos : 0 < (s.ftable f).ref) (off : ℕ) :
    SysAt N T e g L q (s.putFile f { s.ftable f with off := off }) := by
  refine ⟨h.toBooks.putFile_same (h.inside f hpos) hpos hpos (h.files f) (fun _ _ => rfl) rfl rfl rfl,
    h.pipes.congr fun f' pi w => ?_⟩
  by_cases hne : f' = f
  · rw [hne, Sys.putFile_self]
    exact Iff.rfl
  · rw [Sys.putFile_of_ne _ hne]

/-- A file's inode is locked, worked on, and unlocked; the offset moves. -/
theorem onFile_at {α : Type} {m : FsM α} (size : α → ℤ) (rest : α → SysM ℤ)
    {Q : ℤ → Sys → Prop} (h : SysOk N T s)
    (ht : (s.ftable f).type = .inode)
    (hm : ∀ {r : ℕ → ℕ} {c : State}, At N T r [(s.ftable f).ip] c →
      ∃ a c', m c = .ok (a, c') ∧ At N T r [(s.ftable f).ip] c')
    (hrest : ∀ a s', SysOk N T s' → (s'.ftable f).type = (s.ftable f).type →
      (s'.ftable f).writable = (s.ftable f).writable → Outcome (rest a s') Q (Faults T)) :
    Outcome ((do
      onFs (ilock (s.ftable f).ip)
      let a ← onFs m
      if size a > 0 then setFile f fun fl => { fl with off := (fl.off + (size a).toNat) % 2 ^ 32 }
      onFs (iunlock (s.ftable f).ip)
      rest a : SysM ℤ) s) Q (Faults T) := by
  have hpos := (h.toBooks.holds (.inl ht)).1
  have href := h.toBooks.holds_pos (.inl ht)
  refine (onFs_at ((ilock_used (s := s.fs) h.fs (h.live _ href)).stops
    fun e he => he.faults)).bind ?_
  rintro _ _ ⟨fs₁, rfl, h₁⟩
  obtain ⟨a, fs₂, hrun, h₂⟩ := hm h₁
  refine .bind_ok (onFs_run hrun) ?_
  have hat : SysAt N T (fun _ => 0) (fun _ => 0) [(s.ftable f).ip] none { s with fs := fs₂ } :=
    h.withFs h₂ fun _ _ => rfl
  have hunlock : ∀ {s' : Sys}, SysAt N T (fun _ => 0) (fun _ => 0) [(s.ftable f).ip] none s' →
      (s'.ftable f).type = (s.ftable f).type → (s'.ftable f).writable = (s.ftable f).writable →
      Outcome ((onFs (iunlock (s.ftable f).ip) >>= fun _ => rest a) s') Q (Faults T) := by
    intro s' h' ht' hw'
    refine .bind_ok (onFs_run (iunlock_at h'.fs (h'.fs.locked_pos List.mem_cons_self))) ?_
    exact hrest a _ (h'.withFs (h'.fs.unlocked)
      fun _ _ => rfl) ht' hw'
  by_cases hsize : size a > 0
  · rw [if_pos hsize]
    have hoff := hat.putOff (f := f) hpos (((s.ftable f).off + (size a).toNat) % 2 ^ 32)
    have hself := Sys.putFile_self (s := { s with fs := fs₂ }) (f := f)
      { s.ftable f with off := ((s.ftable f).off + (size a).toNat) % 2 ^ 32 }
    have ht' := congrArg File.type hself
    have hw' := congrArg File.writable hself
    exact hunlock hoff ht' hw'
  · rw [if_neg hsize]
    exact hunlock hat rfl rfl

theorem sysRead_at (h : SysOk N T s) (fd : ℕ) (dst : ℕ → Bool) (n r : ℤ) :
    Balanced N D T (sysRead p fd dst n r s) := by
  unfold sysRead
  rw [Run.get_bind]
  cases hf : argfd s p fd with
  | none => exact .of_ok rfl .refl h
  | some f =>
    refine Outcome.ite (fun _ => .ok ⟨T, .of_reclaims .refl, h⟩) fun _ => ?_
    cases ht : (s.ftable f).type with
    | pipe => exact .ok ⟨T, .of_reclaims .refl, h⟩
    | device => exact .ok ⟨T, .of_reclaims .refl, h⟩
    | none => exact .error (Quiet.faults nofun)
    | inode =>
      refine onFile_at (fun a : ℤ × List UInt8 => a.1) (fun a => pure a.1) h ht ?_ ?_
      · intro r c hc
        have hn : (n % 2 ^ 32).toNat < 2 ^ 32 := by omega
        obtain ⟨a, hrun⟩ := readi_still (hc.wf.at (hc.locked _ List.mem_cons_self)) dst
          (s.ftable f).off hn
        exact ⟨a, c, hrun, hc⟩
      · exact fun a s' h' _ _ => .ok ⟨T, .of_reclaims .refl, h'⟩

theorem filewriteFrom_at {src : Src} {n : ℕ} : ∀ {fuel i : ℕ} {s : Sys}, SysOk N T s →
    (s.ftable f).type = .inode → (s.ftable f).writable = true →
    Outcome (filewriteFrom f src n fuel i s) (fun _ s' => SysOk N T s') (Faults T) := by
  intro fuel
  induction fuel with
  | zero => exact fun h _ _ => .ok h
  | succ fuel ih =>
    intro i s h ht hw
    unfold filewriteFrom
    refine .ite (fun _ => ?_) fun _ => .ok h
    dsimp only
    rw [Run.get_bind]
    refine onFile_at (fun a : ℤ => a) _ h ht ?_ ?_
    · intro r c hc
      refine writei_file_at hc List.mem_cons_self (h.plain f ht hw) _ _ ?_
      exact (Nat.min_le_right _ _).trans_lt (by decide)
    · intro a s' h' ht' hw'
      exact .ite (fun _ => .ok h') fun _ => ih h' (ht'.trans ht) (hw'.trans hw)

/-- `sys_write` leaves the tree alone. -/
theorem sysWrite_run (h : SysOk N T s) (fd : ℕ) (src : Src) (n r : ℤ) :
    Outcome (sysWrite p fd src n r s) (fun _ s' => SysOk N T s') (Faults T) := by
  unfold sysWrite
  rw [Run.get_bind]
  cases hf : argfd s p fd with
  | none => exact .ok h
  | some f =>
    refine Outcome.ite (fun _ => .ok h) fun hw => ?_
    rw [Bool.not_eq_false] at hw
    cases ht : (s.ftable f).type with
    | pipe => exact .ok h
    | device => exact .ok h
    | none => exact .error (Quiet.faults nofun)
    | inode => exact .ite (fun _ => .ok h) fun _ => filewriteFrom_at h ht hw

theorem sysWrite_at (h : SysOk N T s) (fd : ℕ) (src : Src) (n r : ℤ) :
    Balanced N D T (sysWrite p fd src n r s) :=
  (sysWrite_run h fd src n r).imp fun _ _ h' => ⟨T, .of_reclaims .refl, h'⟩

end Contents

/-! ## Opening -/

section Open

/-- `sys_open` from the point where the inode is locked. -/
theorem openInode_at {ip omode : ℕ}
    (h : SysAt N T (more (fun _ => 0) ip) (fun _ => 0) [ip] none s)
    (hcwd : (s.procs p).cwd = some cwd) (hdir : T.type ip = .dir → omode = 0) :
    ∃ T' n s', openInode p ip omode s = .ok (n, s') ∧ T.Reclaims T' ∧ SysOk N T' s' ∧
      (∀ p', (s'.procs p').cwd = (s.procs p').cwd) ∧
      ∀ f i, (s'.ftable f).Holds i → (s.ftable f).Holds i ∨ i = ip := by
  have hsome : (s.procs p).cwd ≠ none := by
    rw [hcwd]
    exact nofun
  unfold openInode
  rw [Run.get_bind]
  by_cases hdev : (s.fs.itable ip).d.type = .device ∧
      ((s.fs.itable ip).d.major.toInt < 0 ∨ (s.fs.itable ip).d.major.toInt ≥ ndev)
  · obtain ⟨T', fs', hrun, hT, h'⟩ := iunlockput_drop h
    refine ⟨T', -1, _, ?_, hT, h', fun _ => rfl, fun _ _ hi => .inl hi⟩
    rw [if_pos hdev, Run.bind_of_ok hrun]
    rfl
  rw [if_neg hdev]
  rcases filealloc_at h with hrun₁ | ⟨f, hf, hfree, hrun₁, h₁⟩
  · obtain ⟨T', fs', hrun, hT, h'⟩ := iunlockput_drop h
    refine ⟨T', -1, _, ?_, hT, h', fun _ => rfl, fun _ _ hi => .inl hi⟩
    rw [Run.bind_of_ok hrun₁]
    dsimp only
    rw [Run.bind_of_ok hrun]
    rfl
  rw [Run.bind_of_ok hrun₁]
  dsimp only
  set s₁ := s.putFile f { s.ftable f with ref := 1 } with hs₁
  have hft : s₁.ftable f = { s.ftable f with ref := 1 } := Sys.putFile_self _
  have htype : (s₁.ftable f).type = .none := by
    rw [hft]
    exact h.idle f hfree
  have hother : ∀ {f' i}, f' ≠ f → (s₁.ftable f').Holds i → (s.ftable f').Holds i := by
    intro f' i hne hi
    rwa [hs₁, Sys.putFile_of_ne _ hne] at hi
  rcases fdalloc_run s₁ p f with hrun₂ | ⟨fd, hfd, hfree', hrun₂⟩
  · obtain ⟨hrun₃, h₃⟩ := fileclose_unopened h₁ (by rw [hft]) htype
    obtain ⟨T', fs', hrun, hT, h'⟩ := iunlockput_drop h₃
    refine ⟨T', -1, _, ?_, hT, h', fun _ => rfl, fun f' i hi => .inl ?_⟩
    · rw [Run.bind_of_ok hrun₂]
      dsimp only
      rw [Run.bind_of_ok hrun₃, Run.bind_of_ok hrun]
      rfl
    · change ((s₁.putFile f { s₁.ftable f with ref := 0, type := .none }).ftable f').Holds i at hi
      by_cases hne : f' = f
      · rw [hne, Sys.putFile_self] at hi
        exact absurd hi (File.not_holds rfl i)
      · rw [Sys.putFile_of_ne _ hne] at hi
        exact hother hne hi
  · have h₂ := h₁.give (h.procs p hsome) hfd hfree' (.inl hsome)
    obtain ⟨s', hrun, h', hprocs, hholds⟩ := openFile_at h₂ hf
      (show 0 < (s₁.ftable f).ref by rw [hft]; exact one_pos) htype hdir
    refine ⟨T, fd, s', ?_, .refl, h', fun p' => ?_, fun f' i hi => ?_⟩
    · rw [Run.bind_of_ok hrun₂]
      dsimp only
      rw [Run.bind_of_ok hrun]
      rfl
    · rw [hprocs, Sys.putOfile_cwd]
      rfl
    · rcases hholds f' i hi with hi | hi
      · by_cases hne : f' = f
        · rw [hne] at hi
          exact absurd hi (File.not_holds htype i)
        · exact .inl (hother hne hi)
      · exact .inr hi

variable (hd : T.Dots) (hN : N ≤ 2 ^ 16) (h : SysOk N T s) (hcwd : (s.procs p).cwd = some cwd)

include hd hN h hcwd

/-- `sys_open`; with `O_CREATE` it opens no directory. -/
theorem sysOpen_run (path : List UInt8) (omode : ℕ) :
    Outcome (sysOpen p cwd path omode s)
      (fun _ s' => ∃ T', Changed N (Does T cwd (.open path omode)) T T' ∧ SysOk N T' s' ∧
        (omode.testBit oCreate = true → Stays T' s s')) (Faults T) := by
  have hr := h.start
  have hc := h.toBooks.cwd_pos hcwd
  -- an inode that is locked and held is opened
  have hopen : ∀ {T₁ : Tree} {fs₁ : State} {ip : ℕ}, At N T₁ (more s.refs ip) [ip] fs₁ →
      (∀ j, 0 < s.refs j → T₁.type j = T.type j) → (T₁.type ip = .dir → omode = 0) →
      Changed N (Does T cwd (.open path omode)) T T₁ →
      (omode.testBit oCreate = true → T₁.type ip ≠ .dir) →
      Outcome (openInode p ip omode { s with fs := fs₁ })
        (fun _ s' => ∃ T', Changed N (Does T cwd (.open path omode)) T T' ∧ SysOk N T' s' ∧
          (omode.testBit oCreate = true → Stays T' s s')) (Faults T) := by
    intro T₁ fs₁ ip h₁ htype hdir hT₁ hnd
    have hat : SysAt N T₁ (more (fun _ => 0) ip) (fun _ => 0) [ip] none { s with fs := fs₁ } :=
      h.ofStart (fun j => by simp only [more]; omega) h₁ htype
    obtain ⟨T', n, s', hrun, hT, h', hprocs, hholds⟩ := openInode_at (p := p) hat hcwd hdir
    rw [hrun]
    refine .ok ⟨T', hT₁.reclaims hT, h', fun hcreate => ⟨hprocs, fun f i hi => ?_⟩⟩
    refine (hholds f i hi).imp_right fun hip hdir' => hnd hcreate ?_
    rw [← hip]
    exact hT.dir hdir'
  unfold sysOpen
  cases hpath : argstr path with
  | none => exact .ok ⟨T, .of_reclaims .refl, h, fun _ => ⟨fun _ => rfl, fun _ _ hi => .inl hi⟩⟩
  | some path' =>
    dsimp only
    unfold openPath
    refine Outcome.ite (fun hcreate => ?_) fun hcreate => ?_
    · refine (onFs_at ((create_at hd hN hr h.live hc path' (by decide : FType.file ≠ .free) 0 0).stops fun e he => he.faults)).bind ?_
      rintro res _ ⟨fs₁, rfl, ⟨rfl, h₁⟩ | ⟨ip, rfl, -, hnd, h₁⟩ |
        ⟨dp, name, k, ip, hres, hlook, hok, rfl, h₁⟩⟩
      · exact .ok ⟨T, .of_reclaims .refl, h.ofStart (fun _ => rfl) h₁ fun _ _ => rfl,
          fun _ => ⟨fun _ => rfl, fun _ _ hi => .inl hi⟩⟩
      · exact hopen h₁ (fun _ _ => rfl) (fun hdir => absurd hdir hnd) (.of_reclaims .refl) fun _ => hnd
      · have hne : ip ≠ dp := by
          rintro rfl
          obtain ⟨hdir, -, -, -, hfree, -⟩ := hok
          cases hdir.symm.trans hfree
        have hft : ((T.apply (newAct .file dp k ip (clip (padded name)))).settle s.refs dp).type ip =
            .file := (Tree.settle_sameAt hne).type.trans
              ((Tree.setType_type _ _ _ _).trans (if_pos rfl))
        have hnd : ((T.apply (newAct .file dp k ip (clip (padded name)))).settle s.refs dp).type ip ≠ .dir := by
          rw [hft]; decide
        refine hopen h₁ (fun j hj => ?_) (fun hdir => absurd hdir hnd)
          ⟨_, .inr ⟨_, ?_, hok, rfl⟩, .settle .refl _ _⟩ fun _ => hnd
        · rw [Tree.settle_type hj]
          exact hok.type (newAct_ne_reclaim _ _ _ _ _) (h.live j hj)
        · exact ⟨hcreate, path', dp, name, k, ip, hpath, hres, hlook, rfl⟩
    · refine (onFs_at ((namei_at hr h.live hc path').stops fun e he => he.faults)).bind ?_
      rintro res _ ⟨fs₁, rfl, ⟨rfl, h₁⟩ | ⟨ip, nm, rfl, -, hused, h₁⟩⟩
      · exact .ok ⟨T, .of_reclaims .refl, h.ofStart (fun _ => rfl) h₁ fun _ _ => rfl,
          fun hc => absurd hc hcreate⟩
      refine (onFs_at ((ilock_named (s := fs₁) h₁ hused).stops fun e he => he.faults)).bind ?_
      rintro _ _ ⟨fs₂, rfl, h₂⟩
      obtain ⟨hmem, -, -, ht, -⟩ := h₂.fields List.mem_cons_self
      rw [Run.get_bind]
      refine .ite (fun _ => ?_) fun hno => ?_
      · have hat : SysAt N T (more (fun _ => 0) ip) (fun _ => 0) [ip] none { s with fs := fs₂ } :=
          h.ofStart (fun j => by simp only [more]; omega) h₂ fun _ _ => rfl
        obtain ⟨T', fs', hrun, hT, h'⟩ := iunlockput_drop hat
        exact .bind_ok hrun (.ok ⟨T', .of_reclaims hT, h', fun hc => absurd hc hcreate⟩)
      · refine hopen h₂ (fun _ _ => rfl) (fun hdir => ?_) (.of_reclaims .refl) fun hc => absurd hc hcreate
        by_contra hne
        exact hno ⟨by rw [hmem, ht, hdir], hne⟩

theorem sysOpen_at (path : List UInt8) (omode : ℕ) :
    Balanced N (Does T cwd (.open path omode)) T (sysOpen p cwd path omode s) :=
  (sysOpen_run hd hN h hcwd path omode).imp fun _ _ ⟨T', hT, h', _⟩ => ⟨T', hT, h'⟩

end Open

/-! ## `exit` and `fork` -/

section Processes

/-- The loop of `exit`: the descriptors are closed one by one. -/
theorem closeAll_at : ∀ (fds : List ℕ) {T : Tree} {s : Sys}, SysOk N T s →
    ∃ T' s', closeAll p fds s = .ok ((), s') ∧ T.Reclaims T' ∧ SysOk N T' s' ∧
      (s'.procs p).cwd = (s.procs p).cwd ∧ (∀ fd ∈ fds, (s'.procs p).ofile fd = none) ∧
      ∀ fd, (s.procs p).ofile fd = none → (s'.procs p).ofile fd = none := by
  intro fds
  induction fds with
  | nil => exact fun h => ⟨_, _, rfl, .refl, h, rfl, nofun, fun _ hfd => hfd⟩
  | cons fd fds ih =>
    intro T s h
    unfold closeAll
    rw [Run.get_bind]
    cases hof : (s.procs p).ofile fd with
    | none =>
      obtain ⟨T', s', hrun, hT, h', hc, hfds, hkeep⟩ := ih h
      refine ⟨T', s', hrun, hT, h', hc, fun fd' hfd' => ?_, hkeep⟩
      rcases List.mem_cons.1 hfd' with rfl | hfd'
      · exact hkeep _ hof
      · exact hfds fd' hfd'
    | some f =>
      -- the descriptor is cleared after the file is closed, which makes no difference
      obtain ⟨T₁, s₁, hrun₁, hprocs, hT₁, h₁⟩ := fileclose_at (h.take hof)
      have hrun₁' : fileclose f s = .ok ((), { s₁ with procs := s.procs }) :=
        fileclose_procs (s := s.putOfile p fd none) s.procs hrun₁
      have hset : setOfile p fd none { s₁ with procs := s.procs } = .ok ((), s₁) := by
        change Except.ok ((), { s₁ with procs := (s.putOfile p fd none).procs }) = _
        rw [← hprocs]
      obtain ⟨T', s', hrun, hT, h', hc, hfds, hkeep⟩ := ih h₁
      have hof₁ : ∀ fd', (s₁.procs p).ofile fd' =
          if p = p ∧ fd' = fd then none else (s.procs p).ofile fd' := by
        intro fd'
        rw [hprocs, Sys.putOfile_ofile]
      refine ⟨T', s', ?_, hT₁.trans hT, h', ?_, fun fd' hfd' => ?_, fun fd' hfd' => hkeep fd' ?_⟩
      · dsimp only
        rw [Run.bind_of_ok hrun₁', Run.bind_of_ok hset, hrun]
      · rw [hc, hprocs, Sys.putOfile_cwd]
      · rcases List.mem_cons.1 hfd' with rfl | hfd'
        · exact hkeep _ (by rw [hof₁, if_pos ⟨rfl, rfl⟩])
        · exact hfds fd' hfd'
      · rw [hof₁, hfd', ite_self]

theorem exit_at (h : SysOk N T s) (hcwd : (s.procs p).cwd = some cwd) :
    Balanced N (fun _ => False) T (exit p cwd s) := by
  have hp : p < nproc := h.procs p (by rw [hcwd]; exact nofun)
  unfold exit
  refine Outcome.ite (fun _ => .error (Quiet.faults nofun)) fun _ => ?_
  obtain ⟨T₁, s₁, hrun₁, hT₁, h₁, hc₁, hfds, -⟩ := closeAll_at (p := p) (List.range nofile) h
  refine .bind_ok hrun₁ ?_
  have hnone : ∀ fd, (s₁.procs p).ofile fd = none := by
    intro fd
    by_contra hne
    obtain ⟨-, hfd⟩ := h₁.slots p fd hne
    exact hne (hfds fd (by rwa [List.mem_range]))
  -- the process goes before its directory is dropped, which makes no difference
  have hbooks : Books N T₁ (more (fun _ => 0) cwd) (fun _ => 0) [] none (s₁.putCwd p none) := by
    refine h₁.toBooks.putCwd hp (fun _ hq _ => hq) (fun _ _ => hnone) (fun i => ?_) nofun
    rw [hc₁, hcwd, if_neg nofun]
    simp only [more, Option.some.injEq, eq_comm]
    omega
  obtain ⟨T₂, fs₂, hrun₂, hT₂, h₂⟩ := iput_drop (⟨hbooks, h₁.pipes⟩ : SysAt N T₁ _ _ [] none _)
  have hrun₂' := onFs_procs (s := s₁.putCwd p none) (iput cwd) s₁.procs
  rw [hrun₂] at hrun₂'
  exact .bind_ok hrun₂' (.ok ⟨T₂, .of_reclaims (hT₁.trans hT₂), h₂⟩)

/-- The loop of `fork`: the descriptors are copied one by one. -/
theorem dupAll_at {c : ℕ} (hc : c < nproc) : ∀ {fds : List ℕ} {s : Sys},
    SysAt N T e g L (some c) s → fds.Nodup → (∀ fd ∈ fds, (s.procs c).ofile fd = none) →
    ∃ s', dupAll p c fds s = .ok ((), s') ∧ SysAt N T e g L (some c) s' ∧
      ∀ p', (s'.procs p').cwd = (s.procs p').cwd := by
  intro fds
  induction fds with
  | nil => exact fun h _ _ => ⟨_, rfl, h, fun _ => rfl⟩
  | cons fd fds ih =>
    intro s h hnd hnone
    obtain ⟨hfd, hnd⟩ := List.nodup_cons.1 hnd
    unfold dupAll
    rw [Run.get_bind]
    cases hof : (s.procs p).ofile fd with
    | none => exact ih h hnd fun fd' hfd' => hnone fd' (List.mem_cons_of_mem _ hfd')
    | some f =>
      obtain ⟨-, hlt⟩ := h.slots p fd (by rw [hof]; exact nofun)
      obtain ⟨hrun₁, h₁⟩ := filedup_at h (h.toBooks.pos_of_slot hof)
      have h₂ := h₁.give hc hlt (hnone fd List.mem_cons_self) (.inr rfl)
      obtain ⟨s', hrun, h', hcwd⟩ := ih h₂ hnd fun fd' hfd' => by
        rw [Sys.putOfile_ofile, if_neg]
        · exact hnone fd' (List.mem_cons_of_mem _ hfd')
        · rintro ⟨-, rfl⟩
          exact hfd hfd'
      refine ⟨s', ?_, h', fun p' => ?_⟩
      · dsimp only
        rw [Run.bind_of_ok hrun₁]
        exact hrun
      · rw [hcwd p', Sys.putOfile_cwd]
        rfl

theorem fork_at (h : SysOk N T s) (hcwd : (s.procs p).cwd = some cwd) (c : ℕ) :
    Balanced N (fun _ => False) T (fork p cwd c s) := by
  unfold fork
  rw [Run.get_bind]
  refine Outcome.ite (fun hc => ?_) fun _ => .ok ⟨T, .of_reclaims .refl, h⟩
  obtain ⟨hlt, hnone⟩ := hc
  have h₀ : SysAt N T (fun _ => 0) (fun _ => 0) [] (some c) s :=
    { h with tidy := fun p' _ => h.tidy p' (Option.some_ne_none _) }
  have hnodup : (List.range nofile).Nodup := List.nodup_range
  obtain ⟨s₁, hrun₁, h₁, hcwd₁⟩ := dupAll_at (p := p) hlt h₀ hnodup fun fd _ => h.tidy c (Option.some_ne_none _) hnone fd
  refine .bind_ok hrun₁ ?_
  have hpos : 0 < s₁.refs cwd := h₁.toBooks.cwd_pos (p := p) (by rw [hcwd₁, hcwd])
  have hdup : idup cwd s₁.fs = .ok ((), s₁.fs.refer cwd) := idup_run (by
    rw [h₁.fs.ref cwd]
    exact hpos)
  have h₂ : SysAt N T (more (fun _ => 0) cwd) (fun _ => 0) [] (some c)
      { s₁ with fs := s₁.fs.refer cwd } :=
    h₁.withFs ((h₁.fs.refer cwd).congr fun j => by simp only [more]; omega) fun _ _ => rfl
  have hbooks : Books N T (fun _ => 0) (fun _ => 0) [] none
      (({ s₁ with fs := s₁.fs.refer cwd } : Sys).putCwd c (some cwd)) := by
    refine h₂.toBooks.putCwd hlt (fun p' _ hp' hq => hp' (Option.some.inj hq)) (by rintro ⟨⟩) (fun i => ?_)
      fun i hi => ?_
    · dsimp only
      rw [hcwd₁, hnone, if_neg (Option.some_ne_none i).symm]
      simp only [more, Option.some.injEq, eq_comm]
      omega
    · rw [← Option.some.inj hi]
      exact h₁.live cwd hpos
  exact .bind_ok (onFs_run hdup) (.ok ⟨T, .of_reclaims .refl, hbooks, h₁.pipes⟩)

end Processes

/-- **Every call keeps the accounts** and makes only the changes that its paths ask for. -/
theorem Call.run_at (hd : T.Dots) (hN : N ≤ 2 ^ 16) (h : SysOk N T s)
    (hcwd : (s.procs p).cwd = some cwd) (c : Call) :
    Balanced N (Does T cwd c) T (c.run p cwd s) := by
  cases c with
  | mkdir path => exact onFs_balanced h (makeNode_run hd hN h hcwd path (by decide) (by decide) 0 0)
  | «open» path omode => exact sysOpen_at hd hN h hcwd path omode
  | mknod path major minor =>
    exact onFs_balanced h (makeNode_run hd hN h hcwd path (by decide) (by decide) major minor)
  | link old new => exact onFs_balanced h (sysLink_run hd h hcwd (.inl hN) old new)
  | unlink path => exact onFs_balanced h (sysUnlink_run hd h hcwd path)
  | chdir path => exact sysChdir_at h hcwd path
  | close fd => exact sysClose_at h fd
  | dup fd => exact sysDup_at h hcwd fd
  | pipe page copied => exact sysPipe_at h hcwd page copied
  | read fd dst n r => exact sysRead_at h fd dst n r
  | write fd src n r => exact sysWrite_at h fd src n r
  | fork c => exact fork_at h hcwd c
  | exit => exact exit_at h hcwd

end Xv6.Fs
