import Xv6.Fs.Accounts

/-!
# Open files and descriptors

What the functions of `kernel/file.c` and the helpers of `kernel/sysfile.c` do to the accounts.
None of them stops: `filedup` and `fileclose` are only called on files that are referred to.

* `filealloc_at`, `filedup_at`, `fileclose_at`: a reference to a file is made and dropped.
* `SysAt.give`, `SysAt.take`: it goes to a descriptor and comes back from there.
* `drop_at`: a reference to an inode is dropped.
-/

namespace Xv6.Fs

open Lib

variable {N : ℕ} {T T' : Tree} {e e' g : ℕ → ℕ} {L L' : List ℕ} {q : Option ℕ} {s : Sys} {f p : ℕ}

/-- A computation of the file system returns in the whole system. -/
theorem onFs_run {α : Type} {m : FsM α} {a : α} {fs' : State} (h : m s.fs = .ok (a, fs')) :
    onFs m s = .ok (a, { s with fs := fs' }) := by
  unfold onFs
  rw [h]

theorem onFs_at {α : Type} {m : FsM α} {Q : α → State → Prop} {E : Stop → Prop}
    (h : Outcome (m s.fs) Q E) :
    Outcome (onFs m s) (fun a s' => ∃ fs', s' = { s with fs := fs' } ∧ Q a fs') E := by
  unfold onFs
  cases hm : m s.fs with
  | error e =>
    rw [hm] at h
    exact .error h
  | ok x =>
    obtain ⟨a, fs'⟩ := x
    rw [hm] at h
    exact .ok ⟨fs', rfl, h⟩

theorem SysAt.withFs (h : SysAt N T e g L q s) {fs' : State}
    (hfs : At N T' (fun j => s.refs j + e' j) L' fs')
    (ht : ∀ j, 0 < s.refs j → T'.type j = T.type j) :
    SysAt N T' e' g L' q { s with fs := fs' } := ⟨h.toBooks.withFs hfs ht, h.pipes⟩

/-! ## The contents of files -/

section Contents

variable {r : ℕ → ℕ} {c c' : State} {i : ℕ}

/-- Work on the contents of a file or a device does not show in the tree. -/
theorem At.touched (h : At N T r L c) (hi : i ∈ L) (hnd : T.type i ≠ .dir)
    (ht : State.Touch i c c') (hw : c'.Wf) (htype : (c'.itable i).d.type = (c.itable i).d.type)
    (hn : (c'.itable i).d.nlink = (c.itable i).d.nlink) : At N T r L c' := by
  have hl := h.locked i hi
  obtain ⟨hd', -, -⟩ := hw.agree i ⟨ht.ref ▸ hl.1, ht.valid ▸ hl.2⟩
  obtain ⟨hd, -, -, hdt, -⟩ := h.fields hi
  have htree : c'.tree = T := by
    rw [← h.tree]
    exact State.tree_of_touch ht (h.wf.at hl) (by rw [← hd', ← hd, htype])
      (by rw [← hd', ← hd, hn]) (by rwa [hdt])
  exact h.touch ht hw htree rfl rfl fun hdir => absurd hdir hnd

theorem itrunc_at (h : At N T r L c) (hi : i ∈ L) (hnd : T.type i ≠ .dir) :
    ∃ c', itrunc i c = .ok ((), c') ∧ At N T r L c' := by
  obtain ⟨c', hrun, he⟩ := itrunc_run (h.wf.at (h.locked i hi))
  exact ⟨c', hrun, h.touched hi hnd he.touch he.wf (by rw [he.d]; rfl) (by rw [he.d]; rfl)⟩

theorem writei_file_at (h : At N T r L c) (hi : i ∈ L) (hnd : T.type i ≠ .dir) (src : Src)
    (off : ℕ) {n : ℕ} (hn : n < 2 ^ 32) :
    ∃ m c', writei i src off n c = .ok (m, c') ∧ At N T r L c' := by
  rcases writei_run (h.wf.at (h.locked i hi)) src off hn with ⟨hrun, -⟩ | ⟨m, c', hrun, hw⟩
  · exact ⟨_, c, hrun, h⟩
  · exact ⟨_, c', hrun, h.touched hi hnd hw.touch hw.wf (by rw [hw.d]) (by rw [hw.d])⟩

end Contents

/-! ## Dropping an inode -/

/-- Work on the file system that drops a reference to inode `i`. -/
theorem drop_at {i : ℕ} {m : FsM Unit} (h : SysAt N T (more e i) g L q s)
    (hm : ∀ {r : ℕ → ℕ} {s : State}, At N T (more r i) L s →
      ∃ s', m s = .ok ((), s') ∧ At N (T.settle r i) r [] s') :
    ∃ T' fs', onFs m s = .ok ((), { s with fs := fs' }) ∧ T.Reclaims T' ∧
      SysAt N T' e g [] q { s with fs := fs' } := by
  have hat : At N T (more (fun j => s.refs j + e j) i) L s.fs := h.fs.congr fun j => by
    simp only [more]
    omega
  obtain ⟨fs', hrun, hfs⟩ := hm hat
  refine ⟨_, fs', onFs_run hrun, .settle .refl _ _, h.withFs hfs fun j hj => ?_⟩
  unfold Tree.settle
  split_ifs with hc
  · rw [Tree.free_type, if_neg]
    rintro rfl
    have h0 : s.refs j + e j = 0 := hc.1
    omega
  · rfl

theorem iput_drop (h : SysAt N T (more e p) g [] q s) :
    ∃ T' fs', onFs (iput p) s = .ok ((), { s with fs := fs' }) ∧ T.Reclaims T' ∧
      SysAt N T' e g [] q { s with fs := fs' } :=
  drop_at h fun hat => iput_at hat nofun

theorem iunlockput_drop (h : SysAt N T (more e p) g L q s) :
    ∃ T' fs', onFs (iunlockput p) s = .ok ((), { s with fs := fs' }) ∧ T.Reclaims T' ∧
      SysAt N T' e g [] q { s with fs := fs' } :=
  drop_at h fun hat => iunlockput_at hat.unlocked nofun

/-! ## References to files -/

theorem filealloc_at (h : SysAt N T e g L q s) :
    filealloc s = .ok (none, s) ∨ ∃ f, f < nfile ∧ (s.ftable f).ref = 0 ∧
      filealloc s = .ok (some f, s.putFile f { s.ftable f with ref := 1 }) ∧
      SysAt N T e (more g f) L q (s.putFile f { s.ftable f with ref := 1 }) := by
  unfold filealloc
  rw [Run.get_bind]
  cases hfind : (List.range nfile).find? fun f => decide ((s.ftable f).ref = 0) with
  | none => exact .inl rfl
  | some f =>
    have hf : f < nfile := by
      have := List.mem_of_find?_eq_some hfind
      rwa [List.mem_range] at this
    have h0 : (s.ftable f).ref = 0 := by
      have := List.find?_some hfind
      rwa [decide_eq_true_eq] at this
    have hnone := h.idle f h0
    have hcount := h.files f
    refine .inr ⟨f, hf, h0, rfl, ?_, ?_⟩
    · refine h.toBooks.putFile hf (fun h1 => absurd h1 one_ne_zero) ?_
        (fun f' hne => more_of_ne g hne) (fun i => ?_) (fun i hi => ?_) fun hi => ?_
      · rw [more_self]
        dsimp only
        omega
      · rw [if_neg (File.not_holds hnone i), if_neg (File.not_holds (by exact hnone) i)]
      · exact absurd hi (File.not_holds (by exact hnone) i)
      · exact absurd (hnone.symm.trans hi) nofun
    · refine h.pipes.putFile ?_ ?_
      · rw [hnone]
        exact nofun
      · dsimp only
        rw [hnone]
        exact nofun

theorem filedup_at (h : SysAt N T e g L q s) (hf : 0 < (s.ftable f).ref) :
    filedup f s = .ok ((), s.putFile f { s.ftable f with ref := (s.ftable f).ref + 1 }) ∧
      SysAt N T e (more g f) L q
        (s.putFile f { s.ftable f with ref := (s.ftable f).ref + 1 }) := by
  refine ⟨?_, ?_, ?_⟩
  · unfold filedup
    rw [Run.get_bind, if_neg (by omega)]
    rfl
  · refine h.toBooks.putFile_same (h.inside f hf) hf (Nat.succ_pos _) ?_
      (fun f' hne => more_of_ne g hne) rfl rfl rfl
    rw [more_self, h.files f]
    dsimp only
    omega
  · refine h.pipes.congr fun f' pi w => ?_
    by_cases hne : f' = f
    · rw [hne, Sys.putFile_self]
      exact Iff.rfl
    · rw [Sys.putFile_of_ne _ hne]

theorem fdalloc_run (s : Sys) (p f : ℕ) :
    fdalloc p f s = .ok (none, s) ∨ ∃ fd < nofile, (s.procs p).ofile fd = none ∧
      fdalloc p f s = .ok (some fd, s.putOfile p fd (some f)) := by
  unfold fdalloc
  rw [Run.get_bind]
  cases hfind : (List.range nofile).find? fun fd => ((s.procs p).ofile fd).isNone with
  | none => exact .inl rfl
  | some fd =>
    have hfd := List.mem_of_find?_eq_some hfind
    have h0 := List.find?_some hfind
    rw [List.mem_range] at hfd
    rw [Option.isNone_iff_eq_none] at h0
    exact .inr ⟨fd, hfd, h0, rfl⟩

/-- A reference to a file goes to a descriptor. -/
theorem SysAt.give {fd : ℕ} (h : SysAt N T e (more g f) L q s) (hp : p < nproc) (hfd : fd < nofile)
    (h0 : (s.procs p).ofile fd = none) (hq : (s.procs p).cwd ≠ none ∨ some p = q) :
    SysAt N T e g L q (s.putOfile p fd (some f)) := by
  refine ⟨h.toBooks.putOfile hp hfd (fun _ => hq) fun f' => ?_, h.pipes⟩
  rw [h0, if_neg (nofun : ¬ none = some f')]
  simp only [more, Option.some.injEq, eq_comm]
  omega

/-- A reference to a file is taken from a descriptor. -/
theorem SysAt.take {fd : ℕ} (h : SysAt N T e g L q s) (hf : (s.procs p).ofile fd = some f) :
    SysAt N T e (more g f) L q (s.putOfile p fd none) := by
  obtain ⟨hp, hfd⟩ := h.slots p fd (by rw [hf]; exact nofun)
  refine ⟨h.toBooks.putOfile hp hfd (fun hc => absurd rfl hc) fun f' => ?_, h.pipes⟩
  rw [hf, if_neg (nofun : ¬ none = some f')]
  simp only [more, Option.some.injEq, eq_comm]
  omega

/-- The last reference to a file is dropped. -/
theorem Books.vanish (h : Books N T e (more g f) L q s) (h1 : (s.ftable f).ref = 1)
    (he : ∀ i, e' i = (if (s.ftable f).Holds i then 1 else 0) + e i) :
    Books N T e' g L q (s.putFile f { s.ftable f with ref := 0, type := .none }) := by
  have hcount := h.files f
  rw [more_self] at hcount
  refine h.putFile (h.inside f (by omega)) (fun _ => rfl) (by dsimp only; omega)
    (fun f' hne => (more_of_ne g hne).symm) (fun i => ?_) (fun i hi => ?_) nofun
  · rw [if_neg (File.not_holds rfl i), he i, Nat.zero_add]
  · exact absurd hi (File.not_holds rfl i)

theorem fileclose_last (h1 : (s.ftable f).ref = 1) :
    fileclose f s = (match (s.ftable f).type with
      | .none => return ()
      | .pipe => pipeclose (s.ftable f).pipe (s.ftable f).writable
      | .inode => onFs (iput (s.ftable f).ip)
      | .device => onFs (iput (s.ftable f).ip) : SysM Unit)
        (s.putFile f { s.ftable f with ref := 0, type := .none }) := by
  unfold fileclose
  rw [Run.get_bind, if_neg (by omega), if_neg (by omega)]
  rfl

/-- A file that has not been opened yet is given back. -/
theorem fileclose_unopened (h : SysAt N T e (more g f) L q s) (h1 : (s.ftable f).ref = 1)
    (ht : (s.ftable f).type = .none) :
    fileclose f s = .ok ((), s.putFile f { s.ftable f with ref := 0, type := .none }) ∧
      SysAt N T e g L q (s.putFile f { s.ftable f with ref := 0, type := .none }) := by
  refine ⟨?_, h.toBooks.vanish h1 fun i => ?_, h.pipes.putFile (by rw [ht]; exact nofun) nofun⟩
  · rw [fileclose_last h1, ht]
    rfl
  · rw [if_neg (File.not_holds ht i), Nat.zero_add]

/-- **`fileclose`** drops a reference to a file, and with the last one what the file refers to. -/
theorem fileclose_at (h : SysAt N T e (more g f) [] q s) :
    ∃ T' s', fileclose f s = .ok ((), s') ∧ s'.procs = s.procs ∧ T.Reclaims T' ∧
      SysAt N T' e g [] q s' := by
  have hcount := h.files f
  rw [more_self] at hcount
  by_cases h1 : (s.ftable f).ref = 1
  · -- the inode is dropped
    have hinode : (s.ftable f).type = .inode ∨ (s.ftable f).type = .device →
        ∃ T' s', onFs (iput (s.ftable f).ip) (s.putFile f { s.ftable f with ref := 0, type := .none })
          = .ok ((), s') ∧ s'.procs = s.procs ∧ T.Reclaims T' ∧ SysAt N T' e g [] q s' := by
      intro ht
      have hbooks : Books N T (more e (s.ftable f).ip) g [] q
          (s.putFile f { s.ftable f with ref := 0, type := .none }) := by
        refine h.toBooks.vanish h1 fun i => ?_
        have hh : (s.ftable f).Holds i ↔ i = (s.ftable f).ip :=
          ⟨fun hi => hi.2.2.symm, fun hi => hi ▸ h.toBooks.holds ht⟩
        simp only [hh, more]
        omega
      have hpipe : (s.ftable f).type ≠ .pipe := by
        rcases ht with ht | ht <;> rw [ht] <;> decide
      have hat : SysAt N T (more e (s.ftable f).ip) g [] q
          (s.putFile f { s.ftable f with ref := 0, type := .none }) :=
        ⟨hbooks, h.pipes.putFile hpipe (by rintro ⟨⟩)⟩
      obtain ⟨T', fs', hrun, hrec, hat⟩ := iput_drop hat
      exact ⟨T', _, hrun, rfl, hrec, hat⟩
    rw [fileclose_last h1]
    cases ht : (s.ftable f).type with
    | none =>
      obtain ⟨-, hat⟩ := fileclose_unopened h h1 ht
      exact ⟨T, _, rfl, rfl, .refl, hat⟩
    | inode => exact hinode (.inl ht)
    | device => exact hinode (.inr ht)
    | pipe =>
      have hend : (s.ftable f).IsEnd (s.ftable f).pipe (s.ftable f).writable := ⟨ht, rfl, rfl⟩
      obtain ⟨ends, hends, -⟩ := (h.pipes.ends _ _).2 ⟨f, hend⟩
      refine ⟨T, { s.putFile f { s.ftable f with ref := 0, type := .none } with
        pipes := Function.update s.pipes (s.ftable f).pipe (ends.closed (s.ftable f).writable) },
        ?_, rfl, .refl, ?_, ?_⟩
      · dsimp only
        unfold pipeclose
        rw [Run.get_bind]
        have : (s.putFile f { s.ftable f with ref := 0, type := .none }).pipes (s.ftable f).pipe =
          some ends := hends
        rw [this]
        rfl
      · have hno : ∀ i, ¬ (s.ftable f).Holds i := by
          rintro i ⟨-, hc | hc, -⟩ <;> rw [ht] at hc <;> exact FdType.noConfusion hc
        have := h.toBooks.vanish h1 (fun i => by rw [if_neg (hno i), Nat.zero_add] : ∀ i, e i = _)
        exact { this with }
      · exact h.pipes.close hend hends (by rintro ⟨⟩)
  · refine ⟨T, s.putFile f { s.ftable f with ref := (s.ftable f).ref - 1 }, ?_, rfl, .refl, ?_, ?_⟩
    · unfold fileclose
      rw [Run.get_bind, if_neg (by omega), if_pos (by omega)]
      rfl
    · refine h.toBooks.putFile_same (h.inside f (by omega)) (by omega) ?_ ?_
        (fun f' hne => (more_of_ne g hne).symm) rfl rfl rfl
      · dsimp only
        omega
      · dsimp only
        omega
    · refine h.pipes.congr fun f' pi w => ?_
      by_cases hne : f' = f
      · rw [hne, Sys.putFile_self]
        exact Iff.rfl
      · rw [Sys.putFile_of_ne _ hne]

theorem onFs_procs {α : Type} (m : FsM α) (P : ℕ → Proc) :
    onFs m { s with procs := P } = (onFs m s).map fun x => (x.1, { x.2 with procs := P }) := by
  unfold onFs
  dsimp only
  cases m s.fs <;> rfl

theorem pipeclose_procs (pi : ℕ) (w : Bool) (P : ℕ → Proc) : pipeclose pi w { s with procs := P } =
    (pipeclose pi w s).map fun x => (x.1, { x.2 with procs := P }) := by
  unfold pipeclose
  rw [Run.get_bind, Run.get_bind]
  dsimp only
  cases s.pipes pi <;> rfl

/-- `fileclose` does not look at the processes. -/
theorem fileclose_procs (P : ℕ → Proc) {s' : Sys} (h : fileclose f s = .ok ((), s')) :
    fileclose f { s with procs := P } = .ok ((), { s' with procs := P }) := by
  have hmap : fileclose f { s with procs := P } =
      (fileclose f s).map fun x => (x.1, { x.2 with procs := P }) := by
    unfold fileclose
    rw [Run.get_bind, Run.get_bind]
    dsimp only
    split_ifs with h1 h2
    · rfl
    · rfl
    · cases (s.ftable f).type with
      | none => rfl
      | inode | device => exact onFs_procs (s := s.putFile f _) _ P
      | pipe => exact pipeclose_procs (s := s.putFile f _) _ _ P
  rw [hmap, h]
  rfl

/-! ## Opening -/

/-- The end of `sys_open`: the call's reference to the inode goes to the file. -/
theorem openFile_at {ip omode : ℕ} (h : SysAt N T (more e ip) g [ip] q s) (hf : f < nfile)
    (hpos : 0 < (s.ftable f).ref) (ht : (s.ftable f).type = .none)
    (hdir : T.type ip = .dir → omode = 0) :
    ∃ s', openFile f ip omode s = .ok ((), s') ∧ SysAt N T e g [] q s' ∧ s'.procs = s.procs ∧
      ∀ f' i, (s'.ftable f').Holds i → (s.ftable f').Holds i ∨ i = ip := by
  obtain ⟨hd, -, htf, hdt, -⟩ := h.fs.fields List.mem_cons_self
  set d := (s.fs.itable ip).d
  set fl : File :=
    { s.ftable f with
      type := if d.type = .device then .device else .inode
      major := if d.type = .device then d.major else (s.ftable f).major
      off := if d.type = .device then (s.ftable f).off else 0
      ip := ip
      readable := !omode.testBit oWronly
      writable := omode.testBit oWronly || omode.testBit oRdwr } with hfl
  have hty : fl.type = .inode ∨ fl.type = .device := by
    rw [hfl]
    dsimp only
    split_ifs
    · exact .inr rfl
    · exact .inl rfl
  have hh : ∀ i, fl.Holds i ↔ i = ip := fun i => ⟨fun hi => hi.2.2.symm, fun hi => ⟨hpos, hty, hi.symm⟩⟩
  have h₁ : SysAt N T e g [ip] q (s.putFile f fl) := by
    refine ⟨h.toBooks.putFile hf (fun h0 => ?_) (h.files f) (fun _ _ => rfl) (fun i => ?_)
      (fun i hi => ?_) fun _ hw => ?_, h.pipes.putFile (by rw [ht]; decide) ?_⟩
    · have : (s.ftable f).ref = 0 := h0
      omega
    · rw [if_neg (File.not_holds ht i)]
      simp only [hh, more]
      omega
    · rw [(hh i).1 hi]
      exact htf
    · intro hdir'
      have hw' : (omode.testBit oWronly || omode.testBit oRdwr) = true := hw
      rw [hdir hdir'] at hw'
      exact absurd hw' (by decide)
    · rcases hty with hty | hty <;> rw [hty] <;> decide
  -- truncation touches only a file
  have hunlock : ∀ {fs₂ : State}, SysAt N T e g [ip] q { s.putFile f fl with fs := fs₂ } →
      ∃ s', onFs (iunlock ip) { s.putFile f fl with fs := fs₂ } = .ok ((), s') ∧
        SysAt N T e g [] q s' ∧ s'.procs = s.procs ∧
        ∀ f' i, (s'.ftable f').Holds i → (s.ftable f').Holds i ∨ i = ip := by
    intro fs₂ h₂
    refine ⟨_, onFs_run (iunlock_at h₂.fs (h₂.fs.locked_pos List.mem_cons_self)), ?_, rfl, ?_⟩
    · exact h₂.withFs h₂.fs.unlocked fun _ _ => rfl
    · intro f' i hi
      change ((s.putFile f fl).ftable f').Holds i at hi
      by_cases hne : f' = f
      · rw [hne, Sys.putFile_self] at hi
        exact .inr ((hh i).1 hi)
      · rw [Sys.putFile_of_ne fl hne] at hi
        exact .inl hi
  have hrun : openFile f ip omode s =
      (do
        if omode.testBit oTrunc ∧ d.type = .file then onFs (itrunc ip)
        onFs (iunlock ip) : SysM Unit) (s.putFile f fl) := rfl
  rw [hrun]
  by_cases hc : omode.testBit oTrunc ∧ d.type = .file
  · have hnd : T.type ip ≠ .dir := by
      rw [← hdt, ← hd, hc.2]
      decide
    obtain ⟨c', hrun', hat⟩ := itrunc_at h₁.fs List.mem_cons_self hnd
    obtain ⟨s', hrun'', h'⟩ := hunlock (h₁.withFs hat fun _ _ => rfl)
    refine ⟨s', ?_, h'⟩
    rw [if_pos hc, Run.bind_of_ok (onFs_run hrun')]
    exact hrun''
  · obtain ⟨s', hrun'', h'⟩ := hunlock h₁
    refine ⟨s', ?_, h'⟩
    rw [if_neg hc]
    exact hrun''

end Xv6.Fs
