import Xv6.Fs.Files

/-!
# What the calls do to the file system

The calls of processes reach the file system only through the operations of `Fs/Ownership.lean`, so
they keep whatever those keep: an invariant that is `Stable`.

* A call that makes an inode needs to know that inodes may be allocated once its path has been
  followed, and a call that changes a directory that directories may be written.
* `Stable.sysWrite`: writing needs to know that the inode of the file may be written.
* `Stable.sysOpen`: `open` may truncate a file that may not be written; then it has opened it.
* `Stable.call`: what this means for a call.
-/

namespace Xv6.Fs

open Lib

/-- The computation keeps the invariant. -/
abbrev Safe (K : State → Prop) {α : Type} (m : SysM α) : Prop :=
  Preserves (fun s : Sys => K s.fs) Benign m

section Tables

variable {K : State → Prop} {α : Type} {s : Sys} {p f : ℕ}

theorem onFs_keeps {m : FsM α} (hm : Outcome (m s.fs) (fun _ fs' => K fs') Benign) :
    Outcome (onFs m s) (fun _ s' => K s'.fs) Benign := by
  refine (onFs_at hm).imp ?_
  rintro _ _ ⟨fs', rfl, h'⟩
  exact h'

theorem onFs_safe {m : FsM α} (hm : ∀ fs : State, K fs → Outcome (m fs) (fun _ fs' => K fs') Benign) :
    Safe K (onFs m) :=
  fun s h => onFs_keeps (hm s.fs h)

theorem iunlock_safe (i : ℕ) : Safe K (onFs (iunlock i)) :=
  onFs_safe fun fs h => (iunlock_keeps fs i).imp fun _ _ hs => by rwa [hs]

theorem setFile_keeps (g : File → File) : Safe K (setFile f g) := .of_modify fun _ h => h

theorem setProc_keeps (g : Proc → Proc) : Safe K (setProc p g) := .of_modify fun _ h => h

theorem setOfile_keeps (fd : ℕ) (v : Option ℕ) : Safe K (setOfile p fd v) := setProc_keeps _

theorem setPipe_keeps (pi : ℕ) (e : Option Ends) : Safe K (setPipe pi e) := .of_modify fun _ h => h

theorem filealloc_keeps : Safe K filealloc := by
  refine .of_get fun s => ?_
  split
  · exact .of_bind (setFile_keeps _) fun _ => .of_pure _
  · exact .of_pure _

theorem fdalloc_keeps : Safe K (fdalloc p f) := by
  refine .of_get fun s => ?_
  split
  · exact .of_bind (setOfile_keeps _ _) fun _ => .of_pure _
  · exact .of_pure _

theorem filedup_keeps : Safe K (filedup f) :=
  .of_get fun _ => .of_ite (.of_throw nofun) (setFile_keeps _)

theorem dupAll_keeps (q : ℕ) (fds : List ℕ) : Safe K (dupAll p q fds) := by
  induction fds with
  | nil => exact .of_pure _
  | cons fd fds ih =>
    refine .of_get fun s => ?_
    split
    · exact ih
    · exact .of_bind filedup_keeps fun _ => .of_bind (setOfile_keeps _ _) fun _ => ih

theorem pipeclose_keeps (pi : ℕ) (w : Bool) : Safe K (pipeclose pi w) := by
  refine .of_get fun s => ?_
  split
  · exact .of_throw nofun
  · exact setPipe_keeps _ _

/-- A file's inode is locked, worked on, and unlocked; the offset moves. -/
theorem onFile_preserves {m : FsM α} {V : ℕ → Prop} (size : α → ℤ) (rest : α → SysM ℤ) (ip : ℕ)
    (hlock : ∀ fs, K fs → Outcome (ilock ip fs) (fun _ fs' => K fs' ∧ fs'.Locked ip) Benign)
    (hm : ∀ fs, K fs → fs.Locked ip → Outcome (m fs) (fun _ fs' => K fs') Benign)
    (hrest : ∀ a, Preserves (fun s : Sys => K s.fs ∧ V (s.ftable f).ip) Benign (rest a)) :
    Preserves (fun s : Sys => K s.fs ∧ V (s.ftable f).ip) Benign (do
      onFs (ilock ip)
      let a ← onFs m
      if size a > 0 then setFile f fun fl => { fl with off := (fl.off + (size a).toNat) % 2 ^ 32 }
      onFs (iunlock ip)
      rest a : SysM ℤ) := by
  rintro s ⟨h, hV⟩
  refine (onFs_at (hlock s.fs h)).bind ?_
  rintro _ _ ⟨fs₁, rfl, h₁, hl₁⟩
  refine (onFs_at (s := { s with fs := fs₁ }) (hm fs₁ h₁ hl₁)).bind ?_
  rintro a _ ⟨fs₂, rfl, h₂⟩
  have hunlock : ∀ s' : Sys, K s'.fs → V (s'.ftable f).ip →
      Outcome ((onFs (iunlock ip) >>= fun _ => rest a) s')
        (fun _ s' => K s'.fs ∧ V (s'.ftable f).ip) Benign := by
    intro s' h' hV'
    refine (onFs_at (iunlock_keeps s'.fs ip)).bind ?_
    rintro _ _ ⟨fs', rfl, rfl⟩
    exact hrest a s' ⟨h', hV'⟩
  dsimp only
  rw [Run.ite_run]
  split_ifs
  · refine hunlock _ h₂ ?_
    dsimp only
    rwa [Function.update_self]
  · exact hunlock _ h₂ hV

/-- **Reading a file** does no more than to lock its inode. -/
theorem sysRead_keeps {lost : ℕ → Prop} (hwf : ∀ fs, K fs → fs.WfBut lost)
    (hlock : ∀ fs i, K fs → Outcome (ilock i fs) (fun _ fs' => K fs' ∧ fs'.Locked i) Benign) (fd : ℕ)
    (dst : ℕ → Bool) (n r : ℤ) : Safe K (sysRead p fd dst n r) := by
  refine .of_get fun s => ?_
  split
  · exact .of_pure _
  · next f _ =>
    refine .of_ite (.of_pure _) ?_
    split
    · exact .of_pure _
    · exact .of_pure _
    · intro s' h'
      refine (onFile_preserves (f := f) (V := fun _ => True) (fun a : ℤ × List UInt8 => a.1)
        (fun a => pure a.1) _ (fun fs => hlock fs _) (fun fs h hl => ?_) (fun _ => .of_pure _) s'
        ⟨h', trivial⟩).imp fun _ _ hs => hs.1
      obtain ⟨a, hrun⟩ := readi_still ((hwf fs h).at hl) dst _ (by omega : (n % 2 ^ 32).toNat < 2 ^ 32)
      rw [hrun]
      exact .ok h
    · exact .of_throw nofun

end Tables

namespace Stable

variable {lost : ℕ → Prop} {K : State → Prop} {W : ℕ → Prop} {C : (ℕ → Dinode) → Prop}
  (hK : Stable lost K W C) {α : Type} {s : Sys} {p f : ℕ}

include hK

theorem iput_safe (i : ℕ) : Safe K (onFs (Fs.iput i)) :=
  onFs_safe fun _ h => (hK.iput h i).imp fun _ _ hs => hs.inv

theorem iunlockput_safe (i : ℕ) : Safe K (onFs (Fs.iunlockput i)) :=
  onFs_safe fun _ h => (hK.iunlockput h i).imp fun _ _ hs => hs.inv

theorem ilock_locked {fs : State} (h : K fs) (i : ℕ) :
    Outcome (Fs.ilock i fs) (fun _ fs' => K fs' ∧ fs'.Locked i) Benign :=
  (hK.ilock h i).imp fun _ _ hs => ⟨hs.1.inv, hs.2.1⟩

/-! ## Descriptors -/

theorem fileclose : Safe K (Fs.fileclose f) := by
  refine .of_get fun s => .of_ite (.of_throw nofun) (.of_ite (setFile_keeps _) ?_)
  refine .of_bind (setFile_keeps _) fun _ => ?_
  split
  · exact .of_pure _
  · exact pipeclose_keeps _ _
  · exact hK.iput_safe _
  · exact hK.iput_safe _

theorem sysClose (fd : ℕ) : Safe K (Fs.sysClose p fd) := by
  refine .of_get fun s => ?_
  split
  · exact .of_pure _
  · exact .of_bind (setOfile_keeps _ _) fun _ => .of_bind hK.fileclose fun _ => .of_pure _

omit hK in
theorem sysDup (fd : ℕ) : Safe K (Fs.sysDup p fd) := by
  refine .of_get fun s => ?_
  split
  · exact .of_pure _
  · refine .of_bind fdalloc_keeps fun r => ?_
    cases r with
    | none => exact .of_pure _
    | some fd' => exact .of_bind filedup_keeps fun _ => .of_pure _

theorem closeTwo (f0 f1 : ℕ) (a : α) : Safe K (do
    Fs.fileclose f0
    Fs.fileclose f1
    return a) :=
  .of_bind hK.fileclose fun _ => .of_bind hK.fileclose fun _ => .of_pure _

theorem pipealloc (page : ℕ) : Safe K (Fs.pipealloc page) := by
  refine .of_bind filealloc_keeps fun r => ?_
  cases r with
  | none => exact .of_pure _
  | some f0 =>
    refine .of_bind filealloc_keeps fun r => ?_
    cases r with
    | none => exact .of_bind hK.fileclose fun _ => .of_pure _
    | some f1 =>
      refine .of_get fun s => .of_ite (hK.closeTwo _ _ _) ?_
      exact .of_bind (setPipe_keeps _ _) fun _ => .of_bind (setFile_keeps _) fun _ =>
        .of_bind (setFile_keeps _) fun _ => .of_pure _

theorem sysPipe (page : ℕ) (copied : Bool) : Safe K (Fs.sysPipe p page copied) := by
  refine .of_bind (hK.pipealloc page) fun r => ?_
  rcases r with _ | ⟨rf, wf⟩
  · exact .of_pure _
  refine .of_bind fdalloc_keeps fun r => ?_
  rcases r with _ | fd0
  · exact hK.closeTwo _ _ _
  refine .of_bind fdalloc_keeps fun r => ?_
  rcases r with _ | fd1
  · exact .of_bind (setOfile_keeps _ _) fun _ => hK.closeTwo _ _ _
  · exact .of_ite (.of_pure _) (.of_bind (setOfile_keeps _ _) fun _ => .of_bind (setOfile_keeps _ _)
      fun _ => hK.closeTwo _ _ _)

theorem closeAll (fds : List ℕ) : Safe K (Fs.closeAll p fds) := by
  induction fds with
  | nil => exact .of_pure _
  | cons fd fds ih =>
    refine .of_get fun s => ?_
    split
    · exact ih
    · exact .of_bind hK.fileclose fun _ => .of_bind (setOfile_keeps _ _) fun _ => ih

theorem exit (cwd : ℕ) : Safe K (Fs.exit p cwd) :=
  .of_ite (.of_throw nofun) (.of_bind (hK.closeAll _) fun _ => .of_bind (hK.iput_safe _) fun _ =>
    .of_bind (setProc_keeps _) fun _ => .of_pure _)

/-! ## Reading and writing -/

theorem sysRead (fd : ℕ) (dst : ℕ → Bool) (n r : ℤ) : Safe K (Fs.sysRead p fd dst n r) :=
  sysRead_keeps (fun _ => hK.wf) (fun _ i h => hK.ilock_locked h i) fd dst n r

theorem filewriteFrom (src : Src) (n : ℕ) : ∀ fuel i,
    Preserves (fun s : Sys => K s.fs ∧ W (s.ftable f).ip) Benign (Fs.filewriteFrom f src n fuel i) := by
  intro fuel
  induction fuel with
  | zero => exact fun _ => .of_pure _
  | succ fuel ih =>
    intro i
    refine .of_ite (fun s h => ?_) (.of_pure _)
    dsimp only
    rw [Run.get_bind]
    refine onFile_preserves (fun a : ℤ => a) _ _ (fun fs h => hK.ilock_locked h _) (fun fs hfs hl => ?_)
      (fun r => ?_) s h
    · refine (hK.writei hfs hl h.2 _ _ ?_).imp fun _ _ hs => hs.inv
      exact (Nat.min_le_right _ _).trans_lt (by decide)
    · exact .of_ite (.of_pure _) (ih _)

/-- **Writing to a file** whose inode may be written. -/
theorem sysWrite (h : K s.fs) (fd : ℕ) (src : Src) (n r : ℤ)
    (hW : ∀ f, argfd s p fd = some f → (s.ftable f).writable = true → (s.ftable f).type = .inode →
      W (s.ftable f).ip) :
    Outcome (Fs.sysWrite p fd src n r s) (fun _ s' => K s'.fs) Benign := by
  unfold Fs.sysWrite
  rw [Run.get_bind]
  cases hf : argfd s p fd with
  | none => exact .ok h
  | some f =>
    refine Outcome.ite (fun _ => .ok h) fun hw => ?_
    rw [Bool.not_eq_false] at hw
    cases ht : (s.ftable f).type with
    | pipe => exact .ok h
    | device => exact .ok h
    | none => exact .error nofun
    | inode =>
      refine .ite (fun _ => .ok h) fun _ => ?_
      exact (hK.filewriteFrom src _ _ _ s ⟨h, hW f hf hw ht⟩).imp fun _ _ hs => hs.1

/-! ## Calls that follow a path -/

omit hK in
/-- `open` has truncated a file that may not be written, and opened it. -/
def Truncates (K : State → Prop) (W : ℕ → Prop) (p omode : ℕ) (n : ℤ) (s' : Sys) : Prop :=
  omode.testBit oTrunc = true ∧ ∃ (fd f : ℕ) (fs : State), n = fd ∧ (s'.procs p).ofile fd = some f ∧
    (s'.ftable f).type = .inode ∧ ¬ W (s'.ftable f).ip ∧ K fs ∧ fs.Locked (s'.ftable f).ip ∧
    (fs.itable (s'.ftable f).ip).d.type = .file

theorem openFile {ip : ℕ} (omode : ℕ) (h : K s.fs) (hl : s.fs.Locked ip) :
    Outcome (Fs.openFile f ip omode s)
      (fun _ s' => s'.procs = s.procs ∧ (K s'.fs ∨ omode.testBit oTrunc = true ∧ ¬ W ip ∧
        (s.fs.itable ip).d.type = .file ∧ (s'.ftable f).type = .inode ∧ (s'.ftable f).ip = ip))
      Benign := by
  unfold Fs.openFile
  rw [Run.get_bind]
  set fl : File := { s.ftable f with
    type := if (s.fs.itable ip).d.type = .device then .device else .inode
    major := if (s.fs.itable ip).d.type = .device then (s.fs.itable ip).d.major else (s.ftable f).major
    off := if (s.fs.itable ip).d.type = .device then (s.ftable f).off else 0
    ip := ip
    readable := !omode.testBit oWronly
    writable := omode.testBit oWronly || omode.testBit oRdwr } with hfl
  have hput : setFile f (fun _ => fl) s = .ok ((), s.putFile f fl) := rfl
  refine .bind_ok hput ?_
  have hend : ∀ {s' : Sys} {Q : Sys → Prop}, Q s' →
      Outcome (onFs (Fs.iunlock ip) s') (fun _ s' => Q s') Benign := by
    intro s' Q hQ
    refine (onFs_at (iunlock_keeps s'.fs ip)).imp ?_
    rintro _ _ ⟨fs', rfl, rfl⟩
    exact hQ
  refine .ite (fun ht => ?_) fun _ => hend ⟨rfl, .inl h⟩
  by_cases hW : W ip
  · refine (onFs_at (s := s.putFile f fl) (hK.itrunc h hl hW)).bind ?_
    rintro _ _ ⟨fs', rfl, hk⟩
    exact hend ⟨rfl, .inl hk.inv⟩
  · refine (onFs_at (s := s.putFile f fl) ((stable_wfBut lost).itrunc (hK.wf h) hl trivial)).bind ?_
    rintro _ _ ⟨fs', rfl, -⟩
    have hself : (s.putFile f fl).ftable f = fl := Sys.putFile_self _
    refine hend ⟨rfl, .inr ⟨ht.1, hW, ht.2, ?_, ?_⟩⟩
    · dsimp only
      rw [hself, hfl]
      exact if_neg (by rw [ht.2]; exact nofun)
    · dsimp only
      rw [hself]

theorem openInode {ip : ℕ} (omode : ℕ) (h : K s.fs) (hl : s.fs.Locked ip) :
    Outcome (Fs.openInode p ip omode s) (fun n s' => K s'.fs ∨ Truncates K W p omode n s') Benign := by
  have hput : Safe K (do onFs (Fs.iunlockput ip); return (-1 : ℤ)) :=
    .of_bind (hK.iunlockput_safe ip) fun _ => .of_pure _
  have hfail : ∀ {s' : Sys}, K s'.fs → Outcome ((do onFs (Fs.iunlockput ip); return (-1 : ℤ)) s')
      (fun n s' => K s'.fs ∨ Truncates K W p omode n s') Benign :=
    fun h' => (hput _ h').imp fun _ _ hs => .inl hs
  unfold Fs.openInode
  rw [Run.get_bind]
  refine .ite (fun _ => hfail h) fun _ => ?_
  refine (filealloc_keeps (K := fun fs => K fs ∧ fs.Locked ip) s ⟨h, hl⟩).bind fun r s₁ h₁ => ?_
  cases r with
  | none => exact hfail h₁.1
  | some f =>
    rcases fdalloc_run s₁ p f with hrun | ⟨fd, hfd, -, hrun⟩
    · refine .bind_ok hrun ((hK.fileclose s₁ h₁.1).bind fun _ s₂ h₂ => hfail h₂)
    · refine .bind_ok hrun ((hK.openFile (s := s₁.putOfile p fd (some f)) omode h₁.1 h₁.2).bind
        fun _ s₂ ⟨hp, h₂⟩ => .ok (h₂.imp_right fun ⟨ht, hW, hfile, htype, hip⟩ => ?_))
      refine ⟨ht, fd, f, s₁.fs, rfl, ?_, htype, ?_⟩
      · rw [hp, Sys.putOfile_ofile, if_pos ⟨rfl, rfl⟩]
      · rw [hip]
        exact ⟨hW, h₁.1, h₁.2, hfile⟩

variable {cwd : ℕ} (h : K s.fs) (hc : 0 < (s.fs.itable cwd).ref)

include h hc

/-- `open` without `O_CREATE`. -/
theorem sysOpen_old (path : List UInt8) {omode : ℕ} (hno : omode.testBit oCreate = false) :
    Outcome (Fs.sysOpen p cwd path omode s) (fun n s' => K s'.fs ∨ Truncates K W p omode n s')
      Benign := by
  unfold Fs.sysOpen
  cases argstr path with
  | none => exact .ok (.inl h)
  | some path' =>
    refine .ite (fun hcr => absurd (hno.symm.trans hcr) nofun) fun _ => ?_
    refine (onFs_at (hK.namei h hc path')).bind ?_
    rintro r _ ⟨fs₁, rfl, h₁, -⟩
    cases r with
    | none => exact .ok (.inl h₁)
    | some ip =>
      refine (onFs_at (s := { s with fs := fs₁ }) (hK.ilock_locked h₁ ip)).bind ?_
      rintro _ _ ⟨fs₂, rfl, h₂, hl₂⟩
      rw [Run.get_bind]
      refine .ite (fun _ => ?_) fun _ => hK.openInode omode h₂ hl₂
      exact Preserves.of_bind (hK.iunlockput_safe ip) (fun _ => .of_pure _) _ h₂ |>.imp
        fun _ _ hs => .inl hs

theorem sysChdir (path : List UInt8) :
    Outcome (Fs.sysChdir p cwd path s) (fun _ s' => K s'.fs) Benign := by
  unfold Fs.sysChdir
  cases argstr path with
  | none => exact .ok h
  | some path' =>
    refine (onFs_at (hK.namei h hc path')).bind ?_
    rintro r _ ⟨fs₁, rfl, h₁, -⟩
    cases r with
    | none => exact .ok h₁
    | some ip =>
      refine (onFs_at (s := { s with fs := fs₁ }) (hK.ilock_locked h₁ ip)).bind ?_
      rintro _ _ ⟨fs₂, rfl, h₂, -⟩
      rw [Run.get_bind]
      refine .ite (fun _ => ?_) fun _ => ?_
      · exact Preserves.of_bind (hK.iunlockput_safe ip) (fun _ => .of_pure _) _ h₂
      · exact Preserves.of_bind (iunlock_safe ip) (fun _ => .of_bind (hK.iput_safe cwd) fun _ =>
          .of_bind (setProc_keeps _) fun _ => .of_pure _) _ h₂

theorem fork (q : ℕ) : Outcome (Fs.fork p cwd q s) (fun _ s' => K s'.fs) Benign := by
  unfold Fs.fork
  rw [Run.get_bind]
  refine .ite (fun _ => ?_) fun _ => .ok h
  refine (dupAll_keeps (K := fun fs => K fs ∧ 0 < (fs.itable cwd).ref) q _ s ⟨h, hc⟩).bind
    fun _ s₁ h₁ => ?_
  have hdup : Outcome (idup cwd s₁.fs) (fun _ fs' => K fs') Benign := by
    rw [idup_run h₁.2]
    exact .ok (hK.refer cwd h₁.1)
  refine (onFs_at hdup).bind ?_
  rintro _ _ ⟨fs', rfl, h'⟩
  exact Preserves.of_bind (setProc_keeps _) (fun _ => .of_pure _) _ h'

variable (hdir : ∀ s i, K s → s.Locked i → (s.itable i).d.type = .dir → W i)

include hdir

/-- `open` with `O_CREATE`. -/
theorem sysOpen_new (path : List UInt8) {omode : ℕ} (hcr : omode.testBit oCreate = true)
    (hC : ∀ path', argstr path = some path' →
      Outcome (Fs.namex cwd path' true s.fs) (fun _ fs' => C fs'.dinode) (fun _ => True)) :
    Outcome (Fs.sysOpen p cwd path omode s) (fun n s' => K s'.fs ∨ Truncates K W p omode n s')
      Benign := by
  unfold Fs.sysOpen
  cases hpath : argstr path with
  | none => exact .ok (.inl h)
  | some path' =>
    refine .ite (fun _ => ?_) fun hno => absurd hcr hno
    refine (onFs_at (hK.create h hdir hc path' (hC path' hpath) .file 0 0)).bind ?_
    rintro r _ ⟨fs₁, rfl, h₁, hl₁⟩
    cases r with
    | none => exact .ok (.inl h₁)
    | some ip => exact hK.openInode omode h₁ (hl₁ ip rfl)

/-- `mkdir` and `mknod`. -/
theorem makeNode (path : List UInt8) (type : FType) (major minor : BitVec 16)
    (hC : ∀ path', argstr path = some path' →
      Outcome (Fs.namex cwd path' true s.fs) (fun _ fs' => C fs'.dinode) (fun _ => True)) :
    Outcome (onFs (Fs.makeNode cwd path type major minor) s) (fun _ s' => K s'.fs) Benign := by
  refine onFs_keeps ?_
  unfold Fs.makeNode
  cases hpath : argstr path with
  | none => exact .ok h
  | some path' =>
    refine (hK.create h hdir hc path' (hC path' hpath) type major minor).bind fun r fs₁ ⟨h₁, _⟩ => ?_
    cases r with
    | none => exact .ok h₁
    | some ip => exact (hK.iunlockput h₁ ip).bind fun _ _ hs => .ok hs.inv

end Stable

/-- `mkdir`, `mknod`, `link`, `unlink`, and `open` with `O_CREATE`. -/
def Call.onNames : Call → Bool
  | .mkdir _ => true
  | .mknod _ _ _ => true
  | .link _ _ => true
  | .unlink _ => true
  | .open _ omode => omode.testBit oCreate
  | _ => false

namespace Stable

variable {lost : ℕ → Prop} {K : State → Prop} {W : ℕ → Prop} {s : Sys} {p cwd : ℕ}

/-- **Every call keeps the invariant**, unless it is an `open` that truncates a file that may not be
written. -/
theorem call {C : (ℕ → Dinode) → Prop} (hK : Stable lost K W C) (h : K s.fs)
    (hc : 0 < (s.fs.itable cwd).ref) (c : Call)
    (hdir : c.onNames = true → ∀ s i, K s → s.Locked i → (s.itable i).d.type = .dir → W i)
    (hC : c.onNames = true → ∀ path,
      Outcome (Fs.namex cwd path true s.fs) (fun _ fs' => C fs'.dinode) (fun _ => True))
    (hw : ∀ fd src n r f, c = .write fd src n r → argfd s p fd = some f →
      (s.ftable f).writable = true → (s.ftable f).type = .inode → W (s.ftable f).ip) :
    Outcome (c.run p cwd s) (fun n s' => K s'.fs ∨
      ∃ path omode, c = .open path omode ∧ Truncates K W p omode n s') Benign := by
  have keep : ∀ {c : Call} {r : Except Stop (ℤ × Sys)}, Outcome r (fun _ s' => K s'.fs) Benign →
      Outcome r (fun n s' => K s'.fs ∨ ∃ path omode, c = .open path omode ∧
        Truncates K W p omode n s') Benign := fun hr => hr.imp fun _ _ => .inl
  cases c with
  | mkdir path => exact keep (hK.makeNode h hc (hdir rfl) path .dir 0 0 fun _ _ => hC rfl _)
  | «open» path omode =>
    cases hcr : omode.testBit oCreate with
    | true =>
      exact (hK.sysOpen_new h hc (hdir hcr) path hcr fun _ _ => hC hcr _).imp fun _ _ hs =>
        hs.imp_right fun ht => ⟨_, _, rfl, ht⟩
    | false =>
      exact (hK.sysOpen_old h hc path hcr).imp fun _ _ hs => hs.imp_right fun ht => ⟨_, _, rfl, ht⟩
  | mknod path major minor =>
    exact keep (hK.makeNode h hc (hdir rfl) path .device major minor fun _ _ => hC rfl _)
  | link old new => exact keep (onFs_keeps (hK.sysLink h (hdir rfl) hc old new))
  | unlink path => exact keep (onFs_keeps (hK.sysUnlink h (hdir rfl) hc path))
  | chdir path => exact keep (hK.sysChdir h hc path)
  | close fd => exact keep (hK.sysClose fd s h)
  | dup fd => exact keep (Stable.sysDup fd s h)
  | pipe page copied => exact keep (hK.sysPipe page copied s h)
  | read fd dst n r => exact keep (hK.sysRead fd dst n r s h)
  | write fd src n r => exact keep (hK.sysWrite h fd src n r fun f => hw fd src n r f rfl)
  | fork q => exact keep (hK.fork h hc q)
  | exit => exact keep (hK.exit cwd s h)

/-- Every call keeps the invariant if all inodes may be written and allocated. -/
theorem call_all (hK : Stable lost K (fun _ => True) fun _ => True) (h : K s.fs)
    (hc : 0 < (s.fs.itable cwd).ref) (c : Call) :
    Outcome (c.run p cwd s) (fun _ s' => K s'.fs) Benign := by
  refine (hK.call h hc c (fun _ _ _ _ _ _ => trivial) (fun _ _ => .of_true)
    fun _ _ _ _ _ _ _ _ _ => trivial).imp ?_
  rintro n s' (hs | ⟨path, omode, -, -, fd, f, fs, -, -, -, hW, -⟩)
  · exact hs
  · exact absurd trivial hW

end Stable

end Xv6.Fs
