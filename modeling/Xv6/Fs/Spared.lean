import Xv6.Fs.Safe

/-!
# What becomes of open files

The calls that deal with names, and `open` and `pipe`, leave the files that are open as they are
(`Sys.Spared`): what they allocate was free. The other calls count descriptors and move the offset of
the file they read or write, but a file that stays open keeps its inode and its modes
(`Sys.Follows`).

* `Call.spares`, `Call.follows`: the calls.
-/

namespace Xv6.Fs

open Function Lib

variable {f : ℕ}

/-! ## Calls that leave the open files alone -/

/-- The files that were open are as they were, and no process has moved. -/
structure Sys.Spared (s₀ s : Sys) : Prop where
  file : ∀ f, 0 < (s₀.ftable f).ref → s.ftable f = s₀.ftable f
  cwd : ∀ p, (s.procs p).cwd = (s₀.procs p).cwd

theorem Sys.Spared.refl (s : Sys) : s.Spared s := ⟨fun _ _ => rfl, fun _ => rfl⟩

/-- A file that was free may change. -/
theorem Sys.Spared.putFile {s₀ s : Sys} (h : s₀.Spared s) (hf : (s₀.ftable f).ref = 0) (fl : File) :
    s₀.Spared (s.putFile f fl) := by
  refine ⟨fun f' hf' => ?_, h.cwd⟩
  have hne : f' ≠ f := by
    rintro rfl
    omega
  exact (Sys.putFile_of_ne fl hne).trans (h.file f' hf')

theorem Sys.Spared.refs_pos {s₀ s : Sys} (h : s₀.Spared s) {i : ℕ} (hi : 0 < s₀.refs i) :
    0 < s.refs i := by
  refine hi.trans_le (Nat.add_le_add (Finset.card_le_card ?_) (Finset.card_le_card ?_))
  · intro p hp
    rw [Finset.mem_filter] at hp ⊢
    exact ⟨hp.1, (h.cwd p).trans hp.2⟩
  · intro f hf
    rw [Finset.mem_filter] at hf ⊢
    refine ⟨hf.1, ?_⟩
    rw [h.file f hf.2.1]
    exact hf.2

/-- The computation spares the files of `s₀`. -/
def Spares {α : Type} (s₀ : Sys) (m : SysM α) : Prop := Preserves s₀.Spared (fun _ => True) m

namespace Spares

variable {s₀ : Sys}

theorem of_onFs {α : Type} (m : FsM α) : Spares s₀ (onFs m) := by
  intro s h
  unfold onFs
  split
  · exact .ok ⟨h.file, h.cwd⟩
  · exact .error trivial

theorem of_setFile (hf : (s₀.ftable f).ref = 0) (g : File → File) : Spares s₀ (setFile f g) :=
  Preserves.of_modify fun s h => h.putFile hf (g (s.ftable f))

theorem of_setOfile (p fd : ℕ) (o : Option ℕ) : Spares s₀ (setOfile p fd o) := by
  refine Preserves.of_modify fun s h => ⟨h.file, fun p' => ?_⟩
  rw [← h.cwd p']
  by_cases hp : p' = p
  · subst hp
    show (update s.procs p' _ p').cwd = _
    rw [update_self]
  · exact congrArg Proc.cwd (update_of_ne hp _ _)

theorem of_fdalloc (p f : ℕ) : Spares s₀ (fdalloc p f) := by
  refine .of_get fun s => ?_
  cases (List.range nofile).find? fun fd => ((s.procs p).ofile fd).isNone with
  | none => exact .of_pure _
  | some fd => exact .of_bind (of_setOfile p fd _) fun _ => .of_pure _

theorem of_fileclose (hf : (s₀.ftable f).ref = 0) : Spares s₀ (fileclose f) := by
  refine .of_get fun s => .of_ite (.of_throw trivial) (.of_ite (of_setFile hf _) ?_)
  refine .of_bind (of_setFile hf _) fun _ => ?_
  cases (s.ftable f).type with
  | none => exact .of_pure _
  | pipe =>
    refine .of_get fun s' => ?_
    cases s'.pipes (s.ftable f).pipe with
    | none => exact .of_throw trivial
    | some e => exact .of_modify fun _ h => ⟨h.file, h.cwd⟩
  | inode => exact of_onFs _
  | device => exact of_onFs _

theorem of_openFile (hf : (s₀.ftable f).ref = 0) (ip omode : ℕ) : Spares s₀ (openFile f ip omode) := by
  refine .of_get fun s => .of_bind (of_setFile hf _) fun _ => ?_
  exact .of_ite (.of_bind (of_onFs _) fun _ => of_onFs _) (of_onFs _)

/-- `filealloc` takes a file structure that was free. -/
theorem filealloc_spares {s : Sys} (h : s₀.Spared s) : Outcome (filealloc s)
    (fun r s' => s₀.Spared s' ∧ ∀ f, r = some f → (s₀.ftable f).ref = 0) (fun _ => True) := by
  unfold filealloc
  rw [Run.get_bind]
  cases hfree : (List.range nfile).find? fun f => decide ((s.ftable f).ref = 0) with
  | none => exact .ok ⟨h, nofun⟩
  | some f =>
    have h0 := List.find?_some hfree
    rw [decide_eq_true_eq] at h0
    have hf : (s₀.ftable f).ref = 0 := by
      by_contra hne
      rw [h.file f (by omega)] at h0
      exact hne h0
    exact .ok ⟨h.putFile hf _, fun f' hf' => Option.some.inj hf' ▸ hf⟩

/-- After `filealloc`. -/
theorem of_filealloc {α : Type} {k : Option ℕ → SysM α} (hnone : Spares s₀ (k none))
    (hsome : ∀ f, (s₀.ftable f).ref = 0 → Spares s₀ (k (some f))) : Spares s₀ (filealloc >>= k) := by
  intro s h
  refine (filealloc_spares h).bind fun r s' ⟨h', hf⟩ => ?_
  cases r with
  | none => exact hnone s' h'
  | some f => exact hsome f (hf f rfl) s' h'

theorem of_openInode (p ip omode : ℕ) : Spares s₀ (openInode p ip omode) := by
  have hfail : Spares s₀ (do onFs (iunlockput ip); return (-1 : ℤ)) :=
    .of_bind (of_onFs _) fun _ => .of_pure _
  refine .of_get fun s => .of_ite hfail (of_filealloc hfail fun f hf => ?_)
  refine .of_bind (of_fdalloc p f) fun fd => ?_
  cases fd with
  | none => exact .of_bind (of_fileclose hf) fun _ => hfail
  | some fd => exact .of_bind (of_openFile hf ip omode) fun _ => .of_pure _

theorem of_sysOpen (p cwd : ℕ) (path : List UInt8) (omode : ℕ) :
    Spares s₀ (sysOpen p cwd path omode) := by
  unfold sysOpen
  cases argstr path with
  | none => exact .of_pure _
  | some path' =>
    refine .of_ite (.of_bind (of_onFs _) fun r => ?_) (.of_bind (of_onFs _) fun r => ?_)
    · cases r with
      | none => exact .of_pure _
      | some ip => exact of_openInode p ip omode
    · cases r with
      | none => exact .of_pure _
      | some ip =>
        refine .of_bind (of_onFs _) fun _ => .of_get fun s => .of_ite ?_ (of_openInode p ip omode)
        exact .of_bind (of_onFs _) fun _ => .of_pure _

/-- So does `pipe`, with two of them. -/
theorem of_sysPipe (p page : ℕ) (copied : Bool) : Spares s₀ (sysPipe p page copied) := by
  have hpair : ∀ {s : Sys}, s₀.Spared s → Outcome (pipealloc page s) (fun r s' => s₀.Spared s' ∧
      ∀ rf wf, r = some (rf, wf) → (s₀.ftable rf).ref = 0 ∧ (s₀.ftable wf).ref = 0)
      (fun _ => True) := by
    intro s h
    unfold pipealloc
    refine (filealloc_spares h).bind fun r s₁ ⟨h₁, hf₁⟩ => ?_
    cases r with
    | none => exact .ok ⟨h₁, nofun⟩
    | some f0 =>
      refine (filealloc_spares h₁).bind fun r s₂ ⟨h₂, hf₂⟩ => ?_
      cases r with
      | none => exact (of_fileclose (hf₁ f0 rfl) s₂ h₂).bind fun _ s₃ h₃ => .ok ⟨h₃, nofun⟩
      | some f1 =>
        have h0 := hf₁ f0 rfl
        have h1 := hf₂ f1 rfl
        refine .ite (fun _ => ?_) fun _ => ?_
        · refine (of_fileclose h0 s₂ h₂).bind fun _ s₃ h₃ => ?_
          exact (of_fileclose h1 s₃ h₃).bind fun _ s₄ h₄ => .ok ⟨h₄, nofun⟩
        · have h₃ : s₀.Spared { s₂ with pipes := update s₂.pipes page (some ⟨true, true⟩) } :=
            ⟨h₂.file, h₂.cwd⟩
          refine .bind_ok rfl ((of_setFile h0 _ _ h₃).bind fun _ s₄ h₄ => ?_)
          refine (of_setFile h1 _ s₄ h₄).bind fun _ s₅ h₅ => .ok ⟨h₅, ?_⟩
          rintro rf wf heq
          obtain ⟨rfl, rfl⟩ := Prod.mk.inj (Option.some.inj heq)
          exact ⟨h0, h1⟩
  intro s h
  refine (hpair h).bind fun r s₁ ⟨h₁, hf⟩ => ?_
  rcases r with _ | ⟨rf, wf⟩
  · exact .ok h₁
  obtain ⟨hrf, hwf⟩ := hf rf wf rfl
  have hclose : Spares s₀ (do fileclose rf; fileclose wf; return (-1 : ℤ)) :=
    .of_bind (of_fileclose hrf) fun _ => .of_bind (of_fileclose hwf) fun _ => .of_pure _
  refine Preserves.of_bind (of_fdalloc p rf) (fun fd0 => ?_) s₁ h₁
  cases fd0 with
  | none => exact hclose
  | some fd0 =>
    refine .of_bind (of_fdalloc p wf) fun fd1 => ?_
    cases fd1 with
    | none => exact .of_bind (of_setOfile p fd0 none) fun _ => hclose
    | some fd1 =>
      refine .of_ite (.of_pure _) (.of_bind (of_setOfile p fd0 none) fun _ => ?_)
      exact .of_bind (of_setOfile p fd1 none) fun _ => hclose

end Spares

/-- The calls that leave the open files and the current directories alone. -/
def Call.spare : Call → Bool
  | .mkdir _ => true
  | .mknod _ _ _ => true
  | .link _ _ => true
  | .unlink _ => true
  | .open _ _ => true
  | .pipe _ _ => true
  | _ => false

theorem Call.spares {c : Call} (hc : c.spare = true) (p cwd : ℕ) (s : Sys) :
    Spares s (c.run p cwd) := by
  cases c with
  | mkdir path | mknod path major minor | link old new | unlink path => exact .of_onFs _
  | «open» path omode => exact .of_sysOpen p cwd path omode
  | pipe page copied => exact .of_sysPipe p page copied
  | _ => exact absurd hc nofun

/-! ## Calls that use the open files -/

/-- A file that stays open stays what it is, but for the count of its descriptors and, for the files
in `W`, the offset. -/
structure Sys.Follows (W : ℕ → Prop) (s₀ s : Sys) : Prop where
  same : ∀ f, 0 < (s₀.ftable f).ref → 0 < (s.ftable f).ref →
    s.ftable f = { s₀.ftable f with ref := (s.ftable f).ref, off := (s.ftable f).off }
  off : ∀ f, 0 < (s₀.ftable f).ref → 0 < (s.ftable f).ref → ¬ W f →
    (s.ftable f).off = (s₀.ftable f).off

theorem Sys.Spared.follows {s₀ s : Sys} (h : s₀.Spared s) (W : ℕ → Prop) : s₀.Follows W s :=
  ⟨fun f hf _ => by rw [h.file f hf], fun f hf _ _ => by rw [h.file f hf]⟩

/-- The computation follows the open files of `s₀`. -/
def Traces {α : Type} (W : ℕ → Prop) (s₀ : Sys) (m : SysM α) : Prop :=
  Preserves (s₀.Follows W) (fun _ => True) m

namespace Traces

variable {W : ℕ → Prop} {s₀ : Sys}

theorem of_onFs {α : Type} (m : FsM α) : Traces W s₀ (onFs m) := by
  intro s h
  unfold onFs
  split
  · exact .ok ⟨h.same, h.off⟩
  · exact .error trivial

theorem of_setProc (p : ℕ) (g : Proc → Proc) : Traces W s₀ (setProc p g) :=
  Preserves.of_modify fun _ h => ⟨h.same, h.off⟩

theorem of_setPipe (pi : ℕ) (e : Option Ends) : Traces W s₀ (setPipe pi e) :=
  Preserves.of_modify fun _ h => ⟨h.same, h.off⟩

/-- Assigning the count and the offset of a file that is open. -/
theorem putFile {s : Sys} (h : s₀.Follows W s) {ref off : ℕ} (hpos : 0 < ref → 0 < (s.ftable f).ref)
    (hoff : ¬ W f → off = (s.ftable f).off) {fl : File}
    (hfl : 0 < ref → fl = { s.ftable f with ref := ref, off := off }) (href : fl.ref = ref) :
    s₀.Follows W (s.putFile f fl) := by
  refine ⟨fun f' h0 h1 => ?_, fun f' h0 h1 hw => ?_⟩
  all_goals
    by_cases hne : f' = f
    swap
    · rw [Sys.putFile_of_ne _ hne] at h1 ⊢
      first
        | exact h.same f' h0 h1
        | exact h.off f' h0 h1 hw
    subst hne
    rw [Sys.putFile_self] at h1 ⊢
    rw [href] at h1
  · have hs := h.same f' h0 (hpos h1)
    rw [hfl h1, hs]
  · rw [hfl h1]
    exact (hoff hw).trans (h.off f' h0 (hpos h1) hw)

theorem of_filedup (f : ℕ) : Traces W s₀ (filedup f) := by
  intro s h
  refine .ite (fun _ => .error trivial) fun hpos => .ok ?_
  exact putFile h (fun _ => by omega) (fun _ => rfl) (fun _ => rfl) rfl

theorem of_fileclose (f : ℕ) : Traces W s₀ (fileclose f) := by
  intro s h
  refine .ite (fun _ => .error trivial) fun hpos => .ite (fun hmore => .ok ?_) fun _ => ?_
  · exact putFile h (fun _ => by omega) (fun _ => rfl) (fun _ => rfl) rfl
  refine .bind_ok rfl ?_
  have h' : s₀.Follows W (s.putFile f { s.ftable f with ref := 0, type := .none }) :=
    putFile h (fun h0 => absurd h0 (lt_irrefl 0)) (fun _ => rfl) (fun h0 => absurd h0 (lt_irrefl 0)) rfl
  cases (s.ftable f).type with
  | none => exact .ok h'
  | pipe =>
    refine Preserves.of_get (fun s' => ?_) _ h'
    cases s'.pipes (s.ftable f).pipe with
    | none => exact .of_throw trivial
    | some e => exact of_setPipe _ _
  | inode => exact of_onFs _ _ h'
  | device => exact of_onFs _ _ h'

theorem of_fdalloc (p f : ℕ) : Traces W s₀ (fdalloc p f) := by
  refine .of_get fun s => ?_
  cases (List.range nofile).find? fun fd => ((s.procs p).ofile fd).isNone with
  | none => exact .of_pure _
  | some fd => exact .of_bind (of_setProc p _) fun _ => .of_pure _

theorem of_closeAll (p : ℕ) : ∀ fds, Traces W s₀ (closeAll p fds)
  | [] => .of_pure _
  | fd :: fds => by
    refine .of_get fun s => ?_
    cases (s.procs p).ofile fd with
    | none => exact of_closeAll p fds
    | some f =>
      exact .of_bind (of_fileclose f) fun _ => .of_bind (of_setProc p _) fun _ => of_closeAll p fds

theorem of_dupAll (p q : ℕ) : ∀ fds, Traces W s₀ (dupAll p q fds)
  | [] => .of_pure _
  | fd :: fds => by
    refine .of_get fun s => ?_
    cases (s.procs p).ofile fd with
    | none => exact of_dupAll p q fds
    | some f =>
      exact .of_bind (of_filedup f) fun _ => .of_bind (of_setProc q _) fun _ => of_dupAll p q fds

/-- Moving the offset of a file in `W`. -/
theorem of_setOff (hf : W f) (g : File → ℕ) :
    Traces W s₀ (setFile f fun fl => { fl with off := g fl }) := by
  refine Preserves.of_modify fun s h => ?_
  exact putFile h (fun hpos : 0 < (s.ftable f).ref => hpos) (fun hn => absurd hf hn) (fun _ => rfl) rfl

/-- What `fileread` and `filewrite` do after `readi` or `writei`. -/
theorem of_advance {α : Type} (hf : W f) (ip : ℕ) (r : ℤ) {k : SysM α} (hk : Traces W s₀ k) :
    Traces W s₀ (do
      if r > 0 then setFile f fun fl => { fl with off := (fl.off + r.toNat) % 2 ^ 32 }
      onFs (iunlock ip)
      k) := by
  have hrest : Traces W s₀ (do onFs (iunlock ip); k) := .of_bind (of_onFs _) fun _ => hk
  exact .of_ite (.of_bind (of_setOff hf _) fun _ => hrest) hrest

theorem of_filewriteFrom (hf : W f) (src : Src) (n : ℕ) :
    ∀ fuel i, Traces W s₀ (filewriteFrom f src n fuel i)
  | 0, _ => .of_pure _
  | fuel + 1, i => by
    refine .of_ite (.of_get fun s => .of_bind (of_onFs _) fun _ => .of_bind (of_onFs _) fun r => ?_)
      (.of_pure _)
    exact of_advance hf _ r (.of_ite (.of_pure _) (of_filewriteFrom hf src n fuel _))

end Traces

/-- The call moves the offset of file `f`. -/
def Call.Moves (s : Sys) (p : ℕ) (c : Call) (f : ℕ) : Prop :=
  match c with
  | .read fd _ _ _ => argfd s p fd = some f
  | .write fd _ _ _ => argfd s p fd = some f
  | _ => False

/-- A call that reads or writes moves one offset. -/
theorem sysRead_follows (p fd : ℕ) (dst : ℕ → Bool) (n r : ℤ) (s : Sys) {W : ℕ → Prop}
    (hW : ∀ f, argfd s p fd = some f → W f) (h : s.Follows W s) :
    Outcome (sysRead p fd dst n r s) (fun _ s' => s.Follows W s') (fun _ => True) := by
  unfold sysRead
  rw [Run.get_bind]
  cases hf : argfd s p fd with
  | none => exact .ok h
  | some f =>
    refine .ite (fun _ => .ok h) fun _ => ?_
    cases (s.ftable f).type with
    | pipe => exact .ok h
    | device => exact .ok h
    | none => exact .error trivial
    | inode =>
      refine Preserves.of_bind (Traces.of_onFs _) (fun _ => ?_) s h
      refine .of_bind (Traces.of_onFs _) fun a => ?_
      exact Traces.of_advance (hW f hf) _ a.1 (.of_pure _)

theorem sysWrite_follows (p fd : ℕ) (src : Src) (n r : ℤ) (s : Sys) {W : ℕ → Prop}
    (hW : ∀ f, argfd s p fd = some f → W f) (h : s.Follows W s) :
    Outcome (sysWrite p fd src n r s) (fun _ s' => s.Follows W s') (fun _ => True) := by
  unfold sysWrite
  rw [Run.get_bind]
  cases hf : argfd s p fd with
  | none => exact .ok h
  | some f =>
    refine .ite (fun _ => .ok h) fun _ => ?_
    cases (s.ftable f).type with
    | pipe => exact .ok h
    | device => exact .ok h
    | none => exact .error trivial
    | inode => exact .ite (fun _ => .ok h) fun _ => Traces.of_filewriteFrom (hW f hf) src _ _ _ s h

/-- **A file that stays open stays what it is.** -/
theorem Call.follows (c : Call) (p cwd : ℕ) (s : Sys) :
    Outcome (c.run p cwd s) (fun _ s' => s.Follows (c.Moves s p) s') (fun _ => True) := by
  have h := (Sys.Spared.refl s).follows (c.Moves s p)
  by_cases hc : c.spare = true
  · exact (c.spares hc p cwd s s (.refl s)).imp fun _ _ h' => h'.follows _
  cases c with
  | chdir path =>
    change Outcome (sysChdir p cwd path s) _ _
    unfold sysChdir
    cases argstr path with
    | none => exact .ok h
    | some path' =>
      refine Preserves.of_bind (Traces.of_onFs _) (fun r => ?_) s h
      cases r with
      | none => exact .of_pure _
      | some ip =>
        refine .of_bind (Traces.of_onFs _) fun _ => .of_get fun s' => .of_ite ?_ ?_
        · exact .of_bind (Traces.of_onFs _) fun _ => .of_pure _
        · exact .of_bind (Traces.of_onFs _) fun _ => .of_bind (Traces.of_onFs _) fun _ =>
            .of_bind (Traces.of_setProc p _) fun _ => .of_pure _
  | close fd =>
    refine Preserves.of_get (fun s' => ?_) s h
    cases argfd s' p fd with
    | none => exact .of_pure _
    | some f =>
      exact .of_bind (Traces.of_setProc p _) fun _ => .of_bind (Traces.of_fileclose f) fun _ => .of_pure _
  | dup fd =>
    refine Preserves.of_get (fun s' => ?_) s h
    cases argfd s' p fd with
    | none => exact .of_pure _
    | some f =>
      refine .of_bind (Traces.of_fdalloc p f) fun fd' => ?_
      cases fd' with
      | none => exact .of_pure _
      | some fd' => exact .of_bind (Traces.of_filedup f) fun _ => .of_pure _
  | read fd dst n r => exact sysRead_follows p fd dst n r s (fun _ hf => hf) h
  | write fd src n r => exact sysWrite_follows p fd src n r s (fun _ hf => hf) h
  | fork q =>
    refine Preserves.of_get (fun s' => .of_ite ?_ (.of_pure _)) s h
    exact .of_bind (Traces.of_dupAll p q _) fun _ => .of_bind (Traces.of_onFs _) fun _ =>
      .of_bind (Traces.of_setProc q _) fun _ => .of_pure _
  | exit =>
    refine Preserves.of_ite (.of_throw trivial) ?_ s h
    exact .of_bind (Traces.of_closeAll p _) fun _ => .of_bind (Traces.of_onFs _) fun _ =>
      .of_bind (Traces.of_setProc p _) fun _ => .of_pure _
  | _ => exact absurd rfl hc

end Xv6.Fs
