import Xv6.Fs.Safe
import Xv6.Fs.Syscalls
import Xv6.Fs.Reachable

/-!
# Runs of file-system calls

The processes take turns; a turn is one call. `Boot` describes the system that `mkfs` and the
boot leave behind: one process in the root directory, and a flat directory of files.

* `reach_keeps`: what a run keeps, if its calls make only changes that meet a condition.
* `Sys.Sane`: what every run keeps.
* `descriptors_balance`: files, inodes and pipes are counted right in every run of the calls that
  deal with open files.
* `entries_name_inodes`, `nothing_lost`: entries do not dangle and no inode is lost as long as
  removed directories are left alone.
-/

namespace Xv6.Fs

open Lib

/-- A call of the process in slot `x.1`; a call that stops the system has no next state. -/
def Sys.step (s : Sys) (x : ℕ × Call) : Option Sys :=
  match (s.procs x.1).cwd with
  | none => none
  | some cwd =>
    match x.2.run x.1 cwd s with
    | .ok (_, s') => some s'
    | .error _ => none

variable {s : Sys} {x : ℕ × Call}

theorem Sys.step_some {s' : Sys} (h : s.step x = some s') :
    ∃ cwd n, (s.procs x.1).cwd = some cwd ∧ x.2.run x.1 cwd s = .ok (n, s') := by
  unfold step at h
  split at h
  · cases h
  · next cwd hcwd =>
    split at h
    · next n s'' hrun =>
      cases h
      exact ⟨cwd, n, hcwd, hrun⟩
    · cases h

/-- The way in which a call stops the system, if it does. -/
def Sys.stop (s : Sys) (x : ℕ × Call) : Option Stop :=
  match (s.procs x.1).cwd with
  | none => none
  | some cwd =>
    match x.2.run x.1 cwd s with
    | .ok _ => none
    | .error e => some e

theorem Sys.stop_some {e : Stop} (h : s.stop x = some e) :
    ∃ cwd, (s.procs x.1).cwd = some cwd ∧ x.2.run x.1 cwd s = .error e := by
  unfold stop at h
  split at h
  · cases h
  · next cwd hcwd =>
    split at h
    · cases h
    · next e' hrun =>
      cases h
      exact ⟨cwd, hcwd, hrun⟩

/-! ## The start -/

/-- One process, in the root directory and without open files. -/
structure Sys.Idle (s : Sys) : Prop where
  cwd : ∀ p, (s.procs p).cwd = if p = 0 then some rootino else none
  ofile : ∀ p fd, (s.procs p).ofile fd = none
  ftable : ∀ f, (s.ftable f).ref = 0 ∧ (s.ftable f).type = .none
  pipes : ∀ pi, s.pipes pi = none
  ref : ∀ i, (s.fs.itable i).ref = if i = rootino then 1 else 0
  inuse : s.fs.inuse = 1

namespace Sys.Idle

variable {s : Sys} (h : s.Idle)

include h

theorem tallied : s.fs.Tallied := by
  refine ⟨{rootino}, fun i => ?_, h.inuse⟩
  rw [Finset.mem_singleton, h.ref]
  split_ifs with hi
  · exact iff_of_true hi Nat.one_pos
  · exact iff_of_false hi (Nat.lt_irrefl 0)

theorem refs (i : ℕ) : s.refs i = if i = rootino then 1 else 0 := by
  have hfiles : ((Finset.range nfile).filter fun f => (s.ftable f).Holds i).card = 0 := by
    rw [Finset.card_eq_zero, Finset.filter_eq_empty_iff]
    exact fun f _ => File.not_holds (h.ftable f).2 i
  have hprocs : (Finset.range nproc).filter (fun p => (s.procs p).cwd = some i) =
      if i = rootino then {0} else ∅ := by
    ext p
    rw [Finset.mem_filter, Finset.mem_range, h.cwd]
    split_ifs with hp hi hi
    · rw [hp, Finset.mem_singleton]
      exact iff_of_true ⟨by decide, by rw [hi]⟩ rfl
    · exact iff_of_false (fun hc => hi (Option.some.inj hc.2).symm) (Finset.notMem_empty p)
    · rw [Finset.mem_singleton]
      exact iff_of_false (fun hc => absurd hc.2 nofun) hp
    · exact iff_of_false (fun hc => absurd hc.2 nofun) (Finset.notMem_empty p)
  unfold Sys.refs
  rw [hfiles, hprocs]
  split_ifs <;> rfl

/-- The accounts of a system at boot. -/
theorem ok (hwf : s.fs.Wf) (hroot : s.fs.tree.type rootino ≠ .free)
    (hlinked : ∀ i, s.fs.tree.type i ≠ .free → s.fs.tree.nlink i ≠ 0)
    (haligned : ∀ D, s.fs.tree.type D = .dir → direntSize ∣ (s.fs.dinode D).size) :
    SysOk s.fs.sb.ninodes s.fs.tree s where
  fs := by
    refine ⟨hwf, rfl, rfl, fun j => ?_, nofun, fun j hj hn => absurd hn (hlinked j hj), haligned⟩
    rw [h.ref, h.refs, Nat.add_zero]
  live j hj := by
    rw [h.refs] at hj
    split_ifs at hj with hr
    · rwa [hr]
    · exact absurd hj (Nat.lt_irrefl 0)
  files f := by
    rw [(h.ftable f).1, Sys.slots_eq_zero]
    intro p _ fd _
    rw [h.ofile]
    exact nofun
  idle f _ := (h.ftable f).2
  inside f hf := by
    rw [(h.ftable f).1] at hf
    exact absurd hf (Nat.lt_irrefl 0)
  procs p hp := by
    rw [h.cwd] at hp
    split_ifs at hp with h0
    · rw [h0]
      decide
    · exact absurd rfl hp
  slots p fd hs := absurd (h.ofile p fd) hs
  tidy p _ _ fd := h.ofile p fd
  plain f hf := by
    rw [(h.ftable f).2] at hf
    exact FdType.noConfusion hf
  pipes := by
    have hno : ∀ f pi w, ¬ (s.ftable f).IsEnd pi w := fun f pi w hc =>
      absurd ((h.ftable f).2.symm.trans hc.1) nofun
    refine ⟨fun pi w => ?_, fun f f' pi w hf => absurd hf (hno f pi w), fun pi e he => ?_⟩
    · refine iff_of_false ?_ fun ⟨f, hf⟩ => hno f pi w hf
      rintro ⟨e, he, -⟩
      rw [h.pipes] at he
      exact absurd he nofun
    · rw [h.pipes] at he
      exact absurd he nofun

end Sys.Idle

/-- The system at boot: `mkfs` has written a root directory and files, each named once
(`Xv6.Mkfs.mkfs_boot`). `wf` leaves out the images with a hole in the root directory, those of 62, 126
or 190 files. -/
structure Boot (s : Sys) : Prop extends s.Idle where
  wf : s.fs.Wf
  small : s.fs.sb.ninodes ≤ 2 ^ 16
  aligned : direntSize ∣ (s.fs.dinode rootino).size
  unused : s.fs.tree.type 0 = .free
  root : s.fs.tree.type rootino = .dir ∧ s.fs.tree.nlink rootino = 1
  dot : s.fs.tree.ent rootino 0 = rootino ∧ s.fs.tree.name rootino 0 = padded dot
  dotdot : s.fs.tree.ent rootino 1 = rootino ∧ s.fs.tree.name rootino 1 = padded dotdot
  named : ∀ k, 2 ≤ k → s.fs.tree.ent rootino k ≠ 0 →
    s.fs.tree.type (s.fs.tree.ent rootino k) ≠ .free ∧ s.fs.tree.ent rootino k ≠ rootino
  files : ∀ i, s.fs.tree.type i ≠ .free → i ≠ rootino → s.fs.tree.type i ≠ .dir ∧
    s.fs.tree.nlink i = 1 ∧ ∃ k, 2 ≤ k ∧ ∀ k', 2 ≤ k' → (s.fs.tree.ent rootino k' = i ↔ k' = k)

namespace Boot

variable {s : Sys} (h : Boot s)

include h

theorem slot {D k : ℕ} (hne : s.fs.tree.ent D k ≠ 0) :
    D < s.fs.sb.ninodes ∧ k < maxents ∧ s.fs.tree.type D = .dir := by
  have hhas : s.fs.HasEntry D k := by
    by_contra hno
    exact hne (if_neg hno)
  exact ⟨hhas.1, hhas.lt h.wf, (State.tree_type hhas.1).trans hhas.2.1⟩

theorem only_root {D : ℕ} (hD : s.fs.tree.type D = .dir) : D = rootino := by
  by_contra hne
  exact (h.files D (by rw [hD]; exact nofun) hne).1 hD

theorem lt {i : ℕ} (hi : s.fs.tree.type i ≠ .free) : 0 < i ∧ i < s.fs.sb.ninodes := by
  refine ⟨Nat.pos_of_ne_zero ?_, (State.type_of_tree hi).1⟩
  rintro rfl
  exact hi h.unused

theorem names_root : s.fs.tree.names s.fs.sb.ninodes maxents rootino = 0 := by
  rw [Tree.names_eq_zero]
  intro D _ k _ h2 he
  have hne : s.fs.tree.ent D k ≠ 0 := by
    rw [he]
    decide
  have hD := h.only_root (h.slot hne).2.2
  rw [hD] at he hne
  exact (h.named k h2 hne).2 he

theorem names_file {i : ℕ} (hi : s.fs.tree.type i ≠ .free) (hr : i ≠ rootino) :
    s.fs.tree.names s.fs.sb.ninodes maxents i = 1 := by
  obtain ⟨-, -, k, h2, hk⟩ := h.files i hi hr
  have hself : s.fs.tree.ent rootino k = i := (hk k h2).2 rfl
  have hne : s.fs.tree.ent rootino k ≠ 0 := by
    rw [hself]
    exact (h.lt hi).1.ne'
  obtain ⟨hN, hK, -⟩ := h.slot hne
  unfold Tree.names
  rw [Finset.card_eq_one]
  refine ⟨(rootino, k), Finset.ext fun d => ?_⟩
  rw [Finset.mem_filter, Finset.mem_product, Finset.mem_range, Finset.mem_range,
    Finset.mem_singleton]
  constructor
  · rintro ⟨-, h2', he⟩
    have hne' : s.fs.tree.ent d.1 d.2 ≠ 0 := by
      rw [he]
      exact (h.lt hi).1.ne'
    have hD := h.only_root (h.slot hne').2.2
    rw [hD] at he
    exact Prod.ext hD ((hk d.2 h2').1 he)
  · rintro rfl
    exact ⟨⟨hN, hK⟩, h2, hself⟩

theorem subs_root : s.fs.tree.subs maxents rootino = 0 := by
  rw [Tree.subs_eq_zero]
  intro k _ h2 hne ht
  exact (h.named k h2 hne).2 (h.only_root ht)

theorem inv : s.fs.tree.Inv s.fs.sb.ninodes maxents where
  slot _ _ := h.slot
  used _ := h.lt
  root := h.root.1
  dot D hD := by
    rw [h.only_root hD]
    exact h.dot
  dotdot D hD := by
    rw [h.only_root hD, h.dotdot.1]
    exact ⟨by decide, h.dotdot.2⟩
  live D k h2 hne := by
    have hD := h.only_root (h.slot hne).2.2
    rw [hD] at hne ⊢
    exact h.named k h2 hne
  once i hi := by
    rw [h.only_root hi, h.names_root]
    omega
  dirs i hi := by
    rw [h.only_root hi, h.names_root, h.subs_root, h.root.2, if_pos rfl]
    rfl
  bare i hi hr := absurd (h.only_root hi) hr
  files i hi hd := by
    have hr : i ≠ rootino := by
      rintro rfl
      exact hd h.root.1
    rw [h.names_file hi hr, (h.files i hi hr).2.1]
    decide

theorem up : s.fs.tree.Up s.fs.sb.ninodes maxents where
  root := h.dotdot.1
  dir D hD hr := absurd (h.only_root hD) hr
  parent D hD hn := by
    rw [h.only_root hD, h.names_root] at hn
    exact absurd rfl hn

theorem exact : s.fs.tree.Exact s.fs.sb.ninodes maxents where
  files i hi hd := by
    have hr : i ≠ rootino := by
      rintro rfl
      exact hd h.root.1
    rw [h.names_file hi hr, (h.files i hi hr).2.1]
    rfl
  removed D hD hn := by
    rw [h.only_root hD, h.root.2] at hn
    exact absurd hn (by decide)
  linked D hD _ := by
    rw [h.only_root hD]
    exact .root

theorem ok : SysOk s.fs.sb.ninodes s.fs.tree s := by
  refine h.toIdle.ok h.wf (by rw [h.root.1]; exact nofun) (fun j hj => ?_) fun j hj => ?_
  · by_cases hr : j = rootino
    · rw [hr, h.root.2]
      decide
    · rw [(h.files j hj hr).2.1]
      decide
  · rw [h.only_root hj]
    exact h.aligned

end Boot

/-- The system that boots from the image of `mkfs`. -/
def bootSys : Sys where
  fs := mkfsImage
  ftable := fun _ => ⟨.none, 0, false, false, 0, 0, 0, 0⟩
  procs := fun p => ⟨if p = 0 then some rootino else none, fun _ => none⟩
  pipes := fun _ => none

theorem mkfsImage_entries {k : ℕ} (h2 : 2 ≤ k) : mkfsImage.tree.ent rootino k = 0 := by
  by_cases hk : k < 64
  · have hall : ∀ k < 64, 2 ≤ k → mkfsImage.tree.ent rootino k = 0 := by decide
    exact hall k hk h2
  · refine if_neg fun hhas => ?_
    have : direntSize * (k + 1) ≤ 1024 := hhas.2.2
    simp only [direntSize] at this
    omega

theorem State.tree_name_padded {s : State} {D k : ℕ} {name : List UInt8}
    (h : ∀ j < dirsiz, s.tree.name D k j = padded name j) (hlen : name.length ≤ dirsiz) :
    s.tree.name D k = padded name := by
  funext j
  by_cases hj : j < dirsiz
  · exact h j hj
  · refine (if_neg fun hc => hj hc.2.2).trans ?_
    unfold padded
    rw [List.getD_eq_getElem?_getD, List.getElem?_eq_none (by omega)]
    rfl

theorem bootSys_idle {fs : State} (href : ∀ i, (fs.itable i).ref = if i = rootino then 1 else 0)
    (hn : fs.inuse = 1) : ({ bootSys with fs } : Sys).Idle :=
  ⟨fun _ => rfl, fun _ _ => rfl, fun _ => ⟨rfl, rfl⟩, fun _ => rfl, href, hn⟩

theorem bootSys_boot : Boot bootSys where
  toIdle := bootSys_idle (fun _ => rfl) rfl
  wf := mkfsImage_wf
  small := by decide
  aligned := by decide
  unused := by decide
  root := by decide
  dot := ⟨by decide, State.tree_name_padded (by decide) (by decide)⟩
  dotdot := ⟨by decide, State.tree_name_padded (by decide) (by decide)⟩
  named _ h2 hne := absurd (mkfsImage_entries h2) hne
  files _ hi hr :=
    absurd (mkfsImage_type fun hf => hi ((State.type_of_tree hi).2.symm.trans hf)) hr

/-! ## What runs keep -/

/-- Every change that the call may make meets the condition. -/
def Meets (G : Tree → Tree.Act → Prop) (s : Sys) (x : ℕ × Call) : Prop :=
  ∀ cwd a, (s.procs x.1).cwd = some cwd → Does s.fs.tree cwd x.2 a →
    a.Ok s.fs.sb.ninodes maxents s.fs.tree → G s.fs.tree a

section Keeps

variable {N : ℕ} {P : Tree → Prop} {G : Tree → Tree.Act → Prop}

theorem Changed.keeps {D : Tree.Act → Prop} {T T' : Tree}
    (hstep : ∀ T a, P T → a.Ok N maxents T → G T a → P (T.apply a))
    (hrec : ∀ T i, G T (.reclaim i)) (hP : P T) (hD : ∀ a, D a → a.Ok N maxents T → G T a)
    (h : Changed N D T T') : P T' := by
  obtain ⟨T₁, hT₁, hr⟩ := h
  have hP₁ : P T₁ := by
    rcases hT₁ with rfl | ⟨a, ha, hok, rfl⟩
    · exact hP
    · exact hstep T a hP hok (hD a ha hok)
  induction hr with
  | refl => exact hP₁
  | free _ ht hn ih => exact hstep _ (.reclaim _) ih ⟨ht, hn⟩ (hrec _ _)

/-- **Runs keep the accounts and what the changes keep.** -/
theorem reach_keeps {s₀ s : Sys} {C : Sys → ℕ × Call → Prop} (hN : N ≤ 2 ^ 16)
    (hdots : ∀ T, P T → T.Dots)
    (hstep : ∀ T a, P T → a.Ok N maxents T → G T a → P (T.apply a))
    (hrec : ∀ T i, G T (.reclaim i))
    (hC : ∀ s x, SysOk N s.fs.tree s → P s.fs.tree → C s x → Meets G s x)
    (h₀ : SysOk N s₀.fs.tree s₀) (hP : P s₀.fs.tree) (hr : Reach Sys.step C s₀ s) :
    SysOk N s.fs.tree s ∧ P s.fs.tree := by
  refine hr.inv (I := fun s => SysOk N s.fs.tree s ∧ P s.fs.tree) ⟨h₀, hP⟩ ?_
  rintro s x s' ⟨hs, hP⟩ hx hstep'
  obtain ⟨cwd, n, hcwd, hrun⟩ := Sys.step_some hstep'
  obtain ⟨T', hT', hs'⟩ := Outcome.of_ok (Call.run_at (hdots _ hP) hN hs hcwd x.2) hrun
  have htree := hs'.fs.tree
  have hnum := hs.fs.num
  rw [htree]
  refine ⟨hs', hT'.keeps hstep hrec hP fun a ha hok => ?_⟩
  exact hC s x hs hP hx cwd a hcwd ha (by rwa [hnum])

end Keeps

theorem SysOk.cwd_ref {N : ℕ} {T : Tree} {p cwd : ℕ} (h : SysOk N T s)
    (hcwd : (s.procs p).cwd = some cwd) : 0 < (s.fs.itable cwd).ref := by
  rw [h.start.ref cwd]
  exact h.toBooks.cwd_pos hcwd

/-- What every run keeps. -/
structure Sys.Sane (N : ℕ) (s : Sys) : Prop where
  ok : SysOk N s.fs.tree s
  dots : s.fs.tree.Dots
  tallied : s.fs.Tallied

/-- What a call does to the tree. -/
theorem Sys.Sane.step {N : ℕ} {s' : Sys} (h : s.Sane N) (hN : N ≤ 2 ^ 16)
    (hstep : s.step x = some s') : s'.Sane N ∧ ∃ cwd, (s.procs x.1).cwd = some cwd ∧
      Changed N (Does s.fs.tree cwd x.2) s.fs.tree s'.fs.tree := by
  obtain ⟨cwd, n, hcwd, hrun⟩ := Sys.step_some hstep
  obtain ⟨T', hT', hs'⟩ := Outcome.of_ok (Call.run_at h.dots hN h.ok hcwd x.2) hrun
  have htree := hs'.fs.tree
  rw [← htree] at hT' hs'
  have htally := Outcome.of_ok
    ((stable_tallied _).call_all ⟨h.ok.fs.wf, h.tallied⟩ (h.ok.cwd_ref hcwd) x.2) hrun
  refine ⟨⟨hs', ?_, htally.2⟩, cwd, hcwd, hT'⟩
  exact hT'.keeps (P := Tree.Dots) (G := fun _ _ => True) (fun _ _ hT hok _ => hT.apply hok)
    (fun _ _ => trivial) h.dots fun _ _ _ => trivial

theorem Boot.sane (h : Boot s) : s.Sane s.fs.sb.ninodes := ⟨h.ok, h.inv.dots, h.tallied⟩

theorem Boot.reach_sane {s₀ : Sys} {C : Sys → ℕ × Call → Prop} (h₀ : Boot s₀)
    (hr : Reach Sys.step C s₀ s) : s.Sane s₀.fs.sb.ninodes :=
  hr.inv (I := Sys.Sane s₀.fs.sb.ninodes) h₀.sane fun _ _ _ hs _ hstep => (hs.step h₀.small hstep).1

/-- `ref` stays far below the end of `int`: it counts current directories and open files. -/
theorem Boot.ref_le {s₀ : Sys} {C : Sys → ℕ × Call → Prop} (h₀ : Boot s₀)
    (hr : Reach Sys.step C s₀ s) (i : ℕ) : (s.fs.itable i).ref ≤ nproc + nfile := by
  have hcard : ∀ (P : ℕ → Prop) [DecidablePred P] (k : ℕ), ((Finset.range k).filter P).card ≤ k :=
    fun P _ k => (Finset.card_filter_le _ _).trans_eq (Finset.card_range k)
  rw [(h₀.reach_sane hr).ok.start.ref i]
  exact Nat.add_le_add (hcard _ nproc) (hcard _ nfile)

/-- **Nothing in use is freed.** Whatever the processes call, an inode counts the references to it
and has a type while there is one. -/
theorem in_use_kept {s₀ : Sys} (h₀ : Boot s₀) (hr : Reach Sys.step (fun _ _ => True) s₀ s) :
    (∀ i, (s.fs.itable i).ref = s.refs i) ∧ ∀ i, 0 < s.refs i → s.fs.tree.type i ≠ .free := by
  have hs := (h₀.reach_sane hr).ok
  exact ⟨hs.fs.ref, hs.live⟩

/-- A process goes into the directory `a` and removes it: the inode is not freed. -/
theorem in_use_kept_removed : ∃ s, Reach Sys.step (fun _ _ => True) bootSys s ∧
    s.fs.tree.nlink 2 = 0 ∧ s.refs 2 = 1 ∧ s.fs.tree.type 2 ≠ .free := by
  obtain ⟨s, hr, hn, href⟩ : ∃ s, Reach Sys.step (fun _ _ => True) bootSys s ∧
      s.fs.tree.nlink 2 = 0 ∧ (s.fs.itable 2).ref = 1 :=
    exists_reach [(0, .mkdir [97]), (0, .chdir [97]), (0, .unlink [46, 46, 47, 97])]
      (by decide +kernel)
  obtain ⟨hrefs, hlive⟩ := in_use_kept bootSys_boot hr
  have h1 : s.refs 2 = 1 := (hrefs 2).symm.trans href
  exact ⟨s, hr, hn, h1, hlive 2 (by omega)⟩

/-- A call that stops in a broken way shows that the tree was broken. -/
theorem Sys.stop_blames {N : ℕ} (hN : N ≤ 2 ^ 16) (hs : SysOk N s.fs.tree s)
    (hI : s.fs.tree.Inv N maxents) {e : Stop} (he : s.stop x = some e) :
    Blames s.fs.tree e := by
  obtain ⟨cwd, hcwd, hrun⟩ := Sys.stop_some he
  exact Outcome.of_error (Call.run_at hI.dots hN hs hcwd x.2) hrun (by rw [hI.root]; exact nofun)

theorem maxents_lt : maxents + 3 < 2 ^ 16 := by decide

/-! ## Open files -/

/-- The calls that deal with open files, and `mknod` and `chdir`. -/
def Call.onFiles : Call → Bool
  | .mkdir _ => false
  | .link _ _ => false
  | .unlink _ => false
  | _ => true

/-- Such a call makes at most a file. -/
theorem Call.does_node {T : Tree} {cwd : ℕ} {c : Call} (hc : c.onFiles = true) {a : Tree.Act}
    (ha : Does T cwd c a) : ∃ dp k ip t nm, a = .node dp k ip t nm := by
  cases c with
  | mkdir | link | unlink => exact absurd hc nofun
  | «open» path omode =>
    obtain ⟨-, q, dp, name, k, ip, -, -, -, rfl⟩ := ha
    exact ⟨dp, k, ip, _, _, rfl⟩
  | mknod path major minor =>
    obtain ⟨q, dp, name, k, ip, -, -, -, rfl⟩ := ha
    exact ⟨dp, k, ip, _, _, rfl⟩
  | _ => exact ha.elim

/-- **Open-file accounting.** In every state between two calls the count of a file is the number
of descriptors that refer to it, the count of an inode is the number of open files and current
directories that refer to it, and a page holds a pipe exactly while an open file is an end of it.
No call stops in `filedup` or `fileclose`. -/
theorem descriptors_balance {s₀ s : Sys} (h₀ : Boot s₀)
    (hr : Reach Sys.step (fun _ x => x.2.onFiles = true) s₀ s) :
    (∀ f, (s.ftable f).ref = s.slots f) ∧
    (∀ i, (s.fs.itable i).ref = s.refs i) ∧
    (∀ pi, (s.pipes pi).isSome ↔
      ∃ f, 0 < (s.ftable f).ref ∧ (s.ftable f).type = .pipe ∧ (s.ftable f).pipe = pi) ∧
    (∀ pi e, s.pipes pi = some e → ∀ w, e.isOpen w = true ↔
      ∃ f, 0 < (s.ftable f).ref ∧ (s.ftable f).IsEnd pi w) ∧
    ∀ x, s.stop x ≠ some (.panic "filedup") ∧ s.stop x ≠ some (.panic "fileclose") := by
  obtain ⟨hs, hP⟩ := reach_keeps (P := fun T => T.Inv s₀.fs.sb.ninodes maxents)
    (G := fun T a => a.NoWrap T ∧ a.MkdirLinked T) h₀.small (fun _ hT => hT.dots)
    (fun T a hT hok hG => hT.apply maxents_lt hok hG.1 hG.2) (fun _ _ => ⟨trivial, trivial⟩)
    (fun s x _ _ hx cwd a _ ha _ => by
      obtain ⟨dp, k, ip, t, nm, rfl⟩ := Call.does_node hx ha
      exact ⟨trivial, trivial⟩) h₀.ok h₀.inv hr
  -- a file that is an end of a pipe is in use
  have hend : ∀ pi w, (∃ f, (s.ftable f).IsEnd pi w) ↔
      ∃ f, 0 < (s.ftable f).ref ∧ (s.ftable f).IsEnd pi w := by
    refine fun pi w => ⟨fun ⟨f, hf⟩ => ⟨f, hs.toBooks.pos_of_type ?_, hf⟩, fun ⟨f, _, hf⟩ => ⟨f, hf⟩⟩
    rw [hf.1]
    exact nofun
  refine ⟨fun f => (hs.files f).trans (Nat.add_zero _), fun i => (hs.fs.ref i).trans (Nat.add_zero _),
    fun pi => ⟨fun hpi => ?_, ?_⟩, fun pi e he w => ?_, fun x => ⟨fun he => ?_, fun he => ?_⟩⟩
  · obtain ⟨e, he⟩ := Option.isSome_iff_exists.1 hpi
    obtain ⟨w, hw⟩ := hs.pipes.held pi e he
    obtain ⟨f, hpos, hf⟩ := (hend pi w).1 ((hs.pipes.ends pi w).1 ⟨e, he, hw⟩)
    exact ⟨f, hpos, hf.1, hf.2.1⟩
  · rintro ⟨f, -, ht, hp⟩
    obtain ⟨e, he, -⟩ := (hs.pipes.ends pi _).2 ⟨f, ht, hp, rfl⟩
    rw [he]
    rfl
  · rw [← hend, ← hs.pipes.ends]
    constructor
    · exact fun hw => ⟨e, he, hw⟩
    · rintro ⟨e', he', hw⟩
      rw [he] at he'
      rwa [Option.some.inj he']
  · rcases Sys.stop_blames h₀.small hs hP he (.inr (.inr (.inl rfl))) with ⟨hc, -⟩ | ⟨hc, -⟩ <;>
      exact absurd hc (by decide)
  · rcases Sys.stop_blames h₀.small hs hP he (.inr (.inr (.inr rfl))) with ⟨hc, -⟩ | ⟨hc, -⟩ <;>
      exact absurd hc (by decide)

/-- A pipe is made, its read end closed, and the process forks; the child duplicates the other
end. -/
theorem descriptors_balance_pipe : ∃ s, Reach Sys.step (fun _ x => x.2.onFiles = true) bootSys s ∧
    (s.ftable 1).ref = 3 ∧ s.slots 1 = 3 := by
  obtain ⟨s, hr, href⟩ : ∃ s, Reach Sys.step (fun _ x => x.2.onFiles = true) bootSys s ∧
      (s.ftable 1).ref = 3 :=
    exists_reach [(0, .pipe 5 true), (0, .close 0), (0, .fork 3), (3, .dup 1)] rfl
  exact ⟨s, hr, href, ((descriptors_balance bootSys_boot hr).1 1).symm.trans href⟩

/-! ## Entries -/

/-- No process has an open file, and every process is in the root directory. -/
def Sys.Quiescent (s : Sys) : Prop :=
  ∀ p < nproc, (∀ fd < nofile, (s.procs p).ofile fd = none) ∧
    ((s.procs p).cwd = none ∨ (s.procs p).cwd = some rootino)

instance (s : Sys) : Decidable s.Quiescent := Nat.decidableBallLT _ _

/-- The changes that keep entries from dangling: no link to a file whose count would go round to
zero, no directory made in a removed one, no directory removed that a removed directory still
has as its parent. -/
def Sound (T : Tree) (a : Tree.Act) : Prop := a.NoWrap T ∧ a.MkdirLinked T ∧ a.NoStray T

/-- What a run of sound calls keeps. -/
theorem Boot.reach_sound {s₀ : Sys} (h₀ : Boot s₀) (hr : Reach Sys.step (Meets Sound) s₀ s) :
    SysOk s₀.fs.sb.ninodes s.fs.tree s ∧ s.fs.tree.Inv s₀.fs.sb.ninodes maxents ∧
      s.fs.tree.NoDangle := by
  obtain ⟨hs, hI, hU⟩ := reach_keeps
    (P := fun T => T.Inv s₀.fs.sb.ninodes maxents ∧ T.Up s₀.fs.sb.ninodes maxents)
    (G := Sound) h₀.small (fun _ hT => hT.1.dots)
    (fun T a hT hok hG => ⟨hT.1.apply maxents_lt hok hG.1 hG.2.1,
      hT.2.apply hT.1 maxents_lt hok hG.2.1 hG.2.2⟩) (fun _ _ => ⟨trivial, trivial, trivial⟩)
    (fun _ _ _ _ hx => hx) h₀.ok ⟨h₀.inv, h₀.up⟩ hr
  exact ⟨hs, hI, hI.noDangle hU⟩

/-- **Entries name inodes in use** in every state of a run whose calls are all sound, and no call
finds a free inode at the end of a path. -/
theorem entries_name_inodes {s₀ s : Sys} (h₀ : Boot s₀) (hr : Reach Sys.step (Meets Sound) s₀ s) :
    (∀ D k, s.fs.tree.type D = .dir → s.fs.tree.ent D k ≠ 0 →
      s.fs.tree.type (s.fs.tree.ent D k) ≠ .free) ∧
    ∀ x, s.stop x ≠ some (.panic "ilock: no type") := by
  obtain ⟨hs, hI, hno⟩ := h₀.reach_sound hr
  refine ⟨hno, fun x he => ?_⟩
  rcases Sys.stop_blames h₀.small hs hI he (.inl rfl) with ⟨-, hc⟩ | ⟨hc, -⟩
  · exact hc hno
  · exact absurd hc (by decide)

/-- The first call of the first process makes a directory in the root, which is linked. -/
theorem bootSys_mkdir {G : Tree → Tree.Act → Prop}
    (hG : ∀ T k ip nm, T.nlink rootino ≠ 0 → G T (.dir rootino k ip nm)) :
    Meets G bootSys (0, .mkdir [97]) := by
  rintro cwd a hcwd ⟨q, dp, name, k, ip, hq, hres, -, rfl⟩ -
  have h1 : argstr [97] = some [97] := by decide
  have h2 : bootSys.fs.tree.resolve rootino [97] true = some (rootino, [97]) := by rfl
  rw [← Option.some.inj hcwd, ← Option.some.inj (h1.symm.trans hq), h2] at hres
  rw [← (Prod.mk.inj (Option.some.inj hres)).1]
  exact hG _ _ _ _ (by decide)

theorem bootSys_mkdir_step : ∃ s, bootSys.step (0, .mkdir [97]) = some s ∧ s.Quiescent ∧
    s.fs.tree.type 2 = .dir := exists_some (by decide +kernel)

theorem entries_name_inodes_mkdir : ∃ s, bootSys.step (0, .mkdir [97]) = some s ∧
    (∀ D k, s.fs.tree.type D = .dir → s.fs.tree.ent D k ≠ 0 →
      s.fs.tree.type (s.fs.tree.ent D k) ≠ .free) ∧
    ∀ x, s.stop x ≠ some (.panic "ilock: no type") := by
  obtain ⟨s, hs, -⟩ := bootSys_mkdir_step
  have hm : Meets Sound bootSys (0, .mkdir [97]) :=
    bootSys_mkdir fun _ _ _ _ hn => ⟨trivial, hn, trivial⟩
  exact ⟨s, hs, entries_name_inodes bootSys_boot (.tail .refl hm hs)⟩

/-- A process goes into `a/b`, removes `a/b` and then `a`: its directory still names the freed
inode of `a` as its parent, and going there stops the system. -/
theorem removed_parent : ∃ s cwd, Reach Sys.step (fun _ _ => True) bootSys s ∧
    (s.procs 0).cwd = some cwd ∧ s.fs.tree.type cwd = .dir ∧ s.fs.tree.ent cwd 1 ≠ 0 ∧
    s.fs.tree.type (s.fs.tree.ent cwd 1) = .free ∧
    s.stop (0, .chdir [46, 46]) = some (.panic "ilock: no type") := by
  rw [exists_comm]
  exact ⟨3, exists_reach [(0, .mkdir [97]), (0, .mkdir [97, 47, 98]), (0, .chdir [97, 47, 98]),
    (0, .unlink [47, 97, 47, 98]), (0, .unlink [47, 97])] (by decide +kernel)⟩

/-! ## Lost inodes -/

/-- The changes that lose nothing: no link to a file whose count would go round to zero, and
nothing named in a removed directory. -/
def Frugal (T : Tree) (a : Tree.Act) : Prop := a.NoWrap T ∧ a.ParentLinked T

theorem Tree.Act.ParentLinked.mkdirLinked {T : Tree} {a : Tree.Act} (h : a.ParentLinked T) :
    a.MkdirLinked T := by
  cases a with
  | dir => exact h
  | _ => trivial

/-- In a quiescent system only the root directory is referred to. -/
theorem Sys.Quiescent.refs {N : ℕ} {s : Sys} (hq : s.Quiescent) (hs : SysOk N s.fs.tree s) {j : ℕ}
    (hj : j ≠ rootino) : s.refs j = 0 := by
  have hcwd : ((Finset.range nproc).filter fun p => (s.procs p).cwd = some j).card = 0 := by
    rw [Finset.card_eq_zero, Finset.filter_eq_empty_iff]
    intro p hp hc
    rw [Finset.mem_range] at hp
    rcases (hq p hp).2 with h | h <;> rw [h] at hc
    · exact absurd hc nofun
    · exact hj (Option.some.inj hc).symm
  have hfiles : ((Finset.range nfile).filter fun f => (s.ftable f).Holds j).card = 0 := by
    rw [Finset.card_eq_zero, Finset.filter_eq_empty_iff]
    intro f _ hf
    have hslots : s.slots f = 0 := Sys.slots_eq_zero fun p hp fd hfd => by
      rw [(hq p hp).1 fd hfd]
      exact nofun
    have := hs.files f
    have := hf.1
    omega
  unfold Sys.refs
  omega

/-- **Nothing is lost** in a run whose calls are all frugal: when no file is open and every
process is in the root directory, every inode in use has a name in a directory that is reached
from the root. -/
theorem nothing_lost {s₀ s : Sys} (h₀ : Boot s₀) (hr : Reach Sys.step (Meets Frugal) s₀ s)
    (hq : s.Quiescent) {i : ℕ} (hi : s.fs.tree.type i ≠ .free) :
    ∃ D k, s.fs.tree.Reachable D ∧ s.fs.tree.ent D k = i := by
  obtain ⟨hs, hI, hX⟩ := reach_keeps
    (P := fun T => T.Inv s₀.fs.sb.ninodes maxents ∧ T.Exact s₀.fs.sb.ninodes maxents)
    (G := Frugal) h₀.small (fun _ hT => hT.1.dots)
    (fun T a hT hok hG => ⟨hT.1.apply maxents_lt hok hG.1 hG.2.mkdirLinked,
      hT.2.apply hT.1 maxents_lt hok hG.1 hG.2⟩) (fun _ _ => ⟨trivial, trivial⟩)
    (fun _ _ _ _ hx => hx) h₀.ok ⟨h₀.inv, h₀.exact⟩ hr
  refine hX.named hI (fun j hj hn => ?_) hi
  -- an inode without links would be referred to
  have hpos : 0 < s.refs j := hs.fs.orphan_pos hj hn
  rw [hq.refs hs (hI.unlinked_ne_root hn)] at hpos
  exact Nat.lt_irrefl 0 hpos

theorem nothing_lost_mkdir : ∃ s, bootSys.step (0, .mkdir [97]) = some s ∧ s.Quiescent ∧
    s.fs.tree.type 2 = .dir ∧ ∃ D k, s.fs.tree.Reachable D ∧ s.fs.tree.ent D k = 2 := by
  obtain ⟨s, hs, hq, ht⟩ := bootSys_mkdir_step
  have hm : Meets Frugal bootSys (0, .mkdir [97]) := bootSys_mkdir fun _ _ _ _ hn => ⟨trivial, hn⟩
  have hi : s.fs.tree.type 2 ≠ .free := by
    rw [ht]
    exact nofun
  exact ⟨s, hs, hq, ht, nothing_lost bootSys_boot (.tail .refl hm hs) hq hi⟩

/-- A process goes into `a`, removes `a`, makes the file `f` there, closes it and leaves: the inode
of `f` stays in use without a name. -/
theorem removed_directory : ∃ s, Reach Sys.step (fun _ _ => True) bootSys s ∧ s.Quiescent ∧
    s.fs.tree.type 3 = .file ∧ ¬ ∃ D k, s.fs.tree.Reachable D ∧ s.fs.tree.ent D k = 3 := by
  obtain ⟨s, hr, hq, ht, hsize, hne, hzero⟩ : ∃ s, Reach Sys.step (fun _ _ => True) bootSys s ∧
      s.Quiescent ∧ s.fs.tree.type 3 = .file ∧ (s.fs.dinode rootino).size = 1024 ∧
      (∀ k : ℕ, k < 64 → s.fs.tree.ent rootino k ≠ 3) ∧
      ∀ k : ℕ, k < 64 → 2 ≤ k → s.fs.tree.ent rootino k = 0 :=
    exists_reach [(0, .mkdir [97]), (0, .chdir [97]), (0, .unlink [46, 46, 47, 97]),
      (0, .open [102] 0x200), (0, .close 0), (0, .chdir [47])] (by decide +kernel)
  -- the root has no entries past the first block
  have hent : ∀ k, s.fs.tree.ent rootino k ≠ 3 ∧ (2 ≤ k → s.fs.tree.ent rootino k = 0) := by
    intro k
    by_cases hk : k < 64
    · exact ⟨hne k hk, hzero k hk⟩
    · have h0 : s.fs.tree.ent rootino k = 0 := by
        refine if_neg fun hhas => ?_
        have := hhas.2.2
        rw [hsize] at this
        simp only [direntSize] at this
        omega
      rw [h0]
      exact ⟨by decide, fun _ => rfl⟩
  have honly : ∀ {D}, s.fs.tree.Reachable D → D = rootino := by
    intro D hD
    induction hD with
    | root => rfl
    | entry _ h2 hne _ ih =>
      rw [ih] at hne
      exact absurd ((hent _).2 h2) hne
  refine ⟨s, hr, hq, ht, ?_⟩
  rintro ⟨D, k, hD, hk⟩
  rw [honly hD] at hk
  exact (hent k).1 hk

end Xv6.Fs
