import Xv6.Fs.Acts

/-!
# Who refers to what

Descriptors refer to open files, open files and current directories refer to inodes, and open
files refer to the ends of pipes. `SysAt N T e g L q s` says that the counts in the tables agree
with these references while a call is running that holds `e` references to inodes and `g`
references to files of its own; `q` is a process slot that `fork` or `exit` is working on. Between
calls `e` and `g` are zero.
-/

namespace Xv6.Fs

open Function Lib

/-! ## Counting references -/

/-- An open file refers to inode `i`. -/
def File.Holds (fl : File) (i : ℕ) : Prop :=
  0 < fl.ref ∧ (fl.type = .inode ∨ fl.type = .device) ∧ fl.ip = i

instance (fl : File) (i : ℕ) : Decidable (fl.Holds i) := inferInstanceAs (Decidable (_ ∧ _))

namespace Sys

variable (s : Sys)

/-- The references to inode `i`: current directories and open files. -/
def refs (i : ℕ) : ℕ :=
  ((Finset.range nproc).filter fun p => (s.procs p).cwd = some i).card +
    ((Finset.range nfile).filter fun f => (s.ftable f).Holds i).card

/-- The descriptors that refer to file `f`. -/
def slots (f : ℕ) : ℕ :=
  ((Finset.range nproc ×ˢ Finset.range nofile).filter fun d =>
    (s.procs d.1).ofile d.2 = some f).card

/-- The system with file `f` replaced. -/
def putFile (f : ℕ) (fl : File) : Sys := { s with ftable := update s.ftable f fl }

/-- The system with process `p` replaced. -/
def putProc (p : ℕ) (pr : Proc) : Sys := { s with procs := update s.procs p pr }

/-- The system with descriptor `fd` of `p` replaced. -/
def putOfile (p fd : ℕ) (v : Option ℕ) : Sys :=
  s.putProc p { s.procs p with ofile := update (s.procs p).ofile fd v }

/-- The system with the current directory of `p` replaced. -/
def putCwd (p : ℕ) (c : Option ℕ) : Sys := s.putProc p { s.procs p with cwd := c }

variable {s} {f p fd : ℕ}

theorem putFile_self (fl : File) : (s.putFile f fl).ftable f = fl := update_self _ _ _

theorem putFile_of_ne (fl : File) {f' : ℕ} (h : f' ≠ f) : (s.putFile f fl).ftable f' = s.ftable f' :=
  update_of_ne h _ _

theorem putOfile_cwd (v : Option ℕ) (p' : ℕ) :
    ((s.putOfile p fd v).procs p').cwd = (s.procs p').cwd := by
  unfold putOfile putProc
  by_cases hp : p' = p
  · subst hp; simp
  · simp [hp]

theorem putOfile_ofile (v : Option ℕ) (p' fd' : ℕ) : ((s.putOfile p fd v).procs p').ofile fd' =
    if p' = p ∧ fd' = fd then v else (s.procs p').ofile fd' := by
  unfold putOfile putProc
  by_cases hp : p' = p
  · subst hp; simp [update_apply]
  · simp [hp]

theorem putCwd_cwd (c : Option ℕ) (p' : ℕ) :
    ((s.putCwd p c).procs p').cwd = if p' = p then c else (s.procs p').cwd := by
  unfold putCwd putProc
  by_cases hp : p' = p
  · subst hp; simp
  · simp [hp]

theorem putCwd_ofile (c : Option ℕ) (p' fd' : ℕ) :
    ((s.putCwd p c).procs p').ofile fd' = (s.procs p').ofile fd' := by
  unfold putCwd putProc
  by_cases hp : p' = p
  · subst hp; simp
  · simp [hp]

theorem refs_putFile (hf : f < nfile) (fl : File) (i : ℕ) :
    (s.putFile f fl).refs i + (if (s.ftable f).Holds i then 1 else 0) =
      s.refs i + if fl.Holds i then 1 else 0 := by
  have h := card_filter_change (p := fun f => (s.ftable f).Holds i)
    (q := fun f' => ((s.putFile f fl).ftable f').Holds i) (Finset.mem_range.2 hf)
    fun f' _ hne => by rw [putFile_of_ne fl hne]
  rw [putFile_self] at h
  have hp : (s.putFile f fl).procs = s.procs := rfl
  unfold refs
  rw [hp]
  omega

theorem refs_putOfile (v : Option ℕ) (i : ℕ) : (s.putOfile p fd v).refs i = s.refs i := by
  unfold refs
  congr 1
  exact card_filter_same fun p' _ => by rw [putOfile_cwd]

theorem refs_putCwd (hp : p < nproc) (c : Option ℕ) (i : ℕ) :
    (s.putCwd p c).refs i + (if (s.procs p).cwd = some i then 1 else 0) =
      s.refs i + if c = some i then 1 else 0 := by
  have h := card_filter_change (p := fun p => (s.procs p).cwd = some i)
    (q := fun p' => ((s.putCwd p c).procs p').cwd = some i) (Finset.mem_range.2 hp)
    fun p' _ hne => by rw [putCwd_cwd, if_neg hne]
  rw [putCwd_cwd, if_pos rfl] at h
  have hp : (s.putCwd p c).ftable = s.ftable := rfl
  unfold refs
  rw [hp]
  omega

theorem slots_putOfile (hp : p < nproc) (hfd : fd < nofile) (v : Option ℕ) (f' : ℕ) :
    (s.putOfile p fd v).slots f' + (if (s.procs p).ofile fd = some f' then 1 else 0) =
      s.slots f' + if v = some f' then 1 else 0 := by
  unfold slots
  generalize hds : Finset.range nproc ×ˢ Finset.range nofile = ds
  have hmem : (p, fd) ∈ ds := by
    rw [← hds, Finset.mem_product, Finset.mem_range, Finset.mem_range]
    exact ⟨hp, hfd⟩
  have h := card_filter_change (p := fun d => (s.procs d.1).ofile d.2 = some f')
    (q := fun d => ((s.putOfile p fd v).procs d.1).ofile d.2 = some f') hmem
    fun d _ hne => by
      rw [putOfile_ofile, if_neg]
      rintro ⟨h1, h2⟩
      exact hne (Prod.ext h1 h2)
  have hself : ((s.putOfile p fd v).procs p).ofile fd = v := by
    rw [putOfile_ofile, if_pos ⟨rfl, rfl⟩]
  dsimp only at h
  rwa [hself] at h

theorem slots_putCwd (c : Option ℕ) (f' : ℕ) : (s.putCwd p c).slots f' = s.slots f' := by
  unfold slots
  exact card_filter_same fun d _ => by rw [putCwd_ofile]

theorem slots_eq_zero (h : ∀ p < nproc, ∀ fd < nofile, (s.procs p).ofile fd ≠ some f) :
    s.slots f = 0 := by
  unfold slots
  rw [Finset.card_eq_zero, Finset.filter_eq_empty_iff]
  simp only [Finset.mem_product, Finset.mem_range, Prod.forall, and_imp]
  exact fun p fd hp hfd => h p hp fd hfd

/-- A file that holds an inode accounts for a reference. -/
theorem refs_pos_of_holds (hf : f < nfile) {i : ℕ} (h : (s.ftable f).Holds i) : 0 < s.refs i := by
  have : 0 < ((Finset.range nfile).filter fun f => (s.ftable f).Holds i).card :=
    Finset.card_pos.2 ⟨f, Finset.mem_filter.2 ⟨Finset.mem_range.2 hf, h⟩⟩
  unfold refs
  omega

theorem refs_pos_of_cwd (hp : p < nproc) {i : ℕ} (h : (s.procs p).cwd = some i) : 0 < s.refs i := by
  have : 0 < ((Finset.range nproc).filter fun p => (s.procs p).cwd = some i).card :=
    Finset.card_pos.2 ⟨p, Finset.mem_filter.2 ⟨Finset.mem_range.2 hp, h⟩⟩
  unfold refs
  omega

end Sys

/-! ## The ends of pipes -/

/-- Whether the write end or the read end is open. -/
def Ends.isOpen (e : Ends) (writable : Bool) : Bool := if writable then e.writeopen else e.readopen

/-- What is left of a pipe when an end is closed. -/
def Ends.closed (e : Ends) (writable : Bool) : Option Ends :=
  let e : Ends := if writable then { e with writeopen := false } else { e with readopen := false }
  if e.readopen = false ∧ e.writeopen = false then none else some e

theorem Ends.closed_open (e : Ends) (w w' : Bool) :
    (∃ e', e.closed w = some e' ∧ e'.isOpen w' = true) ↔ w' ≠ w ∧ e.isOpen w' = true := by
  obtain ⟨r, o⟩ := e
  cases r <;> cases o <;> cases w <;> cases w' <;> simp [closed, isOpen]

theorem Ends.closed_held {e e' : Ends} {w : Bool} (h : e.closed w = some e') :
    ∃ w', e'.isOpen w' = true := by
  obtain ⟨r, o⟩ := e
  refine ⟨!w, ?_⟩
  cases r <;> cases o <;> cases w <;> simp [closed] at h <;> subst h <;> rfl

/-- An open file is an end of the pipe in page `pi`. -/
def File.IsEnd (fl : File) (pi : ℕ) (writable : Bool) : Prop :=
  fl.type = .pipe ∧ fl.pipe = pi ∧ fl.writable = writable

/-- The open files for pipes are the open ends of the allocated pages. -/
structure PipesOk (ft : ℕ → File) (pipes : ℕ → Option Ends) : Prop where
  ends : ∀ pi w, (∃ e, pipes pi = some e ∧ e.isOpen w = true) ↔ ∃ f, (ft f).IsEnd pi w
  sole : ∀ f f' pi w, (ft f).IsEnd pi w → (ft f').IsEnd pi w → f = f'
  held : ∀ pi e, pipes pi = some e → ∃ w, e.isOpen w = true

namespace PipesOk

variable {ft ft' : ℕ → File} {pipes : ℕ → Option Ends}

theorem congr (h : PipesOk ft pipes) (hft : ∀ f pi w, (ft' f).IsEnd pi w ↔ (ft f).IsEnd pi w) :
    PipesOk ft' pipes := by
  refine ⟨fun pi w => ?_, fun f f' pi w hf hf' => ?_, h.held⟩
  · rw [h.ends]
    exact exists_congr fun f => (hft f pi w).symm
  · exact h.sole f f' pi w ((hft f pi w).1 hf) ((hft f' pi w).1 hf')

/-- A file that is no end of a pipe is replaced by another such. -/
theorem putFile (h : PipesOk ft pipes) {f : ℕ} {fl : File} (h1 : (ft f).type ≠ .pipe)
    (h2 : fl.type ≠ .pipe) : PipesOk (update ft f fl) pipes := by
  refine h.congr fun f' pi w => ?_
  by_cases hf : f' = f
  · subst hf
    rw [update_self]
    exact iff_of_false (fun hc => h2 hc.1) fun hc => h1 hc.1
  · rw [update_of_ne hf]

/-- One end of a pipe is closed, and the page freed with the second. -/
theorem close (h : PipesOk ft pipes) {f pi : ℕ} {w : Bool} {e : Ends} {fl : File}
    (hf : (ft f).IsEnd pi w) (he : pipes pi = some e) (hfl : fl.type ≠ .pipe) :
    PipesOk (update ft f fl) (update pipes pi (e.closed w)) := by
  have hft : ∀ f' pi' w', ((update ft f fl) f').IsEnd pi' w' ↔
      f' ≠ f ∧ (ft f').IsEnd pi' w' := by
    intro f' pi' w'
    by_cases hne : f' = f
    · subst hne
      rw [update_self]
      exact iff_of_false (fun hc => hfl hc.1) fun hc => hc.1 rfl
    · rw [update_of_ne hne]
      exact (and_iff_right hne).symm
  refine ⟨fun pi' w' => ?_, fun f₁ f₂ pi' w' h₁ h₂ => ?_, fun pi' e' he' => ?_⟩
  · simp only [hft]
    by_cases hpi : pi' = pi
    · subst hpi
      rw [update_self, e.closed_open]
      constructor
      · rintro ⟨hw, ho⟩
        obtain ⟨f', hf'⟩ := (h.ends pi' w').1 ⟨e, he, ho⟩
        refine ⟨f', ?_, hf'⟩
        rintro rfl
        exact hw (hf'.2.2.symm.trans hf.2.2)
      · rintro ⟨f', hne, hf'⟩
        refine ⟨fun hw => hne (h.sole f' f pi' w' hf' (hw ▸ hf)), ?_⟩
        obtain ⟨e', he', ho⟩ := (h.ends pi' w').2 ⟨f', hf'⟩
        rw [he] at he'
        exact Option.some.inj he' ▸ ho
    · rw [update_of_ne hpi, h.ends]
      refine exists_congr fun f' => ⟨fun hf' => ⟨?_, hf'⟩, fun hf' => hf'.2⟩
      rintro rfl
      exact hpi (hf'.2.1.symm.trans hf.2.1)
  · exact h.sole f₁ f₂ pi' w' ((hft _ _ _).1 h₁).2 ((hft _ _ _).1 h₂).2
  · by_cases hpi : pi' = pi
    · subst hpi
      rw [update_self] at he'
      exact Ends.closed_held he'
    · rw [update_of_ne hpi] at he'
      exact h.held pi' e' he'

/-- Two files become the ends of a new pipe. -/
theorem alloc (h : PipesOk ft pipes) {f0 f1 pi : ℕ} {fl0 fl1 : File} (hpi : pipes pi = none)
    (hne : f0 ≠ f1) (h0 : (ft f0).type ≠ .pipe) (h1 : (ft f1).type ≠ .pipe)
    (hfl0 : fl0.IsEnd pi false) (hfl1 : fl1.IsEnd pi true) :
    PipesOk (update (update ft f0 fl0) f1 fl1)
      (update pipes pi (some ⟨true, true⟩)) := by
  have hft : ∀ f' pi' w', ((update (update ft f0 fl0) f1 fl1) f').IsEnd pi' w' ↔
      (pi' = pi ∧ f' = if w' then f1 else f0) ∨ (ft f').IsEnd pi' w' := by
    intro f' pi' w'
    by_cases hf1 : f' = f1
    · subst hf1
      rw [update_self]
      constructor
      · rintro ⟨-, hp, hw⟩
        refine .inl ⟨hp ▸ hfl1.2.1, ?_⟩
        rw [if_pos (hw ▸ hfl1.2.2)]
      · rintro (⟨rfl, hw⟩ | hc)
        · cases w' with
          | true => exact hfl1
          | false => exact absurd hw.symm hne
        · exact absurd hc.1 h1
    · rw [update_of_ne hf1]
      by_cases hf0 : f' = f0
      · subst hf0
        rw [update_self]
        constructor
        · rintro ⟨-, hp, hw⟩
          refine .inl ⟨hp ▸ hfl0.2.1, ?_⟩
          rw [← hw, hfl0.2.2]
          rfl
        · rintro (⟨rfl, hw⟩ | hc)
          · cases w' with
            | true => exact absurd hw hf1
            | false => exact hfl0
          · exact absurd hc.1 h0
      · rw [update_of_ne hf0]
        refine ⟨.inr, ?_⟩
        rintro (⟨-, hw⟩ | hc)
        · cases w' with
          | true => exact absurd hw hf1
          | false => exact absurd hw hf0
        · exact hc
  -- no file was an end of this page
  have hno : ∀ f' w', ¬ (ft f').IsEnd pi w' := by
    intro f' w' hf'
    obtain ⟨e, he, -⟩ := (h.ends pi w').2 ⟨f', hf'⟩
    rw [hpi] at he
    exact absurd he nofun
  refine ⟨fun pi' w' => ?_, fun f₁ f₂ pi' w' h₁ h₂ => ?_, fun pi' e' he' => ?_⟩
  · simp only [hft]
    by_cases hp : pi' = pi
    · subst hp
      rw [update_self]
      refine iff_of_true ⟨_, rfl, ?_⟩ ⟨_, .inl ⟨rfl, rfl⟩⟩
      cases w' <;> rfl
    · rw [update_of_ne hp, h.ends]
      refine exists_congr fun f' => ⟨.inr, ?_⟩
      rintro (⟨hc, -⟩ | hc)
      · exact absurd hc hp
      · exact hc
  · rw [hft] at h₁ h₂
    rcases h₁ with ⟨rfl, h₁⟩ | h₁
    · rcases h₂ with ⟨-, h₂⟩ | h₂
      · rw [h₁, h₂]
      · exact absurd h₂ (hno _ _)
    · rcases h₂ with ⟨rfl, h₂⟩ | h₂
      · exact absurd h₁ (hno _ _)
      · exact h.sole f₁ f₂ pi' w' h₁ h₂
  · by_cases hp : pi' = pi
    · subst hp
      rw [update_self] at he'
      exact ⟨true, by rw [← Option.some.inj he']; rfl⟩
    · rw [update_of_ne hp] at he'
      exact h.held pi' e' he'

end PipesOk

/-! ## The accounts -/

/-- The tables agree with the references, the running call holding `e` references to inodes and
`g` to files, and working on the process slot `q`. -/
structure Books (N : ℕ) (T : Tree) (e g : ℕ → ℕ) (L : List ℕ) (q : Option ℕ) (s : Sys) : Prop where
  fs : At N T (fun j => s.refs j + e j) L s.fs
  live : ∀ j, 0 < s.refs j → T.type j ≠ .free
  files : ∀ f, (s.ftable f).ref = s.slots f + g f
  idle : ∀ f, (s.ftable f).ref = 0 → (s.ftable f).type = .none
  inside : ∀ f, 0 < (s.ftable f).ref → f < nfile
  procs : ∀ p, (s.procs p).cwd ≠ none → p < nproc
  slots : ∀ p fd, (s.procs p).ofile fd ≠ none → p < nproc ∧ fd < nofile
  /-- A slot without a process has no descriptors. -/
  tidy : ∀ p, some p ≠ q → (s.procs p).cwd = none → ∀ fd, (s.procs p).ofile fd = none
  /-- A directory is never open for writing. -/
  plain : ∀ f, (s.ftable f).type = .inode → (s.ftable f).writable = true →
    T.type (s.ftable f).ip ≠ .dir

/-- The accounts of inodes, files and pipes. -/
structure SysAt (N : ℕ) (T : Tree) (e g : ℕ → ℕ) (L : List ℕ) (q : Option ℕ) (s : Sys) : Prop
    extends Books N T e g L q s where
  pipes : PipesOk s.ftable s.pipes

theorem At.congr {N : ℕ} {T : Tree} {r r' : ℕ → ℕ} {L : List ℕ} {s : State} (h : At N T r L s)
    (hr : ∀ j, r' j = r j) : At N T r' L s := by
  rw [funext hr]
  exact h

theorem File.not_holds {fl : File} (h : fl.type = .none) (i : ℕ) : ¬ fl.Holds i := by
  rintro ⟨-, hc | hc, -⟩ <;> rw [h] at hc <;> exact FdType.noConfusion hc

namespace Books

variable {N : ℕ} {T T' : Tree} {e e' g g' : ℕ → ℕ} {L L' : List ℕ} {q q' : Option ℕ} {s : Sys}
  {f p fd : ℕ} (h : Books N T e g L q s)

include h

theorem pos_of_type (hf : (s.ftable f).type ≠ .none) : 0 < (s.ftable f).ref := by
  by_contra h0
  exact hf (h.idle f (by omega))

theorem pos_of_slot (hf : (s.procs p).ofile fd = some f) : 0 < (s.ftable f).ref := by
  obtain ⟨hp, hfd⟩ := h.slots p fd (by rw [hf]; exact nofun)
  have hc := Sys.slots_putOfile (s := s) hp hfd none f
  rw [if_pos hf, if_neg nofun] at hc
  rw [h.files f]
  omega

theorem cwd_pos {cwd : ℕ} (hcwd : (s.procs p).cwd = some cwd) : 0 < s.refs cwd :=
  Sys.refs_pos_of_cwd (h.procs p (by rw [hcwd]; exact nofun)) hcwd

theorem holds (hf : (s.ftable f).type = .inode ∨ (s.ftable f).type = .device) :
    (s.ftable f).Holds (s.ftable f).ip := by
  refine ⟨h.pos_of_type ?_, hf, rfl⟩
  rcases hf with hf | hf <;> rw [hf] <;> exact nofun

theorem holds_pos (hf : (s.ftable f).type = .inode ∨ (s.ftable f).type = .device) :
    0 < s.refs (s.ftable f).ip :=
  Sys.refs_pos_of_holds (h.inside f (h.holds hf).1) (h.holds hf)

/-- The file system has changed but not the type of an inode that is referred to. -/
theorem withFs {fs' : State} (hfs : At N T' (fun j => s.refs j + e' j) L' fs')
    (ht : ∀ j, 0 < s.refs j → T'.type j = T.type j) :
    Books N T' e' g L' q { s with fs := fs' } :=
  { h with
    fs := hfs
    live := fun j hj => (ht j hj).symm ▸ h.live j hj
    plain := fun f hf hw => (ht _ (h.holds_pos (.inl hf))).symm ▸ h.plain f hf hw }

/-- A file is replaced. -/
theorem putFile {fl : File} (hf : f < nfile) (hidle : fl.ref = 0 → fl.type = .none)
    (href : fl.ref = s.slots f + g' f) (hg : ∀ f', f' ≠ f → g' f' = g f')
    (he : ∀ i, (if fl.Holds i then 1 else 0) + e' i = (if (s.ftable f).Holds i then 1 else 0) + e i)
    (hlive : ∀ i, fl.Holds i → T.type i ≠ .free)
    (hplain : fl.type = .inode → fl.writable = true → T.type fl.ip ≠ .dir) :
    Books N T e' g' L q (s.putFile f fl) := by
  have hrefs := fun i => Sys.refs_putFile (s := s) hf fl i
  have hfile : ∀ {P : ℕ → File → Prop}, P f fl → (∀ f', f' ≠ f → P f' (s.ftable f')) →
      ∀ f', P f' ((s.putFile f fl).ftable f') := by
    intro P hself hother f'
    by_cases hne : f' = f
    · rw [hne, Sys.putFile_self]
      exact hself
    · rw [Sys.putFile_of_ne fl hne]
      exact hother f' hne
  refine ⟨h.fs.congr fun j => ?_, fun j hj => ?_, ?_, ?_, ?_, h.procs, h.slots, h.tidy, ?_⟩
  · have := hrefs j
    have := he j
    omega
  · by_cases hh : fl.Holds j
    · exact hlive j hh
    · have := hrefs j
      rw [if_neg hh] at this
      exact h.live j (by omega)
  · refine hfile (P := fun f' fl => fl.ref = s.slots f' + g' f') href fun f' hne => ?_
    rw [hg f' hne]
    exact h.files f'
  · exact hfile (P := fun _ fl => fl.ref = 0 → fl.type = .none) hidle fun f' _ => h.idle f'
  · exact hfile (P := fun f' fl => 0 < fl.ref → f' < nfile) (fun _ => hf) fun f' _ => h.inside f'
  · exact hfile (P := fun _ fl => fl.type = .inode → fl.writable = true → T.type fl.ip ≠ .dir)
      hplain fun f' _ => h.plain f'

/-- A file keeps what it refers to. -/
theorem putFile_same {fl : File} (hf : f < nfile) (hpos : 0 < (s.ftable f).ref) (hpos' : 0 < fl.ref)
    (href : fl.ref = s.slots f + g' f) (hg : ∀ f', f' ≠ f → g' f' = g f')
    (ht : fl.type = (s.ftable f).type) (hip : fl.ip = (s.ftable f).ip)
    (hw : fl.writable = (s.ftable f).writable) : Books N T e g' L q (s.putFile f fl) := by
  have hh : ∀ i, fl.Holds i ↔ (s.ftable f).Holds i := by
    intro i
    unfold File.Holds
    rw [ht, hip]
    exact and_congr_left fun _ => iff_of_true hpos' hpos
  refine h.putFile hf (fun h0 => by omega) href hg (fun i => by simp only [hh]) (fun i hi => ?_) ?_
  · exact h.live i (Sys.refs_pos_of_holds hf ((hh i).1 hi))
  · rw [ht, hip, hw]
    exact h.plain f

/-- A descriptor is replaced. -/
theorem putOfile {v : Option ℕ} (hp : p < nproc) (hfd : fd < nofile)
    (htidy : v ≠ none → (s.procs p).cwd ≠ none ∨ some p = q)
    (hg : ∀ f', (if v = some f' then 1 else 0) + g' f' =
      (if (s.procs p).ofile fd = some f' then 1 else 0) + g f') :
    Books N T e g' L q (s.putOfile p fd v) where
  fs := h.fs.congr fun j => by rw [Sys.refs_putOfile]
  live j hj := h.live j (by rwa [Sys.refs_putOfile] at hj)
  files f' := by
    have hc := Sys.slots_putOfile (s := s) hp hfd v f'
    have := hg f'
    have := h.files f'
    have hft : (s.putOfile p fd v).ftable = s.ftable := rfl
    rw [hft]
    omega
  idle := h.idle
  inside := h.inside
  procs p' hp' := h.procs p' (by rwa [Sys.putOfile_cwd] at hp')
  slots p' fd' hs := by
    rw [Sys.putOfile_ofile] at hs
    split_ifs at hs with hc
    · rw [hc.1, hc.2]
      exact ⟨hp, hfd⟩
    · exact h.slots p' fd' hs
  tidy p' hq hcwd fd' := by
    rw [Sys.putOfile_cwd] at hcwd
    rw [Sys.putOfile_ofile]
    split_ifs with hc
    · by_contra hv
      rcases htidy hv with hn | hn
      · exact hn (hc.1 ▸ hcwd)
      · exact hq (hc.1 ▸ hn)
    · exact h.tidy p' hq hcwd fd'
  plain := h.plain

/-- A current directory is replaced. -/
theorem putCwd {c : Option ℕ} (hp : p < nproc)
    (hq : ∀ p', some p' ≠ q' → p' ≠ p → some p' ≠ q)
    (htidy : c = none → some p ≠ q' → ∀ fd, (s.procs p).ofile fd = none)
    (he : ∀ i, (if c = some i then 1 else 0) + e' i =
      (if (s.procs p).cwd = some i then 1 else 0) + e i)
    (hlive : ∀ i, c = some i → T.type i ≠ .free) : Books N T e' g L q' (s.putCwd p c) where
  fs := h.fs.congr fun j => by
    have := Sys.refs_putCwd (s := s) hp c j
    have := he j
    omega
  live j hj := by
    by_cases hc : c = some j
    · exact hlive j hc
    · have := Sys.refs_putCwd (s := s) hp c j
      rw [if_neg hc] at this
      exact h.live j (by omega)
  files f' := by
    rw [Sys.slots_putCwd]
    exact h.files f'
  idle := h.idle
  inside := h.inside
  procs p' hp' := by
    rw [Sys.putCwd_cwd] at hp'
    split_ifs at hp' with hc
    · rw [hc]
      exact hp
    · exact h.procs p' hp'
  slots p' fd' hs := h.slots p' fd' (by rwa [Sys.putCwd_ofile] at hs)
  tidy p' hq' hcwd fd' := by
    rw [Sys.putCwd_cwd] at hcwd
    rw [Sys.putCwd_ofile]
    split_ifs at hcwd with hc
    · rw [hc] at hq' ⊢
      exact htidy hcwd hq' fd'
    · exact h.tidy p' (hq p' hq' hc) hcwd fd'
  plain := h.plain

end Books

end Xv6.Fs
