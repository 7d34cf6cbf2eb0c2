import Xv6.Fs.Directories
import Xv6.Fs.Offset
import Xv6.Fs.Spared

/-!
# Open files without names

An open file keeps its inode: nothing that other processes do to names, and nothing they write to
other files, changes its contents, whether the file still has a name or not. `read` and `write`
work on the contents as on an array of bytes. When the last descriptor is closed and no name is
left, the inode and its blocks are free.

* `Sys.Sane.same_file`: a call that does not write to the file leaves it alone.
* `Sys.Sane.released`: a call that drops the last reference frees the file.
* `open_file_intact`: both, and what the calls do on the array of bytes, in every run.
-/

namespace Xv6.Fs

open Lib

variable {N : ℕ} {T : Tree} {s s' : Sys} {p cwd f : ℕ}

/-! ## Other calls -/

/-- The call writes to inode `i` through a descriptor of `i`, or it opens `i` and truncates it. -/
def Sys.Writes (s : Sys) (x : ℕ × Call) (i : ℕ) : Prop :=
  match x.2 with
  | .write fd _ _ _ => ∃ f, argfd s x.1 fd = some f ∧ (s.ftable f).type = .inode ∧ (s.ftable f).ip = i
  | .open _ omode => omode.testBit oTrunc = true ∧ ∃ cwd fd s' f, (s.procs x.1).cwd = some cwd ∧
      x.2.run x.1 cwd s = .ok (((fd : ℕ) : ℤ), s') ∧ (s'.procs x.1).ofile fd = some f ∧
      (s'.ftable f).type = .inode ∧ (s'.ftable f).ip = i
  | _ => False

/-- An inode that is referred to before and after a call, and is not a directory, stays the same
unless the call writes to it. -/
theorem Sys.Sane.same_file (h : s.Sane N) (hN : N ≤ 2 ^ 16) {x : ℕ × Call}
    (hstep : s.step x = some s') {i : ℕ} (hi : 0 < (s.fs.itable i).ref)
    (hnd : s.fs.tree.type i ≠ .dir) (hi' : 0 < (s'.fs.itable i).ref) (hw : ¬ s.Writes x i) :
    State.Same i s.fs s'.fs := by
  obtain ⟨cwd, n, hcwd, hrun⟩ := Sys.step_some hstep
  have hs' := (h.step hN hstep).1
  have href : 0 < s.refs i := by rwa [← h.ok.start.ref i]
  have hlive := h.ok.live i href
  have hlt := (State.type_of_tree hlive).1
  have hlive' : s'.fs.tree.type i ≠ .free := hs'.ok.live i (by rwa [← hs'.ok.start.ref i])
  have hleaves : x.2.Leaves (· = i) s x.1 n s' := by
    cases hc : x.2.onNames with
    | true =>
      exact Outcome.of_ok (Call.kept_names h.ok hcwd hc (fun j hj => hj ▸ href)
        fun j hj => hj ▸ hnd) hrun
    | false =>
      refine Outcome.of_ok (Call.kept_rest h.ok hcwd hc (fun j hj => hj ▸ hlt) ?_) hrun
      intro fd src n r f hx hf _ ht hip
      refine hw ?_
      unfold Sys.Writes
      rw [hx]
      exact ⟨f, hf, ht, hip⟩
  rcases hleaves with hk | ⟨path, omode, hx, htr, fd, f, fs, rfl, hfd, ht, hip, -⟩
  · rcases hk.same i rfl with hc | hs
    · exact absurd ((State.type_of_tree hlive').2.symm.trans hc) hlive'
    · exact hs
  · refine absurd ?_ hw
    unfold Sys.Writes
    rw [hx] at hrun ⊢
    exact ⟨htr, cwd, fd, s', f, hcwd, hrun, hfd, ht, not_not.1 hip⟩

/-- The same for a run. -/
theorem Sys.Sane.reach_same (h : s.Sane N) (hN : N ≤ 2 ^ 16) {i : ℕ} (hi : 0 < (s.fs.itable i).ref)
    (hnd : s.fs.tree.type i ≠ .dir) (hr : Reach Sys.step (fun t x => ¬ t.Writes x i ∧
      ∀ t', t.step x = some t' → 0 < (t'.fs.itable i).ref) s s') : State.Same i s.fs s'.fs := by
  have hlt := (State.type_of_tree (h.ok.live i (by rwa [← h.ok.start.ref i]))).1
  refine (hr.inv (I := fun t => t.Sane N ∧ 0 < (t.fs.itable i).ref ∧ State.Same i s.fs t.fs)
    ⟨h, hi, .refl i s.fs⟩ ?_).2.2
  rintro t x t' ⟨ht, hpos, hsame⟩ ⟨hw, hkeep⟩ hstep
  have hpos' := hkeep t' hstep
  have hlt' := State.type_of_tree (ht.ok.live i (by rwa [← ht.ok.start.ref i]))
  have hnd' : t.fs.tree.type i ≠ .dir := by
    rwa [← hlt'.2, hsame.type, ← State.tree_type hlt]
  exact ⟨(ht.step hN hstep).1, hpos', hsame.trans (ht.same_file hN hstep hpos hnd' hpos' hw)⟩

/-! ## The last reference -/

/-- Only a call that deals with names changes the tree otherwise than by freeing inodes. -/
theorem Does.onNames {c : Call} {a : Tree.Act} (h : Does T cwd c a) : c.onNames = true := by
  cases c with
  | mkdir path | mknod path major minor | link old new | unlink path => rfl
  | «open» path omode => exact h.1
  | _ => exact absurd h not_false

/-- Such a call drops no reference. -/
theorem Call.spare_of_onNames {c : Call} (hc : c.onNames = true) : c.spare = true := by
  cases c with
  | mkdir path | mknod path major minor | link old new | unlink path | «open» path omode => rfl
  | _ => exact absurd hc nofun

/-- A call that drops the last reference to an inode without links frees it and its blocks. -/
theorem Sys.Sane.released (h : s.Sane N) (hN : N ≤ 2 ^ 16) {x : ℕ × Call}
    (hstep : s.step x = some s') {i : ℕ} (hi : 0 < (s.fs.itable i).ref)
    (hlink : s.fs.tree.nlink i = 0) (h0 : (s'.fs.itable i).ref = 0) :
    (s'.fs.dinode i).type = .free ∧ ∀ σ, (s.fs.dinode i).slot s.fs.data σ ≠ 0 →
      s'.fs.used ((s.fs.dinode i).slot s.fs.data σ) = false := by
  obtain ⟨cwd, n, hcwd, hrun⟩ := Sys.step_some hstep
  obtain ⟨hs', cwd', hcwd', hT⟩ := h.step hN hstep
  have href : 0 < s.refs i := by rwa [← h.ok.start.ref i]
  have hlive := h.ok.live i href
  obtain ⟨hlt, htype⟩ := State.type_of_tree hlive
  -- the reference is gone, so the call is none of those that drop no reference
  have hdrop : ¬ 0 < s'.refs i := by
    rw [← hs'.ok.start.ref i, h0]
    exact lt_irrefl 0
  have hspare : x.2.spare = false := by
    rw [← Bool.not_eq_true]
    intro hc
    exact hdrop ((Outcome.of_ok (Call.spares hc x.1 cwd s s (.refl s)) hrun).refs_pos href)
  have hnames : x.2.onNames = false := by
    rw [← Bool.not_eq_true]
    exact fun hc => absurd (hspare.symm.trans (Call.spare_of_onNames hc)) nofun
  have horphan : ∀ {T' : Tree}, SysOk N T' s' → T'.type i ≠ .free → T'.nlink i ≠ 0 := by
    intro T' h' hf hn
    have := (h'.fs.orphan i hf hn).1
    omega
  have hwrite : ∀ fd src n r, x.2 ≠ .write fd src n r := by
    intro fd src n r hx
    rw [hx] at hrun
    have h' := Outcome.of_ok (sysWrite_run h.ok fd src n r) hrun
    exact horphan h' hlive hlink
  have hfree : s'.fs.tree.type i = .free := by
    by_contra hf
    obtain ⟨T₁, hT₁ | ⟨a, ha, -⟩, hrec⟩ := hT
    · rw [hT₁] at hrec
      exact horphan hs'.ok hf ((hrec.sameAt hf).nlink.trans hlink)
    · exact absurd (hnames.symm.trans ha.onNames) nofun
  have hkept : Kept (fun _ => False) (· < s.fs.sb.ninodes) s.fs s'.fs := by
    have hl := Outcome.of_ok (Call.kept_rest (P := (· < s.fs.sb.ninodes)) h.ok hcwd hnames
      (fun _ hj => hj) fun fd src n r f hx => absurd hx (hwrite fd src n r)) hrun
    rcases hl with hk | ⟨path, omode, hx, -⟩
    · exact hk
    · rw [hx] at hspare
      exact absurd hspare nofun
  have htype' : (s'.fs.dinode i).type = .free := by
    rwa [← State.tree_type (by rwa [hkept.sb])]
  refine ⟨htype', fun σ hσ => ?_⟩
  by_contra hu
  rw [Bool.not_eq_false] at hu
  obtain ⟨hge, hsize, -⟩ := h.ok.fs.wf.good.owned i hlt (by rwa [htype]) σ hσ
  rw [← hkept.sb] at hge hsize
  obtain ⟨j, hj, hfj, τ, hτ⟩ := hkept.wf.good.covered _ hge hsize hu not_false
  have hne : j ≠ i := by
    rintro rfl
    exact hfj htype'
  rw [hkept.sb] at hj
  rcases hkept.same j hj with hc | hs
  · exact hfj hc
  · rw [hs.slot] at hτ
    refine hne (h.ok.fs.wf.good.once j hj (by rw [← hs.type]; exact hfj) i hlt (by rwa [htype]) τ σ
      ?_ hτ).1
    rwa [hτ]

/-! ## Runs -/

/-- **An open file stays intact.** Take any state of any run in which `f` is an open file, of an
inode that is not a directory; it may have names or not.

* `ialloc` does not hand out its inode, and `balloc` none of its blocks.
* As long as `f` is open it is an open file of this inode, with the same modes, and only `read` and
  `write` through its descriptors move its offset.
* In every run in which the inode stays referred to and no call writes to it, its contents stay what
  they are.
* `read` and `write` through a descriptor of `f` work on the contents and move the offset.
* A call that drops the last reference when there are no links frees the inode and its blocks. -/
theorem open_file_intact {s₀ s : Sys} (h₀ : Boot s₀) (hr : Reach Sys.step (fun _ _ => True) s₀ s)
    {f i : ℕ} (hopen : (s.ftable f).Holds i) (ht : (s.ftable f).type = .inode)
    (hfile : (s.fs.dinode i).type ≠ .dir) :
    (∀ type r fs', ialloc type s.fs = .ok (r, fs') → r ≠ some i) ∧
    (∀ b fs', balloc s.fs = .ok (b, fs') → ∀ σ, (s.fs.dinode i).slot s.fs.data σ ≠ 0 →
      (s.fs.dinode i).slot s.fs.data σ ≠ b) ∧
    (∀ x s', s.step x = some s' → 0 < (s'.ftable f).ref → (s'.ftable f).Holds i ∧
      (s'.ftable f).type = .inode ∧ (s'.ftable f).readable = (s.ftable f).readable ∧
      (s'.ftable f).writable = (s.ftable f).writable ∧
      (¬ x.2.Moves s x.1 f → (s'.ftable f).off = (s.ftable f).off)) ∧
    (∀ s', Reach Sys.step (fun t x => ¬ t.Writes x i ∧
        ∀ t', t.step x = some t' → 0 < (t'.fs.itable i).ref) s s' →
      (s'.fs.dinode i).type = (s.fs.dinode i).type ∧ s'.fs.content i = s.fs.content i) ∧
    (∀ p fd n r, argfd s p fd = some f → (s.ftable f).readable = true → ∃ bytes fs,
      bytes = slice (s.fs.content i) (s.ftable f).off (n % 2 ^ 32).toNat ∧
        ilock i s.fs = .ok ((), fs) ∧ fs.content i = s.fs.content i ∧
        readi i (fun _ => true) (s.ftable f).off (n % 2 ^ 32).toNat fs =
          .ok (((bytes.length : ℤ), bytes), fs) ∧
        sysRead p fd (fun _ => true) n r s =
          .ok ((bytes.length : ℤ), ({ s with fs := fs } : Sys).advance f bytes.length)) ∧
    (∀ p fd src (n : ℕ) r, argfd s p fd = some f → (s.ftable f).writable = true → ∃ t fs',
      sysWrite p fd (fun k => some (src k)) n r s =
          .ok (if t = n then (n : ℤ) else -1, ({ s with fs := fs' } : Sys).advance f t) ∧
        Put f src n 0 s t fs') ∧
    (∀ x s', s.step x = some s' → (s.fs.dinode i).nlink = 0 → (s'.fs.itable i).ref = 0 →
      (s'.fs.dinode i).type = .free ∧ ∀ σ, (s.fs.dinode i).slot s.fs.data σ ≠ 0 →
        s'.fs.used ((s.fs.dinode i).slot s.fs.data σ) = false) := by
  have h := h₀.reach_sane hr
  obtain rfl : (s.ftable f).ip = i := hopen.2.2
  have hlive := h.ok.live_file ht
  refine ⟨?_, ?_, ?_, ?_, ?_, ?_, ?_⟩
  · rintro type r fs' hrun rfl
    rcases ialloc_run s.fs type with ⟨hno, -⟩ | ⟨j, -, -, hfree, ⟨hj, -⟩ | ⟨hj, -⟩⟩
    · rw [hno] at hrun
      exact absurd hrun nofun
    · rw [hj] at hrun
      obtain ⟨hji, -⟩ := Prod.mk.inj (Except.ok.inj hrun)
      rw [Option.some.inj hji] at hfree
      exact hlive.used hfree
    · rw [hj] at hrun
      exact absurd hrun nofun
  · rintro b fs' hrun σ hσ rfl
    obtain ⟨-, -, hu⟩ := hlive.wf.good.owned _ hlive.lt hlive.used σ hσ
    rcases balloc_run s.fs with ⟨hno, -⟩ | ⟨b, -, hb, hrun'⟩
    · rw [hno] at hrun
      exact hσ (Prod.mk.inj (Except.ok.inj hrun)).1.symm
    · rw [hrun'] at hrun
      rw [← (Prod.mk.inj (Except.ok.inj hrun)).1] at hu
      exact absurd (hb.symm.trans hu) nofun
  · intro x s' hstep hpos
    obtain ⟨cwd, n, -, hrun⟩ := Sys.step_some hstep
    have hfol := Outcome.of_ok (x.2.follows x.1 cwd s) hrun
    have hsame := hfol.same f hopen.1 hpos
    have ht' := (congrArg File.type hsame).trans ht
    have hip := congrArg File.ip hsame
    have hread := congrArg File.readable hsame
    have hwrite := congrArg File.writable hsame
    exact ⟨⟨hpos, .inl ht', hip⟩, ht', hread, hwrite, fun hm => hfol.off f hopen.1 hpos hm⟩
  · intro s' hr'
    have hs := h.reach_same h₀.small hlive.ref (by rwa [State.tree_type hlive.lt]) hr'
    exact ⟨hs.type, hs.content hlive.wf hlive.lt hlive.used⟩
  · intro p fd n r hf hread
    obtain ⟨bytes, hbytes, hrun, hcall⟩ := sysRead_content n r hf ht hread hlive
    exact ⟨bytes, _, hbytes, hlive.ilock, rfl, hrun, hcall⟩
  · intro p fd src n r hf hwrite
    exact sysWrite_content src n r hf ht hwrite hlive
  · intro x s' hstep hlink h0
    refine h.released h₀.small hstep hlive.ref ?_ h0
    rw [State.tree_nlink hlive.lt hlive.used, hlink]

/-- A file is made, opened, unlinked and closed. -/
theorem open_file_intact_close : ∃ s s', run Sys.step bootSys [(0, .open [97] 0x202), (0, .unlink [97])] =
    some s ∧ (s.ftable 0).Holds 2 ∧ (s.fs.dinode 2).nlink = 0 ∧ (s.fs.dinode 2).type = .file ∧
    s.step (0, .close 0) = some s' ∧ (s'.fs.dinode 2).type = .free := by
  obtain ⟨s, hs, hholds, htype, hlink, hfile, hclose⟩ :
      ∃ s, run Sys.step bootSys [(0, .open [97] 0x202), (0, .unlink [97])] = some s ∧
        (s.ftable 0).Holds 2 ∧ (s.ftable 0).type = .inode ∧ (s.fs.dinode 2).nlink = 0 ∧
        (s.fs.dinode 2).type = .file ∧
        ((s.step (0, .close 0)).any fun s' => decide ((s'.fs.itable 2).ref = 0)) = true :=
    exists_some (by decide +kernel)
  obtain ⟨s', hs', href⟩ := exists_some hclose
  have hreach : Reach Sys.step (fun _ _ => True) bootSys s :=
    reach_of_run (G := fun _ _ => True) (by simpa using hs) .refl
  refine ⟨s, s', hs, hholds, hlink, hfile, hs', ?_⟩
  exact ((open_file_intact bootSys_boot hreach hholds htype (by rw [hfile]; exact nofun)).2.2.2.2.2.2
    (0, .close 0) s' hs' hlink href).1

end Xv6.Fs
