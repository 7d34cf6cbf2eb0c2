import Xv6.Fs.Kept

/-!
# Directories are written by the kernel only

`open` gives no descriptor for writing to a directory, and an inode that is open for writing does
not become one. So a directory changes only when `dirlink` fills an empty entry or `unlink` clears
one, in every run of all the calls.

* `Tree.Act.Ok.edits`: what a change of the tree does to the entries of a directory.
* `directories_unwritable`: in every run no directory is open for writing, and a call makes at
  most such a change to it.
-/

namespace Xv6.Fs

open Lib

/-- At most one entry of directory `D` differs: one has been cleared, or an empty one filled. -/
def Tree.Edits (clear : Bool) (T T' : Tree) (D : ℕ) : Prop :=
  (T'.ent D = T.ent D ∧ T'.name D = T.name D) ∨
    ∃ k, (∀ j, j ≠ k → T'.ent D j = T.ent D j ∧ T'.name D j = T.name D j) ∧
      if clear = true then T.ent D k ≠ 0 ∧ T'.ent D k = 0 else T.ent D k = 0 ∧ T'.ent D k ≠ 0

/-- The change removes an entry. -/
def Tree.Act.clears : Tree.Act → Bool
  | .unlink _ _ => true
  | .rmdir _ _ => true
  | _ => false

/-- `unlink` removes entries, the other calls add them. -/
def Call.unlinks : Call → Bool
  | .unlink _ => true
  | _ => false

variable {N : ℕ} {T T' : Tree}

theorem Does.clears {cwd : ℕ} {c : Call} {a : Tree.Act} (h : Does T cwd c a) :
    a.clears = c.unlinks := by
  have hnew : ∀ type dp k ip nm, (newAct type dp k ip nm).clears = false := by
    intro type dp k ip nm
    unfold newAct
    split_ifs <;> rfl
  cases c with
  | mkdir | mknod =>
    obtain ⟨q, dp, name, k, ip, -, -, -, rfl⟩ := h
    exact hnew _ _ _ _ _
  | «open» =>
    obtain ⟨-, q, dp, name, k, ip, -, -, -, rfl⟩ := h
    exact hnew _ _ _ _ _
  | link =>
    obtain ⟨old', new', ip, nm, dp, name, k, -, -, -, -, -, rfl⟩ := h
    rfl
  | unlink =>
    obtain ⟨q, dp, name, k, -, -, -, rfl⟩ := h
    unfold rmAct
    split_ifs <;> rfl
  | _ => exact h.elim

namespace Tree

/-- One entry is written. -/
theorem Edits.of_setEnt {clear : Bool} {D dp k e : ℕ} {nm : ℕ → UInt8} {T₁ : Tree}
    (hk : if clear = true then T.ent dp k ≠ 0 ∧ e = 0 else T.ent dp k = 0 ∧ e ≠ 0)
    (h1 : T₁.ent D = T.ent D := by rfl) (h2 : T₁.name D = T.name D := by rfl)
    (hent : ∀ j, T'.ent D j = (T₁.setEnt dp k e nm).ent D j := by exact fun _ => rfl)
    (hname : ∀ j, T'.name D j = (T₁.setEnt dp k e nm).name D j := by exact fun _ => rfl) :
    Edits clear T T' D := by
  have hother : ∀ j, ¬ (D = dp ∧ j = k) → T'.ent D j = T.ent D j ∧ T'.name D j = T.name D j := by
    intro j hj
    rw [hent, hname, setEnt_ent, setEnt_name, if_neg hj, if_neg hj, h1, h2]
    exact ⟨rfl, rfl⟩
  by_cases hD : D = dp
  · refine .inr ⟨k, fun j hj => hother j fun hc => hj hc.2, ?_⟩
    have hself : T'.ent D k = e := by rw [hent, setEnt_ent, if_pos (And.intro hD rfl)]
    rwa [hself, hD]
  · exact .inl ⟨funext fun j => (hother j fun hc => hD hc.1).1,
      funext fun j => (hother j fun hc => hD hc.1).2⟩

/-- **A change writes one entry** of one directory. -/
theorem Act.Ok.edits {K D : ℕ} {a : Act} (ok : a.Ok N K T) (ha : ∀ i, a ≠ .reclaim i)
    (hdots : T.Dots) (hD : T.type D ≠ .free) : Edits a.clears T (T.apply a) D := by
  cases a with
  | node dp k ip t nm =>
    obtain ⟨-, -, -, h0, -, hpos, -⟩ := ok
    exact .of_setEnt ⟨h0, hpos.ne'⟩
  | dir dp k ip nm =>
    obtain ⟨-, -, -, h0, hip, hpos, -⟩ := ok
    have hne : D ≠ ip := by
      rintro rfl
      exact hD hip
    refine .of_setEnt ⟨h0, hpos.ne'⟩ (funext fun j => ?_) (funext fun j => ?_)
    · rw [setEnt_ent, if_neg fun hc => hne hc.1, setEnt_ent, if_neg fun hc => hne hc.1]
      rfl
    · rw [setEnt_name, if_neg fun hc => hne hc.1, setEnt_name, if_neg fun hc => hne hc.1]
      rfl
  | link dp k ip nm =>
    obtain ⟨-, -, -, h0, hip, -⟩ := ok
    exact .of_setEnt ⟨h0, (hdots.pos hip).ne'⟩
  | unlink dp k | rmdir dp k => exact .of_setEnt ⟨ok.2.1, rfl⟩
  | reclaim i => exact absurd rfl (ha i)

/-- What is not freed keeps its entries. -/
theorem Reclaims.sameAt (h : T.Reclaims T') {i : ℕ} (hi : T'.type i ≠ .free) : T.SameAt T' i := by
  induction h with
  | refl => exact .refl
  | @free T₁ j _ _ _ ih =>
    have hne : i ≠ j := by
      rintro rfl
      exact hi (by rw [free_type, if_pos rfl])
    have hs : T₁.SameAt (T₁.free j) i :=
      ⟨by rw [free_type, if_neg hne], by rw [free_nlink, if_neg hne],
        funext fun k => by rw [free_ent, if_neg hne], funext fun k => by rw [free_name, if_neg hne]⟩
    exact (ih (hs.type ▸ hi)).trans hs

end Tree

theorem Changed.edits {cwd : ℕ} {c : Call} (h : Changed N (Does T cwd c) T T') (hdots : T.Dots)
    {D : ℕ} (hD : T.type D ≠ .free) (hD' : T'.type D ≠ .free) : Tree.Edits c.unlinks T T' D := by
  obtain ⟨T₁, hT₁, hr⟩ := h
  have hs := hr.sameAt hD'
  have h₁ : Tree.Edits c.unlinks T T₁ D := by
    rcases hT₁ with rfl | ⟨a, ha, hok, rfl⟩
    · exact .inl ⟨rfl, rfl⟩
    · rw [← ha.clears]
      exact hok.edits ha.ne_reclaim hdots hD
  unfold Tree.Edits at h₁ ⊢
  rwa [hs.ent, hs.name]

/-- A call that does not deal with names leaves the bytes of directories alone. -/
theorem Sys.Sane.content_dir {s s' : Sys} (h : s.Sane N) {x : ℕ × Call} (hstep : s.step x = some s')
    (hx : x.2.onNames = false) {D : ℕ} (hD : s.fs.tree.type D = .dir)
    (hD' : s'.fs.tree.type D ≠ .free) : s'.fs.content D = s.fs.content D := by
  have hf : s.fs.tree.type D ≠ .free := by
    rw [hD]
    exact nofun
  obtain ⟨hlt, ht⟩ := State.type_of_tree hf
  have hdir : (s.fs.dinode D).type = .dir := ht.trans hD
  -- an inode that is kept from the start and locked is still a directory
  have hlock : ∀ fs : State, Kept (fun _ => False) (· = D) s.fs fs → fs.Locked D →
      (fs.itable D).d.type = .dir := by
    intro fs hk hl
    obtain ⟨hagree, hu, -⟩ := hk.wf.agree D hl
    rcases hk.same D rfl with hc | hs
    · exact absurd hc hu
    · rw [hagree, hs.type, hdir]
  obtain ⟨cwd, n, hcwd, hrun⟩ := Sys.step_some hstep
  have hleaves := Outcome.of_ok (Call.kept_rest (P := (· = D)) h.ok hcwd hx (fun i hi => hi ▸ hlt)
    fun fd src n r f _ _ hw hty hip => h.ok.plain f hty hw (hip ▸ hD)) hrun
  rcases hleaves with hk | ⟨path, omode, -, -, fd, f, fs, -, -, -, hip, hk, hl, hfile⟩
  · rcases hk.same D rfl with hc | hs
    · obtain ⟨-, ht'⟩ := State.type_of_tree hD'
      exact absurd (ht'.symm.trans hc) hD'
    · exact hs.content h.ok.fs.wf hlt (by rw [hdir]; exact nofun)
  · rw [not_not] at hip
    rw [hip] at hl hfile
    exact absurd ((hlock fs hk hl).symm.trans hfile) nofun

/-- **Users cannot write directories.** In every state of every run no open file that may be written
is a directory, and a directory consists of whole entries. A call that uses neither `dirlink` nor
`unlink` leaves the bytes of every directory alone until it is freed; the others fill or clear one
entry. -/
theorem directories_unwritable {s₀ s : Sys} (h₀ : Boot s₀)
    (hr : Reach Sys.step (fun _ _ => True) s₀ s) :
    (∀ f, 0 < (s.ftable f).ref → (s.ftable f).type = .inode → (s.ftable f).writable = true →
      (s.fs.dinode (s.ftable f).ip).type ≠ .dir) ∧
    (∀ D, s.fs.tree.type D = .dir → direntSize ∣ (s.fs.dinode D).size) ∧
    ∀ x s', s.step x = some s' → ∀ D, s.fs.tree.type D = .dir → s'.fs.tree.type D ≠ .free →
      (x.2.onNames = false → s'.fs.content D = s.fs.content D) ∧
        Tree.Edits x.2.unlinks s.fs.tree s'.fs.tree D := by
  have h := h₀.reach_sane hr
  refine ⟨fun f _ ht hw => ?_, h.ok.fs.aligned, fun x s' hstep D hD hD' => ⟨fun hx => ?_, ?_⟩⟩
  · have hplain := h.ok.plain f ht hw
    have hlive := h.ok.live _ (h.ok.toBooks.holds_pos (.inl ht))
    rwa [(State.type_of_tree hlive).2]
  · exact h.content_dir hstep hx hD hD'
  · obtain ⟨-, cwd, -, hT⟩ := h.step h₀.small hstep
    exact hT.edits h.dots (by rw [hD]; exact nofun) hD'

/-- A file is made and opened for writing, and the directory above it gets one entry. -/
theorem directories_unwritable_open : ∃ s, bootSys.step (0, .open [97] 0x201) = some s ∧
    (s.ftable 0).writable = true ∧ (s.fs.dinode (s.ftable 0).ip).type ≠ .dir ∧
    Tree.Edits false bootSys.fs.tree s.fs.tree rootino := by
  obtain ⟨s, hs, hpos, ht, hw, hroot⟩ : ∃ s, bootSys.step (0, .open [97] 0x201) = some s ∧
      0 < (s.ftable 0).ref ∧ (s.ftable 0).type = .inode ∧ (s.ftable 0).writable = true ∧
      s.fs.tree.type rootino = .dir := exists_some (by decide +kernel)
  refine ⟨s, hs, hw, (directories_unwritable bootSys_boot (.tail .refl trivial hs)).1 0 hpos ht hw, ?_⟩
  exact ((directories_unwritable bootSys_boot .refl).2.2 _ s hs rootino bootSys_boot.root.1
    (by rw [hroot]; exact nofun)).2

end Xv6.Fs
