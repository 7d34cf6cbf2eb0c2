import Xv6.Mkfs.Append

/-!
# Holes in the images of `mkfs`

`main` appends entries to the root directory and bytes to the files, and at the end rounds the
size of the root directory up. Up to that point every inode has exactly the blocks its size
needs (`Image.Inv`). The rounding `((off/BSIZE) + 1) * BSIZE` adds a block to a size that fills
its last block already, and no block is there: with 62, 126 or 190 files the root directory
has a hole.

* `main_run`: `main` succeeds on files that fit, and the image before the rounding holds them
  (`Image.Holds`).
* `mkfs_no_holes`: there is no hole exactly if the number of entries is not a multiple of 64.
-/

namespace Xv6.Mkfs

open Function Fs Lib

section Grown

variable {m m' m'' : Image} {i : ℕ} {p q : List UInt8}

/-- The bytes `p` have been appended to inode `i`. -/
structure Grown (i : ℕ) (p : List UInt8) (m m' : Image) : Prop where
  inv : m'.Inv
  freeinode : m'.freeinode = m.freeinode
  freeblock : m'.freeblock = m.freeblock +
    (blocksOf ((m.inode i).size + p.length) - blocksOf (m.inode i).size)
  other : ∀ j < mkfsSb.ninodes, j ≠ i → m'.inode j = m.inode j
  type : (m'.inode i).type = (m.inode i).type ∧ (m'.inode i).nlink = (m.inode i).nlink
  size : (m'.inode i).size = (m.inode i).size + p.length
  has : ∀ {bs}, m.Has i bs → m'.Has i (bs ++ p)
  kept : ∀ {j bs}, j < mkfsSb.ninodes → j ≠ i → (m.inode j).type ≠ .free → m.Has j bs → m'.Has j bs

theorem Grown.refl (h : m.Inv) (i : ℕ) : Grown i [] m m :=
  ⟨h, rfl, by simp, fun _ _ _ => rfl, ⟨rfl, rfl⟩, rfl, fun hb => by rwa [List.append_nil],
    fun _ _ _ hb => hb⟩

theorem Grown.trans (h : Grown i p m m') (h' : Grown i q m' m'') : Grown i (p ++ q) m m'' where
  inv := h'.inv
  freeinode := h'.freeinode.trans h.freeinode
  freeblock := by
    have h1 := blocksOf_mono (Nat.le_add_right (m.inode i).size p.length)
    have h2 := blocksOf_mono (Nat.le_add_right ((m.inode i).size + p.length) q.length)
    rw [h'.freeblock, h.freeblock, h.size, List.length_append, ← Nat.add_assoc]
    omega
  other j hj hji := (h'.other j hj hji).trans (h.other j hj hji)
  type := ⟨h'.type.1.trans h.type.1, h'.type.2.trans h.type.2⟩
  size := by rw [h'.size, h.size, List.length_append, Nat.add_assoc]
  has hb := List.append_assoc .. ▸ h'.has (h.has hb)
  kept hj hji ht hb := h'.kept hj hji (by rwa [h.other _ hj hji]) (h.kept hj hji ht hb)

/-- A view has no inode in memory, so only the disk matters. -/
theorem view_wf {s : State} (h : s.Wf) (hsb : s.sb = mkfsSb) (hu : m.view.used = s.used)
    (hn : m.view.dinode = s.dinode) (hd : m.view.data = s.data) : m.view.Wf :=
  h.of_table hsb.symm hu hn hd fun _ hl => absurd hl.1 (Nat.lt_irrefl 0)

theorem iappend_grown (h : m.Inv) (hi : i < mkfsSb.ninodes) (ht : (m.inode i).type ≠ .free)
    (hmax : (m.inode i).size + p.length ≤ maxfile * bsize)
    (hroom : m.freeblock + (blocksOf ((m.inode i).size + p.length) - blocksOf (m.inode i).size) ≤
      mkfsSb.size) :
    ∃ m', iappend i p m = .ok ((), m') ∧ Grown i p m m' := by
  obtain ⟨m', s', hr, hw, hu, hn, hd, he, hfresh, hroomy, hfi, hfb⟩ := iappend_run h hi ht hmax hroom
  have hd₀ : ((m.work i (m.inode i) []).itable i).d = m.inode i := Image.work_d
  have hat := Image.work_wfAt h.wf hi ht
  have hl := hw.touch.locked hat.locked
  have hself : m'.inode i = (s'.itable i).d := by
    rw [(hw.wf.agree i hl).1, ← hn, Image.view_dinode hi]
  have hsize : (m'.inode i).size = (m.inode i).size + p.length := by
    rw [hself, hw.d, hd₀]
    dsimp only
    split_ifs <;> omega
  have htype : (m'.inode i).type = (m.inode i).type ∧ (m'.inode i).nlink = (m.inode i).nlink := by
    rw [hself, hw.d, hd₀]
    exact ⟨rfl, rfl⟩
  have hother : ∀ j < mkfsSb.ninodes, j ≠ i → m'.inode j = m.inode j := by
    intro j hj hji
    rw [← Image.view_dinode hj, hn, hw.touch.dinode j hji]
    exact Image.view_dinode hj
  -- the blocks of the other files
  have hfar : ∀ j < mkfsSb.ninodes, j ≠ i → (m.inode j).type ≠ .free → ∀ σ,
      (m.inode j).slot m'.view.data σ = (m.inode j).slot m.view.data σ ∧
        ((m.inode j).slot m.view.data σ ≠ 0 → m'.view.data ((m.inode j).slot m.view.data σ) =
          m.view.data ((m.inode j).slot m.view.data σ)) := by
    intro j hj hji htj σ
    have hdn : (m.work i (m.inode i) []).dinode j = m.inode j := Image.view_dinode hj
    have := hw.touch.other hat hj hji (by rwa [hdn]) σ
    rwa [hw.touch.dinode j hji, hdn, ← hd] at this
  refine ⟨m', hr, ⟨hroomy, view_wf hw.wf hw.touch.sb hu hn hd, ?_, ?_⟩, hfi, hfb, hother, htype,
    hsize, fun {bs} hb => ⟨by rw [hsize, hb.size, List.length_append], fun o hne => ?_⟩,
    fun {j bs} hj hji htj hb => ?_⟩
  · intro j hj htj σ hσ
    by_cases hji : j = i
    · subst hji
      rw [hd, hsize, hself]
      exact he σ hσ
    · rw [hother j hj hji] at htj ⊢
      rw [(hfar j hj hji htj σ).1]
      exact h.exact j hj htj σ hσ
  · intro j hj hle
    have hle : m.freeinode ≤ j := by rwa [hfi] at hle
    have hfree := h.free j hj hle
    have hji : j ≠ i := by
      rintro rfl
      exact ht hfree
    rw [hother j hj hji]
    exact hfree
  · rw [hd, hself] at hne ⊢
    change s'.memByte i o = _
    have hold : (m.work i (m.inode i) []).memSlot i (fileSlot (o / bsize)) ≠ 0 →
        (m.work i (m.inode i) []).memByte i o = bs.getD o 0 := by
      unfold State.memByte State.memSlot
      rw [hd₀]
      exact hb.bytes o
    have hsz := hb.size
    rcases Nat.lt_or_ge o (m.inode i).size with hlt | hge
    · have h0 := (h.wf.noHoles i hi (by rwa [Image.view_dinode hi])).2 (o / bsize)
      rw [Image.view_dinode hi, ← hd₀] at h0
      replace h0 := h0 ((Nat.div_mul_le_self o bsize).trans_lt (by rwa [hd₀]))
      rw [hw.outside o h0 (.inl hlt), hold h0, List.getD_append _ _ _ _ (by omega)]
    · rcases Nat.lt_or_ge o ((m.inode i).size + p.length) with hlt | hge'
      · rw [hw.written o hge hlt, List.getD_append_right _ _ _ _ (by omega), hsz]
        rfl
      · rw [List.getD_eq_default _ _ (by rw [List.length_append]; omega)]
        by_cases h0 : (m.work i (m.inode i) []).memSlot i (fileSlot (o / bsize)) = 0
        · exact hfresh o hge' h0 hne
        · rw [hw.outside o h0 (.inr hge'), hold h0, List.getD_eq_default _ _ (by omega)]
  · refine ⟨by rw [hother j hj hji, hb.size], fun o hne => ?_⟩
    rw [hother j hj hji] at hne ⊢
    rw [(hfar j hj hji htj _).1] at hne ⊢
    rw [(hfar j hj hji htj _).2 hne]
    exact hb.bytes o hne

/-- `ialloc` takes the next inode, which is empty. -/
theorem ialloc_run (h : m.Inv) (hi : m.freeinode < mkfsSb.ninodes) (type : FType) :
    ∃ m', ialloc type m = .ok (m.freeinode, m') ∧ m'.Inv ∧ m'.freeinode = m.freeinode + 1 ∧
      m'.freeblock = m.freeblock ∧
      m'.inode = update m.inode m.freeinode { Dinode.zero with type := type, nlink := 1 } ∧
      m'.Has m.freeinode [] ∧ ∀ {j bs}, j ≠ m.freeinode → m.Has j bs → m'.Has j bs := by
  set d : Dinode := { Dinode.zero with type := type, nlink := 1 } with hd
  have hfits : Fits d := ⟨Nat.two_pow_pos 32, fun _ _ => Nat.two_pow_pos 32, fun _ _ => rfl⟩
  set m₁ : Image := { m with freeinode := m.freeinode + 1 } with hm₁
  have hroomy : m₁.Roomy := ⟨h.roomy.sects, h.roomy.lo, h.roomy.clear⟩
  have hin : (m₁.put m.freeinode d).inode = update m.inode m.freeinode d :=
    m₁.put_inode m.freeinode hfits
  have hview : (m₁.put m.freeinode d).view =
      { m.view with dinode := update m.view.dinode m.freeinode d } :=
    Image.put_view (m := m₁) hi hfits
  have hfree := h.free _ hi le_rfl
  refine ⟨m₁.put m.freeinode d, ?_, ⟨hroomy.put hi d, ?_, ?_, ?_⟩, rfl, rfl, hin,
    ⟨by rw [hin, update_self]; rfl, fun o hne => ?_⟩, fun {j bs} hj hb => ?_⟩
  · unfold ialloc
    rw [Run.get_bind, Run.modify_bind]
    exact Run.bind_of_ok (winode_run (m := m₁) h.roomy.sects hi d)
  · rw [hview]
    exact h.wf.renew hi (by rw [Image.view_dinode hi, hfree]) (fun _ _ => rfl) rfl []
  · intro j hj htj σ hσ
    rw [hin] at htj ⊢
    rw [hview]
    by_cases hji : j = m.freeinode
    · subst hji
      rw [update_self, slot_eq_zero fun _ _ => rfl]
      exact ⟨fun h0 => absurd rfl h0, fun hlt => absurd hlt (Nat.not_lt_zero _)⟩
    · rw [update_of_ne hji] at htj ⊢
      exact h.exact j hj htj σ hσ
  · intro j hj hle
    have hle : m.freeinode + 1 ≤ j := hle
    rw [hin, update_of_ne (by omega)]
    exact h.free j hj (by omega)
  · rw [hin, update_self, slot_eq_zero fun _ _ => rfl] at hne
    exact absurd rfl hne
  · refine ⟨?_, ?_⟩ <;> rw [hin, update_of_ne hj]
    · exact hb.size
    · rw [hview]
      exact hb.bytes

/-- `copyFile` appends everything that is read. -/
theorem copyFile_run (hi : i < mkfsSb.ninodes) : ∀ (cs : List (List UInt8)) {m : Image},
    m.Inv → (m.inode i).type ≠ .free → (∀ c ∈ cs, 0 < c.length) →
    (m.inode i).size + cs.flatten.length ≤ maxfile * bsize →
    m.freeblock + (blocksOf ((m.inode i).size + cs.flatten.length) - blocksOf (m.inode i).size) ≤
      mkfsSb.size →
    ∃ m', copyFile i cs m = .ok ((), m') ∧ Grown i cs.flatten m m' := by
  intro cs
  induction cs with
  | nil => exact fun h _ _ _ _ => ⟨_, rfl, .refl h i⟩
  | cons c cs ih =>
    intro m h ht hpos hmax hroom
    rw [List.flatten_cons, List.length_append, ← Nat.add_assoc] at hmax hroom
    rw [List.flatten_cons]
    have h1 := blocksOf_mono (Nat.le_add_right (m.inode i).size c.length)
    have h2 := blocksOf_mono (Nat.le_add_right ((m.inode i).size + c.length) cs.flatten.length)
    obtain ⟨m₁, hr, hg⟩ := iappend_grown (p := c) h hi ht (by omega) (by omega)
    have hs := hg.size
    have hf := hg.freeblock
    obtain ⟨m₂, hr', hg'⟩ := ih hg.inv (by rwa [hg.type.1]) (fun c hc => hpos c (.tail _ hc))
      (by rw [hs]; omega) (by rw [hs]; omega)
    refine ⟨m₂, ?_, hg.trans hg'⟩
    unfold copyFile
    rw [if_pos (hpos c (.head _)), Run.bind_of_ok hr, hr']

end Grown

/-! ## `main` -/

/-- The files fit: the asserts hold, there are inodes for them, and blocks for them and for the
root directory. -/
structure Fit (files : List InFile) : Prop where
  names : ∀ f ∈ files, slash ∉ shortname f.arg
  sizes : ∀ f ∈ files, f.content.length ≤ maxfile * bsize
  inodes : files.length + 1 ≤ mkfsSb.ninodes - 1
  blocks : blocksOf (direntSize * (files.length + 2)) +
    (files.map fun f => blocksOf f.content.length).sum ≤ mkfsSb.nblocks

section Main

variable {m : Image}

theorem direntBytes_length (inum : ℕ) (name : List UInt8) :
    (direntBytes inum name).length = direntSize := by
  simp [direntBytes]

/-- The entries of the root directory. -/
def dirents (fs : List InFile) : List (List UInt8) :=
  [direntBytes rootino dot, direntBytes rootino dotdot] ++
    fs.mapIdx fun k f => direntBytes (k + 2) (skipUnderscore (shortname f.arg))

theorem dirents_concat (fs : List InFile) (f : InFile) : (dirents (fs ++ [f])).flatten =
    (dirents fs).flatten ++ direntBytes (fs.length + 2) (skipUnderscore (shortname f.arg)) := by
  simp [dirents, List.mapIdx_append]

theorem length_of_mem_dirents {fs : List InFile} {l : List UInt8} (h : l ∈ dirents fs) :
    l.length = direntSize := by
  simp only [dirents, List.cons_append, List.nil_append, List.mem_cons, List.mem_mapIdx] at h
  obtain rfl | rfl | ⟨_, _, rfl⟩ := h <;> exact direntBytes_length _ _

theorem dirents_length (fs : List InFile) : (dirents fs).length = fs.length + 2 := by
  simp [dirents]

theorem dirents_file {fs : List InFile} {k : ℕ} {f : InFile} (h : fs[k]? = some f) :
    (dirents fs)[k + 2]? = some (direntBytes (k + 2) (skipUnderscore (shortname f.arg))) := by
  simp [dirents, h]

/-- The image holds the files: file `k` in inode `k + 2`, and its entry in the root directory. -/
structure Image.Holds (m : Image) (fs : List InFile) : Prop extends m.Inv where
  next : m.freeinode = fs.length + 2
  few : m.freeinode ≤ mkfsSb.ninodes
  fit : m.freeblock ≤ mkfsSb.size
  unused : (m.inode 0).type = .free
  root : (m.inode rootino).type = .dir ∧ (m.inode rootino).nlink = 1
  dir : m.Has rootino (dirents fs).flatten
  file : ∀ (k : ℕ) (f : InFile), fs[k]? = some f → ((m.inode (k + 2)).type = .file ∧
    (m.inode (k + 2)).nlink = 1) ∧ m.Has (k + 2) f.content

theorem Image.Holds.size {fs : List InFile} (h : m.Holds fs) :
    (m.inode rootino).size = direntSize * m.freeinode := by
  rw [h.dir.size, Lib.length_flatten fun _ => length_of_mem_dirents, dirents_length, h.next]

theorem Image.Holds.size_le {fs : List InFile} (h : m.Holds fs) : (m.inode rootino).size ≤ 3200 := by
  rw [h.size]
  exact Nat.mul_le_mul_left direntSize h.few

/-- One file: its inode, its entry, its contents. -/
theorem addFile_run {gs : List InFile} {f : InFile} (h : m.Holds gs) (hin : m.freeinode < mkfsSb.ninodes)
    (hsz : f.content.length ≤ maxfile * bsize)
    (hroom : m.freeblock + (blocksOf (direntSize * (m.freeinode + 1)) - blocksOf (direntSize * m.freeinode)) +
      blocksOf f.content.length ≤ mkfsSb.size) :
    ∃ m₁ m₂ m₃, ialloc .file m = .ok (m.freeinode, m₁) ∧
      iappend rootino (direntBytes m.freeinode (skipUnderscore (shortname f.arg))) m₁ = .ok ((), m₂) ∧
      copyFile m.freeinode f.reads m₂ = .ok ((), m₃) ∧ m₃.Holds (gs ++ [f]) ∧
      m₃.freeinode = m.freeinode + 1 ∧ m₃.freeblock = m.freeblock + (blocksOf (direntSize *
        (m.freeinode + 1)) - blocksOf (direntSize * m.freeinode)) + blocksOf f.content.length := by
  have hroot : rootino < mkfsSb.ninodes := by decide
  have hmax : direntSize * mkfsSb.ninodes ≤ maxfile * bsize := by decide
  have hr1 : rootino = 1 := rfl
  have hfi := h.next
  have hdir := Nat.mul_le_mul_left direntSize (show m.freeinode + 1 ≤ _ from hin)
  -- the inode of the file
  obtain ⟨m₁, hr₁, hinv₁, hfi₁, hfb₁, hino₁, hnew₁, hkeep₁⟩ := ialloc_run h.toInv hin .file
  have hroot₁ : m₁.inode rootino = m.inode rootino := by
    rw [hino₁, update_of_ne (by omega)]
  -- its entry
  have hnext : (m₁.inode rootino).size + (direntBytes m.freeinode
      (skipUnderscore (shortname f.arg))).length = direntSize * (m.freeinode + 1) := by
    rw [hroot₁, h.size, direntBytes_length, Nat.mul_succ]
  obtain ⟨m₂, hr₂, hg₂⟩ := iappend_grown (p := direntBytes m.freeinode
    (skipUnderscore (shortname f.arg))) hinv₁ hroot (by rw [hroot₁, h.root.1]; nofun)
    (by rw [hnext]; omega) (by rw [hnext, hroot₁, h.size]; omega)
  have hfb₂ := hg₂.freeblock
  rw [hnext, hroot₁, h.size] at hfb₂
  have hfile₂ : m₂.inode m.freeinode = { Dinode.zero with type := .file, nlink := 1 } := by
    rw [hg₂.other _ hin (by omega), hino₁, update_self]
  -- its contents
  have hz : (m₂.inode m.freeinode).size = 0 := by rw [hfile₂]; rfl
  have h0 : blocksOf 0 = 0 := by decide
  obtain ⟨m₃, hr₃, hg₃⟩ := copyFile_run hin f.reads hg₂.inv (by rw [hfile₂]; nofun)
    f.read_pos (by rw [hz, Nat.zero_add]; exact hsz)
    (by rw [hz, Nat.zero_add, h0]; unfold InFile.content at hroom; omega)
  have hfb₃ : m₃.freeblock = m₂.freeblock + blocksOf f.content.length := by
    rw [hg₃.freeblock, hz, Nat.zero_add, h0]
    rfl
  have hother : ∀ j < m.freeinode, j ≠ rootino → m₃.inode j = m.inode j := fun j hj hjr => by
    rw [hg₃.other j (by omega) (by omega), hg₂.other j (by omega) hjr, hino₁,
      update_of_ne (by omega)]
  have hroot₃ : m₃.inode rootino = m₂.inode rootino := hg₃.other _ hroot (by omega)
  have hfi₃ : m₃.freeinode = m.freeinode + 1 := by rw [hg₃.freeinode, hg₂.freeinode, hfi₁]
  refine ⟨m₁, m₂, m₃, hr₁, hr₂, hr₃, ⟨hg₃.inv, ?_, hfi₃ ▸ hin, by omega, ?_, ?_, ?_, fun k f' hk => ?_⟩,
    hfi₃, by omega⟩
  · rw [hfi₃, hfi, List.length_append]
    rfl
  · rw [hother 0 (by omega) (by decide), h.unused]
  · rw [hroot₃, hg₂.type.1, hg₂.type.2, hroot₁]
    exact h.root
  · rw [dirents_concat, ← hfi]
    exact hg₃.kept hroot (by omega) (by rw [hg₂.type.1, hroot₁, h.root.1]; nofun)
      (hg₂.has (hkeep₁ (by omega) h.dir))
  · rcases Nat.lt_or_ge k gs.length with hlt | hge
    · rw [List.getElem?_append_left hlt] at hk
      obtain ⟨hf, hhas⟩ := h.file k f' hk
      have hf' : (m₂.inode (k + 2)).type ≠ .free := by
        rw [← hg₃.other _ (by omega) (by omega), hother _ (by omega) (by omega), hf.1]
        nofun
      rw [hother _ (by omega) (by omega)]
      exact ⟨hf, hg₃.kept (by omega) (by omega) hf'
        (hg₂.kept (by omega) (by omega) (by rwa [← hg₂.other _ (by omega) (by omega)])
          (hkeep₁ (by omega) hhas))⟩
    · rw [List.getElem?_append_right hge, List.getElem?_singleton] at hk
      split_ifs at hk with hk0
      obtain rfl := Option.some.inj hk
      obtain rfl : k = gs.length := by omega
      rw [← hfi, hg₃.type.1, hg₃.type.2, hfile₂]
      exact ⟨⟨rfl, rfl⟩, hg₃.has (hg₂.kept hin (by omega)
        (by rw [hino₁, update_self]; nofun) hnew₁)⟩

/-- The loop over the files. -/
theorem addFiles_run : ∀ {fs gs : List InFile} {m : Image}, m.Holds gs →
    (∀ f ∈ fs, slash ∉ shortname f.arg) → (∀ f ∈ fs, f.content.length ≤ maxfile * bsize) →
    m.freeinode + fs.length ≤ mkfsSb.ninodes →
    m.freeblock + (blocksOf (direntSize * (m.freeinode + fs.length)) -
      blocksOf (direntSize * m.freeinode)) +
      (fs.map fun f => blocksOf f.content.length).sum ≤ mkfsSb.size →
    ∃ m', addFiles rootino fs m = .ok ((), m') ∧ m'.Holds (gs ++ fs) := by
  intro fs
  induction fs with
  | nil => exact fun h _ _ _ _ => ⟨_, rfl, by rwa [List.append_nil]⟩
  | cons f fs ih =>
    intro gs m h hnames hsizes hin hroom
    rw [List.map_cons, List.sum_cons] at hroom
    rw [List.length_cons, Nat.add_comm fs.length, ← Nat.add_assoc m.freeinode] at hin hroom
    have h1 := blocksOf_mono (Nat.mul_le_mul_left direntSize (Nat.le_add_right m.freeinode 1))
    have h2 := blocksOf_mono (Nat.mul_le_mul_left direntSize (Nat.le_add_right (m.freeinode + 1) fs.length))
    obtain ⟨m₁, m₂, m₃, hr₁, hr₂, hr₃, hgs, hfi, hfb⟩ := addFile_run h (by omega) (hsizes f (.head _)) (by omega)
    obtain ⟨m', hr', hh'⟩ := ih hgs (fun g hg => hnames g (.tail _ hg))
      (fun g hg => hsizes g (.tail _ hg)) (by rwa [hfi]) (by rw [hfi, hfb]; omega)
    refine ⟨m', ?_, by rwa [List.append_assoc] at hh'⟩
    unfold addFiles
    dsimp only
    rw [if_neg (hnames f (.head _)), Run.bind_of_ok hr₁, Run.bind_of_ok hr₂, Run.bind_of_ok hr₃, hr']

/-- Clearing a clear image only makes it longer. -/
theorem clearSects_run : ∀ (is : List ℕ) {m : Image}, (∀ b, m.img b = zeroes) →
    ∃ k, clearSects is m = .ok ((), { m with sects := k }) ∧ m.sects ≤ k ∧ (∀ i ∈ is, i < k) ∧
      ∀ b, m.sects ≤ b → (∀ i ∈ is, i < b) → k ≤ b := by
  intro is
  induction is with
  | nil => exact fun _ => ⟨_, rfl, le_rfl, nofun, fun b hb _ => hb⟩
  | cons i is ih =>
    intro m hz
    obtain ⟨k, hr, h1, h2, h3⟩ := ih (m := { m with sects := max m.sects (i + 1) }) hz
    have himg : update m.img i zeroes = m.img := by
      rw [update_eq_self_iff, hz]
    have h1 : max m.sects (i + 1) ≤ k := h1
    refine ⟨k, ?_, by omega, ?_, fun b hb hi => h3 b ?_ fun j hj => hi j (.tail _ hj)⟩
    · unfold clearSects wsect
      rw [Run.modify_bind, himg]
      exact hr
    · rintro j (_ | ⟨_, hj⟩)
      · omega
      · exact h2 j hj
    · have := hi i (.head _)
      exact Nat.max_le.2 ⟨hb, this⟩

/-- The image before the first `ialloc`. -/
def blank : Image :=
  Image.store ⟨fun _ => zeroes, mkfsSb.size, 1, mkfsSb.datastart⟩ 1 sbSect

theorem blank_inode {j : ℕ} : blank.inode j = .zero := by
  have h1 : mkfsSb.iblock j ≠ 1 := by
    have h2 : mkfsSb.inodestart ≤ mkfsSb.iblock j := Nat.le_add_left _ _
    have h3 : mkfsSb.inodestart = 32 := rfl
    omega
  have hw : ∀ w, Bytes.word zeroes w = 0 := Bytes.word_zero
  simp only [Image.inode, blank, Image.store, update_of_ne h1]
  apply Dinode.ext <;> simp only [dinodeAt, hw]
  · rfl
  · rfl
  · rfl
  · rfl
  · rfl
  · funext k
    exact ite_self _

theorem blank_inv : blank.Inv := by
  have hz : ∀ j, (blank.view.dinode j).type = .free := by
    intro j
    simp only [Image.view]
    split_ifs
    · rw [blank_inode]
      rfl
    · rfl
  have ht : ∀ {j : ℕ} {P : Prop}, (blank.view.dinode j).type ≠ .free → P := fun h => absurd (hz _) h
  refine ⟨⟨rfl, le_rfl, fun b hb => update_of_ne ?_ _ _⟩, ⟨by decide, by decide,
    ⟨fun b hb => decide_eq_true hb, fun _ _ h => ht h, fun _ _ h => ht h, fun b hb _ hu => ?_⟩,
    fun _ _ h => ht h, fun _ hl => absurd hl.1 (Nat.lt_irrefl 0)⟩, fun j _ h => ?_, fun j _ _ => ?_⟩
  · have : mkfsSb.datastart ≤ b := hb
    have : mkfsSb.datastart = 46 := rfl
    omega
  · exact absurd hb (Nat.not_le.2 (of_decide_eq_true hu))
  · exact absurd (congrArg Dinode.type blank_inode) h
  · exact congrArg Dinode.type blank_inode

/-- The root directory with its size rounded. -/
def Image.rounded (m : Image) : Dinode :=
  { m.inode rootino with size := ((m.inode rootino).size / bsize + 1) * bsize }

/-- What `main` does in the end: the rounded size of the root directory and the free map. -/
def Image.finish (m : Image) : Image :=
  (m.put rootino m.rounded).store mkfsSb.bmapstart ((List.range m.freeblock).foldl setBit zeroes)

/-- **`main` up to the rounding**: it succeeds if the files fit. -/
theorem main_run {files : List InFile} (h : Fit files) :
    ∃ m : Image, m.Holds files ∧ main files start = .ok ((), m.finish) := by
  have hroot : rootino < mkfsSb.ninodes := by decide
  have hmeta : mkfsSb.nblocks + mkfsSb.datastart = mkfsSb.size := by decide
  have hblocks := h.blocks
  have hn : files.length + 1 ≤ 199 := h.inodes
  have hb2 : blocksOf (direntSize * 2) ≤ blocksOf (direntSize * (files.length + 2)) :=
    blocksOf_mono (Nat.mul_le_mul_left _ (Nat.le_add_left 2 _))
  have hb0 : blocksOf 0 = 0 := by decide
  have hb1 : blocksOf direntSize = 1 := by decide
  have hb2' : blocksOf (direntSize * 2) = 1 := by decide
  -- the image is cleared and gets its super block
  have hstart : (clearSects (List.range mkfsSb.size) >>= fun _ => wsect 1 sbSect) start =
      .ok ((), blank) := by
    obtain ⟨k, hr, -, h2, h3⟩ := clearSects_run (List.range mkfsSb.size) (m := start) fun _ => rfl
    have hk : k = mkfsSb.size := by
      refine le_antisymm (h3 _ (Nat.zero_le _) fun i hi => List.mem_range.1 hi) ?_
      have := h2 (mkfsSb.size - 1) (List.mem_range.2 (by decide))
      omega
    subst hk
    rw [Run.bind_of_ok hr, wsect_run (by decide)]
    rfl
  obtain ⟨m₁, hr₁, hinv₁, hfi₁, hfb₁, hino₁, hnew₁, -⟩ := ialloc_run blank_inv (by decide) .dir
  have hr₁ : ialloc .dir blank = .ok (rootino, m₁) := hr₁
  have hroot₁ : m₁.inode rootino = { Dinode.zero with type := .dir, nlink := 1 } := by
    rw [hino₁]
    exact update_self _ _ _
  have hfb₁ : m₁.freeblock = mkfsSb.datastart := hfb₁
  have hs₁ : (m₁.inode rootino).size = 0 := by rw [hroot₁]; rfl
  have hlen := direntBytes_length rootino
  obtain ⟨m₂, hr₂, hg₂⟩ := iappend_grown (p := direntBytes rootino dot) hinv₁ hroot
    (by rw [hroot₁]; nofun) (by rw [hs₁, hlen]; decide)
    (by rw [hs₁, hlen, Nat.zero_add, hb0, hb1]; omega)
  have hs₂ := hg₂.size
  have hf₂ := hg₂.freeblock
  rw [hs₁, hlen, Nat.zero_add] at hs₂ hf₂
  obtain ⟨m₃, hr₃, hg₃⟩ := iappend_grown (p := direntBytes rootino dotdot) hg₂.inv hroot
    (by rw [hg₂.type.1, hroot₁]; nofun) (by rw [hs₂, hlen]; decide)
    (by rw [hs₂, hlen, ← Nat.mul_two, hb1, hb2']; omega)
  have hf₃ := hg₃.freeblock
  rw [hs₂, hlen, ← Nat.mul_two] at hf₃
  have hfi₃ : m₃.freeinode = 2 := by rw [hg₃.freeinode, hg₂.freeinode, hfi₁]; rfl
  have hnone : m₃.Holds [] := by
    refine ⟨hg₃.inv, hfi₃, hfi₃ ▸ (by decide), by omega, ?_, ?_, ?_, fun k f hk => by simp at hk⟩
    · rw [hg₃.other 0 (by decide) (by decide), hg₂.other 0 (by decide) (by decide), hino₁]
      exact congrArg Dinode.type blank_inode
    · rw [hg₃.type.1, hg₃.type.2, hg₂.type.1, hg₂.type.2, hroot₁]
      exact ⟨rfl, rfl⟩
    · simpa [dirents] using hg₃.has (hg₂.has hnew₁)
  obtain ⟨m, hr, hm⟩ := addFiles_run hnone h.names h.sizes
    (by rw [hfi₃]; show 2 + files.length ≤ 200; omega) (by rw [hfi₃, Nat.add_comm 2]; omega)
  have hinv := hm.toInv
  refine ⟨m, hm, ?_⟩
  unfold main
  rw [← bind_assoc, Run.bind_of_ok hstart, Run.bind_of_ok hr₁, if_pos rfl, Run.bind_of_ok hr₂,
    Run.bind_of_ok hr₃, Run.bind_of_ok hr]
  have hfix : fixSize rootino m = .ok ((), m.put rootino m.rounded) := by
    unfold fixSize
    rw [Run.bind_of_ok (rinode_run hinv.roomy.sects hroot)]
    exact winode_run hinv.roomy.sects hroot _
  have hused : m.freeblock < bsize * 8 := lt_of_le_of_lt hm.fit (by decide)
  have hsect : mkfsSb.bmapstart < m.sects := by
    rw [hinv.roomy.sects]
    decide
  rw [Run.bind_of_ok hfix, Run.get_bind, balloc]
  exact (congrFun (if_pos hused) _).trans
    (wsect_run (show mkfsSb.bmapstart < (m.put rootino _).sects from hsect) _)

end Main

/-! ## Holes -/

/-- Every inode in use has an address, as `bmap` finds it, for each block below its size. -/
def Image.Filled (m : Image) : Prop :=
  ∀ i < mkfsSb.ninodes, (m.inode i).type ≠ .free → ∀ bn < ((m.inode i).size + (bsize - 1)) / bsize,
    (m.inode i).slot m.img (fileSlot bn) ≠ 0

section Holes

variable {m : Image}

/-- The free map is neither an inode nor data. -/
theorem store_bmap_view (buf : Block) : (m.store mkfsSb.bmapstart buf).view = m.view := by
  have hdn : (m.store mkfsSb.bmapstart buf).view.dinode = m.view.dinode := by
    funext i
    simp only [Image.view]
    split_ifs with hi
    · have h1 : mkfsSb.iblock i < mkfsSb.bmapstart := by
        have h2 : mkfsSb.ninodes = 200 := rfl
        have h3 : mkfsSb.inodestart = 32 := rfl
        have h4 : mkfsSb.bmapstart = 45 := rfl
        have h5 : ipb = 16 := rfl
        rw [Superblock.iblock, h3, h4, h5]
        omega
      simp only [Image.inode, Image.store, update_of_ne (Nat.ne_of_lt h1)]
    · rfl
  have hdata : (m.store mkfsSb.bmapstart buf).view.data = m.view.data := by
    funext b
    simp only [Image.view]
    split_ifs with hb
    · rfl
    · have h1 : mkfsSb.bmapstart < mkfsSb.datastart := by decide
      exact update_of_ne (by omega) _ _
  calc (m.store mkfsSb.bmapstart buf).view
      = { m.view with
          dinode := (m.store mkfsSb.bmapstart buf).view.dinode
          data := (m.store mkfsSb.bmapstart buf).view.data } := rfl
    _ = m.view := by rw [hdn, hdata]

/-- The indirect blocks of a well-formed image are data blocks. -/
theorem slot_img (h : m.view.Wf) {i : ℕ} (hi : i < mkfsSb.ninodes) (ht : (m.inode i).type ≠ .free)
    (σ : ℕ) : (m.inode i).slot m.img σ = (m.inode i).slot m.view.data σ := by
  refine slot_congr (fun _ _ => rfl) (fun hne => ?_) σ
  have hown := h.good.owned i hi (by rwa [Image.view_dinode hi]) ndirect
  rw [Image.view_dinode hi, slot_ndirect] at hown
  exact (if_neg (Nat.not_lt.2 (hown hne).1)).symm

variable {files : List InFile} (h : m.Holds files)

include h

/-- A root directory of few entries has its blocks in `addrs[]`. -/
theorem root_addrs {bn : ℕ} (hbn : bn ≤ (m.inode rootino).size / bsize) :
    bn < ndirect ∧ ((m.inode rootino).addrs bn ≠ 0 ↔ bn * bsize < (m.inode rootino).size) := by
  have hlt : bn < ndirect := by
    have hs := h.size_le
    rw [show bsize = 1024 from rfl] at hbn
    rw [show ndirect = 12 from rfl]
    omega
  have hle : bn ≤ maxfile := by
    have : ndirect ≤ maxfile := by decide
    omega
  refine ⟨hlt, ?_⟩
  have he := h.exact rootino (by decide) (by rw [h.root.1]; nofun) bn hle
  rwa [slot_of_le (Nat.le_of_lt hlt), slotOff, if_pos (Nat.le_of_lt hlt)] at he

theorem finish_view : m.finish.view =
    { m.view with dinode := update m.view.dinode rootino m.rounded } := by
  refine (store_bmap_view _).trans (Image.put_view (by decide) ?_)
  obtain ⟨-, h2, h3⟩ := dinodeAt_fits (m.img (mkfsSb.iblock rootino)) (rootino % ipb)
  refine ⟨?_, h2, h3⟩
  show ((m.inode rootino).size / bsize + 1) * bsize < 2 ^ 32
  have hs := h.size_le
  rw [show bsize = 1024 from rfl]
  omega

theorem finish_root : m.finish.inode rootino = m.rounded := by
  have hroot : rootino < mkfsSb.ninodes := by decide
  rw [← Image.view_dinode hroot, finish_view h]
  exact update_self rootino m.rounded m.view.dinode

theorem finish_type : m.rounded.type ≠ .free :=
  fun hf => by cases h.root.1.symm.trans hf

/-- The block that the rounding adds to a full directory is not there. -/
theorem finish_hole (hmod : (m.inode rootino).size % bsize = 0) : ¬ m.finish.Filled := by
  intro hfill
  obtain ⟨hlt, haddr⟩ := root_addrs h le_rfl
  have hne := hfill rootino (by decide) (by rw [finish_root h]; exact finish_type h)
    ((m.inode rootino).size / bsize) (by
      rw [finish_root h]
      show _ < (((m.inode rootino).size / bsize + 1) * bsize + (bsize - 1)) / bsize
      rw [show bsize = 1024 from rfl]
      omega)
  rw [finish_root h, fileSlot, if_pos hlt, slot_of_le (Nat.le_of_lt hlt)] at hne
  have := haddr.1 hne
  rw [show bsize = 1024 from rfl] at this hmod
  omega

/-- Otherwise the directory is as long as its blocks. -/
theorem finish_wf (hmod : (m.inode rootino).size % bsize ≠ 0) : m.finish.view.Wf := by
  have hroot : m.view.dinode rootino = m.inode rootino := Image.view_dinode (by decide)
  rw [finish_view h]
  refine ⟨h.wf.pos, h.wf.size_lt, h.wf.good.congr (fun j => ?_) fun j _ _ σ => ?_, ?_,
    fun _ hl => absurd hl.1 (Nat.lt_irrefl 0)⟩
  · dsimp only
    rw [update_apply]
    split_ifs with hj
    · rw [hj, hroot]
      rfl
    · rfl
  · dsimp only
    rw [update_apply]
    split_ifs with hj
    · rw [hj, hroot]
      exact slot_congr (fun _ _ => rfl) (fun _ => rfl) σ
    · rfl
  · intro j hj htj
    dsimp only at htj ⊢
    rw [update_apply] at htj ⊢
    split_ifs at htj ⊢ with hjr
    · have hb : bsize = 1024 := rfl
      have hsz : m.rounded.size = ((m.inode rootino).size / bsize + 1) * bsize := rfl
      rw [hsz]
      refine ⟨?_, fun bn hbn => ?_⟩
      · have hs := h.size_le
        have h2 : maxfile * bsize = 274432 := by decide
        rw [h2, hb]
        omega
      · have hle : bn ≤ (m.inode rootino).size / bsize := by
          rw [hb] at hbn ⊢
          omega
        obtain ⟨hlt, haddr⟩ := root_addrs h hle
        rw [fileSlot, if_pos hlt, slot_of_le (Nat.le_of_lt hlt)]
        refine haddr.2 ?_
        rw [hb] at hle hmod ⊢
        omega
    · exact h.wf.noHoles j hj htj

theorem Image.Holds.size_mod : (m.inode rootino).size % bsize ≠ 0 ↔ (files.length + 2) % 64 ≠ 0 := by
  rw [h.size, h.next, show bsize = direntSize * 64 from rfl, Nat.mul_mod_mul_left]
  exact not_congr (Nat.mul_eq_zero.trans (or_iff_right (by decide)))

omit h

/-- **The images of `mkfs` have no holes**, and the kernel reads the root directory without
allocating, exactly if the number of directory entries is not a multiple of 64. -/
theorem mkfs_no_holes {files : List InFile} (h : Fit files) :
    ∃ m, main files start = .ok ((), m) ∧
      ((m.Filled ∧ ∀ dst off n, n < 2 ^ 32 →
          ∃ r, readi rootino dst off n (m.work rootino (m.inode rootino) []) =
            .ok (r, m.work rootino (m.inode rootino) [])) ↔ (files.length + 2) % 64 ≠ 0) := by
  obtain ⟨m, hm, hr⟩ := main_run h
  have hmod := hm.size_mod
  refine ⟨m.finish, hr, fun hfill => hmod.1 fun h0 => finish_hole hm h0 hfill.1, fun h64 => ?_⟩
  have hwf := finish_wf hm (hmod.2 h64)
  refine ⟨fun i hi hti bn hbn => ?_, fun dst off n hlt => ?_⟩
  · rw [slot_img hwf hi hti]
    have hno := (hwf.noHoles i hi (by rwa [Image.view_dinode hi])).2 bn
    rw [Image.view_dinode hi] at hno
    refine hno ?_
    rw [show bsize = 1024 from rfl] at hbn ⊢
    omega
  · refine readi_still (Image.work_wfAt hwf (by decide) ?_) dst off hlt
    rw [finish_root hm]
    exact finish_type hm

/-- `README`, and the program `user/_cat` of more than one block. -/
def someFiles : List InFile :=
  [⟨[82, 69, 65, 68, 77, 69], [[120, 118, 54]], by decide, by decide⟩,
    ⟨userDir ++ [95, 99, 97, 116], [List.replicate bsize 1, [2]], by decide +kernel,
      by decide +kernel⟩]

theorem someFiles_fit : Fit someFiles :=
  ⟨by decide, by decide +kernel, by decide, by decide +kernel⟩

/-- With two files the image has no hole. -/
theorem mkfs_no_holes_some : ∃ m, main someFiles start = .ok ((), m) ∧ m.Filled := by
  obtain ⟨m, hr, h⟩ := mkfs_no_holes someFiles_fit
  exact ⟨m, hr, (h.2 (by decide)).1⟩

/-- `n` empty files with the names `a0`, `a1`, and so on. -/
def emptyFiles (n : ℕ) : List InFile :=
  (List.range n).map fun k => ⟨[97, UInt8.ofNat (48 + k)], [], nofun, nofun⟩

theorem emptyFiles_fit : Fit (emptyFiles 62) :=
  ⟨by decide +kernel, by decide +kernel, by decide +kernel, by decide +kernel⟩

/-- With 62 files the root directory has a hole. -/
theorem mkfs_hole : ∃ files, Fit files ∧ ∃ m, main files start = .ok ((), m) ∧ ¬ m.Filled := by
  obtain ⟨m, hm, hr⟩ := main_run emptyFiles_fit
  have h0 : (m.inode rootino).size % bsize = 0 := by
    by_contra hne
    exact hm.size_mod.1 hne (by simp [emptyFiles])
  exact ⟨_, emptyFiles_fit, _, hr, finish_hole hm h0⟩

end Holes

end Xv6.Mkfs
