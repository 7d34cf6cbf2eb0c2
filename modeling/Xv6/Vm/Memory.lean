import Xv6.Fs.Disk

/-!
# Physical memory and its allocator

`kernel/kalloc.c` over the physical memory of the machine. Memory is an array of pages, indexed
by frame number; a physical address is a frame number times `PGSIZE` plus an offset. The free list
is the one of the source: `kmem.freelist` points to the first free page and the first word of each
free page to the next.

* `Free m L`: the free list of `m` is `L`, a list of distinct frames that `kfree` accepts.
* `kalloc_cons`, `kfree_spec`: one step of the allocator.
* `kinit_spec`: what `kinit` leaves on the list.
* `availmemory_held`: over runs of its clients, `availmemory` counts the pages they do not hold.
-/

namespace Xv6.Vm

open Function Lib

/-- `PGSIZE`. -/
def pgsize : ℕ := 4096

/-- `PHYSTOP`: the end of physical memory, `KERNBASE` plus 128 MB. -/
def kernbase : ℕ := 0x80000000
@[inherit_doc kernbase] def phystop : ℕ := kernbase + 128 * 1024 * 1024

/-- `PGROUNDDOWN` and `PGROUNDUP`, in 64-bit arithmetic. -/
def pgrounddown (a : ℕ) : ℕ := a / pgsize * pgsize
@[inherit_doc pgrounddown] def pgroundup (sz : ℕ) : ℕ := pgrounddown ((sz + pgsize - 1) % 2 ^ 64)

/-- A page of memory. -/
abbrev Page := Bytes pgsize

/-- Physical memory and `kmem`. -/
structure Mem where
  /-- The contents of the frames. -/
  page : ℕ → Page
  /-- `kmem.freelist`, null when it is `0`. -/
  freelist : ℕ
  /-- `end`: the first address after the kernel, which the linker sets. -/
  kend : ℕ
  kend_ge : kernbase ≤ kend

/-- A computation over memory. -/
abbrev VM := StateT Mem (Except Fs.Stop)

namespace Mem

/-- Overwrite frame `f`. -/
def setPage (m : Mem) (f : ℕ) (b : Page) : Mem := { m with page := update m.page f b }

/-- The `i`-th 64-bit word of frame `f`. -/
def word (m : Mem) (f i : ℕ) : ℕ := (m.page f).dword i

/-- Store a 64-bit word. -/
def setWord (m : Mem) (f i v : ℕ) : Mem := m.setPage f ((m.page f).setDword i v)

/-- The frames that `kfree` accepts: those between `end` and `PHYSTOP`. -/
def Usable (m : Mem) (f : ℕ) : Prop := m.kend ≤ f * pgsize ∧ f * pgsize < phystop

end Mem

/-- `memset` of the page at address `pa`. -/
def memset (pa : ℕ) (c : UInt8) : VM Unit := modify fun m => m.setPage (pa / pgsize) fun _ => c

/-- `kfree`. -/
def kfree (pa : ℕ) : VM Unit := do
  let m ← get
  if pa % pgsize ≠ 0 ∨ pa < m.kend ∨ phystop ≤ pa then throw (.panic "kfree")
  else do
    -- fill with junk, then `r->next = kmem.freelist; kmem.freelist = r`
    memset pa 1
    modify fun m => { m.setWord (pa / pgsize) 0 m.freelist with freelist := pa }

/-- `kalloc`: a page, or nothing when there is none. -/
def kalloc : VM (Option ℕ) := do
  let m ← get
  if m.freelist = 0 then return none
  else do
    modify fun m => { m with freelist := m.word (m.freelist / pgsize) 0 }
    memset m.freelist 5
    return some m.freelist

/-- The loop of `freerange` over `n` pages from `p`. -/
def freepages : ℕ → ℕ → VM Unit
  | 0, _ => return ()
  | n + 1, p => do
    kfree p
    freepages n (p + pgsize)

/-- `freerange`: free the whole pages between two addresses. -/
def freerange (paStart paEnd : ℕ) : VM Unit :=
  freepages ((paEnd - pgroundup paStart) / pgsize) (pgroundup paStart)

/-- `kinit`. -/
def kinit : VM Unit := do
  let m ← get
  freerange m.kend phystop

/-- The loop of `availmemory` at most `fuel` times round; nothing if it has not ended by then. -/
def availLoop (m : Mem) : ℕ → ℕ → ℕ → Option ℕ
  | 0, _, _ => none
  | fuel + 1, r, availmem =>
    if r = 0 then some availmem
    else availLoop m fuel (m.word (r / pgsize) 0) ((availmem + pgsize) % 2 ^ 64)

/-- `availmemory`. -/
def availmemory (m : Mem) (fuel : ℕ) : Option ℕ := availLoop m fuel m.freelist 0

/-- Runs of the allocator from `kinit` on. Its clients hold the frames `U`, write to them and
free no others. -/
inductive Client (m₀ : Mem) : Mem → List ℕ → Prop
  | start {m} : m₀.freelist = 0 → m₀.kend ≤ phystop → kinit m₀ = .ok ((), m) → Client m₀ m []
  | alloc {m m' U pa} : Client m₀ m U → kalloc m = .ok (some pa, m') →
    Client m₀ m' (pa / pgsize :: U)
  | free {m m' U f} : Client m₀ m U → f ∈ U → kfree (f * pgsize) m = .ok ((), m') →
    Client m₀ m' (U.erase f)
  | store {m U f} (b) : Client m₀ m U → f ∈ U → Client m₀ (m.setPage f b) U

/-! ## Reading after a write -/

namespace Mem

variable (m : Mem)

@[simp] theorem setPage_page (f : ℕ) (b : Page) : (m.setPage f b).page f = b :=
  update_self _ _ _

variable {f : ℕ}

theorem setPage_page_ne {g : ℕ} (b : Page) (h : g ≠ f) : (m.setPage f b).page g = m.page g :=
  update_of_ne h _ _

theorem setWord_page_ne {g : ℕ} (i v : ℕ) (h : g ≠ f) : (m.setWord f i v).page g = m.page g :=
  m.setPage_page_ne _ h

/-- A word after a store, at an index inside the page. -/
theorem word_setWord (f g : ℕ) {i v : ℕ} (j : ℕ) (hi : i < 512) (hv : v < 2 ^ 64) :
    (m.setWord f i v).word g j = if g = f ∧ j = i then v else m.word g j := by
  unfold word setWord
  by_cases hg : g = f
  · subst hg
    rw [setPage_page]
    by_cases hj : j = i
    · subst hj
      rw [if_pos ⟨rfl, rfl⟩, Bytes.dword_setDword _ (by simp only [pgsize]; omega),
        Nat.mod_eq_of_lt hv]
    · rw [if_neg (fun h => hj h.2), Bytes.dword_setDword_ne _ _ (Ne.symm hj)]
  · rw [setPage_page_ne _ _ hg, if_neg (fun h => hg h.1)]

variable {m}

theorem Usable.pos (h : m.Usable f) : 0 < f := by
  have h1 := h.1
  have h2 := m.kend_ge
  unfold pgsize at h1
  unfold kernbase at h2
  omega

/-- A usable frame is below `2 ^ 20`, so its address fits in a word and its number in a PTE. -/
theorem Usable.lt (h : m.Usable f) : f < 2 ^ 20 := by
  have := h.2
  unfold phystop kernbase pgsize at this
  omega

theorem Usable.addr_lt (h : m.Usable f) : f * pgsize < 2 ^ 64 := by
  have := h.lt
  simp only [pgsize]
  omega

end Mem

theorem addr_div (f : ℕ) : f * pgsize / pgsize = f := Nat.mul_div_cancel f (by decide)

/-! ## The free list -/

/-- The pages from address `a` on, linked by their first words, are those of the list. -/
def Chain (m : Mem) : ℕ → List ℕ → Prop
  | a, [] => a = 0
  | a, f :: L => a = f * pgsize ∧ Chain m (m.word f 0) L

/-- The free list of `m` is `L`. -/
structure Free (m : Mem) (L : List ℕ) : Prop where
  chain : Chain m m.freelist L
  nodup : L.Nodup
  usable : ∀ f ∈ L, m.Usable f

variable {L : List ℕ} {m m' : Mem}

theorem Chain.congr {a : ℕ} (h : Chain m a L)
    (heq : ∀ f ∈ L, m'.page f = m.page f) : Chain m' a L := by
  induction L generalizing a with
  | nil => exact h
  | cons f L ih =>
    have hw : m'.word f 0 = m.word f 0 := by
      unfold Mem.word
      rw [heq f (List.mem_cons_self ..)]
    exact ⟨h.1, hw ▸ ih h.2 fun g hg => heq g (List.mem_cons_of_mem _ hg)⟩

/-- The free list depends on the free pages only. -/
theorem Free.congr (h : Free m L) (hl : m'.freelist = m.freelist)
    (hk : m'.kend = m.kend) (heq : ∀ f ∈ L, m'.page f = m.page f) : Free m' L where
  chain := hl ▸ h.chain.congr heq
  nodup := h.nodup
  usable f hf := by
    have := h.usable f hf
    unfold Mem.Usable at *
    rwa [hk]

/-- What one call of the allocator may change besides the free list. -/
structure Only (m m' : Mem) (P : ℕ → Prop) : Prop where
  kend : m'.kend = m.kend
  page : ∀ f, ¬ P f → m'.page f = m.page f

theorem Only.refl (m : Mem) (P : ℕ → Prop) : Only m m P := ⟨rfl, fun _ _ => rfl⟩

variable {P : ℕ → Prop}

theorem Only.trans {m'' : Mem} (h : Only m m' P) (h' : Only m' m'' P) :
    Only m m'' P :=
  ⟨h'.kend.trans h.kend, fun f hf => (h'.page f hf).trans (h.page f hf)⟩

theorem Only.mono {Q : ℕ → Prop} (h : Only m m' P) (hPQ : ∀ f, P f → Q f) :
    Only m m' Q :=
  ⟨h.kend, fun f hf => h.page f fun hp => hf (hPQ f hp)⟩

variable {f : ℕ}

theorem Only.usable (h : Only m m' P) :
    m'.Usable f ↔ m.Usable f := by
  unfold Mem.Usable
  rw [h.kend]

theorem kalloc_nil (h : Free m []) : kalloc m = .ok (none, m) := by
  have : m.freelist = 0 := h.chain
  simp only [kalloc, Run.get_bind, Run.ite_run, this, if_pos, Run.pure_run]

/-- **`kalloc` takes the first page of the list** and fills it with junk. -/
theorem kalloc_cons (h : Free m (f :: L)) :
    ∃ m', kalloc m = .ok (some (f * pgsize), m') ∧ Free m' L ∧ Only m m' (· = f) ∧
      m'.page f = fun _ => 5 := by
  have hf := h.usable f (List.mem_cons_self ..)
  have hfl : m.freelist = f * pgsize := h.chain.1
  have hne : f * pgsize ≠ 0 := Nat.mul_ne_zero hf.pos.ne' (by decide)
  refine ⟨{ m with freelist := m.word f 0 }.setPage f fun _ => 5, ?_, ?_, ⟨rfl, fun g hg => ?_⟩,
    Mem.setPage_page _ _ _⟩
  · simp only [kalloc, Run.get_bind, Run.ite_run, hfl, if_neg hne, Run.modify_bind, memset,
      Run.pure_run, addr_div]
  · constructor
    · refine h.chain.2.congr fun g hg => Mem.setPage_page_ne _ _ ?_
      rintro rfl
      exact (List.nodup_cons.1 h.nodup).1 hg
    · exact (List.nodup_cons.1 h.nodup).2
    · exact fun g hg => h.usable g (List.mem_cons_of_mem _ hg)
  · exact Mem.setPage_page_ne _ _ hg

/-- **`kfree` puts the page in front of the list.** -/
theorem kfree_spec (h : Free m L) (hf : m.Usable f) (hL : f ∉ L) :
    ∃ m', kfree (f * pgsize) m = .ok ((), m') ∧ Free m' (f :: L) ∧ Only m m' (· = f) := by
  have hbad : ¬ (f * pgsize % pgsize ≠ 0 ∨ f * pgsize < m.kend ∨ phystop ≤ f * pgsize) := by
    have := Nat.mul_mod_left f pgsize
    have h1 := hf.1
    have h2 := hf.2
    omega
  let m1 := m.setPage f fun _ => 1
  refine ⟨{ m1.setWord f 0 m1.freelist with freelist := f * pgsize }, ?_, ?_, ⟨rfl, ?_⟩⟩
  · simp only [kfree, Run.get_bind, Run.ite_run, if_neg hbad, memset, Run.modify_bind,
      Run.modify_run, addr_div, m1]
  · have hlist : m.freelist < 2 ^ 64 := by
      cases L with
      | nil =>
        have : m.freelist = 0 := h.chain
        omega
      | cons g L =>
        rw [h.chain.1]
        exact (h.usable g (List.mem_cons_self ..)).addr_lt
    have hword : (m1.setWord f 0 m1.freelist).word f 0 = m.freelist := by
      have h := m1.word_setWord f f 0 (by decide : 0 < 512) hlist
      rwa [if_pos ⟨rfl, rfl⟩] at h
    constructor
    · refine ⟨rfl, ?_⟩
      have hc : Chain m ((m1.setWord f 0 m1.freelist).word f 0) L := by
        rw [hword]
        exact h.chain
      refine hc.congr fun g hg => ?_
      have hgf : g ≠ f := by
        rintro rfl
        exact hL hg
      exact (Mem.setWord_page_ne _ _ _ hgf).trans (Mem.setPage_page_ne _ _ hgf)
    · exact List.nodup_cons.2 ⟨hL, h.nodup⟩
    · intro g hg
      rcases List.mem_cons.1 hg with rfl | hg
      · exact hf
      · exact h.usable g hg
  · intro g hg
    exact (Mem.setWord_page_ne _ _ _ hg).trans (Mem.setPage_page_ne _ _ hg)

/-- `kfree` panics on a frame that is not between `end` and `PHYSTOP`. -/
theorem kfree_unusable (h : ¬ m.Usable f) :
    kfree (f * pgsize) m = .error (.panic "kfree") := by
  have hbad : f * pgsize % pgsize ≠ 0 ∨ f * pgsize < m.kend ∨ phystop ≤ f * pgsize := by
    by_contra hc
    push Not at hc
    exact h hc.2
  simp only [kfree, Run.get_bind, Run.ite_run, if_pos hbad, Run.throw_run]

/-! ## Start and count -/

/-- The frames `f, f + 1, …, f + n - 1`, the last one first. -/
def frames (f n : ℕ) : List ℕ := (List.range' f n).reverse

theorem freepages_spec (h : Free m L) :
    ∀ (n f : ℕ), (∀ g, f ≤ g → g < f + n → m.Usable g ∧ g ∉ L) →
      ∃ m', freepages n (f * pgsize) m = .ok ((), m') ∧ Free m' (frames f n ++ L) ∧
        Only m m' (f ≤ ·) := by
  intro n
  induction n generalizing m L with
  | zero => exact fun f _ => ⟨m, rfl, h, Only.refl _ _⟩
  | succ n ih =>
    intro f hf
    obtain ⟨m', hrun, hfree, honly⟩ := kfree_spec h (hf f le_rfl (by omega)).1
      (hf f le_rfl (by omega)).2
    obtain ⟨m'', hrun', hfree', honly'⟩ := ih hfree (f + 1) (by
      intro g h1 h2
      obtain ⟨h3, h4⟩ := hf g (by omega) (by omega)
      refine ⟨honly.usable.2 h3, fun hm => ?_⟩
      rcases List.mem_cons.1 hm with rfl | hm
      · omega
      · exact h4 hm)
    refine ⟨m'', ?_, ?_, (honly.mono fun g hg => hg.ge).trans (honly'.mono fun g hg => ?_)⟩
    · rw [freepages, Run.bind_of_ok hrun]
      rwa [Nat.succ_mul] at hrun'
    · simpa [frames, List.range'_succ] using hfree'
    · omega

/-- The first frame that `kinit` frees and the number of frames from there to `PHYSTOP`. -/
def Mem.first (m : Mem) : ℕ := pgroundup m.kend / pgsize
@[inherit_doc Mem.first] def Mem.total (m : Mem) : ℕ := phystop / pgsize - m.first

/-- **`kinit` frees exactly the pages of `[PGROUNDUP(end), PHYSTOP)`.** -/
theorem kinit_spec (h : m.freelist = 0) (hk : m.kend ≤ phystop) :
    ∃ m', kinit m = .ok ((), m') ∧ Free m' (frames m.first m.total) ∧
      Only m m' (m.first ≤ ·) := by
  have hk' := hk
  unfold phystop kernbase at hk'
  have hfree : Free m [] := ⟨h, List.nodup_nil, fun f hf => absurd hf List.not_mem_nil⟩
  have hup : pgroundup m.kend = m.first * pgsize := by
    simp only [Mem.first, pgroundup, pgrounddown, pgsize]
    omega
  have hge : m.kend ≤ m.first * pgsize := by
    rw [← hup]
    simp only [pgroundup, pgrounddown, pgsize]
    omega
  obtain ⟨m', hrun, hfree', honly⟩ := freepages_spec hfree m.total m.first (by
    intro g h1 h2
    refine ⟨⟨?_, ?_⟩, List.not_mem_nil⟩
    · exact hge.trans (Nat.mul_le_mul_right _ h1)
    · unfold Mem.total phystop kernbase pgsize at h2
      unfold phystop kernbase pgsize
      omega)
  refine ⟨m', ?_, by simpa using hfree', honly⟩
  have hn : (phystop - pgroundup m.kend) / pgsize = m.total := by
    rw [hup]
    unfold Mem.total phystop kernbase pgsize
    omega
  simp only [kinit, Run.get_bind, freerange]
  rw [hn, hup]
  exact hrun

theorem availLoop_spec :
    ∀ {a fuel acc : ℕ}, Chain m a L → (∀ f ∈ L, 0 < f) → L.length < fuel →
      acc + pgsize * L.length < 2 ^ 64 → availLoop m fuel a acc = some (acc + pgsize * L.length) := by
  induction L with
  | nil =>
    intro a fuel acc h _ hfuel _
    obtain ⟨k, rfl⟩ := Nat.exists_eq_add_of_lt hfuel
    have : a = 0 := h
    simp [availLoop, this]
  | cons f L ih =>
    intro a fuel acc h hpos hfuel hlt
    obtain ⟨k, rfl⟩ := Nat.exists_eq_add_of_lt hfuel
    have hf := hpos f (List.mem_cons_self ..)
    have hne : a ≠ 0 := by
      rw [h.1]
      exact Nat.mul_ne_zero hf.ne' (by decide)
    simp only [List.length_cons, Nat.mul_succ] at hlt ⊢
    rw [availLoop, if_neg hne, h.1, addr_div, Nat.mod_eq_of_lt (by omega),
      ih h.2 (fun g hg => hpos g (List.mem_cons_of_mem _ hg)) (by omega) (by omega)]
    congr 1
    omega

/-- The free list is short: its frames are distinct and below `PHYSTOP`. -/
theorem Free.length_lt (h : Free m L) : L.length ≤ 2 ^ 20 := by
  have hsub : L.length ≤ (List.range (2 ^ 20)).length :=
    (List.subperm_of_subset h.nodup fun f hf => List.mem_range.2 (h.usable f hf).lt).length_le
  rwa [List.length_range] at hsub

/-- **`availmemory` ends**, and returns `PGSIZE` times the length of the free list. -/
theorem availmemory_spec (h : Free m L) {fuel : ℕ} (hf : L.length < fuel) :
    availmemory m fuel = some (pgsize * L.length) := by
  have hlen := h.length_lt
  unfold availmemory
  rw [availLoop_spec h.chain (fun f hf => (h.usable f hf).pos) hf
    (by simp only [pgsize]; omega), Nat.zero_add]

/-! ## Clients -/

theorem disjoint_of_perm {n U} (h : (L ++ U).Perm (frames f n)) : L.Disjoint U :=
  List.disjoint_of_nodup_append (h.nodup_iff.2 (List.nodup_reverse.2 List.nodup_range'))

/-- The frames `L` of the free list and `U` of the clients are those that `kinit` freed. -/
structure Shared (m₀ m : Mem) (L U : List ℕ) : Prop where
  free : Free m L
  perm : (L ++ U).Perm (frames m₀.first m₀.total)
  usable : ∀ f ∈ U, m.Usable f

theorem Client.shared {m₀ U} (h : Client m₀ m U) : ∃ L, Shared m₀ m L U := by
  induction h with
  | start h0 hk hr =>
    obtain ⟨m', hrun, hfree, -⟩ := kinit_spec h0 hk
    cases hrun.symm.trans hr
    exact ⟨_, hfree, by simp, by simp⟩
  | alloc _ hr ih =>
    obtain ⟨_ | ⟨f, L⟩, hfree, hperm, hU⟩ := ih
    · cases (kalloc_nil hfree).symm.trans hr
    obtain ⟨m', hrun, hfree', honly, -⟩ := kalloc_cons hfree
    cases hrun.symm.trans hr
    rw [addr_div]
    refine ⟨L, hfree', List.perm_middle.trans hperm, ?_⟩
    simpa [honly.usable] using ⟨hfree.usable f List.mem_cons_self, hU⟩
  | free _ hf hr ih =>
    obtain ⟨L, hfree, hperm, hU⟩ := ih
    obtain ⟨m', hrun, hfree', honly⟩ :=
      kfree_spec hfree (hU _ hf) fun hL => disjoint_of_perm hperm hL hf
    cases hrun.symm.trans hr
    have hback := (List.perm_cons_erase hf).symm.append_left L
    exact ⟨_, hfree', (List.perm_middle.symm.trans hback).trans hperm,
      fun g hg => honly.usable.2 (hU g (List.mem_of_mem_erase hg))⟩
  | store b _ hf ih =>
    -- the list runs through free pages only
    obtain ⟨L, hfree, hperm, hU⟩ := ih
    refine ⟨L, hfree.congr rfl rfl fun g hg => Mem.setPage_page_ne _ _ ?_, hperm, hU⟩
    rintro rfl
    exact disjoint_of_perm hperm hg hf

/-- A memory of zeros with four pages behind the kernel. -/
def blank : Mem where
  page _ _ := 0
  freelist := 0
  kend := phystop - 4 * pgsize
  kend_ge := by decide

/-- A client of `blank` that has called `kalloc` once. -/
theorem blank_alloc : ∃ m, Client blank m [0x87fff] := by
  obtain ⟨m, hr, hfree, -⟩ := kinit_spec (m := blank) rfl (by decide)
  obtain ⟨m', hr', -⟩ := kalloc_cons (f := 0x87fff) (L := [0x87ffe, 0x87ffd, 0x87ffc]) hfree
  exact ⟨m', .alloc (.start rfl (by decide) hr) hr'⟩

/-- **Pages are conserved.** Each page of `[PGROUNDUP(end), PHYSTOP)` is free or held by one
client, who can free it. -/
theorem pages_conserved {m₀ U} (h : Client m₀ m U) :
    ∃ L, Free m L ∧ (L ++ U).Perm (frames m₀.first m₀.total) ∧ ∀ f ∈ U, m.Usable f := by
  obtain ⟨L, hs⟩ := h.shared
  exact ⟨L, hs.free, hs.perm, hs.usable⟩

theorem pages_conserved_kfree : ∃ m m' L, Client blank m [0x87fff] ∧
    kfree (0x87fff * pgsize) (m.setPage 0x87fff fun _ => 7) = .ok ((), m') ∧
      Free m' L ∧ (L ++ []).Perm (frames 0x87ffc 4) := by
  obtain ⟨m, h⟩ := blank_alloc
  have hb := h.store (fun _ => 7) (List.mem_singleton_self _)
  obtain ⟨L, hs⟩ := hb.shared
  obtain ⟨m', hr, -⟩ := kfree_spec hs.free (hs.usable _ (List.mem_singleton_self _))
    fun hL => disjoint_of_perm hs.perm hL (List.mem_singleton_self _)
  obtain ⟨L', hfree, hperm, -⟩ := pages_conserved (hb.free (List.mem_singleton_self _) hr)
  exact ⟨m, m', L', h, hr, hfree, hperm⟩

/-- **`availmemory` reports the pages that no client holds**, and ends. -/
theorem availmemory_held {m₀ U} (h : Client m₀ m U) :
    U.length ≤ m₀.total ∧
      availmemory m (m₀.total + 1) = some (pgsize * (m₀.total - U.length)) := by
  obtain ⟨L, hs⟩ := h.shared
  have hlen : L.length + U.length = m₀.total := by simpa [frames] using hs.perm.length_eq
  rw [availmemory_spec hs.free (by omega), ← hlen, Nat.add_sub_cancel]
  exact ⟨by omega, rfl⟩

theorem availmemory_held_one : ∃ m, Client blank m [0x87fff] ∧
    availmemory m 5 = some (pgsize * 3) := by
  obtain ⟨m, h⟩ := blank_alloc
  exact ⟨m, h, (availmemory_held h).2⟩

end Xv6.Vm
