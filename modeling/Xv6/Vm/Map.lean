import Xv6.Vm.Table

/-!
# Page tables are finite maps

What `walk`, `mappages` and `uvmunmap` are for: a page table is a map from the page numbers below
`MAXVA` to entries. `lookup` is the source's own way to read it, and `Built` are the page tables
that can come up, whatever the rest of the kernel does with the memory outside them.

* `Built.pt`: the frames of such a table stay distinct and off the free list.
* `page_table_map`: each of the functions changes the map at the pages it names and nowhere else.
-/

namespace Xv6.Vm

open Lib

/-- The mapping of `va`: none if `walk` returns `0` or the PTE lacks `PTE_V`. -/
def lookup (m : Mem) (pagetable va : ℕ) : Option ℕ :=
  match walk pagetable va false m with
  | .ok (some pte, _) =>
    if m.word pte.1 pte.2 &&& pteV ≠ 0 then some (m.word pte.1 pte.2) else none
  | _ => none

/-- The mapping that an entry stands for. -/
def mapping (e : ℕ) : Option ℕ := if e &&& pteV ≠ 0 then some e else none

variable {r va : ℕ}

theorem lookup_eq (m : Mem) (h : va < maxva) :
    lookup m (r * pgsize) va = mapping (leaf m r (va / pgsize)) := by
  unfold lookup
  rw [walk_lookup m r h]
  cases hq : shape.find m.word 2 r (va / pgsize) with
  | none =>
    unfold leaf Shape.value
    rw [hq, Option.elim_none, shape_nil]
    rfl
  | some q =>
    rw [leaf_of_find hq]
    rfl

/-- The memories that hold a page table with root frame `r`, built from an all-zero page. -/
inductive Built (r : ℕ) : Mem → Prop
  | zero {m : Mem} {L : List ℕ} : Free m L → r ∉ L → (m.page r = fun _ => 0) → Built r m
  | walk {m m' : Mem} {va : ℕ} {p : Option (ℕ × ℕ)} : Built r m →
      walk (r * pgsize) va true m = .ok (p, m') → Built r m'
  | mappages {m m' : Mem} {va size pa perm : ℕ} {ok : Bool} : Built r m → pa < 2 ^ 64 →
      perm < 2 ^ 64 → mappages (r * pgsize) va size pa perm m = .ok (ok, m') → Built r m'
  | uvmunmap {m m' : Mem} {va npages : ℕ} {doFree : Bool} : Built r m →
      va + npages * pgsize ≤ maxva →
      (doFree = true → ∀ L, Free m L → Freeable m r L (va / pgsize) npages) →
      uvmunmap (r * pgsize) va npages doFree m = .ok ((), m') → Built r m'
  /-- The rest of the kernel allocates, frees and writes, but not the frames of this table. -/
  | other {m m' : Mem} {L' : List ℕ} : Built r m → (∀ f ∈ tables m r, m'.page f = m.page f) →
      Free m' L' → (∀ f ∈ L', f ∉ tables m r) → Built r m'

variable {L : List ℕ} {m m' : Mem}

/-- A walk with `alloc` that returns leaves a page table with the same entries. -/
theorem walk_edit {p : Option (ℕ × ℕ)} (h : Pt m r L)
    (hrun : walk (r * pgsize) va true m = .ok (p, m')) :
    ∃ F L', Edit m m' r F L' (leaf m r) := by
  have hva : va < maxva := by
    by_contra hge
    rw [walk, Run.ite_run, if_pos (Nat.not_lt.1 hge), Run.throw_run] at hrun
    cases hrun
  obtain ⟨F, L', -, hedit, -⟩ := (walk_spec h hva).of_ok hrun
  exact ⟨F, L', hedit⟩

/-- A call of `mappages` that returns has mapped the pages of a segment. -/
theorem mappages_edit {size pa perm : ℕ} {ok : Bool} (h : Pt m r L)
    (hpa : pa < 2 ^ 64) (hperm : perm < 2 ^ 64)
    (hrun : mappages (r * pgsize) va size pa perm m = .ok (ok, m')) :
    ∃ F L' n, L = F ++ L' ∧ Edit m m' r F L' (fun j => if va / pgsize ≤ j ∧ j < va / pgsize + n
      then pteOf ((pa + (j - va / pgsize) * pgsize) % 2 ^ 64) perm else leaf m r j) ∧
      Only m m' (fun f => f ∈ tables m r ∨ f ∈ F) ∧
      (∀ j, va / pgsize ≤ j → j < va / pgsize + n → ¬ leaf m r j &&& pteV ≠ 0) ∧
      (ok = true →
        (va / pgsize + n) * pgsize = pgrounddown ((va + size - 1) % 2 ^ 64) + pgsize) := by
  have hsize : size ≠ 0 := by
    rintro rfl
    rw [mappages, Run.ite_run, if_pos rfl, Run.throw_run] at hrun
    cases hrun
  obtain ⟨F, L', n, hL, hedit, honly, hnew, hok, -⟩ := (mappages_spec h hsize hpa hperm).of_ok hrun
  exact ⟨F, L', n, hL, hedit, honly, hnew, hok⟩

/-- A call of `uvmunmap` that returns has cleared the entries of its pages. -/
theorem uvmunmap_edit {npages : ℕ} {doFree : Bool} (h : Pt m r L)
    (hva : va + npages * pgsize ≤ maxva)
    (hfr : doFree = true → Freeable m r L (va / pgsize) npages)
    (hrun : uvmunmap (r * pgsize) va npages doFree m = .ok ((), m')) :
    va % pgsize = 0 ∧ Unmapped r L (va / pgsize) npages doFree m m' := by
  have hal : va % pgsize = 0 := by
    by_contra hne
    rw [uvmunmap, Run.ite_run, if_pos hne, Run.throw_run] at hrun
    cases hrun
  have hk : va / pgsize + npages ≤ 2 ^ 26 := by
    unfold maxva pgsize at hva
    unfold pgsize
    omega
  rw [show va = va / pgsize * pgsize by unfold pgsize at *; omega] at hrun
  exact ⟨hal, (uvmunmap_spec doFree h hk hfr).of_ok hrun⟩

/-- **The frames of a page table are distinct and off the free list**, however it was built. -/
theorem Built.pt (h : Built r m) : ∃ L, Pt m r L := by
  induction h with
  | zero hfree hr hzero => exact ⟨_, Pt.zero hfree hr hzero⟩
  | walk _ hrun ih =>
    obtain ⟨L, ih⟩ := ih
    obtain ⟨F, L', hedit⟩ := walk_edit ih hrun
    exact ⟨L', hedit.pt⟩
  | mappages _ hpa hperm hrun ih =>
    obtain ⟨L, ih⟩ := ih
    obtain ⟨F, L', n, -, hedit, -⟩ := mappages_edit ih hpa hperm hrun
    exact ⟨L', hedit.pt⟩
  | uvmunmap _ hva hfr hrun ih =>
    obtain ⟨L, ih⟩ := ih
    obtain ⟨-, D, -, hedit, -⟩ := uvmunmap_edit ih hva (fun hd => hfr hd L ih.free) hrun
    exact ⟨_, hedit.pt⟩
  | other _ heq hfree hL ih =>
    obtain ⟨L, ih⟩ := ih
    exact ⟨_, ih.congr heq hfree hL⟩

theorem mapping_zero : mapping 0 = none := by decide

theorem mapping_pteOf (pa perm : ℕ) : mapping (pteOf pa perm) = some (pteOf pa perm) := by
  refine if_pos ?_
  have : (pteOf pa perm).testBit 0 = true := by simp [pteOf, pteV]
  rw [pteV_and]
  rw [Nat.testBit_zero] at this
  simpa using this

/-- **Page tables are finite maps.** For a page table built in any way: the mapping of an address
depends on its page number; `mappages` maps exactly its pages, to the frames from `pa` on;
`uvmunmap` removes exactly its pages; and a `walk` that finds no free page changes no mapping. -/
theorem page_table_map {r : ℕ} {m : Mem} (h : Built r m) :
    (∀ va va', va < maxva → va' < maxva → va / pgsize = va' / pgsize →
      lookup m (r * pgsize) va = lookup m (r * pgsize) va') ∧
    (∀ va size pa perm m', pa < 2 ^ 64 → perm < 2 ^ 64 →
      mappages (r * pgsize) va size pa perm m = .ok (true, m') → ∀ a < maxva,
        lookup m' (r * pgsize) a =
          if pgrounddown va ≤ pgrounddown a ∧ pgrounddown a ≤ pgrounddown ((va + size - 1) % 2 ^ 64)
          then some (pteOf ((pa + (pgrounddown a - pgrounddown va)) % 2 ^ 64) perm)
          else lookup m (r * pgsize) a) ∧
    (∀ pa perm, pa < 2 ^ 64 → perm < 2 ^ 10 →
      pte2pa (pteOf pa perm) = pgrounddown pa ∧ pteFlags (pteOf pa perm) = perm ||| pteV) ∧
    (∀ va npages doFree m', va + npages * pgsize ≤ maxva →
      (doFree = true → ∀ L, Free m L → Freeable m r L (va / pgsize) npages) →
      uvmunmap (r * pgsize) va npages doFree m = .ok ((), m') → ∀ a < maxva,
        lookup m' (r * pgsize) a =
          if va ≤ a ∧ a < va + npages * pgsize then none else lookup m (r * pgsize) a) ∧
    ∀ va m', walk (r * pgsize) va true m = .ok (none, m') → ∀ a < maxva,
      lookup m' (r * pgsize) a = lookup m (r * pgsize) a := by
  obtain ⟨L, hpt⟩ := h.pt
  have hpage : ∀ a < maxva, a / pgsize < 2 ^ 27 := by
    intro a ha
    unfold maxva at ha
    unfold pgsize
    omega
  refine ⟨fun va va' h1 h2 heq => ?_, fun va size pa perm m' hpa hperm hrun a ha => ?_,
    fun pa perm hpa hperm => pteOf_parts hpa hperm,
    fun va npages doFree m' hva hfr hrun a ha => ?_, fun va m' hrun a ha => ?_⟩
  · rw [lookup_eq m h1, lookup_eq m h2, heq]
  · obtain ⟨F, L', n, -, hedit, -, -, hok⟩ := mappages_edit hpt hpa hperm hrun
    have hn := hok rfl
    rw [lookup_eq m' ha, lookup_eq m ha, hedit.leaf _ (hpage a ha)]
    have hiff : (va / pgsize ≤ a / pgsize ∧ a / pgsize < va / pgsize + n) ↔
        pgrounddown va ≤ pgrounddown a ∧
          pgrounddown a ≤ pgrounddown ((va + size - 1) % 2 ^ 64) := by
      unfold pgrounddown pgsize at *
      omega
    have hdist : (a / pgsize - va / pgsize) * pgsize = pgrounddown a - pgrounddown va := by
      unfold pgrounddown pgsize
      omega
    split
    · next hin => rw [if_pos (hiff.1 hin), hdist, mapping_pteOf]
    · next hin => rw [if_neg fun hc => hin (hiff.2 hc)]
  · obtain ⟨hal, D, -, hedit, -⟩ := uvmunmap_edit hpt hva (fun hd => hfr hd L hpt.free) hrun
    rw [lookup_eq m' ha, lookup_eq m ha, hedit.leaf _ (hpage a ha)]
    have hiff : (va / pgsize ≤ a / pgsize ∧ a / pgsize < va / pgsize + npages) ↔
        va ≤ a ∧ a < va + npages * pgsize := by
      unfold pgsize at *
      omega
    split
    · next hin => rw [if_pos (hiff.1 hin), mapping_zero]
    · next hin => rw [if_neg fun hc => hin (hiff.2 hc)]
  · obtain ⟨F, L', hedit⟩ := walk_edit hpt hrun
    rw [lookup_eq m' ha, lookup_eq m ha, hedit.leaf _ (hpage a ha)]

/-- `blank` after `kinit`. -/
def started : Mem := ((kinit blank).toOption.map Prod.snd).getD blank

theorem started_free : Free started (frames blank.first blank.total) ∧
    started.page 1 = fun _ => 0 := by
  obtain ⟨m', hrun, hfree, honly⟩ := kinit_spec (m := blank) rfl (by decide)
  have hm : started = m' := by
    rw [started, hrun]
    rfl
  rw [hm]
  refine ⟨hfree, ?_⟩
  rw [honly.page 1 (by decide)]
  rfl

theorem started_built : Built 1 started :=
  .zero started_free.1 (by decide) started_free.2

/-- Two pages mapped in a table that starts from the zero page in frame 1. -/
theorem page_table_map_two : Built 1 started ∧ ∃ m',
    mappages (1 * pgsize) 0x1000 0x2000 0x80000000 (pteR ||| pteW) started = .ok (true, m') ∧
      lookup m' (1 * pgsize) 0x2abc = some (pteOf 0x80001000 (pteR ||| pteW)) := by
  obtain ⟨⟨_, m'⟩, hr, rfl⟩ :
      ∃ x, mappages (1 * pgsize) 0x1000 0x2000 0x80000000 (pteR ||| pteW) started = .ok x ∧
        x.1 = true := exists_ok (by decide +kernel)
  refine ⟨started_built, m', hr, ?_⟩
  rw [(page_table_map started_built).2.1 _ _ _ _ m' (by decide) (by decide) hr _ (by decide)]
  decide +kernel

end Xv6.Vm
