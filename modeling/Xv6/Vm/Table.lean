import Xv6.Vm.Memory
import Xv6.Lib.Radix

/-!
# Page tables

`walk`, `mappages` and `uvmunmap` of `kernel/vm.c`, over the memory of `Xv6.Vm.Memory`. A page
table is a radix tree of three levels in physical memory: its nodes are frames of 512 entries, and
an entry with `PTE_V` at an inner level leads to the frame it names.

* `tables m r`: the frames of the page table with root frame `r`; `leaf m r k`: the entry for
  page number `k`, zero where there is none.
* `Pt m r L`: a page table whose frames are distinct and not on the free list `L`.
* `walk_spec`, `mappages_spec`, `uvmunmap_spec`: what each function does to the entries, the frames
  and the free list, and when it panics.
-/

namespace Xv6.Vm

open Lib

/-- `MAXVA`. -/
def maxva : ℕ := 2 ^ 38

/-- The flags of a PTE. -/
def pteV : ℕ := 1
@[inherit_doc pteV] def pteR : ℕ := 2
@[inherit_doc pteV] def pteW : ℕ := 4
@[inherit_doc pteV] def pteX : ℕ := 8
@[inherit_doc pteV] def pteU : ℕ := 16

/-- `PA2PTE`: shift a physical address to the right place for a PTE. -/
def pa2pte (pa : ℕ) : ℕ := pa / 2 ^ 12 * 2 ^ 10

/-- `PTE2PA`, in 64-bit arithmetic. -/
def pte2pa (pte : ℕ) : ℕ := pte / 2 ^ 10 * 2 ^ 12 % 2 ^ 64

/-- `PTE_FLAGS`. -/
def pteFlags (pte : ℕ) : ℕ := pte % 2 ^ 10

/-- `PX`: the 9-bit index of the page-table page at `level`. -/
def px (level va : ℕ) : ℕ := va / 2 ^ (12 + 9 * level) % 512

/-- `*pte`, for the entry `pte.2` of the page-table page in frame `pte.1`. -/
def load (pte : ℕ × ℕ) : VM ℕ := do
  let m ← get
  return m.word pte.1 pte.2

/-- `*pte = v`. -/
def store (pte : ℕ × ℕ) (v : ℕ) : VM Unit := modify fun m => m.setWord pte.1 pte.2 v

/-- The loop of `walk` from `level` down. -/
def walkLoop (alloc : Bool) (va : ℕ) : ℕ → ℕ → VM (Option (ℕ × ℕ))
  | 0, pagetable => return some (pagetable / pgsize, px 0 va)
  | level + 1, pagetable => do
    let e ← load (pagetable / pgsize, px (level + 1) va)
    if e &&& pteV ≠ 0 then walkLoop alloc va level (pte2pa e)
    else if alloc = false then return none
    else do
      match ← kalloc with
      | none => return none
      | some pa => do
        memset pa 0
        store (pagetable / pgsize, px (level + 1) va) (pa2pte pa ||| pteV)
        walkLoop alloc va level pa

/-- `walk`: the address of the PTE for `va`; with `alloc`, missing page-table pages are created. -/
def walk (pagetable va : ℕ) (alloc : Bool) : VM (Option (ℕ × ℕ)) :=
  if maxva ≤ va then throw (.panic "walk") else walkLoop alloc va 2 pagetable

/-- The loop of `mappages`. Below `MAXVA` there is not enough room for it to run out of `fuel`. -/
def mappagesLoop (pagetable perm last : ℕ) : ℕ → ℕ → ℕ → VM Bool
  | 0, _, _ => throw .wild
  | fuel + 1, a, pa => do
    match ← walk pagetable a true with
    | none => return false
    | some pte => do
      let e ← load pte
      if e &&& pteV ≠ 0 then throw (.panic "mappages: remap")
      else do
        store pte (pa2pte pa ||| perm ||| pteV)
        if a = last then return true
        else mappagesLoop pagetable perm last fuel ((a + pgsize) % 2 ^ 64) ((pa + pgsize) % 2 ^ 64)

/-- `mappages`: map the pages of `[va, va + size)` to the frames from `pa` on. True is `0` of the
source, false `-1`. -/
def mappages (pagetable va size pa perm : ℕ) : VM Bool :=
  if size = 0 then throw (.panic "mappages: size")
  else mappagesLoop pagetable perm (pgrounddown ((va + size - 1) % 2 ^ 64))
    (maxva / pgsize + 1) (pgrounddown va) pa

/-- `if(do_free) kfree(pa)`. -/
def kfreeIf (doFree : Bool) (pa : ℕ) : VM Unit := if doFree = true then kfree pa else pure ()

/-- The loop of `uvmunmap`, which goes round at most `n` times. -/
def uvmunmapLoop (pagetable stop : ℕ) (doFree : Bool) : ℕ → ℕ → VM Unit
  | 0, _ => return ()
  | n + 1, a =>
    if a < stop then do
      match ← walk pagetable a false with
      | none => throw (.panic "uvmunmap: walk")
      | some pte => do
        let e ← load pte
        if e &&& pteV = 0 then throw (.panic "uvmunmap: not mapped")
        else if pteFlags e = pteV then throw (.panic "uvmunmap: not a leaf")
        else do
          kfreeIf doFree (pte2pa e)
          store pte 0
          uvmunmapLoop pagetable stop doFree n ((a + pgsize) % 2 ^ 64)
    else return ()

/-- `uvmunmap`: remove `npages` of mappings from `va` on, and free their frames with `doFree`. -/
def uvmunmap (pagetable va npages : ℕ) (doFree : Bool) : VM Unit :=
  if va % pgsize ≠ 0 then throw (.panic "uvmunmap: not aligned")
  else uvmunmapLoop pagetable ((va + npages * pgsize) % 2 ^ 64) doFree npages va

/-! ## Entries -/

/-- The frame that a PTE names. -/
def pteFrame (pte : ℕ) : ℕ := pte2pa pte / pgsize

theorem pte2pa_eq (pte : ℕ) : pte2pa pte = pteFrame pte * pgsize := by
  unfold pteFrame pte2pa pgsize
  omega

theorem pteV_and (e : ℕ) : e &&& pteV = e % 2 := Nat.and_one_is_mod e

theorem pa2pte_addr (f : ℕ) : pa2pte (f * pgsize) = f * 2 ^ 10 := by
  unfold pa2pte pgsize
  omega

variable {f fl : ℕ}

/-- A PTE put together from a frame and flags is their sum. -/
theorem pa2pte_or (h : fl < 2 ^ 10) : pa2pte (f * pgsize) ||| fl = f * 2 ^ 10 + fl := by
  rw [pa2pte_addr, ← Nat.shiftLeft_eq, Nat.shiftLeft_add_eq_or_of_lt h]

theorem pteFrame_add (hf : f < 2 ^ 52) (h : fl < 2 ^ 10) :
    pteFrame (f * 2 ^ 10 + fl) = f := by
  unfold pteFrame pte2pa pgsize
  omega

theorem pteFlags_add (h : fl < 2 ^ 10) : pteFlags (f * 2 ^ 10 + fl) = fl := by
  unfold pteFlags
  omega

/-! ## The tree -/

/-- The shape of page-table pages: an entry with `PTE_V` leads to the frame it names. -/
@[irreducible] def shape : Shape ℕ ℕ where
  fan := 512
  fan_pos := by decide
  sub e := if e &&& pteV ≠ 0 then some (pteFrame e) else none
  nil := 0
  sub_nil := by decide

@[simp] theorem shape_fan : shape.fan = 512 := by rw [shape]

@[simp] theorem shape_nil : shape.nil = 0 := by rw [shape]

variable {e : ℕ}

theorem sub_of_valid (h : e &&& pteV ≠ 0) : shape.sub e = some (pteFrame e) := by
  rw [shape]
  exact if_pos h

theorem sub_of_invalid (h : ¬ e &&& pteV ≠ 0) : shape.sub e = none := by
  rw [shape]
  exact if_neg h

/-- An inner entry has `PTE_V` and no other flag. -/
def Inner (e : ℕ) : Prop := pteFlags e = pteV

/-- The frames of the page table with root frame `r`. -/
def tables (m : Mem) (r : ℕ) : Multiset ℕ := shape.nodes m.word 2 r

/-- The entry for page number `k`, zero where the table has none. -/
def leaf (m : Mem) (r k : ℕ) : ℕ := shape.value m.word 2 r k

theorem px_eq_digit (l va : ℕ) : px l va = shape.digit l (va / pgsize) := by
  have : 2 ^ (12 + 9 * l) = pgsize * 512 ^ l := by
    rw [pow_add, pow_mul]
    rfl
  unfold px Shape.digit
  rw [Nat.div_div_eq_div_mul, this, shape_fan]

theorem word_setWord_eq (m : Mem) (f : ℕ) {i v : ℕ} (hi : i < 512) (hv : v < 2 ^ 64) :
    (m.setWord f i v).word = Shape.set m.word f i v := by
  funext g j
  rw [m.word_setWord f g j hi hv]
  by_cases hg : g = f
  · subst hg
    rw [Shape.set_self]
    by_cases hj : j = i
    · subst hj
      simp
    · simp [hj]
  · rw [Shape.set_of_ne _ _ hg, if_neg fun h => hg h.1]

variable {m m' : Mem}

theorem word_eq_of_page (h : m'.page f = m.page f) : m'.word f = m.word f := by
  funext i
  unfold Mem.word
  rw [h]

/-! ## `walk` -/

/-- Without `alloc`, `walk` reads the slot of the page off the tree. -/
theorem walkLoop_lookup (m : Mem) (va l r : ℕ) :
    walkLoop false va l (r * pgsize) m = .ok (shape.find m.word l r (va / pgsize), m) := by
  induction l generalizing r with
  | zero =>
    rw [walkLoop, addr_div, px_eq_digit]
    rfl
  | succ l ih =>
    rw [walkLoop, addr_div, Run.bind_of_ok (t := m) (a := m.word r (px (l + 1) va)) rfl,
      Run.ite_run]
    rw [px_eq_digit, Shape.find]
    split
    · next h => rw [sub_of_valid h, pte2pa_eq, ih, Option.bind_some]
    · next h => rw [sub_of_invalid h, if_pos rfl, Option.bind_none, Run.pure_run]

variable {va : ℕ}

theorem walk_lookup (m : Mem) (r : ℕ) (h : va < maxva) :
    walk (r * pgsize) va false m = .ok (shape.find m.word 2 r (va / pgsize), m) := by
  rw [walk, Run.ite_run, if_neg (Nat.not_le.2 h), walkLoop_lookup]

/-- What `walk` leaves of a tree of `l` levels when it takes the frames `F` from the free list. -/
structure Walked (m m' : Mem) (l r : ℕ) (F L' : List ℕ) : Prop where
  free : Free m' L'
  tree : shape.Extends Inner m.word m'.word l r F
  only : Only m m' fun f => f ∈ shape.nodes m.word l r ∨ f ∈ F

variable {L : List ℕ} {l r : ℕ}

/-- The step of `walk` that puts an empty page-table page in frame `f` under entry `d` of `r`,
`m1` being the memory after `kalloc`. -/
theorem link_spec {m1 : Mem} {d : ℕ} (hfree : Free m (f :: L))
    (hfree1 : Free m1 L) (honly : Only m m1 (· = f)) (hd : d < 512)
    (hn : (shape.nodes m.word (l + 1) r).Nodup) (hsub : shape.sub (m.word r d) = none)
    (hL : ∀ g ∈ f :: L, g ∉ shape.nodes m.word (l + 1) r) :
    ∃ m2, m2 = (m1.setPage f fun _ => 0).setWord r d (pa2pte (f * pgsize) ||| pteV) ∧
      Walked m m2 (l + 1) r [f] L ∧ shape.sub (m2.word r d) = some f := by
  have hfT := hL f (List.mem_cons_self ..)
  have hfL := (List.nodup_cons.1 hfree.nodup).1
  have hrf : r ≠ f := by
    rintro rfl
    exact hfT (Shape.root_mem _ _)
  have hlt := (hfree.usable f (List.mem_cons_self ..)).lt
  set e := pa2pte (f * pgsize) ||| pteV
  have heq : e = f * 2 ^ 10 + pteV := pa2pte_or (by decide)
  have he64 : e < 2 ^ 64 := by
    rw [heq]
    unfold pteV
    omega
  have hse : shape.sub e = some f := by
    have hv : e &&& pteV ≠ 0 := by
      rw [pteV_and, heq]
      unfold pteV
      omega
    rw [sub_of_valid hv, heq, pteFrame_add (by omega) (by decide)]
  have hin : Inner e := by
    unfold Inner
    rw [heq, pteFlags_add (by decide)]
  set m2 := (m1.setPage f fun _ => 0).setWord r d e with hm2
  have hpage : ∀ g, g ≠ r → g ≠ f → m2.page g = m1.page g := fun g hgr hgf =>
    (Mem.setWord_page_ne _ _ _ hgr).trans (Mem.setPage_page_ne _ _ hgf)
  have hpage' : ∀ g, g ≠ r → g ≠ f → m2.page g = m.page g := fun g hgr hgf =>
    (hpage g hgr hgf).trans (honly.page g hgf)
  have hroot : m2.word r = Function.update (m.word r) d e := by
    rw [hm2, word_setWord_eq _ _ hd he64, Shape.set_self,
      word_eq_of_page (Mem.setPage_page_ne _ _ hrf), word_eq_of_page (honly.page r hrf)]
  have hzero : ∀ i, m2.word f i = shape.nil := by
    intro i
    rw [hm2, word_setWord_eq _ _ hd he64, Shape.set_of_ne _ _ hrf.symm]
    unfold Mem.word
    rw [Mem.setPage_page, Bytes.dword_zero, shape_nil]
  refine ⟨m2, rfl, ⟨?_, ?_, honly.kend, fun g hg => hpage' g ?_ ?_⟩, ?_⟩
  · refine hfree1.congr rfl rfl fun g hg => hpage g ?_ ?_
    · rintro rfl
      exact hL g (List.mem_cons_of_mem _ hg) (Shape.root_mem _ _)
    · rintro rfl
      exact hfL hg
  · exact Shape.Extends.link (by rwa [shape_fan]) hn hsub hfT hse hin hroot hzero
      fun g hgr hgf => word_eq_of_page (hpage' g hgr hgf)
  · rintro rfl
    exact hg (.inl (Shape.root_mem _ _))
  · rintro rfl
    exact hg (.inr (List.mem_cons_self ..))
  · rw [hroot, Function.update_self, hse]

variable {F L' : List ℕ}

/-- A walk goes on below an entry of the root. -/
theorem Walked.child {d c : ℕ} (h : Walked m m' l c F L')
    (hd : d < shape.fan) (hc : shape.sub (m.word r d) = some c)
    (hn : (shape.nodes m.word (l + 1) r).Nodup)
    (hF : ∀ f ∈ F, f ∉ shape.nodes m.word (l + 1) r) :
    Walked m m' (l + 1) r F L' ∧ m'.word r = m.word r := by
  refine ⟨⟨h.free, h.tree.child hd hc hn hF, h.only.mono ?_⟩, ?_⟩
  · rintro f (hf | hf)
    · exact .inl (Shape.mem_of_child hd hc hf)
    · exact .inr hf
  · exact h.tree.frame r (Shape.root_notMem_child hn hd hc) fun hr => hF r hr (Shape.root_mem _ r)

theorem Walked.trans {m'' : Mem} {G : List ℕ} (h : Walked m m' l r F L)
    (h' : Walked m' m'' l r G L') : Walked m m'' l r (F ++ G) L' where
  free := h'.free
  tree := by
    rw [← Multiset.coe_add]
    exact h.tree.trans h'.tree
  only := by
    refine (h.only.mono ?_).trans (h'.only.mono ?_)
    · rintro f (hf | hf)
      · exact .inl hf
      · exact .inr (List.mem_append_left _ hf)
    · intro f hf
      rw [h.tree.nodes, Multiset.mem_add, Multiset.mem_coe] at hf
      rw [List.mem_append]
      tauto

theorem Walked.refl (h : Free m L) (l r : ℕ) : Walked m m l r [] L :=
  ⟨h, Shape.Extends.refl _ _ _ _, Only.refl _ _⟩

/-- What `walk` does from one level on: it takes the frames `F` from the free list and finds the
slot of the page, or there is no frame left to take. -/
theorem walkLoop_spec (alloc : Bool) (va : ℕ) :
    ∀ {m : Mem} {L : List ℕ} {r : ℕ}, Free m L → (shape.nodes m.word l r).Nodup →
      (∀ f ∈ L, f ∉ shape.nodes m.word l r) →
      Outcome (walkLoop alloc va l (r * pgsize) m)
        (fun p m' => ∃ F L', L = F ++ L' ∧ Walked m m' l r F L' ∧
          (p = none → alloc = false ∨ L' = []) ∧
          ∀ q, p = some q → shape.find m'.word l r (va / pgsize) = some q)
        fun _ => False := by
  induction l with
  | zero =>
    intro m L r hfree _ _
    rw [walkLoop, addr_div, px_eq_digit]
    refine .ok ⟨[], L, rfl, .refl hfree _ _, by rintro ⟨⟩, ?_⟩
    rintro q hq
    cases hq
    rfl
  | succ l ih =>
    intro m L r hfree hn hL
    rw [walkLoop, addr_div]
    refine .bind_ok (t := m) (a := m.word r (px (l + 1) va)) rfl ?_
    have hd := shape.digit_lt (l + 1) (va / pgsize)
    rw [px_eq_digit]
    set d := shape.digit (l + 1) (va / pgsize) with hdef
    refine .ite (fun hv => ?_) fun hv => ?_
    · -- the entry leads to a page-table page
      have hc := sub_of_valid hv
      rw [pte2pa_eq]
      refine (ih hfree (Shape.nodup_child hn hd hc) fun f hf hm =>
        hL f hf (Shape.mem_of_child hd hc hm)).imp ?_
      rintro p m' ⟨F, L', rfl, hw, hnone, hsome⟩
      obtain ⟨hw, hr⟩ := hw.child hd hc hn fun f hf => hL f (List.mem_append_left _ hf)
      refine ⟨F, L', rfl, hw, hnone, fun q hq => ?_⟩
      rw [Shape.find, ← hdef, hr, hc, Option.bind_some]
      exact hsome q hq
    · have hsub := sub_of_invalid hv
      refine .ite (fun ha => ?_) fun ha => ?_
      · exact .ok ⟨[], L, rfl, .refl hfree _ _, fun _ => .inl ha, by rintro _ ⟨⟩⟩
      · cases L with
        | nil =>
          refine .bind_ok (kalloc_nil hfree) ?_
          exact .ok ⟨[], [], rfl, .refl hfree _ _, fun _ => .inr rfl, by rintro _ ⟨⟩⟩
        | cons f L =>
          -- a new page-table page, under which the walk goes on
          obtain ⟨m1, hrun, hfree1, honly1, -⟩ := kalloc_cons hfree
          obtain ⟨m2, hm2, hlink, hc⟩ :=
            link_spec hfree hfree1 honly1 (by rwa [shape_fan] at hd) hn hsub hL
          refine .bind_ok hrun ?_
          refine .bind_ok (t := m1.setPage f fun _ => 0) (a := ()) (by rw [memset, addr_div]; rfl)
            (.bind_ok (t := m2) (a := ()) (by rw [hm2]; rfl) ?_)
          have hfL := (List.nodup_cons.1 hfree.nodup).1
          have hn2 : (shape.nodes m2.word (l + 1) r).Nodup := by
            rw [hlink.tree.nodes]
            exact Multiset.nodup_add.2 ⟨hn, Multiset.nodup_singleton f,
              Multiset.disjoint_singleton.2 (hL f (List.mem_cons_self ..))⟩
          have hL2 : ∀ g ∈ L, g ∉ shape.nodes m2.word (l + 1) r := by
            intro g hg
            rw [hlink.tree.nodes, Multiset.mem_add, Multiset.mem_coe, List.mem_singleton]
            rintro (hm | rfl)
            · exact hL g (List.mem_cons_of_mem _ hg) hm
            · exact hfL hg
          refine (ih hlink.free (Shape.nodup_child hn2 hd hc) fun g hg hm =>
            hL2 g hg (Shape.mem_of_child hd hc hm)).imp ?_
          rintro p m' ⟨F, L', rfl, hw, hnone, hsome⟩
          obtain ⟨hw, hr⟩ := hw.child hd hc hn2 fun g hg => hL2 g (List.mem_append_left _ hg)
          refine ⟨f :: F, L', rfl, hlink.trans hw, hnone, fun q hq => ?_⟩
          rw [Shape.find, ← hdef, hr, hc, Option.bind_some]
          exact hsome q hq

/-- A page table with root frame `r` beside the free list `L`: its frames are distinct and not
free, and its inner entries have no flag but `PTE_V`. -/
structure Pt (m : Mem) (r : ℕ) (L : List ℕ) : Prop where
  free : Free m L
  nodup : (tables m r).Nodup
  apart : ∀ f ∈ L, f ∉ tables m r
  inner : shape.Linked Inner m.word 2 r

/-- `m'` holds the page table with the new frames `F`, the free list `L'` and the entries `g`. -/
structure Edit (m m' : Mem) (r : ℕ) (F L' : List ℕ) (g : ℕ → ℕ) : Prop where
  pt : Pt m' r L'
  tables : tables m' r = tables m r + F
  leaf : ∀ j < 2 ^ 27, leaf m' r j = g j

theorem Edit.trans {m'' : Mem} {F' L'' : List ℕ} {g g' : ℕ → ℕ}
    (h : Edit m m' r F L' g) (h' : Edit m' m'' r F' L'' g') : Edit m m'' r (F ++ F') L'' g' where
  pt := h'.pt
  tables := by rw [h'.tables, h.tables, add_assoc, Multiset.coe_add]
  leaf := h'.leaf

theorem Edit.congr {g g' : ℕ → ℕ} (h : Edit m m' r F L' g)
    (hg : ∀ j < 2 ^ 27, g j = g' j) : Edit m m' r F L' g' :=
  ⟨h.pt, h.tables, fun j hj => (h.leaf j hj).trans (hg j hj)⟩

/-- The frames a tree has grown by are distinct from the others and from the free ones. -/
theorem Pt.grow (h : Pt m r (F ++ L'))
    (hw : Walked m m' 2 r F L') : Edit m m' r F L' (leaf m r) := by
  have hnd := List.nodup_append.1 h.free.nodup
  refine ⟨⟨hw.free, ?_, fun f hf => ?_, hw.tree.linked h.inner⟩, hw.tree.nodes,
    fun j _ => hw.tree.value j⟩
  · unfold Vm.tables
    rw [hw.tree.nodes]
    refine Multiset.nodup_add.2 ⟨h.nodup, hnd.1, Multiset.disjoint_right.2 fun {f} hf => ?_⟩
    exact h.apart f (List.mem_append_left _ hf)
  · unfold Vm.tables
    rw [hw.tree.nodes, Multiset.mem_add, Multiset.mem_coe]
    rintro (hm | hm)
    · exact h.apart f (List.mem_append_right _ hf) hm
    · exact hnd.2.2 f hm f hf rfl

/-- **`walk` with `alloc`** changes no entry: it adds frames from the free list to the table and
finds the slot of the page, or returns `0` because the free list is empty. -/
theorem walk_spec (h : Pt m r L) (hva : va < maxva) :
    Outcome (walk (r * pgsize) va true m)
      (fun p m' => ∃ F L', L = F ++ L' ∧ Edit m m' r F L' (leaf m r) ∧
        Only m m' (fun f => f ∈ tables m r ∨ f ∈ F) ∧ (p = none → L' = []) ∧
        ∀ q, p = some q → shape.find m'.word 2 r (va / pgsize) = some q)
      fun _ => False := by
  rw [walk, Run.ite_run, if_neg (Nat.not_le.2 hva)]
  refine (walkLoop_spec true va h.free h.nodup h.apart).imp ?_
  rintro p m' ⟨F, L', rfl, hw, hnone, hsome⟩
  exact ⟨F, L', rfl, h.grow hw, hw.only, fun hp => (hnone hp).resolve_left nofun, hsome⟩

theorem digit_zero_lt (k : ℕ) : shape.digit 0 k < 512 := by
  have := shape.digit_lt 0 k
  rwa [shape_fan] at this

variable {k : ℕ} {q : ℕ × ℕ}

/-- A store to the slot of page `k` changes that entry alone. -/
theorem store_spec (h : Pt m r L) (hk : k < 2 ^ 27)
    (hq : shape.find m.word 2 r k = some q) (he : e < 2 ^ 64) :
    Edit m (m.setWord q.1 q.2 e) r [] L (fun j => if j = k then e else leaf m r j) ∧
      Only m (m.setWord q.1 q.2 e) (· ∈ tables m r) := by
  have hmem : q.1 ∈ tables m r := (Shape.find_mem hq).1
  have hi : q.2 < 512 := (Shape.find_mem hq).2 ▸ digit_zero_lt k
  have hset := word_setWord_eq m q.1 hi he
  have hshape := Shape.shape_set e h.nodup hq
  have hpage : ∀ f, f ∉ tables m r → (m.setWord q.1 q.2 e).page f = m.page f := by
    intro f hf
    refine Mem.setWord_page_ne _ _ _ ?_
    rintro rfl
    exact hf hmem
  have htab : Vm.tables (m.setWord q.1 q.2 e) r = Vm.tables m r := by
    unfold Vm.tables
    rw [hset]
    exact hshape.1
  refine ⟨⟨⟨?_, ?_, ?_, ?_⟩, ?_, fun j hj => ?_⟩, rfl, hpage⟩
  · exact h.free.congr rfl rfl fun f hf => hpage f (h.apart f hf)
  · rw [htab]
    exact h.nodup
  · rw [htab]
    exact h.apart
  · rw [hset]
    exact Shape.linked_set e h.nodup hq h.inner
  · simp [htab]
  · unfold Vm.leaf
    rw [hset, Shape.value_set e h.nodup hq, shape_fan, show 512 ^ (2 + 1) = 2 ^ 27 by decide,
      Nat.mod_eq_of_lt hj, Nat.mod_eq_of_lt hk]

variable (h : ∀ f ∈ tables m r, m'.page f = m.page f)

include h

theorem tables_congr :
    tables m' r = tables m r :=
  Shape.nodes_congr fun f hf => word_eq_of_page (h f hf)

theorem leaf_congr (k : ℕ) :
    leaf m' r k = leaf m r k :=
  Shape.value_congr (fun f hf => word_eq_of_page (h f hf)) k

theorem find_congr (k : ℕ) :
    shape.find m'.word 2 r k = shape.find m.word 2 r k :=
  Shape.find_congr (fun f hf => word_eq_of_page (h f hf)) k

omit h

/-- A page table depends on its own frames only. -/
theorem Pt.congr (h : Pt m r L)
    (heq : ∀ f ∈ tables m r, m'.page f = m.page f) (hfree : Free m' L')
    (hL : ∀ f ∈ L', f ∉ tables m r) : Pt m' r L' where
  free := hfree
  nodup := by
    rw [tables_congr heq]
    exact h.nodup
  apart := by
    rw [tables_congr heq]
    exact hL
  inner := Shape.linked_congr (fun f hf => word_eq_of_page (heq f hf)) h.inner

theorem leaf_of_find (h : shape.find m.word 2 r k = some q) :
    leaf m r k = m.word q.1 q.2 := by
  unfold leaf Shape.value
  rw [h, Option.elim_some]

/-- An all-zero page is a page table without mappings. -/
theorem zero_page (h : m.page r = fun _ => 0) :
    tables m r = {r} ∧ (∀ k, leaf m r k = 0) ∧ shape.Linked Inner m.word 2 r := by
  have hnil : ∀ i, m.word r i = shape.nil := by
    intro i
    unfold Mem.word
    rw [h, Bytes.dword_zero, shape_nil]
  have := Shape.empty_node (C := Inner) hnil 2
  rwa [shape_nil] at this

theorem Pt.zero (h : Free m L) (hr : r ∉ L)
    (hzero : m.page r = fun _ => 0) : Pt m r L := by
  obtain ⟨htab, -, hlinked⟩ := zero_page hzero
  refine ⟨h, ?_, fun f hf => ?_, hlinked⟩
  · rw [htab]
    exact Multiset.nodup_singleton r
  · rw [htab, Multiset.mem_singleton]
    rintro rfl
    exact hr hf

/-! ## `mappages` -/

/-- The entry that `mappages` stores. -/
def pteOf (pa perm : ℕ) : ℕ := pa2pte pa ||| perm ||| pteV

variable {pa perm : ℕ}

theorem pteOf_lt (hpa : pa < 2 ^ 64) (hperm : perm < 2 ^ 64) :
    pteOf pa perm < 2 ^ 64 := by
  have hpte : pa2pte pa < 2 ^ 64 := by
    unfold pa2pte
    omega
  exact Nat.or_lt_two_pow (Nat.or_lt_two_pow hpte hperm) (by decide)

/-- With flags for `perm`, the entry names the frame of `pa` and has the flags `perm | PTE_V`. -/
theorem pteOf_parts (hpa : pa < 2 ^ 64) (hperm : perm < 2 ^ 10) :
    pte2pa (pteOf pa perm) = pgrounddown pa ∧ pteFlags (pteOf pa perm) = perm ||| pteV := by
  have hfl : perm ||| pteV < 2 ^ 10 := Nat.or_lt_two_pow hperm (by decide)
  have hpte : pteOf pa perm = pa / pgsize * 2 ^ 10 + (perm ||| pteV) := by
    have : pa2pte pa = pa2pte (pa / pgsize * pgsize) := by
      rw [pa2pte_addr]
      rfl
    rw [pteOf, Nat.or_assoc, this, pa2pte_or hfl]
  have hlt : pa / pgsize < 2 ^ 52 := by
    unfold pgsize
    omega
  rw [hpte, pte2pa_eq, pteFrame_add hlt hfl, pteFlags_add hfl]
  exact ⟨rfl, rfl⟩

/-- The loop of `mappages` maps `n` pages, which had no mapping: all those up to `last`, or fewer
when the free list is empty. It panics only at a page that is mapped or not below `MAXVA`. -/
theorem mappagesLoop_spec {last : ℕ} (hperm : perm < 2 ^ 64) (hlast : last % pgsize = 0) :
    ∀ (fuel : ℕ) {m : Mem} {L : List ℕ} {k pa : ℕ}, Pt m r L → pa < 2 ^ 64 → 2 ^ 26 < k + fuel →
      Outcome (mappagesLoop (r * pgsize) perm last fuel (k * pgsize) pa m)
        (fun ok m' => ∃ F L' n, L = F ++ L' ∧
          Edit m m' r F L' (fun j => if k ≤ j ∧ j < k + n
            then pteOf ((pa + (j - k) * pgsize) % 2 ^ 64) perm else leaf m r j) ∧
          Only m m' (fun f => f ∈ tables m r ∨ f ∈ F) ∧
          (∀ j, k ≤ j → j < k + n → ¬ leaf m r j &&& pteV ≠ 0) ∧ k + n ≤ 2 ^ 26 ∧
          (ok = true → last + pgsize = (k + n) * pgsize ∧ 0 < n) ∧
          (ok = false → L' = [] ∧ (last < k * pgsize ∨ (k + n) * pgsize ≤ last)))
        fun _ => ∃ j, k ≤ j ∧ (last < k * pgsize ∨ j * pgsize ≤ last) ∧
          (2 ^ 26 ≤ j ∨ leaf m r j &&& pteV ≠ 0) := by
  intro fuel
  induction fuel with
  | zero =>
    intro m L k pa _ _ hfuel
    exact .error ⟨k, le_rfl, by omega, .inl (by omega)⟩
  | succ fuel ih =>
    intro m L k pa h hpa hfuel
    rw [mappagesLoop]
    rcases Nat.lt_or_ge k (2 ^ 26) with hk' | hk'
    swap
    · -- past `MAXVA`
      have hva : maxva ≤ k * pgsize := by
        unfold maxva pgsize
        omega
      refine .bind_error (e := .panic "walk") ?_ ⟨k, le_rfl, ?_, .inl hk'⟩
      · rw [walk, Run.ite_run, if_pos hva, Run.throw_run]
      · omega
    have hva : k * pgsize < maxva := by
      unfold maxva pgsize
      omega
    refine .bind ((walk_spec h hva).mono (fun _ _ h => h) nofun) ?_
    rintro p m1 ⟨F, L1, rfl, hedit, honly, hnone, hsome⟩
    cases p with
    | none =>
      refine .ok ⟨F, L1, 0, rfl, hedit.congr fun j _ => ?_, honly, ?_, by omega, nofun,
        fun _ => ⟨hnone rfl, by rw [Nat.add_zero]; omega⟩⟩
      · rw [if_neg (by omega)]
      · intro j h1 h2
        omega
    | some q =>
      have hq := hsome q rfl
      rw [addr_div] at hq
      have hleaf : m1.word q.1 q.2 = leaf m r k := by
        rw [← leaf_of_find hq, hedit.leaf k (by omega)]
      refine .bind_ok (t := m1) (a := leaf m r k) (by rw [← hleaf]; rfl) ?_
      refine .ite (fun hv => ?_) fun hv => ?_
      · exact .error ⟨k, le_rfl, by omega, .inr hv⟩
      · have he := pteOf_lt hpa hperm
        obtain ⟨hst, hst'⟩ := store_spec hedit.pt (by omega) hq he
        set m2 := m1.setWord q.1 q.2 (pteOf pa perm) with hm2
        refine .bind_ok (t := m2) (a := ()) rfl ?_
        have honly2 : Only m m2 fun f => f ∈ tables m r ∨ f ∈ F := by
          refine honly.trans (hst'.mono fun f hf => ?_)
          rwa [hedit.tables, Multiset.mem_add, Multiset.mem_coe] at hf
        have hedit2 := hedit.trans hst
        rw [List.append_nil] at hedit2
        refine .ite (fun hl => ?_) fun hl => ?_
        · -- the last page
          refine .ok ⟨F, L1, 1, rfl, hedit2.congr fun j hj => ?_, honly2, fun j h1 h2 => ?_,
            by omega, fun _ => ⟨?_, by omega⟩, nofun⟩
          · by_cases hjk : j = k
            · subst hjk
              rw [if_pos rfl, if_pos (by omega), Nat.sub_self, Nat.zero_mul, Nat.add_zero,
                Nat.mod_eq_of_lt hpa]
            · rw [if_neg hjk, if_neg (by omega), hedit.leaf j hj]
          · rwa [show j = k by omega]
          · rw [← hl]
            unfold pgsize
            omega
        · have hnext : (k * pgsize + pgsize) % 2 ^ 64 = (k + 1) * pgsize := by
            unfold pgsize
            omega
          rw [hnext]
          have hleaf2 : ∀ j, k + 1 ≤ j → j < 2 ^ 27 → leaf m2 r j = leaf m r j := by
            intro j h1 h2
            rw [hst.leaf j h2, if_neg (by omega), hedit.leaf j h2]
          -- `last` is a page address other than that of `k`
          have hlast' : last < (k + 1) * pgsize → last < k * pgsize := by
            unfold pgsize at *
            omega
          refine (ih hedit2.pt (Nat.mod_lt _ (by decide)) (by omega)).mono ?_ ?_
          · rintro ok m' ⟨F', L', n, rfl, hedit', honly', hun, hn, htrue, hfalse⟩
            refine ⟨F ++ F', L', n + 1, by rw [List.append_assoc], ?_, ?_, ?_, by omega, ?_, ?_⟩
            · refine (hedit2.trans hedit').congr fun j hj => ?_
              by_cases hjk : j = k
              · subst hjk
                rw [if_neg (by omega), if_pos (by omega), hst.leaf j hj, if_pos rfl, Nat.sub_self,
                  Nat.zero_mul, Nat.add_zero, Nat.mod_eq_of_lt hpa]
              · by_cases hr : k + 1 ≤ j ∧ j < k + 1 + n
                · have hpa' : ((pa + pgsize) % 2 ^ 64 + (j - (k + 1)) * pgsize) % 2 ^ 64 =
                      (pa + (j - k) * pgsize) % 2 ^ 64 := by
                    unfold pgsize
                    omega
                  rw [if_pos hr, if_pos (by omega), hpa']
                · rw [if_neg hr, if_neg (by omega), hst.leaf j hj, if_neg hjk, hedit.leaf j hj]
            · refine (honly2.mono ?_).trans (honly'.mono ?_)
              · rintro f (hf | hf)
                · exact .inl hf
                · exact .inr (List.mem_append_left _ hf)
              · rintro f (hf | hf)
                · rw [hedit2.tables, Multiset.mem_add, Multiset.mem_coe] at hf
                  exact hf.imp_right (List.mem_append_left _)
                · exact .inr (List.mem_append_right _ hf)
            · intro j h1 h2
              rcases Nat.eq_or_lt_of_le h1 with rfl | h1
              · exact hv
              · rw [← hleaf2 j h1 (by omega)]
                exact hun j h1 (by omega)
            · intro hok
              have := htrue hok
              rw [show k + (n + 1) = k + 1 + n by omega]
              omega
            · intro hok
              have := hfalse hok
              rw [show k + (n + 1) = k + 1 + n by omega]
              exact ⟨this.1, this.2.imp_left hlast'⟩
          · rintro _ ⟨j, h1, h2, h3⟩
            refine ⟨j, by omega, h2.imp_left hlast', ?_⟩
            rcases Nat.lt_or_ge j (2 ^ 26) with hj | hj
            · rw [← hleaf2 j h1 (by omega)]
              exact h3
            · exact .inl hj

theorem pgrounddown_mod (a : ℕ) : pgrounddown a % pgsize = 0 := Nat.mul_mod_left _ _

/-- **`mappages`** maps the first `n` pages from the one of `va` on: up to the page of
`va + size - 1` if it succeeds, fewer if it returns `-1` for lack of a free frame. -/
theorem mappages_spec {size : ℕ} (h : Pt m r L)
    (hsize : size ≠ 0) (hpa : pa < 2 ^ 64) (hperm : perm < 2 ^ 64) :
    Outcome (mappages (r * pgsize) va size pa perm m)
      (fun ok m' => ∃ F L' n, L = F ++ L' ∧
        Edit m m' r F L' (fun j => if va / pgsize ≤ j ∧ j < va / pgsize + n
          then pteOf ((pa + (j - va / pgsize) * pgsize) % 2 ^ 64) perm else leaf m r j) ∧
        Only m m' (fun f => f ∈ tables m r ∨ f ∈ F) ∧
        (∀ j, va / pgsize ≤ j → j < va / pgsize + n → ¬ leaf m r j &&& pteV ≠ 0) ∧
        (ok = true →
          (va / pgsize + n) * pgsize = pgrounddown ((va + size - 1) % 2 ^ 64) + pgsize) ∧
        (ok = false → L' = [] ∧ (pgrounddown ((va + size - 1) % 2 ^ 64) < va / pgsize * pgsize ∨
          (va / pgsize + n) * pgsize ≤ pgrounddown ((va + size - 1) % 2 ^ 64))))
      fun _ => ∃ j, va / pgsize ≤ j ∧ (pgrounddown ((va + size - 1) % 2 ^ 64) < pgrounddown va ∨
        j * pgsize ≤ pgrounddown ((va + size - 1) % 2 ^ 64)) ∧
        (2 ^ 26 ≤ j ∨ leaf m r j &&& pteV ≠ 0) := by
  rw [mappages, Run.ite_run, if_neg hsize]
  have hfuel : 2 ^ 26 < va / pgsize + (maxva / pgsize + 1) := by
    rw [show maxva / pgsize = 2 ^ 26 by decide]
    exact Nat.lt_of_lt_of_le (by decide) (Nat.le_add_left _ _)
  refine (mappagesLoop_spec hperm (pgrounddown_mod _) _ (k := va / pgsize) h hpa hfuel).imp ?_
  rintro ok m' ⟨F, L', n, rfl, hedit, honly, hnew, -, htrue, hfalse⟩
  exact ⟨F, L', n, rfl, hedit, honly, hnew, fun hok => (htrue hok).1.symm, hfalse⟩

/-- Mapping one page that has no mapping: it is mapped, or no entry changes because there is no
frame left for a page-table page. -/
theorem mappages_one (h : Pt m r L) (hk : k < 2 ^ 26)
    (hpa : pa < 2 ^ 64) (hperm : perm < 2 ^ 64) (hfree : ¬ leaf m r k &&& pteV ≠ 0) :
    Outcome (mappages (r * pgsize) (k * pgsize) pgsize pa perm m)
      (fun ok m' => ∃ F L', L = F ++ L' ∧ Only m m' (fun f => f ∈ tables m r ∨ f ∈ F) ∧
        Edit m m' r F L' (fun j => if ok = true ∧ j = k then pteOf pa perm else leaf m r j) ∧
        (ok = false → L' = []))
      fun _ => False := by
  have hlast : pgrounddown ((k * pgsize + pgsize - 1) % 2 ^ 64) = k * pgsize := by
    unfold pgrounddown pgsize
    omega
  refine (mappages_spec h (by decide) hpa hperm).mono ?_ ?_
  · rintro ok m' ⟨F, L', n, rfl, hedit, honly, -, htrue, hfalse⟩
    rw [hlast, addr_div] at htrue hfalse
    rw [addr_div] at hedit
    refine ⟨F, L', rfl, honly, hedit.congr fun j _ => ?_, fun hok => (hfalse hok).1⟩
    cases ok with
    | true =>
      have hn : n = 1 := by
        have := htrue rfl
        unfold pgsize at this
        omega
      subst hn
      by_cases hj : j = k
      · subst hj
        rw [if_pos (by omega), if_pos ⟨rfl, rfl⟩, Nat.sub_self, Nat.zero_mul, Nat.add_zero,
          Nat.mod_eq_of_lt hpa]
      · rw [if_neg (by omega), if_neg fun h => hj h.2]
    | false =>
      have hn : n = 0 := by
        have := (hfalse rfl).2
        unfold pgsize at this
        omega
      subst hn
      rw [if_neg (by omega), if_neg nofun]
  · rintro _ ⟨j, h1, h2, h3⟩
    rw [hlast] at h2
    rw [addr_div] at h1
    have hj : j = k := by
      unfold pgrounddown pgsize at h2
      omega
    subst hj
    rcases h3 with h3 | h3
    · omega
    · exact hfree h3

/-! ## `uvmunmap` -/

/-- The frames of pages `k, …, k + n - 1`, the last one first: the order in which freeing them
puts them on the free list. -/
def dropped (m : Mem) (r k n : ℕ) : List ℕ :=
  ((List.range' k n).map fun j => pteFrame (leaf m r j)).reverse

theorem dropped_succ (m : Mem) (r k n : ℕ) :
    dropped m r k (n + 1) = dropped m r (k + 1) n ++ [pteFrame (leaf m r k)] := by
  simp [dropped, List.range'_succ]

theorem dropped_congr {n : ℕ}
    (h : ∀ j, k ≤ j → j < k + n → leaf m' r j = leaf m r j) : dropped m' r k n = dropped m r k n := by
  have : (List.range' k n).map (fun j => pteFrame (leaf m' r j)) =
      (List.range' k n).map fun j => pteFrame (leaf m r j) := by
    refine List.map_congr_left fun j hj => ?_
    rw [List.mem_range'_1] at hj
    rw [h j hj.1 hj.2]
  rw [dropped, this, dropped]

/-- An entry that `uvmunmap` removes without a panic. -/
structure Removable (m : Mem) (doFree : Bool) (e : ℕ) : Prop where
  valid : e &&& pteV ≠ 0
  isLeaf : pteFlags e ≠ pteV
  usable : doFree = true → m.Usable (pteFrame e)

/-- The frames that `uvmunmap` is to free are neither free nor frames of the table, and each of
them is mapped once. -/
structure Freeable (m : Mem) (r : ℕ) (L : List ℕ) (k n : ℕ) : Prop where
  frame : ∀ j, k ≤ j → j < k + n → leaf m r j &&& pteV ≠ 0 →
    pteFrame (leaf m r j) ∉ tables m r ∧ pteFrame (leaf m r j) ∉ L
  once : ∀ i j, k ≤ i → i < k + n → k ≤ j → j < k + n → leaf m r i &&& pteV ≠ 0 →
    leaf m r j &&& pteV ≠ 0 → pteFrame (leaf m r i) = pteFrame (leaf m r j) → i = j

/-- One round of `uvmunmap`: the frame is freed if it is to be, and the entry cleared. -/
theorem unmap_step (doFree : Bool) (h : Pt m r L)
    (hk : k < 2 ^ 27) (hq : shape.find m.word 2 r k = some q)
    (husable : doFree = true → m.Usable (pteFrame (leaf m r k)))
    (hfr : doFree = true → pteFrame (leaf m r k) ∉ tables m r ∧ pteFrame (leaf m r k) ∉ L) :
    ∃ m1 D, D = (if doFree = true then [pteFrame (leaf m r k)] else []) ∧
      kfreeIf doFree (pte2pa (leaf m r k)) m = .ok ((), m1) ∧
      Edit m (m1.setWord q.1 q.2 0) r [] (D ++ L) (fun j => if j = k then 0 else leaf m r j) ∧
      Only m (m1.setWord q.1 q.2 0) fun f => f ∈ tables m r ∨ f ∈ D := by
  cases doFree with
  | false =>
    obtain ⟨hedit, honly⟩ := store_spec h hk hq (by decide : 0 < 2 ^ 64)
    exact ⟨m, [], rfl, rfl, hedit, honly.mono fun f hf => .inl hf⟩
  | true =>
    obtain ⟨hT, hL⟩ := hfr rfl
    set f := pteFrame (leaf m r k)
    obtain ⟨m1, hrun, hfree, honly⟩ := kfree_spec h.free (husable rfl) hL
    have heq : ∀ g ∈ tables m r, m1.page g = m.page g := by
      intro g hg
      refine honly.page g ?_
      rintro rfl
      exact hT hg
    have hpt : Pt m1 r (f :: L) := by
      refine h.congr heq hfree fun g hg => ?_
      rcases List.mem_cons.1 hg with rfl | hg
      · exact hT
      · exact h.apart g hg
    obtain ⟨hedit, honly'⟩ := store_spec hpt hk ((find_congr heq k).trans hq)
      (by decide : 0 < 2 ^ 64)
    refine ⟨m1, [f], rfl, ?_, ⟨hedit.pt, ?_, fun j hj => ?_⟩, ?_⟩
    · rw [kfreeIf, if_pos rfl, pte2pa_eq]
      exact hrun
    · rw [hedit.tables, tables_congr heq]
    · rw [hedit.leaf j hj, leaf_congr heq]
    · refine (honly.mono fun g hg => .inr (by simpa using hg)).trans (honly'.mono fun g hg => ?_)
      rw [tables_congr heq] at hg
      exact .inl hg

/-- The `n` pages from `k` on are unmapped, and with `doFree` their frames are free. -/
def Unmapped (r : ℕ) (L : List ℕ) (k n : ℕ) (doFree : Bool) (m m' : Mem) : Prop :=
  ∃ D, D = (if doFree = true then dropped m r k n else []) ∧
    Edit m m' r [] (D ++ L) (fun j => if k ≤ j ∧ j < k + n then 0 else leaf m r j) ∧
    Only m m' (fun f => f ∈ tables m r ∨ f ∈ D) ∧
    ∀ j, k ≤ j → j < k + n → Removable m doFree (leaf m r j)

theorem uvmunmapLoop_spec (doFree : Bool) :
    ∀ (n : ℕ) {m : Mem} {L : List ℕ} {k : ℕ}, Pt m r L → k + n ≤ 2 ^ 26 →
      (doFree = true → Freeable m r L k n) →
      Outcome (uvmunmapLoop (r * pgsize) ((k + n) * pgsize) doFree n (k * pgsize) m)
        (fun _ => Unmapped r L k n doFree m)
        fun _ => ∃ j, k ≤ j ∧ j < k + n ∧ ¬ Removable m doFree (leaf m r j) := by
  intro n
  induction n with
  | zero =>
    intro m L k h _ _
    refine .ok ⟨[], by split <;> rfl, ⟨h, by simp, fun j _ => ?_⟩, Only.refl _ _, fun j h1 h2 => ?_⟩
    · rw [if_neg (by omega)]
    · omega
  | succ n ih =>
    intro m L k h hk hfr
    have hlt : k * pgsize < (k + (n + 1)) * pgsize := by
      unfold pgsize
      omega
    have hva : k * pgsize < maxva := by
      unfold maxva pgsize
      omega
    have hbad : ¬ Removable m doFree (leaf m r k) →
        ∃ j, k ≤ j ∧ j < k + (n + 1) ∧ ¬ Removable m doFree (leaf m r j) :=
      fun hb => ⟨k, le_rfl, by omega, hb⟩
    rw [uvmunmapLoop, Run.ite_run, if_pos hlt]
    refine .bind_ok (walk_lookup m r hva) ?_
    rw [addr_div]
    cases hq : shape.find m.word 2 r k with
    | none =>
      refine .error (hbad fun hr => hr.valid ?_)
      unfold leaf Shape.value
      rw [hq, Option.elim_none, shape_nil]
      rfl
    | some q =>
      refine .bind_ok (t := m) (a := leaf m r k) (by rw [leaf_of_find hq]; rfl) ?_
      refine .ite (fun hv => .error (hbad fun hr => hr.valid hv)) fun hv => ?_
      refine .ite (fun hl => .error (hbad fun hr => hr.isLeaf hl)) fun hl => ?_
      by_cases hu : doFree = true → m.Usable (pteFrame (leaf m r k))
      swap
      · push Not at hu
        refine .bind_error (e := .panic "kfree") ?_ (hbad fun hr => hu.2 (hr.usable hu.1))
        rw [kfreeIf, if_pos hu.1, pte2pa_eq, kfree_unusable hu.2]
      have hgood0 : Removable m doFree (leaf m r k) := ⟨hv, hl, hu⟩
      obtain ⟨m1, D, hD, hrun, hedit, honly⟩ := unmap_step doFree h (by omega) hq hu fun hd =>
        (hfr hd).frame k le_rfl (by omega) hv
      refine .bind_ok hrun (.bind_ok (t := m1.setWord q.1 q.2 0) (a := ()) rfl ?_)
      set m2 := m1.setWord q.1 q.2 0
      have hnext : (k * pgsize + pgsize) % 2 ^ 64 = (k + 1) * pgsize := by
        unfold pgsize
        omega
      rw [hnext, show k + (n + 1) = k + 1 + n by omega]
      have hleaf : ∀ j, k + 1 ≤ j → j < 2 ^ 27 → leaf m2 r j = leaf m r j := by
        intro j h1 h2
        rw [hedit.leaf j h2, if_neg (by omega)]
      have htab : tables m2 r = tables m r := by
        rw [hedit.tables]
        simp
      have hrem : ∀ j, k + 1 ≤ j → j < k + 1 + n →
          (Removable m2 doFree (leaf m2 r j) ↔ Removable m doFree (leaf m r j)) := by
        intro j h1 h2
        rw [hleaf j h1 (by omega)]
        exact ⟨fun hr => ⟨hr.valid, hr.isLeaf, fun hd => honly.usable.1 (hr.usable hd)⟩,
          fun hr => ⟨hr.valid, hr.isLeaf, fun hd => honly.usable.2 (hr.usable hd)⟩⟩
      refine (ih hedit.pt (by omega) fun hd => ⟨fun j h1 h2 hvj => ?_, ?_⟩).mono ?_ ?_
      · -- the frame of a later page is not the one just freed
        rw [hleaf j h1 (by omega)] at hvj ⊢
        obtain ⟨hT, hL⟩ := (hfr hd).frame j (by omega) (by omega) hvj
        rw [htab, hD, if_pos hd]
        refine ⟨hT, fun hm => ?_⟩
        rcases List.mem_cons.1 hm with hm | hm
        · have := (hfr hd).once j k (by omega) (by omega) le_rfl (by omega) hvj hv hm
          omega
        · exact hL hm
      · intro i j h1 h2 h3 h4
        rw [hleaf i h1 (by omega), hleaf j h3 (by omega)]
        exact (hfr hd).once i j (by omega) (by omega) (by omega) (by omega)
      · rintro _ m' ⟨D', hD', hedit', honly', hgood⟩
        have hDD : D' ++ D = if doFree = true then dropped m r k (n + 1) else [] := by
          rw [hD', hD, dropped_succ, dropped_congr fun j h1 h2 => hleaf j h1 (by omega)]
          split <;> rfl
        refine ⟨D' ++ D, hDD, ?_, ?_, fun j h1 h2 => ?_⟩
        · rw [List.append_assoc]
          refine (hedit.trans hedit').congr fun j hj => ?_
          by_cases hjk : j = k
          · subst hjk
            rw [if_neg (by omega), hedit.leaf j hj, if_pos rfl, if_pos (by omega)]
          · by_cases hr : k + 1 ≤ j ∧ j < k + 1 + n
            · rw [if_pos hr, if_pos (by omega)]
            · rw [if_neg hr, if_neg (by omega), hedit.leaf j hj, if_neg hjk]
        · refine (honly.mono ?_).trans (honly'.mono ?_)
          · rintro f (hf | hf)
            · exact .inl hf
            · exact .inr (List.mem_append_right _ hf)
          · rintro f (hf | hf)
            · exact .inl (htab ▸ hf)
            · exact .inr (List.mem_append_left _ hf)
        · rcases Nat.eq_or_lt_of_le h1 with hjk | h1
          · rw [← hjk]
            exact hgood0
          · exact (hrem j h1 (by omega)).1 (hgood j h1 (by omega))
      · rintro _ ⟨j, h1, h2, h3⟩
        exact ⟨j, by omega, by omega, fun hr => h3 ((hrem j h1 h2).2 hr)⟩

/-- **`uvmunmap`** clears the entries of its pages and puts their frames on the free list with
`doFree`. It panics only at an entry that it cannot remove. -/
theorem uvmunmap_spec {n : ℕ} (doFree : Bool) (h : Pt m r L)
    (hk : k + n ≤ 2 ^ 26) (hfr : doFree = true → Freeable m r L k n) :
    Outcome (uvmunmap (r * pgsize) (k * pgsize) n doFree m)
      (fun _ => Unmapped r L k n doFree m)
      fun _ => ∃ j, k ≤ j ∧ j < k + n ∧ ¬ Removable m doFree (leaf m r j) := by
  have hstop : (k * pgsize + n * pgsize) % 2 ^ 64 = (k + n) * pgsize := by
    unfold pgsize
    omega
  have hal : k * pgsize % pgsize = 0 := Nat.mul_mod_left _ _
  rw [uvmunmap, Run.ite_run, if_neg (by rw [hal]; decide), hstop]
  exact uvmunmapLoop_spec doFree n h hk hfr

end Xv6.Vm
