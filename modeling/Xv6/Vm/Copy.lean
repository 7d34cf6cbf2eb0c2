import Xv6.Vm.Map
import Xv6.Vm.User

/-!
# Copying to user memory

What `walkaddr` and `copyout` do.

* `walkaddr_eq`: `walkaddr` accepts the pages with `PTE_V` and `PTE_U`.
* `copyout_spec`: `copyout` writes the bytes of its range up to the first page that is not open
  to the user, and nothing else, unless it writes over the page table itself.
* `copyout_protects`: `copyout` asks for `PTE_U` where it should ask for `PTE_W`. It respects the
  pages that are not writable exactly when it comes to none of their frames.
-/

namespace Xv6.Vm

open Lib

/-- The entry lets a user access the page, as far as `walkaddr` looks at it. -/
def UserPte (e : ℕ) : Prop := e &&& pteV ≠ 0 ∧ e &&& pteU ≠ 0

instance : DecidablePred UserPte := fun _ => inferInstanceAs (Decidable (_ ∧ _))

/-- The pages that `walkaddr` finds. -/
def Open (m : Mem) (r k : ℕ) : Prop :=
  k < 2 ^ 26 ∧ UserPte (leaf m r k) ∧ pteFrame (leaf m r k) ≠ 0

variable {va : ℕ}

theorem pageno_lt : va / pgsize < 2 ^ 26 ↔ va < maxva := by
  unfold maxva pgsize
  omega

/-- **`walkaddr`** returns the address of the frame of an open page, and `0` for others. -/
theorem walkaddr_eq (m : Mem) (r va : ℕ) :
    walkaddr (r * pgsize) va m = .ok (if va < maxva ∧ UserPte (leaf m r (va / pgsize))
      then pteFrame (leaf m r (va / pgsize)) * pgsize else 0, m) := by
  rw [walkaddr, Run.ite_run]
  by_cases hva : maxva ≤ va
  · rw [if_pos hva, if_neg fun h => Nat.not_lt.2 hva h.1, Run.pure_run]
  · rw [if_neg hva, Run.bind_of_ok (walk_lookup m r (Nat.not_le.1 hva))]
    cases hq : shape.find m.word 2 r (va / pgsize) with
    | none =>
      have hleaf : leaf m r (va / pgsize) = 0 := by
        unfold leaf Shape.value
        rw [hq, Option.elim_none, shape_nil]
      rw [hleaf, if_neg fun h => h.2.1 rfl]
      rfl
    | some q =>
      dsimp only
      rw [Run.bind_of_ok (t := m) (a := leaf m r (va / pgsize)) (by rw [leaf_of_find hq]; rfl),
        Run.ite_run, Run.ite_run]
      by_cases hv : leaf m r (va / pgsize) &&& pteV = 0
      · rw [if_pos hv, if_neg fun h => h.2.1 hv, Run.pure_run]
      · by_cases hu : leaf m r (va / pgsize) &&& pteU = 0
        · rw [if_neg hv, if_pos hu, if_neg fun h => h.2.2 hu, Run.pure_run]
        · rw [if_neg hv, if_neg hu, if_pos ⟨Nat.not_le.1 hva, hv, hu⟩, Run.pure_run, pte2pa_eq]

variable {m : Mem} {r : ℕ}

theorem walkaddr_open (h : Open m r (va / pgsize)) :
    walkaddr (r * pgsize) (pgrounddown va) m =
      .ok (pteFrame (leaf m r (va / pgsize)) * pgsize, m) ∧
      pteFrame (leaf m r (va / pgsize)) * pgsize ≠ 0 := by
  have hdown : pgrounddown va / pgsize = va / pgsize := addr_div _
  have hlt : pgrounddown va < maxva := pageno_lt.1 (hdown.symm ▸ h.1)
  refine ⟨?_, Nat.mul_ne_zero h.2.2 (by decide)⟩
  rw [walkaddr_eq, hdown, if_pos ⟨hlt, h.2.1⟩]

theorem walkaddr_closed (h : ¬ Open m r (va / pgsize)) :
    walkaddr (r * pgsize) (pgrounddown va) m = .ok (0, m) := by
  have hdown : pgrounddown va / pgsize = va / pgsize := addr_div _
  rw [walkaddr_eq, hdown]
  split
  · next hc =>
    have : pteFrame (leaf m r (va / pgsize)) = 0 := by
      by_contra hne
      exact h ⟨hdown ▸ pageno_lt.2 hc.1, hc.2, hne⟩
    rw [this, Nat.zero_mul]
  · rfl

variable {len : ℕ}

/-- One round of copying at `va`: the bytes up to the end of the page, or `len` of them. -/
theorem Open.round {n : ℕ} (ho : Open m r (va / pgsize))
    (hn : n = min (pgsize - va % pgsize) len) : va % pgsize + n ≤ pgsize ∧ n ≤ len ∧
      (0 < len → 0 < n) ∧ (n < len → (pgrounddown va + pgsize) % 2 ^ 64 = va + n) ∧
      ∀ a, va ≤ a → a < va + n → a / pgsize = va / pgsize := by
  have hva := pageno_lt.1 ho.1
  unfold maxva at hva
  unfold pgrounddown
  unfold pgsize at *
  refine ⟨by omega, by omega, by omega, fun h => ?_, fun a h1 h2 => by omega⟩
  -- below `maxva` the address of the next page does not wrap
  rw [Nat.mod_eq_of_lt] <;> omega

theorem sub_pgrounddown (va : ℕ) : va - pgrounddown va = va % pgsize := by
  unfold pgrounddown pgsize
  omega

/-- The frame of user address `a`. -/
def frameAt (m : Mem) (r a : ℕ) : ℕ := pteFrame (leaf m r (a / pgsize))

/-- The byte at user address `a`. -/
def byteAt (m : Mem) (r a : ℕ) : UInt8 := (m.page (frameAt m r a)).get (a % pgsize)

/-! ## Which bytes are reached -/

/-- Of the `len` bytes at `va`, the first `c` are those before the first page that is not open. -/
structure Reached (m : Mem) (r va len c : ℕ) : Prop where
  le : c ≤ len
  opened : ∀ j < c, Open m r ((va + j) / pgsize)
  closed : c < len → ¬ Open m r ((va + c) / pgsize)

theorem Reached.exists (m : Mem) (r va len : ℕ) : ∃ c, Reached m r va len c := by
  induction len with
  | zero => exact ⟨0, le_rfl, nofun, nofun⟩
  | succ len ih =>
    obtain ⟨c, hc⟩ := ih
    rcases Nat.lt_or_eq_of_le hc.le with hlt | rfl
    · exact ⟨c, by omega, hc.opened, fun _ => hc.closed hlt⟩
    by_cases ho : Open m r ((va + c) / pgsize)
    · refine ⟨c + 1, le_rfl, fun j hj => ?_, fun h => absurd h (lt_irrefl _)⟩
      rcases Nat.lt_succ_iff_lt_or_eq.1 hj with hj | rfl
      · exact hc.opened j hj
      · exact ho
    · exact ⟨c, by omega, hc.opened, fun _ => ho⟩

variable {c n : ℕ}

theorem Reached.eq_len_iff (h : Reached m r va len c) :
    c = len ↔ ∀ j < len, Open m r ((va + j) / pgsize) := by
  refine ⟨fun hc => hc ▸ h.opened, fun ho => ?_⟩
  by_contra hne
  have hlt := Nat.lt_of_le_of_ne h.le hne
  exact h.closed hlt (ho c hlt)

theorem Reached.eq_zero (h : Reached m r va len c) (ho : ¬ Open m r (va / pgsize)) : c = 0 := by
  by_contra hne
  exact ho (h.opened 0 (Nat.pos_of_ne_zero hne))

/-- Going on behind `n` bytes of an open page. -/
theorem Reached.round (h : Reached m r va len c) (ho : Open m r (va / pgsize))
    (hn : n = min (pgsize - va % pgsize) len) :
    n ≤ c ∧ Reached m r (va + n) (len - n) (c - n) := by
  obtain ⟨-, hle, -, -, hpage⟩ := ho.round hn
  obtain ⟨hc, hopened, hclosed⟩ := h
  have hnc : n ≤ c := by
    by_contra hlt
    refine hclosed (by omega) ?_
    rwa [hpage _ (by omega) (by omega)]
  refine ⟨hnc, by omega, fun j hj => ?_, fun hlt => ?_⟩
  · rw [Nat.add_assoc]
    exact hopened _ (by omega)
  · rw [Nat.add_assoc, Nat.add_sub_cancel' hnc]
    exact hclosed (by omega)

/-- The pages of the range that `copyout` comes to are no page-table pages. -/
def Apart (m : Mem) (r va len : ℕ) : Prop :=
  ∀ c, Reached m r va len c → ∀ j < c, frameAt m r (va + j) ∉ tables m r

/-! ## What is written -/

variable {m' : Mem} {src : ℕ → UInt8}

theorem open_congr (h : ∀ f ∈ tables m r, m'.page f = m.page f) (k : ℕ) :
    Open m' r k ↔ Open m r k := by
  unfold Open
  rw [leaf_congr h]

theorem frameAt_congr (h : ∀ f ∈ tables m r, m'.page f = m.page f) (a : ℕ) :
    frameAt m' r a = frameAt m r a := by
  unfold frameAt
  rw [leaf_congr h]

/-- The `j`-th byte from `va` on has its place at offset `i` of frame `f`. -/
def At (m : Mem) (r va f i j : ℕ) : Prop := frameAt m r (va + j) = f ∧ (va + j) % pgsize = i

/-- What `copyout` has done when it has copied `c` bytes to `va`. A place of memory to which bytes
of the range came holds the last of them, the others are as they were. -/
structure Copied (m m' : Mem) (r va : ℕ) (src : ℕ → UInt8) (c : ℕ) : Prop where
  freelist : m'.freelist = m.freelist
  kend : m'.kend = m.kend
  bytes : ∀ f, ∀ i < pgsize,
    (∃ j < c, At m r va f i j ∧ (∀ k < c, At m r va f i k → k ≤ j) ∧ (m'.page f).get i = src j) ∨
      (∀ j < c, ¬ At m r va f i j) ∧ (m'.page f).get i = (m.page f).get i

/-- Frames that the range does not come to are as they were. -/
theorem Copied.page_eq (h : Copied m m' r va src c) {f : ℕ}
    (hf : ∀ j < c, frameAt m r (va + j) ≠ f) : m'.page f = m.page f := by
  refine Bytes.ext_get fun i hi => ?_
  rcases h.bytes f i hi with ⟨j, hj, hat, -⟩ | ⟨-, heq⟩
  · exact absurd hat.1 (hf j hj)
  · exact heq

theorem Copied.refl (m : Mem) (r va : ℕ) (src : ℕ → UInt8) : Copied m m r va src 0 :=
  ⟨rfl, rfl, fun _ _ _ => .inr ⟨nofun, rfl⟩⟩

/-- One round of `copyout`: the part of the range in the page of `va`. -/
theorem Copied.page (m : Mem) (r : ℕ) (src : ℕ → UInt8) (hc : va % pgsize + c ≤ pgsize) :
    Copied m (m.setPage (frameAt m r va)
      ((m.page (frameAt m r va)).write (va % pgsize) c src)) r va src c := by
  have hat : ∀ j < c, ∀ f i, At m r va f i j ↔ frameAt m r va = f ∧ va % pgsize + j = i := by
    intro j hj f i
    have hpage : (va + j) / pgsize = va / pgsize ∧ (va + j) % pgsize = va % pgsize + j := by
      unfold pgsize at *
      omega
    unfold At frameAt
    rw [hpage.1, hpage.2]
  refine ⟨rfl, rfl, fun f i hi => ?_⟩
  by_cases hin : frameAt m r va = f ∧ va % pgsize ≤ i ∧ i < va % pgsize + c
  · obtain ⟨rfl, h1, h2⟩ := hin
    refine .inl ⟨i - va % pgsize, by omega, (hat _ (by omega) _ _).2 ⟨rfl, by omega⟩,
      fun k hk hk' => ?_, ?_⟩
    · have := ((hat k hk _ _).1 hk').2
      omega
    · rw [Mem.setPage_page, Bytes.get_write _ _ _ _ hi, if_pos ⟨h1, h2⟩]
  · refine .inr ⟨fun j hj hj' => ?_, ?_⟩
    · obtain ⟨h1, h2⟩ := (hat j hj _ _).1 hj'
      exact hin ⟨h1, by omega, by omega⟩
    · by_cases hf : frameAt m r va = f
      · subst hf
        rw [Mem.setPage_page, Bytes.get_write _ _ _ _ hi, if_neg fun h => hin ⟨rfl, h⟩]
      · rw [Mem.setPage_page_ne _ _ (Ne.symm hf)]

/-- Copying on from where the first part ended. -/
theorem Copied.append {m'' : Mem} {d : ℕ} {src' : ℕ → UInt8} (h : Copied m m' r va src c)
    (heq : ∀ f ∈ tables m r, m'.page f = m.page f) (h' : Copied m' m'' r (va + c) src' d)
    (hsrc : ∀ k, src' k = src (c + k)) : Copied m m'' r va src (c + d) := by
  have hat : ∀ f i j, At m' r (va + c) f i j ↔ At m r va f i (c + j) := by
    intro f i j
    unfold At
    rw [frameAt_congr heq, Nat.add_assoc]
  refine ⟨h'.freelist.trans h.freelist, h'.kend.trans h.kend, fun f i hi => ?_⟩
  rcases h'.bytes f i hi with ⟨j, hj, hj', hlast, hb⟩ | ⟨hno, hb⟩
  · refine .inl ⟨c + j, by omega, (hat _ _ _).1 hj', fun k hk hk' => ?_, by rw [hb, hsrc]⟩
    rcases Nat.lt_or_ge k c with hkc | hkc
    · omega
    · have := hlast (k - c) (by omega) ((hat _ _ _).2 (by rwa [Nat.add_sub_cancel' hkc]))
      omega
  · -- the second part did not come to this place
    have hfirst : ∀ k < c + d, At m r va f i k → k < c := by
      intro k hk hk'
      by_contra hkc
      refine hno (k - c) (by omega) ((hat _ _ _).2 ?_)
      rwa [Nat.add_sub_cancel' (Nat.not_lt.1 hkc)]
    rcases h.bytes f i hi with ⟨j, hj, hj', hlast, hb'⟩ | ⟨hno', hb'⟩
    · exact .inl ⟨j, by omega, hj', fun k hk hk' => hlast k (hfirst k hk hk') hk', by rw [hb, hb']⟩
    · exact .inr ⟨fun k hk hk' => hno' k (hfirst k hk hk') hk', by rw [hb, hb']⟩

/-- The loop ends without a panic, whatever it writes over. -/
theorem copyoutLoop_ok (r : ℕ) (src : ℕ → UInt8) : ∀ (fuel : ℕ) (m : Mem) (va off len : ℕ),
    ∃ p, copyoutLoop (r * pgsize) src fuel va off len m = .ok p := by
  intro fuel
  induction fuel with
  | zero => exact fun m _ _ _ => ⟨(true, m), rfl⟩
  | succ fuel ih =>
    intro m va off len
    rw [copyoutLoop, Run.ite_run]
    split
    · exact ⟨(true, m), rfl⟩
    obtain ⟨pa, hpa⟩ : ∃ pa, walkaddr (r * pgsize) (pgrounddown va) m = .ok (pa, m) :=
      ⟨_, walkaddr_eq _ _ _⟩
    rw [Run.bind_of_ok hpa, Run.ite_run]
    split
    · exact ⟨(false, m), rfl⟩
    · exact ih _ _ _ _

theorem copyoutLoop_spec (src : ℕ → UInt8) :
    ∀ (fuel off : ℕ) {m : Mem} {va len c : ℕ}, len ≤ fuel → Reached m r va len c →
      (∀ j < c, frameAt m r (va + j) ∉ tables m r) →
      ∃ m', copyoutLoop (r * pgsize) src fuel va off len m = .ok (decide (c = len), m') ∧
        Copied m m' r va (fun k => src (off + k)) c := by
  intro fuel
  induction fuel with
  | zero =>
    intro off m va len c hlen hc _
    obtain rfl := Nat.le_zero.1 hlen
    obtain rfl := Nat.le_zero.1 hc.le
    exact ⟨m, rfl, .refl _ _ _ _⟩
  | succ fuel ih =>
    intro off m va len c hlen hc hap
    rcases Nat.eq_zero_or_pos len with rfl | hpos
    · obtain rfl := Nat.le_zero.1 hc.le
      exact ⟨m, rfl, .refl _ _ _ _⟩
    rw [copyoutLoop, Run.ite_run, if_neg hpos.ne']
    by_cases ho : Open m r (va / pgsize)
    swap
    · obtain rfl := hc.eq_zero ho
      rw [Run.bind_of_ok (walkaddr_closed ho), Run.ite_run, if_pos rfl, decide_eq_false hpos.ne]
      exact ⟨m, rfl, .refl _ _ _ _⟩
    rw [Run.bind_of_ok (walkaddr_open ho).1, Run.ite_run, if_neg (walkaddr_open ho).2,
      sub_pgrounddown]
    set n := min (pgsize - va % pgsize) len with hn
    obtain ⟨hin, hle, hn0, hnext, -⟩ := ho.round hn
    obtain ⟨hnc, hrest⟩ := hc.round ho hn
    set m1 := m.setPage (frameAt m r va)
      ((m.page (frameAt m r va)).write (va % pgsize) n fun k => src (off + k))
    have hpa : (pteFrame (leaf m r (va / pgsize)) * pgsize + va % pgsize) / pgsize =
        frameAt m r va ∧
        (pteFrame (leaf m r (va / pgsize)) * pgsize + va % pgsize) % pgsize = va % pgsize := by
      unfold frameAt pgsize
      omega
    rw [Run.bind_of_ok (t := m1) (a := ()) (by rw [memmove, hpa.1, hpa.2]; rfl)]
    have hcop : Copied m m1 r va (fun k => src (off + k)) n := .page m r _ hin
    have heq : ∀ f ∈ tables m r, m1.page f = m.page f := fun f hf => hcop.page_eq fun j hj he =>
      hap j (by omega) (he ▸ hf)
    -- the rest is empty, or starts in the next page
    have hgo : ∃ m', copyoutLoop (r * pgsize) src fuel ((pgrounddown va + pgsize) % 2 ^ 64) (off + n)
        (len - n) m1 = .ok (decide (c - n = len - n), m') ∧
        Copied m1 m' r (va + n) (fun k => src (off + n + k)) (c - n) := by
      rcases Nat.lt_or_ge n len with hlt | hge
      · rw [hnext hlt]
        have := hn0 hpos
        refine ih _ (by omega) ⟨hrest.le, fun j hj => ?_, fun hlt => ?_⟩ fun j hj => ?_
        · exact (open_congr heq _).2 (hrest.opened j hj)
        · exact fun h => hrest.closed hlt ((open_congr heq _).1 h)
        · rw [frameAt_congr heq, tables_congr heq, Nat.add_assoc]
          exact hap _ (by omega)
      · have hcl := hc.le
        rw [show len - n = 0 by omega, show c - n = 0 by omega]
        exact ⟨m1, by cases fuel <;> rfl, .refl _ _ _ _⟩
    obtain ⟨m', hrun, hcop'⟩ := hgo
    have hdec : decide (c = len) = decide (c - n = len - n) := decide_eq_decide.2 (by omega)
    have happ := hcop.append heq hcop' fun k => by rw [Nat.add_assoc]
    rw [Nat.add_sub_cancel' hnc] at happ
    exact ⟨m', by rw [hrun, hdec], happ⟩

/-- **`copyout`** copies the bytes up to the first page that is not open, and writes nothing else. -/
theorem copyout_spec (src : ℕ → UInt8) (hc : Reached m r va len c) (h : Apart m r va len) :
    ∃ m', copyout (r * pgsize) va src len m = .ok (decide (c = len), m') ∧
      Copied m m' r va src c := by
  obtain ⟨m', hrun, hcop⟩ := copyoutLoop_spec src len 0 le_rfl hc (h c hc)
  simp only [Nat.zero_add] at hcop
  exact ⟨m', hrun, hcop⟩

/-! ## Pages without `PTE_W` -/

/-- The page is mapped by a PTE without `PTE_W`. -/
def ReadOnly (m : Mem) (r k : ℕ) : Prop :=
  k < 2 ^ 26 ∧ leaf m r k &&& pteV ≠ 0 ∧ leaf m r k &&& pteW = 0

/-- `copyout` changes no page without `PTE_W`, and returns `-1` if its range has such a page. -/
def Respects (m : Mem) (r va : ℕ) (src : ℕ → UInt8) (len : ℕ) : Prop :=
  ∃ ok m', copyout (r * pgsize) va src len m = .ok (ok, m') ∧
    (∀ k, ReadOnly m r k → m'.page (pteFrame (leaf m r k)) = m.page (pteFrame (leaf m r k))) ∧
    ((∃ j < len, ReadOnly m r ((va + j) / pgsize)) → ok = false)

/-- The frames that `copyout` comes to are not mapped without `PTE_W`, at the pages of the range or
at others. -/
def Writable (m : Mem) (r va len : ℕ) : Prop :=
  ∀ c, Reached m r va len c → ∀ j < c, ∀ k, ReadOnly m r k →
    frameAt m r (va + j) ≠ pteFrame (leaf m r k)

theorem Writable.respects (h : Apart m r va len) (hw : Writable m r va len) (src : ℕ → UInt8) :
    Respects m r va src len := by
  obtain ⟨c, hc⟩ := Reached.exists m r va len
  obtain ⟨m', hrun, hcop⟩ := copyout_spec src hc h
  refine ⟨_, m', hrun, fun k hk => hcop.page_eq fun j hj => hw c hc j hj k hk, ?_⟩
  rintro ⟨j, hj, hro⟩
  refine decide_eq_false ?_
  rintro rfl
  exact hw _ hc j hj _ hro rfl

/-- Where `copyout` comes to the frame of a page without `PTE_W`, a source that differs from what
is there shows it. -/
theorem Respects.writable (h : Apart m r va len) (hr : ∀ src, Respects m r va src len) :
    Writable m r va len := by
  intro c hc j hj k hk hf
  set f := pteFrame (leaf m r k)
  set i := (va + j) % pgsize
  set b := (m.page f).get i
  obtain ⟨ok, m', hrun, hpage, -⟩ := hr fun _ => b + 1
  obtain ⟨m'', hrun', hcop⟩ := copyout_spec (fun _ => b + 1) hc h
  cases hrun.symm.trans hrun'
  rcases hcop.bytes f i (Nat.mod_lt _ (by decide)) with ⟨_, -, -, -, hb⟩ | ⟨hno, -⟩
  · rw [hpage k hk] at hb
    have hnat := congrArg UInt8.toNat hb
    have hlt := b.toNat_lt
    rw [UInt8.toNat_add] at hnat
    change b.toNat = (b.toNat + 1) % 2 ^ 8 at hnat
    omega
  · exact hno j hj ⟨hf, rfl⟩

/-- What the kernel does while page `k` of a process stays mapped: it copies to the memory of the
process, where `copyout` comes to no page without `PTE_W`, maps and unmaps other pages of it, and
does the rest of its work in other frames. -/
inductive Served (r k : ℕ) (m : Mem) : Mem → Prop
  | refl : Served r k m m
  | copyout {m1 m2 : Mem} {va len : ℕ} {src : ℕ → UInt8} {ok : Bool} : Served r k m m1 →
      Apart m1 r va len → Writable m1 r va len →
      (∀ L, Free m1 L → ∀ j < len, Open m1 r ((va + j) / pgsize) → frameAt m1 r (va + j) ∉ L) →
      copyout (r * pgsize) va src len m1 = .ok (ok, m2) → Served r k m m2
  | mappages {m1 m2 : Mem} {va size pa perm : ℕ} {ok : Bool} : Served r k m m1 → pa < 2 ^ 64 →
      perm < 2 ^ 64 → mappages (r * pgsize) va size pa perm m1 = .ok (ok, m2) → Served r k m m2
  | uvmunmap {m1 m2 : Mem} {va npages : ℕ} {doFree : Bool} : Served r k m m1 →
      va + npages * pgsize ≤ maxva →
      (doFree = true → ∀ L, Free m1 L → Freeable m1 r L (va / pgsize) npages) →
      (∀ j, va / pgsize ≤ j → j < va / pgsize + npages →
        pteFrame (leaf m1 r j) ≠ pteFrame (leaf m1 r k)) →
      uvmunmap (r * pgsize) va npages doFree m1 = .ok ((), m2) → Served r k m m2
  | other {m1 m2 : Mem} {L : List ℕ} : Served r k m m1 →
      (∀ f, f ∈ tables m1 r ∨ f = pteFrame (leaf m1 r k) → m2.page f = m1.page f ∧ f ∉ L) →
      Free m2 L → Served r k m m2

/-- Page `k` has the entry `e` and the contents `b`, in a frame that is neither free nor a
page-table page. -/
structure Fixed (r k e : ℕ) (b : Page) (m : Mem) : Prop where
  free : ∃ L, Pt m r L ∧ pteFrame e ∉ L
  leaf : leaf m r k = e
  frame : pteFrame e ∉ tables m r
  page : m.page (pteFrame e) = b

theorem Served.fixed {k : ℕ} (hk : ReadOnly m r k)
    (h : Fixed r k (leaf m r k) (m.page (pteFrame (leaf m r k))) m) (hrun : Served r k m m') :
    Fixed r k (leaf m r k) (m.page (pteFrame (leaf m r k))) m' := by
  have hk27 : k < 2 ^ 27 := Nat.lt_trans hk.1 (by decide)
  induction hrun with
  | refl => exact h
  | @copyout m1 m2 va len src ok _ hap hw hoff hr ih =>
    obtain ⟨⟨L, hpt, hL⟩, hleaf, hframe, hpage⟩ := ih
    obtain ⟨c, hc⟩ := Reached.exists m1 r va len
    obtain ⟨m', hr', hcop⟩ := copyout_spec src hc hap
    cases hr.symm.trans hr'
    have heq : ∀ f ∈ tables m1 r, m2.page f = m1.page f := fun f hf =>
      hcop.page_eq fun j hj he => hap c hc j hj (he ▸ hf)
    have hfree : Free m2 L := hpt.free.congr hcop.freelist hcop.kend fun f hf =>
      hcop.page_eq fun j hj he =>
        hoff L hpt.free j (by have := hc.le; omega) (hc.opened j hj) (he ▸ hf)
    refine ⟨⟨L, hpt.congr heq hfree hpt.apart, hL⟩, by rw [leaf_congr heq, hleaf],
      by rwa [tables_congr heq], ?_⟩
    rw [hcop.page_eq fun j hj => ?_, hpage]
    have := hw c hc j hj k (by unfold ReadOnly; rwa [hleaf])
    rwa [hleaf] at this
  | mappages _ hpa hperm hr ih =>
    obtain ⟨⟨L, hpt, hL⟩, hleaf, hframe, hpage⟩ := ih
    obtain ⟨F, L', n, rfl, hedit, honly, hnew, -⟩ := mappages_edit hpt hpa hperm hr
    rw [List.mem_append, not_or] at hL
    refine ⟨⟨L', hedit.pt, hL.2⟩, ?_, ?_, by rw [honly.page _ (not_or.2 ⟨hframe, hL.1⟩), hpage]⟩
    · -- `mappages` panics rather than map a page again
      rw [hedit.leaf k hk27, if_neg fun hin => hnew k hin.1 hin.2 (hleaf ▸ hk.2.1), hleaf]
    · rw [hedit.tables, Multiset.mem_add]
      exact not_or.2 ⟨hframe, hL.1⟩
  | uvmunmap _ hva hfr hne hr ih =>
    obtain ⟨⟨L, hpt, hL⟩, hleaf, hframe, hpage⟩ := ih
    obtain ⟨-, D, hD, hedit, honly, -⟩ := uvmunmap_edit hpt hva (fun hd => hfr hd L hpt.free) hr
    have hDe : pteFrame (Vm.leaf m r k) ∉ D := by
      rw [hD]
      split
      · simp only [dropped, List.mem_reverse, List.mem_map, List.mem_range'_1]
        rintro ⟨j, hj, he⟩
        exact hne j hj.1 hj.2 (by rw [he, hleaf])
      · exact List.not_mem_nil
    refine ⟨⟨_, hedit.pt, by simp [hDe, hL]⟩, ?_, by rw [hedit.tables]; simpa using hframe,
      by rw [honly.page _ (not_or.2 ⟨hframe, hDe⟩), hpage]⟩
    rw [hedit.leaf k hk27, if_neg fun hin => hne k hin.1 hin.2 rfl, hleaf]
  | other _ heq hfree ih =>
    obtain ⟨⟨L, hpt, hL⟩, hleaf, hframe, hpage⟩ := ih
    have hkeep := heq _ (.inr (congrArg pteFrame hleaf.symm))
    have htab : ∀ f ∈ tables _ r, _ := fun f hf => (heq f (.inl hf)).1
    exact ⟨⟨_, hpt.congr htab hfree fun f hf ht => (heq f (.inl ht)).2 hf, hkeep.2⟩,
      by rw [leaf_congr htab, hleaf], by rwa [tables_congr htab], by rw [hkeep.1, hpage]⟩

/-- A process with a text page at 0, and with a data page behind it. -/
def textPage : Mem :=
  ((mappages (1 * pgsize) 0 pgsize kernbase (pteR ||| pteX ||| pteU) started).toOption.map
    Prod.snd).getD started
@[inherit_doc textPage] def textData : Mem :=
  ((mappages (1 * pgsize) pgsize pgsize (kernbase + pgsize) (pteR ||| pteW ||| pteU)
    textPage).toOption.map Prod.snd).getD textPage

theorem ok_of_fst {o : Except Fs.Stop (Bool × Mem)} (h : o.toOption.map Prod.fst = some true) :
    o = .ok (true, (o.toOption.map Prod.snd).getD m) := by
  cases o with
  | error e => cases h
  | ok p =>
    obtain ⟨ok, m'⟩ := p
    cases h
    rfl

/-- The two entries of `textData`. Its other frames are behind the kernel. -/
theorem textData_spec : Built 1 textData ∧
    (∀ j < 2 ^ 26, leaf textData 1 j =
      if j = 1 then pteOf (kernbase + pgsize) (pteR ||| pteW ||| pteU)
      else if j = 0 then pteOf kernbase (pteR ||| pteX ||| pteU) else 0) ∧
    ∀ f, f * pgsize < blank.kend → f ≠ 1 →
      f ∉ tables textData 1 ∧ ∀ L, Free textData L → f ∉ L := by
  obtain ⟨hfree, hpage⟩ := started_free
  obtain ⟨htab, hzero, -⟩ := zero_page hpage
  have hr : mappages (1 * pgsize) 0 pgsize kernbase (pteR ||| pteX ||| pteU) started =
      .ok (true, textPage) := ok_of_fst (by decide +kernel)
  have hr' : mappages (1 * pgsize) pgsize pgsize (kernbase + pgsize) (pteR ||| pteW ||| pteU)
      textPage = .ok (true, textData) := ok_of_fst (by decide +kernel)
  have hb := started_built.mappages (by decide) (by decide) hr
  obtain ⟨F, L, hF, honly, hedit, -⟩ := (mappages_one (k := 0) (Pt.zero hfree (by decide) hpage)
    (by decide) (by decide) (by decide) (by rw [hzero]; decide)).of_ok hr
  obtain ⟨F', L', rfl, honly', hedit', -⟩ := (mappages_one (k := 1) hedit.pt (by decide) (by decide)
    (by decide) (by rw [hedit.leaf 1 (by decide), hzero]; decide)).of_ok hr'
  have hkend : textData.kend = blank.kend := by
    rw [honly'.kend, honly.kend]
    decide +kernel
  have husable : ∀ f, f * pgsize < blank.kend → ∀ {m' L}, m'.kend = blank.kend → Free m' L →
      f ∉ L := fun f hf m' L hk hfr hL => by
    have := (hfr.usable f hL).1
    omega
  refine ⟨hb.mappages (by decide) (by decide) hr', fun j hj => ?_, fun f hf h1 =>
    ⟨?_, fun L => husable f hf hkend⟩⟩
  · rw [hedit'.leaf j (by omega), hedit.leaf j (by omega), hzero]
    simp
  · have hL := husable f hf (by decide +kernel) hfree
    simp only [hF, List.mem_append, not_or] at hL
    simp [hedit'.tables, hedit.tables, htab, h1, hL.1, hL.2.1]

/-- Neither loop comes to a page-table page of `textData`. -/
theorem textData_apart (va len : ℕ) : Apart textData 1 va len := by
  obtain ⟨-, hleaf, hfar⟩ := textData_spec
  intro c hc j hj
  obtain ⟨hlt, huser, -⟩ := hc.opened j hj
  unfold frameAt
  rw [hleaf _ hlt] at huser ⊢
  split
  · exact (hfar _ (by decide) (by decide)).1
  · rw [if_neg ‹_›] at huser
    split
    · exact (hfar _ (by decide) (by decide)).1
    · rw [if_neg ‹_›] at huser
      exact absurd huser (by decide)

/-- **`copyout` protects the pages without `PTE_W` exactly when it comes to none of their frames**,
whatever is copied. Under that condition they keep their contents as long as they are mapped,
whatever the kernel does for the process. -/
theorem copyout_protects (m : Mem) (r : ℕ) :
    (∀ va len, Apart m r va len → ((∀ src, Respects m r va src len) ↔ Writable m r va len)) ∧
      ∀ k, Built r m → ReadOnly m r k → pteFrame (leaf m r k) ∉ tables m r →
        (∀ L, Free m L → pteFrame (leaf m r k) ∉ L) → ∀ m', Served r k m m' →
          leaf m' r k = leaf m r k ∧
            m'.page (pteFrame (leaf m r k)) = m.page (pteFrame (leaf m r k)) := by
  refine ⟨fun va len h => ⟨Respects.writable h, fun hw src => hw.respects h src⟩,
    fun k hb hk hframe hoff m' hrun => ?_⟩
  obtain ⟨L, hpt⟩ := hb.pt
  have hfix := hrun.fixed hk ⟨⟨L, hpt, hoff L hpt.free⟩, rfl, hframe, rfl⟩
  exact ⟨hfix.leaf, hfix.page⟩

/-- Two bytes copied to the data page leave the text page. -/
theorem copyout_protects_text : ReadOnly textData 1 0 ∧
    (∀ src, Respects textData 1 pgsize src 2) ∧
    ∃ m', copyout (1 * pgsize) pgsize (fun _ => 7) 2 textData = .ok (true, m') ∧
      m'.page (pteFrame (leaf textData 1 0)) = textData.page (pteFrame (leaf textData 1 0)) := by
  obtain ⟨hb, hleaf, hfar⟩ := textData_spec
  have h0 := hleaf 0 (by decide)
  have h1 := hleaf 1 (by decide)
  have hro : ReadOnly textData 1 0 := ⟨by decide, by rw [h0]; decide, by rw [h0]; decide⟩
  have hpage : ∀ j < 2, (pgsize + j) / pgsize = 1 := by decide
  have hw : Writable textData 1 pgsize 2 := by
    intro c hc j hj k ⟨hk, hv, hw⟩
    have := hc.le
    unfold frameAt
    rw [hpage j (by omega), h1]
    rw [hleaf k hk] at hv hw ⊢
    by_cases hk1 : k = 1
    · rw [if_pos hk1] at hw
      exact absurd hw (by decide)
    by_cases hk0 : k = 0
    · rw [if_neg hk1, if_pos hk0]
      decide
    · rw [if_neg hk1, if_neg hk0] at hv
      exact absurd rfl hv
  have hap := textData_apart pgsize 2
  have hopen : ∀ j < 2, Open textData 1 ((pgsize + j) / pgsize) := fun j hj => by
    rw [hpage j hj, Open, h1]
    decide
  obtain ⟨c, hc⟩ := Reached.exists textData 1 pgsize 2
  obtain rfl := hc.eq_len_iff.2 hopen
  obtain ⟨m', hrun, -⟩ := copyout_spec (fun _ => 7) hc hap
  refine ⟨hro, ((copyout_protects textData 1).1 _ _ hap).2 hw, m', hrun, ?_⟩
  have hfar0 := hfar (pteFrame (leaf textData 1 0)) (by rw [h0]; decide) (by rw [h0]; decide)
  refine ((copyout_protects textData 1).2 0 hb hro hfar0.1 hfar0.2 m'
    (.copyout .refl hap hw (fun L hL j hj _ => ?_) hrun)).2
  refine (hfar _ ?_ ?_).2 L hL <;> unfold frameAt <;> rw [hpage j hj, h1] <;> decide

/-- The text page of a program, as `exec` maps it, and `copyout` of a byte to it. -/
def textMem : Mem :=
  ((uvmalloc (1 * pgsize) 0 pgsize pteX started).toOption.map Prod.snd).getD started

theorem copyout_writes_text : ∃ e,
    lookup textMem (1 * pgsize) 0 = some e ∧ e &&& pteW = 0 ∧
      (textMem.page (pteFrame e)).get 0 = 0 ∧
      (copyout (1 * pgsize) 0 (fun _ => 7) 1 textMem).toOption.map
        (fun p => (p.1, (p.2.page (pteFrame e)).get 0)) = some (true, 7) :=
  ⟨((lookup textMem (1 * pgsize) 0).getD 0), by decide +kernel⟩

end Xv6.Vm
