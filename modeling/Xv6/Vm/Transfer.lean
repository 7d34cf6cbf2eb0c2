import Xv6.Vm.Copy

/-!
# Ranges and strings of user memory

Which bytes `copyin`, `copyout` and `copyinstr` transfer.

* `copies_exact`: `copyin` and `copyout` transfer their range, or the part of it before the first
  page that is not open to the user.
* `copyinstr_exact`: `copyinstr` transfers a string up to its zero and looks at nothing behind it;
  `fetchstr` and `argstr` return its length.
-/

namespace Xv6.Vm

open Lib

/-- The `n` bytes at user address `va`. -/
def userBytes (m : Mem) (r va n : ℕ) : List UInt8 := (List.range n).map fun k => byteAt m r (va + k)

theorem userBytes_add (m : Mem) (r va n k : ℕ) :
    userBytes m r va (n + k) = userBytes m r va n ++ userBytes m r (va + n) k := by
  unfold userBytes
  rw [List.range_add, List.map_append, List.map_map]
  refine congrArg _ (List.map_congr_left fun j _ => ?_)
  rw [Function.comp_apply, Nat.add_assoc]

theorem userBytes_succ (m : Mem) (r va n : ℕ) :
    userBytes m r va (n + 1) = byteAt m r va :: userBytes m r (va + 1) n := by
  rw [Nat.add_comm n 1, userBytes_add]
  rfl

variable {m : Mem} {n r va : ℕ}

/-- The bytes of one page are those at consecutive physical addresses. -/
theorem bytesAt_eq (h : va % pgsize + n ≤ pgsize) :
    bytesAt m (pteFrame (leaf m r (va / pgsize)) * pgsize + va % pgsize) n =
      userBytes m r va n := by
  refine List.map_congr_left fun k hk => ?_
  have hk := List.mem_range.1 hk
  have hdiv : ∀ f, (f * pgsize + va % pgsize) / pgsize = f ∧
      (f * pgsize + va % pgsize) % pgsize = va % pgsize := by
    unfold pgsize
    omega
  have hadd : (va + k) / pgsize = va / pgsize ∧ (va + k) % pgsize = va % pgsize + k := by
    unfold pgsize at *
    omega
  unfold byteAt frameAt
  rw [(hdiv _).1, (hdiv _).2, hadd.1, hadd.2]

/-! ## Ranges -/

variable {c len : ℕ}

theorem copyinLoop_spec : ∀ {fuel va len c : ℕ}, len ≤ fuel → Reached m r va len c →
    copyinLoop (r * pgsize) fuel va len m =
      .ok ((decide (c = len), userBytes m r va c), m) := by
  intro fuel
  induction fuel with
  | zero =>
    intro va len c hlen hc
    obtain rfl := Nat.le_zero.1 hlen
    obtain rfl := Nat.le_zero.1 hc.le
    rfl
  | succ fuel ih =>
    intro va len c hlen hc
    rcases Nat.eq_zero_or_pos len with rfl | hpos
    · obtain rfl := Nat.le_zero.1 hc.le
      rfl
    rw [copyinLoop, Run.ite_run, if_neg hpos.ne']
    by_cases ho : Open m r (va / pgsize)
    swap
    · obtain rfl := hc.eq_zero ho
      rw [Run.bind_of_ok (walkaddr_closed ho), Run.ite_run, if_pos rfl, decide_eq_false hpos.ne]
      rfl
    rw [Run.bind_of_ok (walkaddr_open ho).1, Run.ite_run, if_neg (walkaddr_open ho).2,
      sub_pgrounddown]
    set n := min (pgsize - va % pgsize) len with hn
    obtain ⟨hin, hle, hn0, hnext, -⟩ := ho.round hn
    obtain ⟨hnc, hrest⟩ := hc.round ho hn
    -- the rest is empty, or starts in the next page
    have hgo : copyinLoop (r * pgsize) fuel ((pgrounddown va + pgsize) % 2 ^ 64) (len - n) m =
        .ok ((decide (c - n = len - n), userBytes m r (va + n) (c - n)), m) := by
      rcases Nat.lt_or_ge n len with hlt | hge
      · rw [hnext hlt]
        have := hn0 hpos
        exact ih (by omega) hrest
      · have hcl := hc.le
        rw [show len - n = 0 by omega, show c - n = 0 by omega]
        cases fuel <;> rfl
    have hdec : decide (c = len) = decide (c - n = len - n) := decide_eq_decide.2 (by omega)
    have hsplit := userBytes_add m r va n (c - n)
    rw [Nat.add_sub_cancel' hnc] at hsplit
    rw [Run.get_bind, Run.bind_of_ok hgo, bytesAt_eq hin, hdec, hsplit]
    rfl

/-- Where no two bytes of the range have one place, each of them is where it was copied to. -/
theorem Copied.byteAt {m' : Mem} {src : ℕ → UInt8} (h : Copied m m' r va src c)
    (heq : ∀ f ∈ tables m r, m'.page f = m.page f)
    (honce : ∀ i < c, ∀ j < c, frameAt m r (va + i) = frameAt m r (va + j) →
      (va + i) % pgsize = (va + j) % pgsize → i = j) {j : ℕ} (hj : j < c) :
    byteAt m' r (va + j) = src j := by
  rw [Vm.byteAt, frameAt_congr heq]
  rcases h.bytes _ _ (Nat.mod_lt (va + j) (by decide)) with ⟨k, hk, hat, -, hb⟩ | ⟨hno, -⟩
  · rw [hb, honce k hk j hj hat.1 hat.2]
  · exact absurd ⟨rfl, rfl⟩ (hno j hj)

/-- **`copyin` and `copyout` transfer exactly their range.** They return 0 if all of its bytes lie
in pages that are open to the user, and otherwise stop before the first that does not. For `copyout`
this needs that it does not write over the page table; and if no two addresses of the range have
one place in memory, the range then holds the bytes. -/
theorem copies_exact (m : Mem) (r va len : ℕ) : ∃ c, Reached m r va len c ∧
    (c = len ↔ ∀ j < len, Open m r ((va + j) / pgsize)) ∧
    copyin (r * pgsize) va len m = .ok ((decide (c = len), userBytes m r va c), m) ∧
    ∀ src, ∃ ok m', copyout (r * pgsize) va src len m = .ok (ok, m') ∧
      (Apart m r va len → ok = decide (c = len) ∧ Copied m m' r va src c ∧
        ((∀ i < c, ∀ j < c, frameAt m r (va + i) = frameAt m r (va + j) →
          (va + i) % pgsize = (va + j) % pgsize → i = j) →
            ∀ j < c, byteAt m' r (va + j) = src j)) := by
  obtain ⟨c, hc⟩ := Reached.exists m r va len
  refine ⟨c, hc, hc.eq_len_iff, copyinLoop_spec (le_refl len) hc, fun src => ?_⟩
  obtain ⟨⟨ok, m'⟩, hrun⟩ := copyoutLoop_ok r src len m va 0 len
  refine ⟨ok, m', hrun, fun hap => ?_⟩
  obtain ⟨m'', hrun', hcop⟩ := copyout_spec src hc hap
  cases hrun.symm.trans hrun'
  exact ⟨rfl, hcop, fun honce j hj => hcop.byteAt
    (fun f hf => hcop.page_eq fun i hi he => hap c hc i hi (he ▸ hf)) honce hj⟩

/-- Two bytes, the last of one page and the first of the next. -/
theorem copies_exact_two : Apart textData 1 (pgsize - 1) 2 ∧ ∀ src, ∃ m',
    copyout (1 * pgsize) (pgsize - 1) src 2 textData = .ok (true, m') ∧
      byteAt m' 1 (pgsize - 1) = src 0 ∧ byteAt m' 1 pgsize = src 1 := by
  have hleaf := textData_spec.2.1
  have hap := textData_apart (pgsize - 1) 2
  have hpage : ∀ j < 2, (pgsize - 1 + j) / pgsize = j ∧
      (pgsize - 1 + j) % pgsize = if j = 0 then pgsize - 1 else 0 := by decide
  have ho : ∀ j < 2, Open textData 1 ((pgsize - 1 + j) / pgsize) := by
    intro j hj
    rw [(hpage j hj).1, Open, hleaf j (by omega)]
    interval_cases j <;> decide
  refine ⟨hap, fun src => ?_⟩
  obtain ⟨c, -, hc, -, hout⟩ := copies_exact textData 1 (pgsize - 1) 2
  obtain rfl := hc.2 ho
  obtain ⟨ok, m', hrun, hok⟩ := hout src
  obtain ⟨rfl, -, hbytes⟩ := hok hap
  have hb := hbytes fun i hi j hj _ hoff => by
    rw [(hpage i hi).2, (hpage j hj).2] at hoff
    interval_cases i <;> interval_cases j <;> first | rfl | cases hoff
  exact ⟨m', hrun, hb 0 (by decide), hb 1 (by decide)⟩

/-- A page table with one frame at two pages, and with frame 0 at a third. -/
def oddMem : Mem :=
  let perm := pteR ||| pteW ||| pteU
  let table : VM Unit := do
    let _ ← mappages (1 * pgsize) 0 pgsize kernbase perm
    let _ ← mappages (1 * pgsize) pgsize pgsize kernbase perm
    let _ ← mappages (1 * pgsize) (2 * pgsize) pgsize 0 perm
  ((table started).toOption.map Prod.snd).getD started

/-- `textData` with its level-0 page-table page, in frame `0x87ffe`, at page 2 and a data page
behind it. -/
def selfMem : Mem :=
  let perm := pteR ||| pteW ||| pteU
  let table : VM Unit := do
    let _ ← mappages (1 * pgsize) (2 * pgsize) pgsize (0x87ffe * pgsize) perm
    let _ ← mappages (1 * pgsize) (3 * pgsize) pgsize kernbase perm
  ((table textData).toOption.map Prod.snd).getD textData

/-- In `oddMem` the last byte lands on the first. In `selfMem` the copy clears the mapping of the
page it has still to write to. -/
theorem copyout_same_frame : ((∀ k < 2, UserPte (leaf oddMem 1 k)) ∧
    (copyout (1 * pgsize) 0 (fun k => .ofNat (k / pgsize)) (pgsize + 1) oddMem).toOption.map
      (fun p => (p.1, byteAt p.2 1 0)) = some (true, 1)) ∧
    (∀ k ∈ [2, 3], UserPte (leaf selfMem 1 k)) ∧
    (copyout (1 * pgsize) (2 * pgsize) (fun _ => 0) (pgsize + 1) selfMem).toOption.map Prod.fst =
      some false := by
  decide +kernel

/-! ## Strings -/

/-- The `k` bytes at `va` and the zero behind them are a string in open pages. -/
structure IsStr (m : Mem) (r va k : ℕ) : Prop where
  opened : ∀ j ≤ k, Open m r ((va + j) / pgsize)
  zero : byteAt m r (va + k) = 0
  nonzero : ∀ j < k, byteAt m r (va + j) ≠ 0

variable {k : ℕ}

theorem IsStr.unique {l : ℕ} (hk : IsStr m r va k) (hl : IsStr m r va l) :
    k = l := by
  rcases Nat.lt_trichotomy k l with hlt | heq | hlt
  · exact absurd hk.zero (hl.nonzero k hlt)
  · exact heq
  · exact absurd hl.zero (hk.nonzero l hlt)

theorem IsStr.drop (h : IsStr m r va k) (hn : n ≤ k) :
    IsStr m r (va + n) (k - n) := by
  refine ⟨fun j hj => ?_, ?_, fun j hj => ?_⟩
  · rw [Nat.add_assoc]
    exact h.opened _ (by omega)
  · rw [Nat.add_assoc, Nat.add_sub_cancel' hn]
    exact h.zero
  · rw [Nat.add_assoc]
    exact h.nonzero _ (by omega)

theorem IsStr.add (h : IsStr m r (va + n) k)
    (hopen : ∀ j < n, Open m r ((va + j) / pgsize)) (hne : ∀ j < n, byteAt m r (va + j) ≠ 0) :
    IsStr m r va (n + k) := by
  have hsplit : ∀ {j}, n ≤ j → va + j = va + n + (j - n) := by omega
  refine ⟨fun j hj => ?_, ?_, fun j hj => ?_⟩
  · rcases Nat.lt_or_ge j n with hjn | hjn
    · exact hopen j hjn
    · rw [hsplit hjn]
      exact h.opened _ (by omega)
  · rw [← Nat.add_assoc]
    exact h.zero
  · rcases Nat.lt_or_ge j n with hjn | hjn
    · exact hne j hjn
    · rw [hsplit hjn]
      exact h.nonzero _ (by omega)

/-- The inner loop of `copyinstr` stops behind the first zero. -/
theorem strPart_spec (m : Mem) (r va n : ℕ) :
    (∃ k < n, byteAt m r (va + k) = 0 ∧ (∀ j < k, byteAt m r (va + j) ≠ 0) ∧
      strPart (userBytes m r va n) = (true, userBytes m r va (k + 1))) ∨
    (∀ k < n, byteAt m r (va + k) ≠ 0) ∧
      strPart (userBytes m r va n) = (false, userBytes m r va n) := by
  induction n generalizing va with
  | zero => exact .inr ⟨nofun, rfl⟩
  | succ n ih =>
    have hsucc : ∀ j, va + (j + 1) = va + 1 + j := by omega
    rw [userBytes_succ, strPart]
    by_cases h0 : byteAt m r va = 0
    · refine .inl ⟨0, by omega, h0, nofun, ?_⟩
      rw [if_pos h0, userBytes_succ, h0]
      rfl
    rw [if_neg h0]
    have hcons : ∀ k, (∀ j < k, byteAt m r (va + 1 + j) ≠ 0) →
        ∀ j < k + 1, byteAt m r (va + j) ≠ 0 := by
      intro k h j hj
      cases j with
      | zero => exact h0
      | succ j =>
        rw [hsucc]
        exact h j (by omega)
    rcases ih (va + 1) with ⟨k, hk, hz, hne, hp⟩ | ⟨hne, hp⟩
    · refine .inl ⟨k + 1, by omega, by rwa [hsucc], hcons k hne, ?_⟩
      rw [hp, userBytes_succ m r va (k + 1)]
    · exact .inr ⟨hcons n hne, by rw [hp]⟩

theorem copyinstrLoop_spec (m : Mem) (r : ℕ) : ∀ {fuel} (va : ℕ) {max}, max ≤ fuel →
    (∃ k < max, IsStr m r va k ∧
      copyinstrLoop (r * pgsize) fuel va max m = .ok ((true, userBytes m r va (k + 1)), m)) ∨
    (∀ k < max, ¬ IsStr m r va k) ∧ ∃ c ≤ max,
      copyinstrLoop (r * pgsize) fuel va max m = .ok ((false, userBytes m r va c), m) := by
  intro fuel
  induction fuel with
  | zero =>
    intro va max hmax
    exact .inr ⟨fun k hk => by omega, 0, by omega, rfl⟩
  | succ fuel ih =>
    intro va max hmax
    rcases Nat.eq_zero_or_pos max with rfl | hpos
    · exact .inr ⟨nofun, 0, le_rfl, rfl⟩
    rw [copyinstrLoop, Run.ite_run, if_neg hpos.ne']
    by_cases ho : Open m r (va / pgsize)
    swap
    · refine .inr ⟨fun k _ hk => ho (hk.opened 0 (by omega)), 0, by omega, ?_⟩
      rw [Run.bind_of_ok (walkaddr_closed ho), Run.ite_run, if_pos rfl]
      rfl
    rw [Run.bind_of_ok (walkaddr_open ho).1, Run.ite_run, if_neg (walkaddr_open ho).2,
      sub_pgrounddown, Run.get_bind]
    set n := min (pgsize - va % pgsize) max with hn
    obtain ⟨hin, hle, hn0, hnext, hpage⟩ := ho.round hn
    have hopen : ∀ j < n, Open m r ((va + j) / pgsize) := fun j hj => by
      rwa [hpage _ (by omega) (by omega)]
    rw [bytesAt_eq hin]
    rcases strPart_spec m r va n with ⟨k, hk, hz, hne, hp⟩ | ⟨hne, hp⟩
    · refine .inl ⟨k, by omega, ⟨fun j hj => hopen j (by omega), hz, hne⟩, ?_⟩
      rw [hp]
      rfl
    -- no zero in this page: the rest is empty, or starts in the next page
    have hrest : (∃ k < max - n, IsStr m r (va + n) k ∧
        copyinstrLoop (r * pgsize) fuel ((pgrounddown va + pgsize) % 2 ^ 64) (max - n) m =
          .ok ((true, userBytes m r (va + n) (k + 1)), m)) ∨
        (∀ k < max - n, ¬ IsStr m r (va + n) k) ∧ ∃ c ≤ max - n,
          copyinstrLoop (r * pgsize) fuel ((pgrounddown va + pgsize) % 2 ^ 64) (max - n) m =
            .ok ((false, userBytes m r (va + n) c), m) := by
      rcases Nat.lt_or_ge n max with hlt | hge
      · rw [hnext hlt]
        have := hn0 hpos
        exact ih _ (by omega)
      · rw [Nat.sub_eq_zero_of_le hge]
        exact .inr ⟨nofun, 0, le_rfl, by cases fuel <;> rfl⟩
    rw [hp]
    rcases hrest with ⟨k, hk, hs, hrun⟩ | ⟨hno, c, hc, hrun⟩
    · refine .inl ⟨n + k, by omega, hs.add hopen hne, ?_⟩
      rw [Nat.add_assoc, userBytes_add]
      exact Run.bind_of_ok hrun
    · refine .inr ⟨fun k hk hs => ?_, n + c, by omega, ?_⟩
      · rcases Nat.lt_or_ge k n with hkn | hkn
        · exact hne k hkn hs.zero
        · exact hno (k - n) (by omega) (hs.drop hkn)
      · rw [userBytes_add]
        exact Run.bind_of_ok hrun

theorem strlen_userBytes : ∀ {k va : ℕ}, byteAt m r (va + k) = 0 →
    (∀ j < k, byteAt m r (va + j) ≠ 0) → strlen (userBytes m r va (k + 1)) = some k := by
  intro k
  induction k with
  | zero =>
    intro va hz _
    rw [Nat.add_zero] at hz
    rw [userBytes_succ, strlen, if_pos hz]
  | succ k ih =>
    intro va hz hne
    have hsucc : ∀ j, va + 1 + j = va + (j + 1) := by omega
    have h0 : byteAt m r va ≠ 0 := hne 0 (by omega)
    rw [userBytes_succ, strlen, if_neg h0, ih (by rwa [hsucc]) fun j hj => ?_]
    · rfl
    · rw [hsucc]
      exact hne _ (by omega)

theorem fetchstr_spec (m : Mem) (r va : ℕ) {max : ℕ} (hmax : max < 2 ^ 31) :
    (∃ k < max, IsStr m r va k ∧ fetchstr (r * pgsize) va max m = .ok ((k : ℤ), m)) ∨
      (∀ k < max, ¬ IsStr m r va k) ∧ fetchstr (r * pgsize) va max m = .ok (-1, m) := by
  have hint : intOf max = max := by
    unfold intOf
    rw [Nat.mod_eq_of_lt (by omega), if_pos hmax]
  rw [fetchstr, hint, copyinstr]
  rcases copyinstrLoop_spec m r va (le_refl max) with ⟨k, hk, hs, hrun⟩ | ⟨hno, c, -, hrun⟩
  · refine .inl ⟨k, hk, hs, ?_⟩
    rw [Run.bind_of_ok hrun]
    dsimp only
    rw [if_pos rfl, strlen_userBytes hs.zero hs.nonzero]
    rfl
  · refine .inr ⟨hno, ?_⟩
    rw [Run.bind_of_ok hrun]
    rfl

/-- **`copyinstr` copies exactly the string.** It returns 0 if a string of open pages ends within
`max` bytes, and has then written that string and its zero. What lies behind the zero is of no
matter. `fetchstr` and `argstr` return the length, and stay inside what was written. -/
theorem copyinstr_exact (m : Mem) (r va max : ℕ) :
    (∃ ok c, copyinstr (r * pgsize) va max m = .ok ((ok, userBytes m r va c), m) ∧ c ≤ max ∧
      (ok = true ↔ ∃ k < max, IsStr m r va k) ∧ ∀ k < max, IsStr m r va k → c = k + 1) ∧
    (∀ k < max, IsStr m r va k → ∀ m', (∀ j ≤ k, Open m' r ((va + j) / pgsize) ∧
        byteAt m' r (va + j) = byteAt m r (va + j)) →
      copyinstr (r * pgsize) va max m' = .ok ((true, userBytes m r va (k + 1)), m')) ∧
    (max < 2 ^ 31 → ∃ n : ℤ, fetchstr (r * pgsize) va max m = .ok (n, m) ∧
      (∀ a, ∀ i ≤ 5, a i = va → argstr (r * pgsize) a i max m = .ok (n, m)) ∧
      (∀ k < max, IsStr m r va k → n = k) ∧ ((∀ k < max, ¬ IsStr m r va k) → n = -1)) := by
  have hspec : ∀ m', _ := fun m' => copyinstrLoop_spec m' r va (le_refl max)
  have hargstr : ∀ n, fetchstr (r * pgsize) va max m = .ok (n, m) →
      ∀ a, ∀ i ≤ 5, a i = va → argstr (r * pgsize) a i max m = .ok (n, m) := by
    rintro n hf a i hi rfl
    rw [argstr, argraw, if_pos hi, Run.pure_bind, hf]
  refine ⟨?_, fun k hk hs m' hm' => ?_, fun hmax => ?_⟩
  · rcases hspec m with ⟨k, hk, hs, hrun⟩ | ⟨hno, c, hc, hrun⟩
    · exact ⟨true, k + 1, hrun, hk, iff_of_true rfl ⟨k, hk, hs⟩,
        fun l _ hl => by rw [hs.unique hl]⟩
    · exact ⟨false, c, hrun, hc, iff_of_false nofun fun ⟨k, hk, hs⟩ => hno k hk hs,
        fun k hk hs => absurd hs (hno k hk)⟩
  · have hs' : IsStr m' r va k := ⟨fun j hj => (hm' j hj).1, by rw [(hm' k le_rfl).2, hs.zero],
      fun j hj => by rw [(hm' j hj.le).2]; exact hs.nonzero j hj⟩
    rcases hspec m' with ⟨l, -, hl, hrun⟩ | ⟨hno, -⟩
    · obtain rfl := hl.unique hs'
      have heq : userBytes m' r va (l + 1) = userBytes m r va (l + 1) :=
        List.map_congr_left fun j hj => (hm' j (Nat.lt_succ_iff.1 (List.mem_range.1 hj))).2
      rw [← heq]
      exact hrun
    · exact absurd hs' (hno k hk)
  · rcases fetchstr_spec m r va hmax with ⟨k, hk, hs, hf⟩ | ⟨hno, hf⟩
    · exact ⟨k, hf, hargstr _ hf, fun l _ hl => by rw [hs.unique hl],
        fun hno => absurd hs (hno k hk)⟩
    · exact ⟨-1, hf, hargstr _ hf, fun k hk h => absurd h (hno k hk), fun _ => rfl⟩

theorem copyinstr_frame_zero : UserPte (leaf oddMem 1 2) ∧ byteAt oddMem 1 (2 * pgsize) = 0 ∧
    (copyinstr (1 * pgsize) (2 * pgsize) 1 oddMem).toOption.map Prod.fst = some (false, []) := by
  decide +kernel

end Xv6.Vm
