import Xv6.Fs.Table

/-!
# Reading and writing the contents of an inode

`State.memByte s i o` is the byte at offset `o` of the contents of the locked inode `i`.

* `readi_run`: `readi` into kernel memory returns the bytes that are there and changes
  nothing, since a well-formed file system has no holes.
* `writei_run`: `writei` writes a run of bytes, cut short when the source faults or the disk
  is full, and leaves everything else alone.
-/

namespace Xv6.Fs

open Function Lib

/-- The byte at offset `o` of the contents of the in-memory inode `i`. -/
def State.memByte (s : State) (i o : ℕ) : UInt8 :=
  (s.data (s.memSlot i (fileSlot (o / bsize)))).get (o % bsize)

theorem bsize_pos : 0 < bsize := by decide

section Offsets

/-- A run that stays inside one block. -/
theorem div_add_of_lt (off k : ℕ) (h : off % bsize + k < bsize) : (off + k) / bsize = off / bsize := by
  have h1 := Nat.div_add_mod off bsize
  have h2 : off + k = off % bsize + k + bsize * (off / bsize) := by omega
  rw [h2, Nat.add_mul_div_left _ _ bsize_pos, Nat.div_eq_of_lt h, Nat.zero_add]

theorem mod_add_of_lt (off k : ℕ) (h : off % bsize + k < bsize) : (off + k) % bsize = off % bsize + k := by
  have h1 := Nat.div_add_mod off bsize
  have h2 : off + k = off % bsize + k + bsize * (off / bsize) := by omega
  rw [h2, Nat.add_mul_mod_self_left, Nat.mod_eq_of_lt h]

theorem div_mul_le (o : ℕ) : o / bsize * bsize ≤ o := Nat.div_mul_le_self o bsize

end Offsets

/-! ## `readi` -/

section Readi

variable {lost : ℕ → Prop} {s : State} {i : ℕ}

/-- The bytes of a run. -/
def State.memBytes (s : State) (i off n : ℕ) : List UInt8 :=
  (List.range n).map fun k => s.memByte i (off + k)

theorem State.memBytes_add (s : State) (i off m n : ℕ) :
    s.memBytes i off (m + n) = s.memBytes i off m ++ s.memBytes i (off + m) n := by
  unfold memBytes
  rw [List.range_add, List.map_append, List.map_map]
  simp [comp_def, Nat.add_assoc]

/-- Inside the file `bmap` finds a block and changes nothing. -/
theorem bmap_inside (h : s.WfAt lost i) {off : ℕ} (hoff : off < (s.itable i).d.size) :
    bmap i (off / bsize) s = .ok (s.memSlot i (fileSlot (off / bsize)), s) ∧
      s.memSlot i (fileSlot (off / bsize)) ≠ 0 := by
  have hslot := h.memSlot_ne_zero ((div_mul_le off).trans_lt hoff)
  have hmax : off / bsize < maxfile := by
    have := h.size_le
    rw [Nat.div_lt_iff_lt_mul bsize_pos]
    omega
  obtain ⟨addr, s', hr, hm⟩ := bmap_run h hmax
  obtain ⟨rfl, rfl⟩ := hm.same hslot
  exact ⟨hr, hslot⟩

variable {n : ℕ}

theorem readLoop_run (h : s.WfAt lost i) : ∀ {fuel off tot : ℕ} (acc : List UInt8),
    tot ≤ n → n - tot ≤ fuel → off + (n - tot) ≤ (s.itable i).d.size →
    readLoop i (fun _ => true) n fuel off tot acc s =
      .ok (((n : ℤ), acc ++ s.memBytes i off (n - tot)), s) := by
  intro fuel
  induction fuel with
  | zero =>
    intro off tot acc ht hf _
    have : tot = n := by omega
    subst this
    simp [readLoop, State.memBytes]
  | succ fuel ih =>
    intro off tot acc ht hf hsz
    unfold readLoop
    by_cases hlt : tot < n
    · obtain ⟨hr, hslot⟩ := bmap_inside h (by omega : off < (s.itable i).d.size)
      rw [if_pos hlt, Run.bind_of_ok hr, if_neg hslot, Run.get_bind,
        if_pos (List.all_eq_true.2 fun _ _ => rfl)]
      set m := min (n - tot) (bsize - off % bsize) with hm'
      have hmod := Nat.mod_lt off bsize_pos
      have hpos : 0 < m := by omega
      rw [ih _ (by omega) (by omega) (by omega), List.append_assoc]
      have hchunk : ((List.range m).map fun k =>
          (s.data (s.memSlot i (fileSlot (off / bsize)))).get (off % bsize + k)) =
            s.memBytes i off m := by
        refine List.map_congr_left fun k hk => ?_
        have hk := List.mem_range.1 hk
        rw [State.memByte, div_add_of_lt off k (by omega), mod_add_of_lt off k (by omega)]
      rw [hchunk, show n - tot = m + (n - (tot + m)) by omega, State.memBytes_add]
    · have : tot = n := by omega
      subst this
      simp [State.memBytes]

/-- **`readi` into kernel memory.** -/
theorem readi_run (h : s.WfAt lost i) {off : ℕ} (hoff : off ≤ (s.itable i).d.size)
    (hn : off + n < 2 ^ 32) :
    readi i (fun _ => true) off n s =
      .ok (((min n ((s.itable i).d.size - off) : ℕ),
        s.memBytes i off (min n ((s.itable i).d.size - off))), s) := by
  unfold readi
  rw [Run.get_bind, Nat.mod_eq_of_lt hn, if_neg (by omega)]
  have hmin : (if off + n > (s.itable i).d.size then (s.itable i).d.size - off else n) =
      min n ((s.itable i).d.size - off) := by
    split_ifs <;> omega
  rw [hmin, readLoop_run h [] (Nat.zero_le _) (by omega) (by omega)]
  simp

theorem readLoop_still (h : s.WfAt lost i) (dst : ℕ → Bool) :
    ∀ {fuel off tot : ℕ} (acc : List UInt8), off + (n - tot) ≤ (s.itable i).d.size →
    ∃ r, readLoop i dst n fuel off tot acc s = .ok (r, s) := by
  intro fuel
  induction fuel with
  | zero => exact fun _ _ => ⟨_, rfl⟩
  | succ fuel ih =>
    intro off tot acc hsz
    unfold readLoop
    by_cases hlt : tot < n
    · obtain ⟨hr, hslot⟩ := bmap_inside h (by omega : off < (s.itable i).d.size)
      rw [if_pos hlt, Run.bind_of_ok hr, if_neg hslot, Run.get_bind, Run.ite_run]
      split_ifs
      · exact ih _ (by omega)
      · exact ⟨_, rfl⟩
    · rw [if_neg hlt]
      exact ⟨_, rfl⟩

/-- **`readi` changes nothing**, whatever it is asked for and wherever it copies to. -/
theorem readi_still (h : s.WfAt lost i) (dst : ℕ → Bool) (off : ℕ) (hn : n < 2 ^ 32) :
    ∃ r, readi i dst off n s = .ok (r, s) := by
  have hsz := h.size_le
  have hlim : maxfile * bsize < 2 ^ 32 := by decide
  unfold readi
  rw [Run.get_bind, Run.ite_run]
  split_ifs with hout
  · exact ⟨_, rfl⟩
  · exact readLoop_still h dst [] (by omega)
  · exact readLoop_still h dst [] (by omega)

end Readi

/-! ## `writei` -/

section Writei

variable {lost : ℕ → Prop} {s s' s'' : State} {i : ℕ} {src : Src} {off n : ℕ}

/-- `cnt` of `n` bytes from `src` have been written at offset `off` of inode `i`. -/
structure Wrote (lost : ℕ → Prop) (i : ℕ) (src : Src) (off n : ℕ) (s : State) (cnt : ℕ) (s' : State) : Prop where
  touch : State.Touch i s s'
  wfAt : s'.WfAt lost i
  d : (s'.itable i).d = { (s.itable i).d with addrs := (s'.itable i).d.addrs }
  le : cnt ≤ n
  slots : ∀ σ, s.memSlot i σ ≠ 0 → s'.memSlot i σ = s.memSlot i σ
  /-- The blocks of the bytes written are there. -/
  blocks : ∀ o, off ≤ o → o < off + cnt → s'.memSlot i (fileSlot (o / bsize)) ≠ 0
  /-- Bytes outside the whole run keep their value. -/
  outside : ∀ o, s.memSlot i (fileSlot (o / bsize)) ≠ 0 → o < off ∨ off + n ≤ o →
    s'.memByte i o = s.memByte i o
  /-- If no byte of the source faults, nothing changes past the bytes written. -/
  beyond : (∀ k, (src k).isSome) → ∀ o, s.memSlot i (fileSlot (o / bsize)) ≠ 0 → off + cnt ≤ o →
    s'.memByte i o = s.memByte i o
  written : ∀ o, off ≤ o → o < off + cnt → s'.memByte i o = (src (o - off)).getD 0

theorem State.Grow.memByte (g : State.Grow lost i s s') {o : ℕ}
    (h : s.memSlot i (fileSlot (o / bsize)) ≠ 0) : s'.memByte i o = s.memByte i o := by
  unfold State.memByte
  rw [g.slots _ h, g.data _ (fileSlot_ne_ndirect _) h]

/-- Nothing written, though slots may have been filled. -/
theorem Wrote.of_grow (g : State.Grow lost i s s') (src : Src) (off n : ℕ) : Wrote lost i src off n s 0 s' where
  touch := g.touch
  wfAt := g.wfAt
  d := g.d
  le := Nat.zero_le _
  slots := g.slots
  blocks o h1 h2 := by omega
  outside o h _ := g.memByte h
  beyond _ o h _ := g.memByte h
  written o h1 h2 := by omega

variable {c m : ℕ}

/-- Two runs, one after the other. -/
theorem Wrote.append (h : Wrote lost i src off m s m s')
    (h' : Wrote lost i (fun k => src (m + k)) (off + m) n s' c s'') :
    Wrote lost i src off (m + n) s (m + c) s'' where
  touch := h.touch.trans h'.touch
  wfAt := h'.wfAt
  d := by rw [h'.d, h.d]
  le := Nat.add_le_add_left h'.le m
  slots σ hne := by
    have h1 := h.slots σ hne
    rw [h'.slots σ (by rwa [h1]), h1]
  blocks o h1 h2 := by
    by_cases hlt : o < off + m
    · have := h.blocks o h1 hlt
      rwa [h'.slots _ this]
    · exact h'.blocks o (by omega) (by omega)
  outside o hne ho := by
    have h1 := h.slots _ hne
    rw [h'.outside o (by rwa [h1]) (by omega), h.outside o hne (by omega)]
  beyond hsrc o hne ho := by
    have h1 := h.slots _ hne
    rw [h'.beyond (fun k => hsrc (m + k)) o (by rwa [h1]) (by omega), h.beyond hsrc o hne (by omega)]
  written o h1 h2 := by
    by_cases hlt : o < off + m
    · rw [h'.outside o (h.blocks o h1 hlt) (.inl hlt), h.written o h1 hlt]
    · rw [h'.written o (by omega) (by omega)]
      congr 2
      omega

/-- The contents of the inode at work can be overwritten: no slot changes. -/
theorem State.WfAt.setData (h : s.WfAt lost i) {bn : ℕ} (hne : s.memSlot i (fileSlot bn) ≠ 0)
    (blk : Block) (l : List ℕ)
    (hs : s' = { s with
      data := update s.data (s.memSlot i (fileSlot bn)) blk, logged := l }) :
    State.Touch i s s' ∧ s'.WfAt lost i ∧ ∀ σ, s'.memSlot i σ = s.memSlot i σ := by
  have hmem : ∀ σ, s'.memSlot i σ = s.memSlot i σ := by
    subst hs
    refine slot_congr (fun _ _ => rfl) fun h0 => update_of_ne (fun he => ?_) _ _
    have hnd : s.memSlot i ndirect = (s.itable i).d.addrs ndirect := slot_ndirect
    rw [← hnd] at he
    exact fileSlot_ne_ndirect bn (h.memSlot_inj hne he.symm)
  have ht : State.Touch i s s' := by
    subst hs
    refine ⟨rfl, rfl, fun _ _ => rfl, fun _ _ => rfl, rfl, rfl, fun c hc hn => ⟨hc, ?_, ?_⟩⟩
    · exact update_of_ne (hn _ hne).symm _ _
    · intro σ hσ
      rw [hmem] at hσ ⊢
      exact hn σ hσ
  refine ⟨ht, ht.wfAt h ?_ ?_ ?_ ?_, hmem⟩
  · subst hs; exact h.type_ne_free
  · have hg : GoodBut lost s'.sb (s'.flush i).dinode s.used s'.data := by
      subst hs
      refine h.wf.good.congr (fun _ => rfl) fun j hj hf σ => ?_
      by_cases hji : j = i
      · subst hji
        rw [State.flush_dinode_self, State.flush_dinode_self]
        exact hmem σ
      · rw [State.flush_dinode_of_ne hji] at hf ⊢
        rw [State.flush_dinode_of_ne hji]
        exact (ht.other h hj hji hf σ).1
    subst hs; exact hg
  · subst hs; exact h.size_le
  · intro bn' hbn'
    rw [hmem]
    subst hs
    exact h.memSlot_ne_zero hbn'

variable {hi : ℕ} {new : List ℕ}

/-- Overwriting a block in a slot and logging it. -/
theorem State.Recorded.write {s₁ : State} {lo σ : ℕ} {blk : Block}
    (h : State.Recorded i lo hi s s₁ new) (hσ : State.InRange lo hi σ) (hne : s₁.memSlot i σ ≠ 0)
    (hs : s' = { s₁ with
      data := update s₁.data (s₁.memSlot i σ) blk, logged := s₁.memSlot i σ :: s₁.logged })
    (hmem : ∀ τ, s'.memSlot i τ = s₁.memSlot i τ) :
    State.Recorded i lo hi s s' (s₁.memSlot i σ :: new) where
  logged := by rw [hs, List.cons_append, ← h.logged]
  mem b hb := by
    simp only [hmem]
    rcases List.mem_cons.1 hb with rfl | hb
    · exact ⟨σ, hσ, hne, .inl rfl⟩
    · exact h.mem b hb
  fresh τ h0 hτ := by
    rw [hmem] at hτ ⊢
    exact .tail _ (h.fresh τ h0 hτ)
  data b hb := by
    rw [List.mem_cons, not_or] at hb
    rw [hs, ← h.data b hb.2]
    exact update_of_ne hb.1 _ _
  used c hc := by
    rw [hs, ← h.used c fun hm => hc (.tail _ hm)]
  dinode := by rw [hs, ← h.dinode]

theorem Src.readable_le (src : Src) (tot m : ℕ) : src.readable tot m ≤ m := by
  have := (List.takeWhile_sublist (l := List.range m)
    (fun k => (src (tot + k)).isSome)).length_le
  rwa [List.length_range] at this

theorem Src.readable_succ (src : Src) (tot m : ℕ) : src.readable tot (m + 1) =
    if src.readable tot m = m then if (src (tot + m)).isSome then m + 1 else m
    else src.readable tot m := by
  unfold readable
  rw [List.range_succ, List.takeWhile_append, List.length_range]
  split_ifs with h1 h2
  · simp [h2]
  · simp [h2]
  · rfl

/-- The bytes that are copied are readable, and the next one is not. -/
theorem Src.readable_spec (src : Src) (tot : ℕ) : ∀ m,
    (∀ k < src.readable tot m, (src (tot + k)).isSome) ∧
      (src.readable tot m < m → src (tot + src.readable tot m) = none) := by
  intro m
  induction m with
  | zero => exact ⟨fun k hk => absurd hk (Nat.not_lt.2 (src.readable_le tot 0 |>.trans (Nat.zero_le k))),
      fun h => absurd h (Nat.not_lt_zero _)⟩
  | succ m ih =>
    have hle := src.readable_le tot m
    rw [readable_succ]
    split_ifs with h1 h2
    · refine ⟨fun k hk => ?_, fun h => absurd h (Nat.lt_irrefl _)⟩
      rcases Nat.lt_succ_iff_lt_or_eq.1 hk with hk | rfl
      · exact ih.1 k (by omega)
      · exact h2
    · exact ⟨fun k hk => ih.1 k (by omega), fun _ => Option.not_isSome_iff_eq_none.1 h2⟩
    · exact ⟨ih.1, fun _ => ih.2 (by omega)⟩

/-- How many bytes are copied is fixed by where the first fault is. -/
theorem Src.readable_eq {src : Src} {tot f : ℕ} (hle : f ≤ m) (hsome : ∀ k < f, (src (tot + k)).isSome)
    (hnone : f < m → src (tot + f) = none) : src.readable tot m = f := by
  obtain ⟨h1, h2⟩ := src.readable_spec tot m
  have hm := src.readable_le tot m
  rcases Nat.lt_trichotomy (src.readable tot m) f with hlt | he | hlt
  · have := hsome _ hlt
    rw [h2 (by omega)] at this
    exact absurd this (by simp)
  · exact he
  · have := h1 _ hlt
    rw [hnone (by omega)] at this
    exact absurd this (by simp)

theorem Src.readable_of_isSome (h : ∀ k, (src k).isSome) (tot m : ℕ) :
    src.readable tot m = m :=
  readable_eq le_rfl (fun _ _ => h _) fun hlt => absurd hlt (Nat.lt_irrefl m)

/-- The bytes of the file after `k` bytes were copied into a block. -/
theorem State.WfAt.memByte_copy (h : s.WfAt lost i) {off k : ℕ} (bytes : ℕ → UInt8)
    (hne : s.memSlot i (fileSlot (off / bsize)) ≠ 0) (hk : off % bsize + k ≤ bsize) (l : List ℕ)
    (hs : s' = { s with
      data := update s.data (s.memSlot i (fileSlot (off / bsize)))
        ((s.data (s.memSlot i (fileSlot (off / bsize)))).write (off % bsize) k bytes)
      logged := l }) {o : ℕ} (hno : s.memSlot i (fileSlot (o / bsize)) ≠ 0) :
    s'.memByte i o = if off ≤ o ∧ o < off + k then bytes (o - off) else s.memByte i o := by
  obtain ⟨-, -, hmem⟩ := h.setData hne _ l hs
  have h1 := Nat.div_add_mod o bsize
  have h2 := Nat.div_add_mod off bsize
  unfold State.memByte
  rw [hmem, hs]
  by_cases hq : o / bsize = off / bsize
  · rw [hq] at h1 ⊢
    dsimp only
    rw [update_self, Bytes.get_write _ _ _ _ (Nat.mod_lt o bsize_pos)]
    refine ite_congr (propext (by omega)) (fun _ => ?_) fun _ => rfl
    congr 1
    omega
  · have hslot : s.memSlot i (fileSlot (o / bsize)) ≠ s.memSlot i (fileSlot (off / bsize)) :=
      fun he => hq (fileSlot_inj (h.memSlot_inj hno he))
    dsimp only
    rw [update_of_ne hslot, if_neg]
    rintro ⟨hle, hlt⟩
    have hdiv := div_add_of_lt off (o - off) (by omega)
    rw [Nat.add_sub_cancel' hle] at hdiv
    exact hq hdiv

/-- One round of the loop of `writei`: the copy stops at a fault, and then nothing counts as
written. -/
theorem Wrote.chunk (h : s.WfAt lost i) (src : Src) {off : ℕ} (hne : s.memSlot i (fileSlot (off / bsize)) ≠ 0)
    (hm : off % bsize + m ≤ bsize) (l : List ℕ)
    (hs : s' = { s with
      data := update s.data (s.memSlot i (fileSlot (off / bsize)))
        ((s.data (s.memSlot i (fileSlot (off / bsize)))).write (off % bsize) (src.readable 0 m)
          fun j => (src j).getD 0)
      logged := l }) :
    Wrote lost i src off m s (if src.readable 0 m = m then m else 0) s' := by
  obtain ⟨ht, hw, hmem⟩ := h.setData hne _ l hs
  have hk := src.readable_le 0 m
  -- what each byte is after the copy
  have hbyte : ∀ o, s.memSlot i (fileSlot (o / bsize)) ≠ 0 → s'.memByte i o =
      if off ≤ o ∧ o < off + src.readable 0 m then (src (o - off)).getD 0 else s.memByte i o :=
    fun o hno => h.memByte_copy _ hne (by omega) l hs hno
  have hin : ∀ o, off ≤ o → o < off + (if src.readable 0 m = m then m else 0) →
      o < off + src.readable 0 m ∧ s.memSlot i (fileSlot (o / bsize)) ≠ 0 := by
    intro o hle hlt
    split_ifs at hlt with hfull
    · have hdiv := div_add_of_lt off (o - off) (by omega)
      rw [Nat.add_sub_cancel' hle] at hdiv
      exact ⟨by omega, by rwa [hdiv]⟩
    · omega
  refine ⟨ht, hw, ?_, ?_, fun σ _ => hmem σ, ?_, ?_, ?_, ?_⟩
  · subst hs; rfl
  · split_ifs <;> omega
  · intro o hle hlt
    rw [hmem]
    exact (hin o hle hlt).2
  · intro o hno ho
    rw [hbyte o hno, if_neg (by omega)]
  · intro hsrc o hno ho
    rw [Src.readable_of_isSome hsrc, if_pos rfl] at ho
    rw [hbyte o hno, if_neg (by omega)]
  · intro o hle hlt
    obtain ⟨hlt, hno⟩ := hin o hle hlt
    rw [hbyte o hno, if_pos ⟨hle, hlt⟩]

theorem Wrote.after_grow (g : State.Grow lost i s s') (h : Wrote lost i src off n s' c s'') :
    Wrote lost i src off n s c s'' := by
  have := (Wrote.of_grow g src off 0).append (n := n) (c := c) (by simpa using h)
  simpa using this

theorem Wrote.weaken (h : Wrote lost i src off m s c s') (hmn : m ≤ n) :
    Wrote lost i src off n s c s' :=
  { h with
    le := h.le.trans hmn
    outside := fun o hne ho => h.outside o hne (by omega) }

theorem eitherCopyin_run (b o : ℕ) (src : Src) (tot m : ℕ) (s : State) :
    eitherCopyin b o src tot m s = .ok (decide (src.readable tot m = m),
      { s with data := update s.data b ((s.data b).write o (src.readable tot m)
        fun j => (src (tot + j)).getD 0) }) := rfl

/-- How the loop of `writei` ends when `c` of the `n` bytes are written, in `s₀`: these were
all, or the disk is full, or the source faults inside the next piece. -/
inductive CutEnds (lost : ℕ → Prop) (i : ℕ) (src : Src) (off n : ℕ) (s₀ : State) (c : ℕ) (s' : State) : Prop
  | done (h : c = n) (hs : s' = s₀)
  | full {new : List ℕ} (h : c < n) (hmap : State.Mapped lost i (fileSlot ((off + c) / bsize)) s₀ 0 s')
      (hrec : State.Recorded i ((off + c) / bsize) ((off + c) / bsize + 1) s₀ s' new)
  | fault {addr m : ℕ} {s₁ : State} {new : List ℕ} (h : c < n) (h0 : addr ≠ 0)
      (hmap : State.Mapped lost i (fileSlot ((off + c) / bsize)) s₀ addr s₁)
      (hrec : State.Recorded i ((off + c) / bsize) ((off + c) / bsize + 1) s₀ s₁ new)
      (hm : m = min (n - c) (bsize - (off + c) % bsize)) (hk : src.readable c m ≠ m)
      (hs : s' = { s₁ with
        data := update s₁.data addr ((s₁.data addr).write ((off + c) % bsize)
          (src.readable c m) fun j => (src (c + j)).getD 0) })

theorem Src.readable_shift (src : Src) (m c k : ℕ) :
    Src.readable (fun j => src (m + j)) c k = src.readable (m + c) k := by
  simp only [readable, Nat.add_assoc]

variable {s₀ : State}

theorem CutEnds.shift (h : CutEnds lost i (fun k => src (m + k)) (off + m) n s₀ c s') :
    CutEnds lost i src off (m + n) s₀ (m + c) s' := by
  have hsub : m + n - (m + c) = n - c := by omega
  cases h with
  | done h hs => exact .done (by omega) hs
  | full h hmap hrec =>
    rw [Nat.add_assoc] at hmap hrec
    exact .full (by omega) hmap hrec
  | fault h h0 hmap hrec hm hk hs =>
    rw [Src.readable_shift] at hk hs
    simp only [Nat.add_assoc] at hmap hrec hm hs
    exact .fault (by omega) h0 hmap hrec (by rw [hsub, hm]) hk (by simpa only [Nat.add_assoc] using hs)

/-- **The loop of `writei`**: whole pieces are written and logged up to `s₀`, where `c` bytes are
done and blocks below `hi` have been worked on; then it ends. -/
structure Cut (lost : ℕ → Prop) (i : ℕ) (src : Src) (off n : ℕ) (s s₀ : State) (hi : ℕ) (new : List ℕ)
    (c : ℕ) (s' : State) : Prop where
  wrote : Wrote lost i src off c s c s₀
  copied : ∀ k < c, (src k).isSome
  recorded : State.Recorded i (off / bsize) hi s s₀ new
  le : c ≤ n
  hi_le : c < n → hi ≤ (off + c) / bsize
  hi_top : hi * bsize < off + n + bsize
  first : c = 0 ∨ min n (bsize - off % bsize) ≤ c
  piece : c < n → c = 0 ∨ (off + c) % bsize = 0
  ends : CutEnds lost i src off n s₀ c s'

theorem Cut.stop (h : s.WfAt lost i) (he : CutEnds lost i src off n s 0 s') :
    Cut lost i src off n s s (off / bsize) [] 0 s' where
  wrote := .of_grow (.refl h) _ _ _
  copied _ hk := absurd hk (Nat.not_lt_zero _)
  recorded := .refl ..
  le := Nat.zero_le n
  hi_le _ := le_rfl
  hi_top := by
    have := div_mul_le off
    have := bsize_pos
    omega
  first := .inl rfl
  piece _ := .inl rfl
  ends := he

/-- One more piece before the rest. -/
theorem Cut.cons {s₁ : State} {new' : List ℕ} (hm : m = min n (bsize - off % bsize))
    (hn : 0 < n) (hw : Wrote lost i src off m s m s₁) (hsrc : ∀ k < m, (src k).isSome)
    (hr : State.Recorded i (off / bsize) (off / bsize + 1) s s₁ new)
    (h : Cut lost i (fun k => src (m + k)) (off + m) (n - m) s₁ s₀ hi new' c s') :
    Cut lost i src off n s s₀ (max (off / bsize + 1) hi) (new' ++ new) (m + c) s' := by
  have hmod := Nat.mod_lt off bsize_pos
  have hdiv := Nat.div_add_mod off bsize
  have hle : off / bsize ≤ (off + m) / bsize := Nat.div_le_div_right (Nat.le_add_right off m)
  have hcn := h.le
  have hfull : m + c < n → (off + m) % bsize = 0 ∧ off / bsize + 1 ≤ (off + m) / bsize := by
    intro hlt
    have he : off + m = bsize * (off / bsize + 1) := by
      rw [Nat.mul_add]
      omega
    rw [he, Nat.mul_mod_right, Nat.mul_div_cancel_left _ bsize_pos]
    exact ⟨rfl, le_rfl⟩
  refine ⟨hw.append h.wrote, fun k hk => ?_, ?_, by omega, fun hlt => ?_, ?_, .inr (by omega),
    fun hlt => .inr ?_, ?_⟩
  · by_cases hkm : k < m
    · exact hsrc k hkm
    · have := h.copied (k - m) (by omega)
      rwa [Nat.add_sub_cancel' (by omega : m ≤ k)] at this
  · exact (hr.mono le_rfl (Nat.le_max_left _ _)).trans
      (h.recorded.mono hle (Nat.le_max_right _ _)) hw.touch.sb hw.slots h.wrote.slots
  · have h1 := (hfull hlt).2
    have h2 := h.hi_le (by omega)
    have h3 : (off + m) / bsize ≤ (off + m + c) / bsize := Nat.div_le_div_right (Nat.le_add_right _ c)
    rw [← Nat.add_assoc]
    omega
  · have h1 := h.hi_top
    rcases Nat.le_total (off / bsize + 1) hi with hc | hc
    · rw [Nat.max_eq_right hc]
      omega
    · rw [Nat.max_eq_left hc, Nat.add_mul, Nat.mul_comm]
      omega
  · rcases h.piece (by omega) with rfl | h0
    · exact (hfull hlt).1
    · rwa [← Nat.add_assoc]
  · have := h.ends.shift
    rwa [Nat.add_sub_cancel' (by omega : m ≤ n)] at this

theorem writeLoop_cut (src : Src) : ∀ {fuel off tot : ℕ} {s : State}, s.WfAt lost i → tot ≤ n →
    n - tot ≤ fuel → off + (n - tot) ≤ maxfile * bsize →
    ∃ c s₀ hi new s', writeLoop i src n fuel off tot s = .ok ((off + c, tot + c), s') ∧
      Cut lost i (fun k => src (tot + k)) off (n - tot) s s₀ hi new c s' := by
  intro fuel
  induction fuel with
  | zero =>
    intro off tot s h ht hf _
    exact ⟨0, s, _, _, s, rfl, .stop h (.done (by omega) rfl)⟩
  | succ fuel ih =>
    intro off tot s h ht hf hmax
    unfold writeLoop
    by_cases hlt : tot < n
    · have hbn : off / bsize < maxfile := by
        rw [Nat.div_lt_iff_lt_mul bsize_pos]
        omega
      obtain ⟨addr, s₁, new, hr, hmap, hrec⟩ := bmap_recorded h hbn
      rw [if_pos hlt, Run.bind_of_ok hr]
      by_cases h0 : addr = 0
      · -- the disk is full
        subst h0
        rw [if_pos rfl]
        exact ⟨0, s, _, _, s₁, rfl, .stop h (.full (by omega) hmap hrec)⟩
      · rw [if_neg h0]
        have hslot := hmap.here h0
        set m := min (n - tot) (bsize - off % bsize) with hm
        have hmod := Nat.mod_lt off bsize_pos
        have hread := Src.readable_shift src tot 0 m
        rw [Nat.add_zero] at hread
        rw [Run.bind_of_ok (eitherCopyin_run addr (off % bsize) src tot m s₁)]
        by_cases hk : src.readable tot m = m
        · rw [if_pos (decide_eq_true hk)]
          have hne : s₁.memSlot i (fileSlot (off / bsize)) ≠ 0 := by rwa [hslot]
          have hin : State.InRange (off / bsize) (off / bsize + 1) (fileSlot (off / bsize)) :=
            .inr ⟨_, le_rfl, Nat.lt_succ_self _, rfl⟩
          have hc := Wrote.chunk hmap.grow.wfAt (fun k => src (tot + k)) hne (m := m) (by omega)
            (addr :: s₁.logged) rfl
          have hrec' := hrec.write hin hne rfl
            (hmap.grow.wfAt.setData hne ((s₁.data addr).write (off % bsize) m
              fun j => (src (tot + j)).getD 0) (addr :: s₁.logged) (by rw [hslot])).2.2
          rw [hslot] at hrec'
          rw [hread, hk, if_pos rfl, hslot] at hc
          obtain ⟨c, s₀, hi, new', s', hr', hcut⟩ := ih hc.wfAt (by omega : tot + m ≤ n) (by omega)
            (by omega : off + m + (n - (tot + m)) ≤ maxfile * bsize)
          rw [← Nat.sub_sub] at hcut
          simp only [Nat.add_assoc tot m] at hcut
          refine ⟨m + c, s₀, _, _, s', ?_, .cons hm (by omega) (hc.after_grow hmap.grow)
            (fun k hkm => (src.readable_spec tot m).1 k (by omega)) hrec' hcut⟩
          rw [← Nat.add_assoc, ← Nat.add_assoc, hk]
          exact hr'
        · -- a fault
          rw [if_neg (by simpa using hk)]
          refine ⟨0, s, _, _, _, rfl, .stop h (.fault (by omega) h0 hmap hrec hm ?_ ?_)⟩
          · rwa [hread]
          · rw [hread]
            simp only [Nat.add_zero, Nat.zero_add]
    · rw [if_neg hlt]
      exact ⟨0, s, _, _, s, rfl, .stop h (.done (by omega) rfl)⟩

variable (h : Cut lost i src off n s s₀ hi new c s')

include h

/-- What the loop has written, cut short or not. -/
theorem Cut.wrote_all :
    Wrote lost i src off n s c s' := by
  have hn : c + (n - c) = n := Nat.add_sub_cancel' h.le
  cases h.ends with
  | done hc hs =>
    subst hc hs
    exact h.wrote
  | full hc hmap hrec =>
    have := h.wrote.append (.of_grow hmap.grow (fun k => src (c + k)) (off + c) (n - c))
    rwa [hn] at this
  | @fault addr m s₁ _ hc h0 hmap hrec hm hk hs =>
    have hslot := hmap.here h0
    have hne : s₁.memSlot i (fileSlot ((off + c) / bsize)) ≠ 0 := by rwa [hslot]
    have hread := Src.readable_shift src c 0 m
    rw [Nat.add_zero] at hread
    have hmod := Nat.mod_lt (off + c) bsize_pos
    have hch := Wrote.chunk hmap.grow.wfAt (fun k => src (c + k)) hne (m := m) (by omega) s₁.logged
      (hs.trans (by rw [hread, hslot]))
    rw [hread, if_neg hk] at hch
    have := h.wrote.append ((hch.weaken (by omega : m ≤ n - c)).after_grow hmap.grow)
    rwa [hn] at this

/-- A block that cannot be had was not there before. -/
theorem Cut.unmapped (hmap : State.Mapped lost i (fileSlot ((off + c) / bsize)) s₀ 0 s') :
    s.memSlot i (fileSlot ((off + c) / bsize)) = 0 := by
  by_contra hne
  have hs₀ := h.wrote.slots _ hne
  have := (hmap.same (by rwa [hs₀])).2
  exact hne (by rw [← hs₀, ← this])

/-- Without a fault, only a full disk cuts it short, at a block that is not there. -/
theorem Cut.short (hsrc : ∀ k, (src k).isSome) (hc : c < n) : (∀ b < s'.sb.size, s'.used b = true) ∧
      s.memSlot i (fileSlot ((off + c) / bsize)) = 0 := by
  cases h.ends with
  | done hc' hs => omega
  | full hc hmap hrec => exact ⟨hmap.none rfl, h.unmapped hmap⟩
  | fault hc h0 hmap hrec hm hk hs => exact absurd (Src.readable_of_isSome hsrc _ _) hk

omit h

/-- What `writei` has done when it returns `cnt`. -/
structure Written (lost : ℕ → Prop) (i : ℕ) (src : Src) (off n : ℕ) (s : State) (cnt : ℕ) (s' : State) : Prop where
  start : off ≤ (s.itable i).d.size
  fits : off + n ≤ maxfile * bsize
  touch : State.Touch i s s'
  wf : s'.WfBut lost
  d : (s'.itable i).d = { (s.itable i).d with
    size := if off + cnt > (s.itable i).d.size then off + cnt else (s.itable i).d.size
    addrs := (s'.itable i).d.addrs }
  le : cnt ≤ n
  outside : ∀ o, s.memSlot i (fileSlot (o / bsize)) ≠ 0 → o < off ∨ off + n ≤ o →
    s'.memByte i o = s.memByte i o
  beyond : (∀ k, (src k).isSome) → ∀ o, s.memSlot i (fileSlot (o / bsize)) ≠ 0 → off + cnt ≤ o →
    s'.memByte i o = s.memByte i o
  written : ∀ o, off ≤ o → o < off + cnt → s'.memByte i o = (src (o - off)).getD 0
  /-- The part inside the first block is written as a whole or not at all. -/
  first : cnt = 0 ∨ min n (bsize - off % bsize) ≤ cnt
  /-- Without a fault, only a full disk cuts the write short, at a block that is not there. -/
  short : (∀ k, (src k).isSome) → cnt < n → (∀ b < s'.sb.size, s'.used b = true) ∧
    s.memSlot i (fileSlot ((off + cnt) / bsize)) = 0

/-- What the end of `writei` leaves, `off` being where the write stopped. -/
def State.wroteBack (s : State) (i off : ℕ) : State :=
  s.putD i { (s.itable i).d with
    size := if off > (s.itable i).d.size then off else (s.itable i).d.size }

theorem State.wroteBack_memSlot (s : State) (i off σ : ℕ) :
    (s.wroteBack i off).memSlot i σ = s.memSlot i σ := by
  rw [State.memSlot, State.wroteBack, State.putD_d_self]
  exact slot_congr (fun _ _ => rfl) (fun _ => rfl) σ

theorem State.wroteBack_memByte (s : State) (i off o : ℕ) :
    (s.wroteBack i off).memByte i o = s.memByte i o := by
  unfold State.memByte
  rw [wroteBack_memSlot]
  rfl

theorem writeBack_run (i off : ℕ) (s : State) : writeBack i off s = .ok ((), s.wroteBack i off) :=
  updateD_run s i _

/-- The end of `writei`. -/
theorem Wrote.writeBack (h : s.WfAt lost i) (hoff : off ≤ (s.itable i).d.size)
    (hmax : off + n ≤ maxfile * bsize) (hw : Wrote lost i src off n s c s')
    (hfirst : c = 0 ∨ min n (bsize - off % bsize) ≤ c)
    (hshort : (∀ k, (src k).isSome) → c < n → (∀ b < s'.sb.size, s'.used b = true) ∧
      s.memSlot i (fileSlot ((off + c) / bsize)) = 0) :
    Written lost i src off n s c (s'.wroteBack i (off + c)) := by
  set d : Dinode := { (s'.itable i).d with
    size := if off + c > (s'.itable i).d.size then off + c else (s'.itable i).d.size } with hd
  change Written lost i src off n s c (s'.putD i d)
  have hsize : (s'.itable i).d.size = (s.itable i).d.size := by rw [hw.d]
  have hmem : ∀ σ, (s'.putD i d).memSlot i σ = s'.memSlot i σ := s'.wroteBack_memSlot i (off + c)
  have hbyte : ∀ o, (s'.putD i d).memByte i o = s'.memByte i o := s'.wroteBack_memByte i (off + c)
  have ht : State.Touch i s' (s'.putD i d) := by
    refine ⟨rfl, rfl, fun j hj => State.putD_itable_of_ne d hj,
      fun j hj => State.putD_dinode_of_ne d hj, State.putD_ref d, ?_, fun c hc hn => ⟨hc, rfl, ?_⟩⟩
    · simp [State.putD]
    · intro σ hσ
      rw [hmem] at hσ ⊢
      exact hn σ hσ
  refine ⟨hoff, hmax, hw.touch.trans ht, ht.wf hw.wfAt ?_ ?_ ?_ ?_ ?_, ?_, hw.le, ?_, ?_, ?_,
    hfirst, hshort⟩
  · rw [State.putD_d_self, State.putD_dinode_self]
  · rw [State.putD_dinode_self]
    exact hw.wfAt.type_ne_free
  · refine hw.wfAt.wf.good.congr (fun j => ?_) fun j _ _ σ => ?_
    · by_cases hji : j = i
      · subst hji
        rw [State.putD_dinode_self, State.flush_dinode_self]
      · rw [State.putD_dinode_of_ne d hji, State.flush_dinode_of_ne hji]
    · by_cases hji : j = i
      · subst hji
        rw [State.putD_dinode_self, State.flush_dinode_self]
        exact slot_congr (fun _ _ => rfl) (fun _ => rfl) σ
      · rw [State.putD_dinode_of_ne d hji, State.flush_dinode_of_ne hji]
        rfl
  · rw [State.putD_dinode_self]
    have := hw.le
    have := h.size_le
    rw [hd]
    dsimp only
    split_ifs <;> omega
  · -- the blocks below the new size were there or have just been filled
    rw [State.putD_dinode_self]
    intro bn hbn
    have hslot := hmem (fileSlot bn)
    rw [State.memSlot, State.putD_d_self] at hslot
    rw [hslot]
    by_cases hlt : bn * bsize < (s.itable i).d.size
    · have := h.memSlot_ne_zero hlt
      rwa [hw.slots _ this]
    · have hdiv : bn * bsize / bsize = bn := Nat.mul_div_cancel bn bsize_pos
      have hb := hw.blocks (bn * bsize) (by omega)
      rw [hdiv] at hb
      refine hb ?_
      rw [hd] at hbn
      dsimp only at hbn
      split_ifs at hbn <;> omega
  · rw [State.putD_d_self, hd, hw.d]
  · intro o h1 h2
    rw [hbyte, hw.outside o h1 h2]
  · intro h0 o h1 h2
    rw [hbyte, hw.beyond h0 o h1 h2]
  · intro o h1 h2
    rw [hbyte, hw.written o h1 h2]

/-- **`writei`** refuses, or runs its loop and writes the inode back. -/
theorem writei_cut (h : s.WfAt lost i) (src : Src) (off : ℕ) {n : ℕ} (hn : n < 2 ^ 32) :
    (writei i src off n s = .ok (-1, s) ∧ ((s.itable i).d.size < off ∨
        maxfile * bsize < off + n)) ∨
      ∃ (c : ℕ) (s₀ : State) (hi : ℕ) (new : List ℕ) (s' : State),
        writei i src off n s = .ok ((c : ℤ), s'.wroteBack i (off + c)) ∧ off ≤ (s.itable i).d.size ∧
          off + n ≤ maxfile * bsize ∧ Cut lost i src off n s s₀ hi new c s' := by
  have hsz := h.size_le
  have hlim : maxfile * bsize < 2 ^ 32 := by decide
  unfold writei
  rw [Run.get_bind]
  by_cases h1 : off > (s.itable i).d.size ∨ (off + n) % 2 ^ 32 < off
  · rw [if_pos h1]
    exact .inl ⟨rfl, by omega⟩
  · rw [if_neg h1]
    by_cases h2 : (off + n) % 2 ^ 32 > maxfile * bsize
    · rw [if_pos h2]
      exact .inl ⟨rfl, by omega⟩
    · rw [if_neg h2]
      have hmax : off + (n - 0) ≤ maxfile * bsize := by omega
      obtain ⟨c, s₀, hi, new, s', hr, hcut⟩ := writeLoop_cut src h (Nat.zero_le n) le_rfl hmax
      simp only [Nat.zero_add, Nat.sub_zero] at hcut hr
      refine .inr ⟨c, s₀, hi, new, s', ?_, by omega, hmax, hcut⟩
      rw [Run.bind_of_ok hr]
      exact Run.bind_of_ok (writeBack_run i (off + c) s')

/-- **`writei`** refuses, or writes some of the bytes. -/
theorem writei_run (h : s.WfAt lost i) (src : Src) (off : ℕ) {n : ℕ} (hn : n < 2 ^ 32) :
    (writei i src off n s = .ok (-1, s) ∧ ((s.itable i).d.size < off ∨
        maxfile * bsize < off + n)) ∨
      ∃ (c : ℕ) (s' : State), writei i src off n s = .ok ((c : ℤ), s') ∧
        Written lost i src off n s c s' := by
  rcases writei_cut h src off hn with hbad | ⟨c, s₀, hi, new, s', hr, hoff, hmax, hcut⟩
  · exact .inl hbad
  · exact .inr ⟨c, _, hr, hcut.wrote_all.writeBack h hoff hmax hcut.first hcut.short⟩

end Writei

end Xv6.Fs
