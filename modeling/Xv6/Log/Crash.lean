import Xv6.Log.Commit

/-!
# Crash atomicity of the redo log

`replay g d` is what a recovery would leave on the home blocks: the logged copies over
`d`, if the header on `d` names any. The argument has three parts.

* `replay_crashRecover`: an interrupted recovery does not change `replay`, however many
  of its writes were made.
* `replay_commit`: a prefix of the writes of `commit` leaves `replay` at the old
  contents up to the commit point and at the new contents from it on.
* `crash_atomic`: hence, after any crash and any number of interrupted recoveries, the
  home blocks hold the transactions whose commit point was written.
-/

namespace Xv6.Log

open Function Lib

variable {g : Geom} {d : Disk} {m : Mem}

/-! ## Sequences of block writes -/

theorem diskAfter_nil (d : Disk) : diskAfter d [] = d := rfl

theorem diskAfter_append (d : Disk) (ws vs : List (ℕ × Block)) :
    diskAfter d (ws ++ vs) = diskAfter (diskAfter d ws) vs := List.foldl_append

variable {b : ℕ} {ws : List (ℕ × Block)}

/-- A block that no write names keeps its contents. -/
theorem diskAfter_other (h : ∀ w ∈ ws, w.1 ≠ b) (d : Disk) :
    diskAfter d ws b = d b := by
  induction ws generalizing d with
  | nil => rfl
  | cons w ws ih =>
    have hw : b ≠ w.1 := (h w List.mem_cons_self).symm
    show diskAfter (update d w.1 w.2) ws b = d b
    rw [ih (fun v hv => h v (List.mem_cons_of_mem _ hv)), update_of_ne hw]

variable {d' : Disk}

/-- The contents of a block depend only on the writes if some write names it. -/
theorem diskAfter_congr {d : Disk}
    (h : (∃ w ∈ ws, w.1 = b) ∨ d b = d' b) : diskAfter d ws b = diskAfter d' ws b := by
  induction ws generalizing d d' with
  | nil =>
    rcases h with ⟨w, hw, -⟩ | h
    · simp at hw
    · exact h
  | cons w ws ih =>
    show diskAfter (update d w.1 w.2) ws b = diskAfter (update d' w.1 w.2) ws b
    apply ih
    rcases eq_or_ne b w.1 with rfl | hb
    · right; simp
    · rcases h with ⟨v, hv, hvb⟩ | h
      · rcases List.mem_cons.1 hv with rfl | hv
        · exact absurd hvb.symm hb
        · exact Or.inl ⟨v, hv, hvb⟩
      · right; rw [update_of_ne hb, update_of_ne hb, h]

/-- Making some of the writes first changes nothing. -/
theorem diskAfter_take_all (d : Disk) (ws : List (ℕ × Block)) (j : ℕ) :
    diskAfter (diskAfter d (ws.take j)) ws = diskAfter d ws := by
  funext b
  apply diskAfter_congr
  by_cases h : ∃ w ∈ ws, w.1 = b
  · exact Or.inl h
  · right
    apply diskAfter_other
    intro w hw hb
    exact h ⟨w, List.mem_of_mem_take hw, hb⟩

/-- With distinct block numbers every write is read back. -/
theorem diskAfter_mem (hnd : (ws.map Prod.fst).Nodup) {w : ℕ × Block}
    (hw : w ∈ ws) (d : Disk) : diskAfter d ws w.1 = w.2 := by
  induction ws generalizing d with
  | nil => simp at hw
  | cons v ws ih =>
    rw [List.map_cons, List.nodup_cons] at hnd
    show diskAfter (update d v.1 v.2) ws w.1 = w.2
    rcases List.mem_cons.1 hw with rfl | hw
    · rw [diskAfter_other, update_self]
      intro u hu hb
      exact hnd.1 (hb ▸ List.mem_map_of_mem hu)
    · exact ih hnd.2 hw _

/-! ## The writes each function makes -/

/-- Write the blocks `ws` through the cache. -/
def Mem.writes (m : Mem) (ws : List (ℕ × Block)) : Mem :=
  { m with disk := diskAfter m.disk ws, buf := diskAfter m.buf ws, trace := m.trace ++ ws }

theorem Mem.writes_append (m : Mem) (ws vs : List (ℕ × Block)) :
    m.writes (ws ++ vs) = (m.writes ws).writes vs := by
  simp [Mem.writes, diskAfter_append]

theorem Mem.copyTo_eq (m : Mem) (src dst : ℕ) : m.copyTo src dst = m.writes [(dst, m.buf src)] := by
  simp [Mem.copyTo, Mem.setBuf, Mem.bwrite, Mem.writes, diskAfter]

/-- A copying loop whose sources are not among its destinations writes the contents the
sources had at its start. -/
theorem foldl_copyTo (m : Mem) (src dst : ℕ → ℕ) (n : ℕ) (h : ∀ i < n, ∀ k < n, dst k ≠ src i) :
    (List.range n).foldl (fun m' tail => m'.copyTo (src tail) (dst tail)) m =
      m.writes ((List.range n).map fun i => (dst i, m.buf (src i))) := by
  induction n with
  | zero => simp [Mem.writes, diskAfter]
  | succ n ih =>
    rw [List.range_succ, List.foldl_append, ih (fun i hi k hk => h i (by omega) k (by omega)),
      List.map_append, Mem.writes_append]
    simp only [List.foldl_cons, List.foldl_nil, List.map_cons, List.map_nil]
    rw [Mem.copyTo_eq]
    have hsrc : (m.writes ((List.range n).map fun i => (dst i, m.buf (src i)))).buf (src n) =
        m.buf (src n) := by
      apply diskAfter_other
      intro w hw
      obtain ⟨i, hi, rfl⟩ := List.mem_map.1 hw
      exact h n (by omega) i (by have := List.mem_range.1 hi; omega)
    rw [hsrc]

/-- The writes of `write_log`. -/
def logWrites (g : Geom) (m : Mem) : List (ℕ × Block) :=
  (List.range m.lh.n).map fun i => (g.start + i + 1, m.buf (m.lh.block i))

/-- The writes of `install_trans`. -/
def homeWrites (g : Geom) (lh : Header) (d : Disk) : List (ℕ × Block) :=
  (List.range lh.n).map fun i => (lh.block i, d (g.start + i + 1))

/-- The entries of a header lie outside the log region, and the log has room for them. -/
structure Header.Ok (g : Geom) (lh : Header) : Prop where
  home : ∀ i < lh.n, ¬ g.Inside (lh.block i)
  fits : lh.n ≤ g.size - 1

variable {lh : Header}

theorem Header.Ok.block_ne (h : lh.Ok g) {i k : ℕ} (hi : i < lh.n) (hk : k ≤ lh.n) :
    lh.block i ≠ g.start + k := by
  have hh := h.home i hi
  have hf := h.fits
  have hp := g.size_pos
  unfold Geom.Inside at hh
  omega

theorem writeLog_eq (h : m.lh.Ok g) : writeLog g m = m.writes (logWrites g m) :=
  foldl_copyTo m _ _ _ fun i hi k hk he => h.block_ne hi (show k + 1 ≤ _ by omega) (he.symm.trans (by omega))

theorem installTrans_eq (h : m.lh.Ok g) : installTrans g m = m.writes (homeWrites g m.lh m.buf) :=
  foldl_copyTo m _ _ _ fun i hi k hk he => h.block_ne hk (show i + 1 ≤ _ by omega) (he.trans (by omega))

theorem writeHead_eq (g : Geom) (m : Mem) :
    writeHead g m = m.writes [(g.start, storeHead m.lh (m.buf g.start))] := by
  simp [writeHead, Mem.setBuf, Mem.bwrite, Mem.writes, diskAfter]

/-! ## The header block -/

theorem foldl_setWord (f : ℕ → ℕ) (x : Block) {n : ℕ} (hn : 4 * n + 4 ≤ bsize) :
    ∀ w, ((List.range n).foldl (fun x i => x.setWord (i + 1) (f i)) x).word w =
      if 0 < w ∧ w ≤ n then f (w - 1) % 2 ^ 32 else x.word w := by
  induction n with
  | zero => intro w; simp; omega
  | succ n ih =>
    intro w
    rw [List.range_succ, List.foldl_append]
    simp only [List.foldl_cons, List.foldl_nil]
    rcases eq_or_ne w (n + 1) with rfl | hw
    · rw [Bytes.word_setWord _ (by omega), if_pos (by omega), Nat.add_sub_cancel]
    · rw [Bytes.word_setWord_ne _ _ (Ne.symm hw), ih (by omega)]
      by_cases h : 0 < w ∧ w ≤ n
      · rw [if_pos h, if_pos (by omega)]
      · rw [if_neg h, if_neg (by omega)]

/-- What `write_head` puts in the header block. -/
theorem word_storeHead (lh : Header) (x : Block) (hn : lh.n ≤ logsize) (w : ℕ) :
    (storeHead lh x).word w =
      if w = 0 then lh.n else if w ≤ lh.n then lh.block (w - 1) % 2 ^ 32 else x.word w := by
  have hl : logsize = 30 := rfl
  have hb : bsize = 1024 := rfl
  unfold storeHead
  rw [foldl_setWord _ _ (by omega)]
  rcases Nat.eq_zero_or_pos w with rfl | hw
  · rw [if_neg (by omega), if_pos rfl, Bytes.word_setWord _ (by omega)]; omega
  · rw [if_neg (by omega : w ≠ 0), Bytes.word_setWord_ne _ _ (by omega)]
    simp only [hw, true_and]

theorem headN_storeHead (lh : Header) (x : Block) (hn : lh.n ≤ logsize) :
    headN (storeHead lh x) = lh.n := by
  have hl : logsize = 30 := rfl
  unfold headN
  rw [word_storeHead lh x hn, if_pos rfl, if_pos (by omega)]

/-- The header that `read_head` loads from a disk. -/
def diskHead (g : Geom) (d : Disk) : Header := (readHead g (boot d)).lh

/-- **What a recovery leaves on the home blocks.** -/
def replay (g : Geom) (d : Disk) : Disk := diskAfter d (homeWrites g (diskHead g d) d)

theorem diskHead_congr {d : Disk} (h : d g.start = d' g.start) : diskHead g d = diskHead g d' := by
  have hx : ∀ d, diskHead g d = (fun x : Block =>
      (⟨headN x, fun i => if i < headN x then x.word (i + 1) else 0⟩ : Header)) (d g.start) := fun _ => rfl
  rw [hx, hx, h]

/-- With `n = 0` in the header there is nothing to replay. -/
theorem diskHead_of_zero (h : headN (d g.start) = 0) : (diskHead g d).n = 0 := h

theorem replay_of_zero (h : headN (d g.start) = 0) : replay g d = d := by
  unfold replay homeWrites
  rw [diskHead_of_zero h]; rfl

theorem diskHead_ok_of_zero (h : headN (d g.start) = 0) : (diskHead g d).Ok g := by
  have hn := diskHead_of_zero h
  exact ⟨fun i hi => by omega, by omega⟩

theorem headN_of_word {x : Block} (h : x.word 0 = 0) : headN x = 0 := by
  unfold headN; rw [h]; rfl

theorem not_inside_ne (hb : ¬ g.Inside b) : b ≠ g.start := by
  rintro rfl
  exact hb ⟨le_rfl, by have := g.size_pos; omega⟩

/-- The home writes named by an acceptable header keep to the home blocks. -/
theorem homeWrites_outside (h : lh.Ok g) {w : ℕ × Block} (hw : w ∈ homeWrites g lh d) :
    ¬ g.Inside w.1 := by
  obtain ⟨i, hi, rfl⟩ := List.mem_map.1 hw
  exact h.home i (List.mem_range.1 hi)

/-- Writes outside the log region leave the region as it is. -/
theorem diskAfter_inside (h : ∀ w ∈ ws, ¬ g.Inside w.1)
    (hb : g.Inside b) (d : Disk) : diskAfter d ws b = d b :=
  diskAfter_other (fun w hw he => h w hw (he ▸ hb)) d

theorem inside_start (g : Geom) : g.Inside g.start := ⟨le_rfl, by have := g.size_pos; omega⟩

/-- The home writes of a header read only the log region. -/
theorem homeWrites_congr (h : lh.Ok g) {d : Disk} (hd : ∀ b, g.Inside b → d b = d' b) :
    homeWrites g lh d = homeWrites g lh d' := by
  apply List.map_congr_left
  intro i hi
  have hf := h.fits
  have hi := List.mem_range.1 hi
  rw [hd _ ⟨by omega, by omega⟩]

/-! ## Recovery -/

/-- The writes of `recover_from_log`: the home blocks, then the cleared header. -/
theorem recover_trace (h : (diskHead g d).Ok g) :
    ∃ x : Block, x.word 0 = 0 ∧
      (recoverFromLog g (boot d)).trace = homeWrites g (diskHead g d) d ++ [(g.start, x)] ∧
      (recoverFromLog g (boot d)).disk =
        diskAfter d (homeWrites g (diskHead g d) d ++ [(g.start, x)]) := by
  have hread : (readHead g (boot d)).lh.Ok g := h
  unfold recoverFromLog
  rw [installTrans_eq hread, writeHead_eq]
  refine ⟨_, ?_, rfl, by rw [diskAfter_append]; rfl⟩
  rw [word_storeHead _ _ (Nat.zero_le _), if_pos rfl]
  rfl

/-- **An interrupted recovery changes nothing that recovery would produce.** -/
theorem replay_crashRecover (h : (diskHead g d).Ok g) (j : ℕ) :
    (diskHead g (crashRecover g d j)).Ok g ∧
      ∀ b, ¬ g.Inside b → replay g (crashRecover g d j) b = replay g d b := by
  obtain ⟨x, hx, htr, -⟩ := recover_trace h
  unfold crashRecover
  rw [htr]
  set hw := homeWrites g (diskHead g d) d with hhw
  have hout : ∀ w ∈ hw, ¬ g.Inside w.1 := fun w hw => homeWrites_outside h hw
  rcases Nat.lt_or_ge hw.length j with hj | hj
  · -- all writes were made: the header is clear
    rw [List.take_of_length_le (by simp; omega), diskAfter_append]
    have hz : headN (diskAfter (diskAfter d hw) [(g.start, x)] g.start) = 0 := by
      simp [diskAfter, headN_of_word hx]
    refine ⟨diskHead_ok_of_zero hz, fun b hb => ?_⟩
    rw [replay_of_zero hz]
    show update (diskAfter d hw) g.start x b = _
    rw [update_of_ne (not_inside_ne hb)]; rfl
  · -- only home blocks were written: header and log are as before
    rw [List.take_append_of_le_length hj]
    have hin : ∀ b, g.Inside b → diskAfter d (hw.take j) b = d b := fun b hb =>
      diskAfter_inside (fun w hw' => hout w (List.mem_of_mem_take hw')) hb d
    have hhead := diskHead_congr (g := g) (hin _ (inside_start g))
    refine ⟨by rw [hhead]; exact h, fun b _ => ?_⟩
    unfold replay
    rw [hhead, homeWrites_congr h hin, ← hhw, diskAfter_take_all]

/-- **A recovery that completes** leaves the replayed home blocks and an empty log. -/
theorem recover_complete (h : (diskHead g d).Ok g) :
    ((recoverFromLog g (boot d)).disk g.start).word 0 = 0 ∧
      ∀ b, ¬ g.Inside b → (recoverFromLog g (boot d)).disk b = replay g d b := by
  obtain ⟨x, hx, -, hd⟩ := recover_trace h
  rw [hd, diskAfter_append]
  refine ⟨by simp [diskAfter, hx], fun b hb => ?_⟩
  show update (diskAfter d (homeWrites g (diskHead g d) d)) g.start x b = _
  rw [update_of_ne (not_inside_ne hb)]; rfl

theorem recoverAll_spec (h : (diskHead g d).Ok g) (js : List ℕ) :
    ((recoverAll g d js) g.start).word 0 = 0 ∧
      ∀ b, ¬ g.Inside b → recoverAll g d js b = replay g d b := by
  induction js generalizing d with
  | nil => exact recover_complete h
  | cons j js ih =>
    obtain ⟨hok, hre⟩ := replay_crashRecover h j
    obtain ⟨h0, hb⟩ := ih hok
    exact ⟨h0, fun b hnb => (hb b hnb).trans (hre b hnb)⟩

/-! ## Committing one transaction -/

/-- No write of a log block or a home block is a commit point. -/
theorem countP_commitPoint_eq_zero (h : ∀ w ∈ ws, w.1 ≠ g.start) :
    ws.countP (IsCommitPoint g) = 0 := by
  rw [List.countP_eq_zero]
  intro w hw hc
  simp only [IsCommitPoint, Bool.and_eq_true, beq_iff_eq] at hc
  exact h w hw hc.1

section Commit

variable {t : Txn} (hbd : m.buf = m.disk) (hz : (m.disk g.start).word 0 = 0) (ht : t.Ok g)

/-- `log.lh` while `t` is committed. -/
def Txn.head (m : Mem) (t : Txn) : Header := (m.load t).lh

theorem Txn.head_block {i : ℕ} (hi : i < t.length) : (Txn.head m t).block i = t[i].1 := by
  simp [Txn.head, Mem.load, hi]

include ht

theorem Txn.Ok.head_ok : (Txn.head m t).Ok g := by
  refine ⟨fun i hi => ?_, le_trans ht.fits (min_le_right _ _)⟩
  rw [Txn.head_block hi]
  exact ht.home _ (List.getElem_mem _)

theorem Txn.Ok.length_le : t.length ≤ logsize := le_trans ht.fits (min_le_left _ _)

/-- The log blocks of `t`. -/
def Txn.logBlocks (g : Geom) (t : Txn) : List (ℕ × Block) := t.mapIdx fun i p => (g.start + i + 1, p.2)

omit ht in
theorem Txn.mem_logBlocks {w : ℕ × Block} (hw : w ∈ t.logBlocks g) :
    ∃ i, ∃ h : i < t.length, w = (g.start + i + 1, t[i].2) := by
  obtain ⟨i, hi, rfl⟩ := List.mem_mapIdx.1 hw
  exact ⟨i, hi, rfl⟩

theorem Txn.Ok.logBlocks_inside {w : ℕ × Block} (hw : w ∈ t.logBlocks g) :
    g.Inside w.1 ∧ w.1 ≠ g.start := by
  obtain ⟨i, hi, rfl⟩ := Txn.mem_logBlocks hw
  have := le_trans ht.fits (min_le_right _ _)
  exact ⟨⟨by simp only; omega, by simp only; omega⟩, by simp only; omega⟩

omit ht in
theorem Txn.logBlocks_nodup : ((t.logBlocks g).map Prod.fst).Nodup := by
  apply List.pairwise_iff_getElem.2
  intro i j hi hj hij
  simp only [Txn.logBlocks, List.getElem_map, List.getElem_mapIdx]
  omega

/-- The modified buffer of each block of `t`. -/
theorem Txn.Ok.load_buf {p : ℕ × Block} (hp : p ∈ t) : (m.load t).buf p.1 = p.2 :=
  diskAfter_mem ht.nodup hp m.buf

theorem Txn.Ok.logWrites_load : logWrites g (m.load t) = t.logBlocks g := by
  apply List.ext_getElem
  · simp [logWrites, Txn.logBlocks, Mem.load]
  intro i h1 h2
  have hi : i < t.length := by simpa [Txn.logBlocks] using h2
  have hb : (m.load t).lh.block i = t[i].1 := Txn.head_block hi
  simp only [logWrites, List.getElem_map, List.getElem_range, Txn.logBlocks, List.getElem_mapIdx]
  rw [hb, ht.load_buf (List.getElem_mem hi)]

omit ht in
/-- Once the log blocks and a header naming `t` are on a disk, the home writes that
recovery would make are `t` itself. -/
theorem Txn.homeWrites_eq {lh : Header} {d : Disk} (hn : lh.n = t.length)
    (hb : ∀ i, (h : i < t.length) → lh.block i = t[i].1)
    (hd : ∀ w ∈ t.logBlocks g, d w.1 = w.2) : homeWrites g lh d = t := by
  apply List.ext_getElem
  · simp [homeWrites, hn]
  intro i h1 h2
  have hm : (g.start + i + 1, t[i].2) ∈ t.logBlocks g := List.mem_mapIdx.2 ⟨i, h2, rfl⟩
  simp only [homeWrites, List.getElem_map, List.getElem_range]
  rw [hb i h2, hd _ hm]

/-- The header block that commits `t`, and the one that clears it. -/
def Txn.head1 (g : Geom) (m : Mem) (t : Txn) : Block := storeHead (Txn.head m t) (m.disk g.start)

def Txn.head0 (g : Geom) (m : Mem) (t : Txn) : Block :=
  storeHead { Txn.head m t with n := 0 } (t.head1 g m)

/-- The writes of `commit`, in order: log blocks, commit point, home blocks, cleared header. -/
def Txn.writes (g : Geom) (m : Mem) (t : Txn) : List (ℕ × Block) :=
  t.logBlocks g ++ ((g.start, t.head1 g m) :: (t ++ [(g.start, t.head0 g m)]))

include hbd

/-- **The writes of `commit`.** The cache and the disk agree again when it is done. -/
theorem commit_load (hne : t ≠ []) :
    (commit g (m.load t)).trace = m.trace ++ t.writes g m ∧
      (commit g (m.load t)).disk = diskAfter m.disk (t.writes g m) ∧
      (commit g (m.load t)).buf = (commit g (m.load t)).disk := by
  have hpos : 0 < (m.load t).lh.n := List.length_pos_iff.2 hne
  have hok : (m.load t).lh.Ok g := ht.head_ok
  unfold commit
  rw [if_pos hpos, writeLog_eq hok, ht.logWrites_load]
  set m1 := ((m.load t).writes (t.logBlocks g)) with hm1
  -- the buffer of the header block is still the one on disk
  have hbuf0 : m1.buf g.start = m.disk g.start := by
    have h1 : m1.buf g.start = (m.load t).buf g.start :=
      diskAfter_other (fun w hw => (ht.logBlocks_inside hw).2) _
    have h2 : (m.load t).buf g.start = m.buf g.start :=
      diskAfter_other (fun w hw => not_inside_ne (ht.home w hw)) _
    rw [h1, h2, hbd]
  have hhead : writeHead g m1 = m1.writes [(g.start, t.head1 g m)] := by
    rw [writeHead_eq, hbuf0]; rfl
  rw [hhead]
  set m2 := m1.writes [(g.start, t.head1 g m)] with hm2
  have hlog : ∀ w ∈ t.logBlocks g, m2.buf w.1 = w.2 := by
    intro w hw
    have h1 : m2.buf w.1 = m1.buf w.1 :=
      diskAfter_other (by simpa using (ht.logBlocks_inside hw).2.symm) _
    rw [h1]
    exact diskAfter_mem Txn.logBlocks_nodup hw _
  have hhome : homeWrites g m2.lh m2.buf = t :=
    Txn.homeWrites_eq rfl (fun i hi => Txn.head_block hi) hlog
  rw [installTrans_eq (show m2.lh.Ok g from hok), hhome, writeHead_eq]
  have hclear : storeHead (m2.writes t).clearHead.lh ((m2.writes t).clearHead.buf g.start) =
      t.head0 g m := by
    have h1 : (m2.writes t).buf g.start = m2.buf g.start :=
      diskAfter_other (fun w hw => not_inside_ne (ht.home w hw)) _
    have h2 : m2.buf g.start = t.head1 g m := by simp [hm2, Mem.writes, diskAfter]
    show storeHead { Txn.head m t with n := 0 } ((m2.writes t).buf g.start) = _
    rw [h1, h2]; rfl
  rw [hclear]
  have hw : ∀ d : Disk, diskAfter d (t.writes g m) = diskAfter (diskAfter (diskAfter (diskAfter d
      (t.logBlocks g)) [(g.start, t.head1 g m)]) t) [(g.start, t.head0 g m)] := by
    intro d
    rw [Txn.writes, diskAfter_append, ← List.singleton_append, diskAfter_append, diskAfter_append]
  refine ⟨?_, (hw m.disk).symm, ?_⟩
  · simp [Mem.writes, Mem.clearHead, hm2, hm1, Mem.load, Txn.writes]
  · -- every block of `t` has been written home
    show diskAfter (diskAfter (diskAfter (diskAfter (m.load t).buf _) _) _) _ =
      diskAfter (diskAfter (diskAfter (diskAfter m.disk _) _) _) _
    rw [← hw, ← hw]
    funext b
    apply diskAfter_congr
    by_cases hb : ∃ w ∈ t, w.1 = b
    · obtain ⟨w, hw, rfl⟩ := hb
      exact Or.inl ⟨w, by simp [Txn.writes, hw], rfl⟩
    · right
      rw [← hbd]
      exact diskAfter_other (fun w hw he => hb ⟨w, hw, he⟩) _

omit hbd in
theorem Txn.Ok.headN_head1 : headN (t.head1 g m) = t.length := headN_storeHead _ _ ht.length_le

omit hbd in
/-- The writes up to the commit point keep every home block. -/
theorem Txn.Ok.log_home {b : ℕ} (hb : ¬ g.Inside b) (x : Block) (d : Disk) :
    diskAfter (diskAfter d (t.logBlocks g)) [(g.start, x)] b = d b := by
  rw [diskAfter_other (by simpa using (not_inside_ne hb).symm)]
  apply diskAfter_other
  rintro w hw rfl
  exact hb (ht.logBlocks_inside hw).1

omit hbd in
/-- The disk once the commit point of `t` is written, and any further home blocks. -/
theorem Txn.Ok.replay_committed (d : Disk) (i : ℕ) :
    let d' := diskAfter (diskAfter (diskAfter d (t.logBlocks g)) [(g.start, t.head1 g m)]) (t.take i)
    (diskHead g d').Ok g ∧ ∀ b, ¬ g.Inside b → replay g d' b = diskAfter d t b := by
  intro d'
  set d1 := diskAfter (diskAfter d (t.logBlocks g)) [(g.start, t.head1 g m)] with hd1
  have hin : ∀ b, g.Inside b → d' b = d1 b := fun b hb =>
    diskAfter_inside (fun w hw => ht.home w (List.mem_of_mem_take hw)) hb _
  have hstart : d' g.start = t.head1 g m := by
    rw [hin _ (inside_start g)]; simp [hd1, diskAfter]
  have hn : (diskHead g d').n = t.length := by
    show headN (d' g.start) = _
    rw [hstart, ht.headN_head1]
  have hb : ∀ i, (h : i < t.length) → (diskHead g d').block i = t[i].1 := by
    intro i hi
    show (if i < headN (d' g.start) then (d' g.start).word (i + 1) else 0) = _
    rw [hstart, if_pos (by rw [ht.headN_head1]; exact hi), Txn.head1,
      word_storeHead _ _ ht.length_le, if_neg (by omega), if_pos (by show i + 1 ≤ t.length; omega),
      Nat.add_sub_cancel, Txn.head_block hi, Nat.mod_eq_of_lt (ht.uint _ (List.getElem_mem hi))]
  have hlog : ∀ w ∈ t.logBlocks g, d' w.1 = w.2 := by
    intro w hw
    rw [hin _ (ht.logBlocks_inside hw).1, hd1]
    rw [diskAfter_other (by simpa using (ht.logBlocks_inside hw).2.symm)]
    exact diskAfter_mem Txn.logBlocks_nodup hw _
  refine ⟨⟨fun i hi => ?_, ?_⟩, fun b hnb => ?_⟩
  · rw [hn] at hi; rw [hb i hi]; exact ht.home _ (List.getElem_mem hi)
  · rw [hn]; exact le_trans ht.fits (min_le_right _ _)
  · unfold replay
    rw [Txn.homeWrites_eq hn hb hlog, diskAfter_take_all]
    exact diskAfter_congr (Or.inr (ht.log_home hnb _ d))

omit hbd in
theorem Txn.Ok.countP_take (n : ℕ) :
    ((t.logBlocks g).take n).countP (IsCommitPoint g) = 0 ∧ (t.take n).countP (IsCommitPoint g) = 0 :=
  ⟨countP_commitPoint_eq_zero fun _ hw => (ht.logBlocks_inside (List.mem_of_mem_take hw)).2,
    countP_commitPoint_eq_zero fun w hw => not_inside_ne (ht.home w (List.mem_of_mem_take hw))⟩

omit hbd in
theorem Txn.Ok.isCommitPoint_head1 (hne : t ≠ []) : IsCommitPoint g (g.start, t.head1 g m) = true := by
  simp [IsCommitPoint, ht.headN_head1, List.length_pos_iff.2 hne]

omit hbd in
/-- **After all writes of `commit`** the log is empty and the home blocks hold `t`; exactly
one of the writes was a commit point. -/
theorem Txn.Ok.all_written (hne : t ≠ []) (d : Disk) :
    (t.writes g m).countP (IsCommitPoint g) = 1 ∧
      (diskAfter d (t.writes g m) g.start).word 0 = 0 ∧
      ∀ b, ¬ g.Inside b → diskAfter d (t.writes g m) b = diskAfter d t b := by
  have hw : diskAfter d (t.writes g m) = diskAfter (diskAfter (diskAfter (diskAfter d (t.logBlocks g))
      [(g.start, t.head1 g m)]) t) [(g.start, t.head0 g m)] := by
    rw [Txn.writes, diskAfter_append, ← List.singleton_append, diskAfter_append, diskAfter_append]
  have h0 : (t.head0 g m).word 0 = 0 := by
    rw [Txn.head0, word_storeHead _ _ (Nat.zero_le _), if_pos rfl]
  refine ⟨?_, ?_, fun b hb => ?_⟩
  · have hl := (ht.countP_take (t.logBlocks g).length).1
    have ht' := (ht.countP_take t.length).2
    rw [List.take_length] at hl ht'
    rw [Txn.writes, List.countP_append, List.countP_cons_of_pos (ht.isCommitPoint_head1 hne),
      List.countP_append, hl, ht']
    simp [IsCommitPoint, headN_of_word h0]
  · rw [hw]; simp [diskAfter, h0]
  · rw [hw]
    rw [diskAfter_other (by simpa using (not_inside_ne hb).symm)]
    exact diskAfter_congr (Or.inr (ht.log_home hb _ d))

include hz

omit hbd in
/-- **A crash inside `commit`.** Recovery finds the old contents until the commit point
is written, and the transaction from then on. -/
theorem replay_commit (hne : t ≠ []) (j : ℕ) :
    let d' := diskAfter m.disk ((t.writes g m).take j)
    let c := ((t.writes g m).take j).countP (IsCommitPoint g)
    (diskHead g d').Ok g ∧
      ((c = 0 ∧ ∀ b, ¬ g.Inside b → replay g d' b = m.disk b) ∨
        (c = 1 ∧ ∀ b, ¬ g.Inside b → replay g d' b = diskAfter m.disk t b)) := by
  intro d' c
  rcases Nat.lt_or_ge (t.logBlocks g).length j with hj | hj
  · obtain ⟨i, rfl⟩ : ∃ i, j = (t.logBlocks g).length + (i + 1) := ⟨j - (t.logBlocks g).length - 1, by omega⟩
    have htake : (t.writes g m).take ((t.logBlocks g).length + (i + 1)) =
        t.logBlocks g ++ ((g.start, t.head1 g m) :: (t ++ [(g.start, t.head0 g m)]).take i) := by
      rw [Txn.writes, List.take_length_add_append, List.take_succ_cons]
    rcases Nat.lt_or_ge t.length i with hi | hi
    · -- everything was written, the header is clear again
      have hfull : (t.writes g m).take ((t.logBlocks g).length + (i + 1)) = t.writes g m := by
        rw [htake, List.take_of_length_le (by simp; omega)]; rfl
      obtain ⟨hc, h0, hhome⟩ := ht.all_written (m := m) hne m.disk
      have hd' : d' = diskAfter m.disk (t.writes g m) := by simp only [d']; rw [hfull]
      have hz' : headN (d' g.start) = 0 := by rw [hd']; exact headN_of_word h0
      refine ⟨diskHead_ok_of_zero hz', Or.inr ⟨by simp only [c]; rw [hfull, hc], fun b hb => ?_⟩⟩
      rw [replay_of_zero hz', hd', hhome b hb]
    · -- the commit point and some home blocks were written
      have hpart : (t ++ [(g.start, t.head0 g m)]).take i = t.take i := List.take_append_of_le_length hi
      have hd' : d' = diskAfter (diskAfter (diskAfter m.disk (t.logBlocks g))
          [(g.start, t.head1 g m)]) (t.take i) := by
        simp only [d']
        rw [htake, hpart, diskAfter_append, ← List.singleton_append, diskAfter_append]
      obtain ⟨hok, hre⟩ := ht.replay_committed (m := m) m.disk i
      have hl := (ht.countP_take (t.logBlocks g).length).1
      rw [List.take_length] at hl
      rw [hd']
      refine ⟨hok, Or.inr ⟨?_, hre⟩⟩
      simp only [c]
      rw [htake, hpart, List.countP_append, List.countP_cons_of_pos (ht.isCommitPoint_head1 hne), hl,
        (ht.countP_take i).2]
  · -- only log blocks were written, the header still says `n = 0`
    have htake : (t.writes g m).take j = (t.logBlocks g).take j := by
      rw [Txn.writes, List.take_append_of_le_length hj]
    have hd' : d' = diskAfter m.disk ((t.logBlocks g).take j) := by simp only [d']; rw [htake]
    have hz' : headN (d' g.start) = 0 := by
      rw [hd', diskAfter_other fun w hw => (ht.logBlocks_inside (List.mem_of_mem_take hw)).2]
      exact headN_of_word hz
    refine ⟨diskHead_ok_of_zero hz', Or.inl ⟨?_, fun b hb => ?_⟩⟩
    · simp only [c]; rw [htake, (ht.countP_take j).1]
    · rw [replay_of_zero hz', hd']
      apply diskAfter_other
      rintro w hw rfl
      exact hb (ht.logBlocks_inside (List.mem_of_mem_take hw)).1

end Commit

/-! ## Runs -/

theorem commit_load_nil (g : Geom) (m : Mem) : commit g (m.load []) = m.load [] := by
  simp [commit, Mem.load]

/-- **A crash during a sequence of commits.** Recovery would find the transactions whose
commit point is among the first `j` writes. -/
theorem replay_commitAll {ts : List Txn} (hts : ∀ t ∈ ts, t.Ok g) (hbd : m.buf = m.disk)
    (hz : (m.disk g.start).word 0 = 0) :
    ∃ ws, (commitAll g m ts).trace = m.trace ++ ws ∧ ∀ j, ∃ k ≤ ts.length,
      (ws.take j).countP (IsCommitPoint g) = (ts.take k).countP (fun t => !t.isEmpty) ∧
      (diskHead g (diskAfter m.disk (ws.take j))).Ok g ∧
      ∀ b, ¬ g.Inside b → replay g (diskAfter m.disk (ws.take j)) b =
        diskAfter m.disk (ts.take k).flatten b := by
  induction ts generalizing m with
  | nil =>
    refine ⟨[], by simp [commitAll], fun j => ⟨0, le_rfl, by simp, ?_⟩⟩
    rw [List.take_nil]
    exact ⟨diskHead_ok_of_zero (headN_of_word hz), fun b _ => by
      rw [diskAfter_nil, replay_of_zero (headN_of_word hz)]; rfl⟩
  | cons t ts ih =>
    have hts' : ∀ t ∈ ts, t.Ok g := fun t ht => hts t (List.mem_cons_of_mem _ ht)
    have htok := hts t List.mem_cons_self
    rcases eq_or_ne t [] with rfl | hne
    · -- an empty transaction writes nothing
      obtain ⟨ws, htr, hj⟩ := ih hts' (m := m.load []) hbd hz
      refine ⟨ws, ?_, fun j => ?_⟩
      · show (commitAll g (commit g (m.load [])) ts).trace = _
        rw [commit_load_nil]; exact htr
      · obtain ⟨k, hk, hc, hok, hre⟩ := hj j
        exact ⟨k + 1, by simpa using hk, by simpa using hc, hok, hre⟩
    · obtain ⟨htr1, hd1, hb1⟩ := commit_load hbd htok hne
      obtain ⟨hc1, h01, hhome1⟩ := htok.all_written (m := m) hne m.disk
      set m' := commit g (m.load t) with hm'
      obtain ⟨ws, htr, hj⟩ := ih hts' (m := m') hb1 (by rw [hd1]; exact h01)
      refine ⟨t.writes g m ++ ws, ?_, fun j => ?_⟩
      · rw [← List.append_assoc, ← htr1]; exact htr
      rcases Nat.lt_or_ge (t.writes g m).length j with hlt | hle
      · -- the crash comes after this commit
        obtain ⟨i, rfl⟩ : ∃ i, j = (t.writes g m).length + i := ⟨j - (t.writes g m).length, by omega⟩
        obtain ⟨k, hk, hc, hok, hre⟩ := hj i
        rw [List.take_length_add_append, diskAfter_append, ← hd1]
        refine ⟨k + 1, by simpa using hk, ?_, hok, fun b hb => ?_⟩
        · rw [List.countP_append, hc1, hc, List.take_succ_cons, List.countP_cons_of_pos (by simpa using hne)]
          omega
        · rw [hre b hb, List.take_succ_cons, List.flatten_cons, diskAfter_append]
          apply diskAfter_congr
          right
          rw [hd1, hhome1 b hb]
      · -- the crash comes inside this commit
        rw [List.take_append_of_le_length hle]
        obtain ⟨hok, ⟨hc, hre⟩ | ⟨hc, hre⟩⟩ := replay_commit hz htok hne j
        · exact ⟨0, Nat.zero_le _, by simpa using hc, hok, fun b hb => by rw [hre b hb]; rfl⟩
        · refine ⟨1, by simp, ?_, hok, fun b hb => by rw [hre b hb]; simp⟩
          rw [hc, List.take_succ_cons, List.countP_cons_of_pos (by simpa using hne)]; simp

/-- **Crash atomicity of the redo log.** Start from a disk whose log header says `n = 0`,
commit any sequence of transactions, crash after any number `j` of block writes, and
crash any number of recoveries after any number of their writes. When a recovery
completes, the home blocks hold exactly the first `k` transactions, where the commit
points that reached the disk are those of the first `k` (a transaction that changes
nothing has none), and the header again says `n = 0`. -/
theorem crash_atomic {g : Geom} {d : Disk} (hz : (d g.start).word 0 = 0) {ts : List Txn}
    (hts : ∀ t ∈ ts, t.Ok g) (j : ℕ) (js : List ℕ) :
    ∃ k ≤ ts.length,
      ((commitAll g (boot d) ts).trace.take j).countP (IsCommitPoint g) =
        (ts.take k).countP (fun t => !t.isEmpty) ∧
      (∀ b, ¬ g.Inside b →
        recoverAll g (crashCommit g d ts j) js b = diskAfter d (ts.take k).flatten b) ∧
      (recoverAll g (crashCommit g d ts j) js g.start).word 0 = 0 := by
  obtain ⟨ws, htr, hj⟩ := replay_commitAll (m := boot d) hts rfl hz
  have htr : (commitAll g (boot d) ts).trace = ws := htr
  obtain ⟨k, hk, hc, hok, hre⟩ := hj j
  unfold crashCommit
  rw [htr]
  obtain ⟨h0, hb⟩ := recoverAll_spec hok js
  exact ⟨k, hk, hc, fun b hnb => (hb b hnb).trans (hre b hnb), h0⟩

/-- The log of a disk image written by `mkfs`. -/
def mkfsGeom : Geom := ⟨2, logsize, by decide⟩

/-- A transaction on block 100 of a blank image, cut off after its commit point, and one
recovery cut off after its first write. -/
theorem crash_atomic_blank :
    ∃ k ≤ 1,
      ((commitAll mkfsGeom (boot fun _ _ => 0) [[(100, fun _ => 1)]]).trace.take 2).countP
          (IsCommitPoint mkfsGeom) =
        (([[(100, fun _ => 1)]] : List Txn).take k).countP (fun t => !t.isEmpty) ∧
      (∀ b, ¬ mkfsGeom.Inside b →
        recoverAll mkfsGeom (crashCommit mkfsGeom (fun _ _ => 0) [[(100, fun _ => 1)]] 2) [1] b =
          diskAfter (fun _ _ => 0) (([[(100, fun _ => 1)]] : List Txn).take k).flatten b) ∧
      (recoverAll mkfsGeom (crashCommit mkfsGeom (fun _ _ => 0) [[(100, fun _ => 1)]] 2) [1]
        mkfsGeom.start).word 0 = 0 := by
  have ht : Txn.Ok mkfsGeom [(100, fun _ => 1)] := by
    refine ⟨by simp, by simp, fun p hp => ?_, by decide⟩
    obtain rfl := List.mem_singleton.1 hp
    decide
  have hts : ∀ t ∈ ([[(100, fun _ => 1)]] : List Txn), t.Ok mkfsGeom := by simpa using ht
  have hz : Lib.Bytes.word (fun _ => 0 : Block) 0 = 0 := by decide
  exact crash_atomic (d := fun _ _ => 0) hz hts 2 [1]

end Xv6.Log
