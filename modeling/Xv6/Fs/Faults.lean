import Xv6.Fs.Array

/-!
# Writes that a fault cuts short

`writei` copies from the user straight into a buffer and calls `log_write` when the whole piece
of the block has arrived. If the source faults inside the piece, the bytes before the fault
stay in the buffer, which is not in the log.

* `failed_write_spares`: a write cut short at `t` leaves the bytes of the file from `off + t` on,
  and every buffer outside the log, as they were, if the bytes that stay behind are the ones that
  were there (`Harmless`); and if the block of the fault is not beyond the end of the file, only then.
* `failed_write_torn`: a write of two bytes that faults at the second changes the first.
-/

namespace Xv6.Fs

open Function Lib

/-- The home locations: the free map, the inode area and the other blocks. -/
structure OnDisk where
  used : ℕ → Bool
  dinode : ℕ → Dinode
  data : ℕ → Block

/-- What the buffers show. -/
def State.shown (s : State) : OnDisk := ⟨s.used, s.dinode, s.data⟩

/-- **Every buffer that is not in the log equals its block on the disk.** -/
structure State.Clean (s : State) (disk : OnDisk) : Prop where
  data : ∀ b, b ∉ s.logged → s.data b = disk.data b
  used : ∀ b, s.sb.bblock b ∉ s.logged → s.used b = disk.used b
  dinode : ∀ i, s.sb.iblock i ∉ s.logged → s.dinode i = disk.dinode i

/-- The blocks of inodes and of the free map come before the data blocks. -/
structure Superblock.Laid (sb : Superblock) : Prop where
  inodes : ∀ i < sb.ninodes, sb.iblock i < sb.datastart
  bitmap : ∀ b < sb.size, sb.bblock b < sb.datastart

/-- After a write to inode `i` at offset `off` that returned `t`: the rest of the old contents is
there, and what is not in the log is as it is on the disk. -/
def LeavesRest (s s' : State) (i off t : ℕ) : Prop :=
  (∀ o, off + t ≤ o → o < (s.dinode i).size → s'.byte i o = s.byte i o) ∧
    ∀ disk, s.Clean disk → s'.Clean disk

/-- Where the piece begins that byte `k` of a write at offset `off` is in. -/
def pieceStart (off k : ℕ) : ℕ := max off ((off + k) / bsize * bsize) - off

/-- The bytes copied before the first fault, in the block where it strikes, are those that the
file has there; past the end of the file this matters only if the block is not in the log. -/
def Harmless (s : State) (i : ℕ) (src : Src) (off n : ℕ) : Prop :=
  let f := src.readable 0 n
  let b := s.memSlot i (fileSlot ((off + f) / bsize))
  f < n → b ≠ 0 → ∀ k, pieceStart off f ≤ k → k < f → off + k < (s.dinode i).size ∨ b ∉ s.logged →
    src k = some (s.byte i (off + k))

namespace State

variable {lost : ℕ → Prop} {s s' s'' : State} {i lo hi : ℕ} {new : List ℕ} {disk : OnDisk}

theorem clean_shown (s : State) : s.Clean s.shown :=
  ⟨fun _ _ => rfl, fun _ _ => rfl, fun _ _ => rfl⟩

theorem not_clean {b o : ℕ} (hb : b ∉ s'.logged) (hne : (s'.data b).get o ≠ (s.data b).get o) :
    ¬ s'.Clean s.shown := by
  intro hc
  exact hne (congrArg (Bytes.get · o) (hc.data b hb))

theorem Recorded.clean (h : Recorded i lo hi s s' new) (hsb : s'.sb = s.sb) (hc : s.Clean disk) :
    s'.Clean disk := by
  have hmem : ∀ b, b ∉ s'.logged → b ∉ new ∧ b ∉ s.logged := by
    intro b hb
    rwa [h.logged, List.mem_append, not_or] at hb
  refine ⟨fun b hb => ?_, fun b hb => ?_, fun j hj => ?_⟩
  · rw [h.data b (hmem b hb).1, hc.data b (hmem b hb).2]
  · rw [hsb] at hb
    rw [h.used b (hmem _ hb).1, hc.used b (hmem _ hb).2]
  · rw [hsb] at hj
    rw [h.dinode, hc.dinode j (hmem _ hj).2]

theorem Clean.wroteBack (hc : s.Clean disk) (i off : ℕ) : (s.wroteBack i off).Clean disk := by
  refine ⟨fun b hb => hc.data b fun hm => hb (.tail _ hm), fun b hb => hc.used b fun hm => hb (.tail _ hm),
    fun j hj => ?_⟩
  by_cases hji : j = i
  · subst hji
    exact absurd (.head _) hj
  · rw [State.wroteBack, putD_dinode_of_ne _ hji]
    exact hc.dinode j fun hm => hj (.tail _ hm)

/-- A block that the inode had before, outside the range, is not among those logged. -/
theorem Recorded.not_mem (h : Recorded i lo hi s s' new) (hw : s'.WfAt lost i) (hsb : s'.sb = s.sb)
    (hlay : s.sb.Laid) {bn : ℕ} (hbn : hi ≤ bn) (hne : s'.memSlot i (fileSlot bn) ≠ 0) :
    s'.memSlot i (fileSlot bn) ∉ new := by
  intro hm
  obtain ⟨σ, hσ, h0, he | ⟨-, he⟩⟩ := h.mem _ hm
  · have hslot := hw.memSlot_inj hne he
    rcases hσ with rfl | ⟨bn', -, hlt, rfl⟩
    · exact fileSlot_ne_ndirect bn hslot
    · have := fileSlot_inj hslot
      omega
  · have h1 := (hw.memSlot_owned hne).1
    have h2 := hlay.bitmap _ (hsb ▸ (hw.memSlot_owned h0).2.1)
    rw [hsb, he] at h1
    omega

end State

section Cut

variable {lost : ℕ → Prop} {s s₀ s' : State} {i off n hi c : ℕ} {src : Src} {new : List ℕ}

variable (h : Cut lost i src off n s s₀ hi new c s')

include h

/-- The pieces before the cut lie outside what a cut write must not change. -/
theorem Cut.memByte {o : ℕ} (ho : off + c ≤ o)
    (hne : s.memSlot i (fileSlot (o / bsize)) ≠ 0) : s₀.memByte i o = s.memByte i o :=
  h.wrote.outside o hne (.inr ho)

/-- The fault strikes in the piece that begins at the cut. -/
theorem Cut.first_fault {m : ℕ} (hc : c < n)
    (hm : m = min (n - c) (bsize - (off + c) % bsize)) (hk : src.readable c m ≠ m) :
    src.readable 0 n = c + src.readable c m ∧ (off + (c + src.readable c m)) / bsize = (off + c) / bsize ∧
      pieceStart off (c + src.readable c m) = c := by
  have hle := src.readable_le c m
  obtain ⟨hsome, hnone⟩ := src.readable_spec c m
  have hmod := Nat.mod_lt (off + c) bsize_pos
  have hdiv : (off + (c + src.readable c m)) / bsize = (off + c) / bsize := by
    rw [← Nat.add_assoc]
    exact div_add_of_lt _ _ (by omega)
  refine ⟨Src.readable_eq (by omega) (fun k hlt => ?_) fun _ => ?_, hdiv, ?_⟩
  · rw [Nat.zero_add]
    by_cases hkc : k < c
    · exact h.copied k hkc
    · have := hsome (k - c) (by omega)
      rwa [Nat.add_sub_cancel' (by omega : c ≤ k)] at this
  · rw [Nat.zero_add]
    exact hnone (by omega)
  · rw [pieceStart, hdiv]
    have hdm := Nat.div_add_mod (off + c) bsize
    rw [Nat.mul_comm] at hdm
    rcases h.piece hc with rfl | h0
    · rw [Nat.add_zero] at hdm ⊢
      rw [Nat.max_eq_left (by omega), Nat.sub_self]
    · rw [h0, Nat.add_zero] at hdm
      rw [hdm, Nat.max_eq_right (by omega), Nat.add_sub_cancel_left]

/-- A disk that is full leaves nothing behind. -/
theorem Cut.full_spares {new' : List ℕ} {σ bn : ℕ}
    (hmap : State.Mapped lost i σ s₀ 0 s') (hrec : State.Recorded i bn (bn + 1) s₀ s' new') :
    (∀ o, off + c ≤ o → s.memSlot i (fileSlot (o / bsize)) ≠ 0 → s'.memByte i o = s.memByte i o) ∧
      ∀ disk, s.Clean disk → s'.Clean disk := by
  refine ⟨fun o ho hne => ?_, fun disk hc => ?_⟩
  · rw [← h.memByte ho hne]
    exact hmap.grow.memByte (by rwa [h.wrote.slots _ hne])
  · exact hrec.clean hmap.grow.touch.sb (h.recorded.clean h.wrote.touch.sb hc)

/-- The state in which a fault leaves the loop: `k` bytes have been copied into block `addr`. -/
structure Torn (lost : ℕ → Prop) (i : ℕ) (src : Src) (off c k : ℕ) (s₀ s₁ : State) (addr : ℕ)
    (new : List ℕ) (s' : State) : Prop where
  ne_zero : addr ≠ 0
  map : State.Mapped lost i (fileSlot ((off + c) / bsize)) s₀ addr s₁
  recorded : State.Recorded i ((off + c) / bsize) ((off + c) / bsize + 1) s₀ s₁ new
  inside : (off + c) % bsize + k ≤ bsize
  copied : ∀ j < k, (src (c + j)).isSome
  state : s' = { s₁ with
    data := update s₁.data addr ((s₁.data addr).write ((off + c) % bsize) k
      fun j => (src (c + j)).getD 0) }

variable {s₁ : State} {k addr : ℕ} {new' : List ℕ}

variable (ht : Torn lost i src off c k s₀ s₁ addr new' s')

include ht

/-- The bytes of the file after the fault. -/
theorem Torn.memByte {o : ℕ} (ho : off + c ≤ o)
    (hne : s.memSlot i (fileSlot (o / bsize)) ≠ 0) :
    s'.memByte i o = if o < off + (c + k) then (src (o - off)).getD 0 else s.memByte i o := by
  have hslot := ht.map.here ht.ne_zero
  have h0 : s₀.memSlot i (fileSlot (o / bsize)) ≠ 0 := by rwa [h.wrote.slots _ hne]
  have h1 : s₁.memSlot i (fileSlot (o / bsize)) ≠ 0 := by rwa [ht.map.grow.slots _ h0]
  have hcopy := ht.map.grow.wfAt.memByte_copy (fun j => (src (c + j)).getD 0)
    (by rw [hslot]; exact ht.ne_zero) ht.inside s₁.logged (ht.state.trans (by rw [hslot])) h1
  rw [hcopy, ht.map.grow.memByte h0, h.memByte ho hne]
  refine ite_congr (propext (by omega)) (fun _ => ?_) fun _ => rfl
  congr 2
  omega

/-- **A harmless fault** leaves the rest of the file and the buffers alone. -/
theorem Torn.spares (hw : s.WfAt lost i)
    (heq : s.memSlot i (fileSlot ((off + c) / bsize)) ≠ 0 → ∀ j < k,
      off + (c + j) < (s.itable i).d.size ∨ s.memSlot i (fileSlot ((off + c) / bsize)) ∉ s.logged →
        src (c + j) = some (s.memByte i (off + (c + j)))) :
    (∀ o, off + c ≤ o → o < (s.itable i).d.size → s'.memByte i o = s.memByte i o) ∧
      ∀ disk, s.Clean disk → s'.Clean disk := by
  have hinside := ht.inside
  constructor
  · intro o ho hlt
    have hne := hw.memSlot_ne_zero ((div_mul_le o).trans_lt hlt)
    rw [ht.memByte h ho hne]
    split_ifs with hin
    · have hdiv := div_add_of_lt (off + c) (o - (off + c)) (by omega)
      rw [Nat.add_sub_cancel' ho] at hdiv
      have := heq (hdiv ▸ hne) (o - (off + c)) (by omega) (.inl (by omega))
      rw [show c + (o - (off + c)) = o - off by omega] at this
      rw [this, Nat.add_sub_cancel' (by omega : off ≤ o)]
      rfl
    · rfl
  · intro disk hc
    have hsb₁ := ht.map.grow.touch.sb
    have hc₁ := ht.recorded.clean hsb₁ (h.recorded.clean h.wrote.touch.sb hc)
    have hst := ht.state
    refine ⟨fun b hb => ?_, fun b hb => ?_, fun j hj => ?_⟩
    · rw [hst] at hb ⊢
      by_cases hba : b = addr
      · subst hba
        -- the block was there before, and the copy changes nothing
        have hb' : b ∉ new' ∧ b ∉ new ∧ b ∉ s.logged := by
          rw [ht.recorded.logged, h.recorded.logged] at hb
          simpa only [List.mem_append, not_or] using hb
        have hslot := ht.map.here ht.ne_zero
        have h0 : s₀.memSlot i (fileSlot ((off + c) / bsize)) ≠ 0 := fun h0 =>
          hb'.1 (hslot ▸ ht.recorded.fresh _ h0 (by rw [hslot]; exact ht.ne_zero))
        obtain ⟨-, he⟩ := ht.map.same h0
        have hs : s.memSlot i (fileSlot ((off + c) / bsize)) ≠ 0 := fun hs =>
          hb'.2.1 (he ▸ h.recorded.fresh _ hs h0)
        have hbs : s.memSlot i (fileSlot ((off + c) / bsize)) = b := by
          rw [he, h.wrote.slots _ hs]
        dsimp only
        rw [update_self, ← hc₁.data b hb]
        refine Bytes.ext_get fun o ho => ?_
        rw [Bytes.get_write _ _ _ _ ho]
        split_ifs with hin
        · have hdiv := div_add_of_lt (off + c) (o - (off + c) % bsize) (by omega)
          have hmod := mod_add_of_lt (off + c) (o - (off + c) % bsize) (by omega)
          rw [heq hs (o - (off + c) % bsize) (by omega) (.inr (hbs ▸ hb'.2.2))]
          unfold State.memByte
          rw [← Nat.add_assoc, hdiv, hmod, hbs, Nat.add_sub_cancel' hin.1, ht.recorded.data b hb'.1,
            h.recorded.data b hb'.2.1]
          rfl
        · rfl
      · dsimp only
        rw [update_of_ne hba]
        exact hc₁.data b hb
    · rw [hst] at hb ⊢
      exact hc₁.used b hb
    · rw [hst] at hj ⊢
      exact hc₁.dinode j hj

/-- **A fault that leaves them alone is harmless.** -/
theorem Torn.harmless (hw : s.WfAt lost i) (hlay : s.sb.Laid) (hc : c < n)
    (hbyte : ∀ o, off + c ≤ o → o < (s.itable i).d.size → s'.memByte i o = s.memByte i o)
    (hclean : ∀ b, b ∉ s'.logged → b ≠ s.sb.iblock i → s'.data b = s.data b)
    (hne : s.memSlot i (fileSlot ((off + c) / bsize)) ≠ 0) {j : ℕ} (hj : j < k)
    (hor : off + (c + j) < (s.itable i).d.size ∨
      s.memSlot i (fileSlot ((off + c) / bsize)) ∉ s.logged) :
    src (c + j) = some (s.memByte i (off + (c + j))) := by
  have hinside := ht.inside
  have hdiv : (off + (c + j)) / bsize = (off + c) / bsize := by
    rw [← Nat.add_assoc]
    exact div_add_of_lt _ _ (by omega)
  obtain ⟨x, hx⟩ := Option.isSome_iff_exists.1 (ht.copied j hj)
  have hnew : s'.memByte i (off + (c + j)) = x := by
    rw [ht.memByte h (by omega) (by rwa [hdiv]), if_pos (by omega), Nat.add_sub_cancel_left, hx]
    rfl
  rw [hx, ← hnew]
  rcases hor with hlt | hlog
  · rw [hbyte _ (by omega) hlt]
  · -- the block was not logged on the way
    set b := s.memSlot i (fileSlot ((off + c) / bsize)) with hb
    have hs₀ : s₀.memSlot i (fileSlot ((off + c) / bsize)) = b := h.wrote.slots _ hne
    obtain ⟨hs₁, he⟩ := ht.map.same (by rwa [hs₀])
    have hnot := h.recorded.not_mem h.wrote.wfAt h.wrote.touch.sb hlay (h.hi_le hc) (by rwa [hs₀])
    rw [hs₀] at hnot
    have hlog' : b ∉ s'.logged := by
      rw [ht.state, hs₁, h.recorded.logged, List.mem_append, not_or]
      exact ⟨hnot, hlog⟩
    have hib : b ≠ s.sb.iblock i := by
      have h1 := (hw.memSlot_owned hne).1
      have h2 := hlay.inodes i hw.lt_ninodes
      omega
    have hmem : s'.memSlot i (fileSlot ((off + c) / bsize)) = b := by
      have hslot := ht.map.here ht.ne_zero
      obtain ⟨-, -, hm⟩ := ht.map.grow.wfAt.setData (by rw [hslot]; exact ht.ne_zero) _ s₁.logged
        (ht.state.trans (by rw [hslot]))
      rw [hm, hs₁, hs₀]
    unfold State.memByte
    rw [hdiv, hmem, ← hb, hclean b hlog' hib]

end Cut

/-- **What a failed write leaves.** `writei` refuses and changes nothing, or it returns some `t`.
If `t < n` and the bytes that a fault leaves behind are the old ones, then the file keeps its bytes
from `off + t` on, and buffers that are not in the log equal the disk; and if the block where the
fault strikes begins inside the file or at its end, this is so only then. -/
theorem failed_write_spares {lost : ℕ → Prop} {s : State} {i : ℕ} (h : s.WfBut lost) (hl : s.Locked i)
    (hlay : s.sb.Laid) (src : Src) (off : ℕ) {n : ℕ} (hn : n < 2 ^ 32) :
    ∃ (r : ℤ) (s' : State), writei i src off n s = .ok (r, s') ∧
      (r = -1 ∧ s' = s ∨ ∃ t : ℕ, r = t ∧ t ≤ n ∧ (t < n →
        (Harmless s i src off n → LeavesRest s s' i off t) ∧
          ((off + src.readable 0 n) / bsize * bsize ≤ (s.dinode i).size → LeavesRest s s' i off t →
            Harmless s i src off n))) := by
  have hw := h.at hl
  have hd := (h.agree i hl).1
  rcases writei_cut hw src off hn with ⟨hr, -⟩ | ⟨c, s₀, hi, new, s₁, hr, hoff, hmax, hcut⟩
  · exact ⟨-1, s, hr, .inl ⟨rfl, rfl⟩⟩
  have hwr := hcut.wrote_all.writeBack hw hoff hmax hcut.first hcut.short
  have hd' := (hwr.wf.agree i (hwr.touch.locked hl)).1
  -- in terms of the state before the inode is written back
  have hbytes : ∀ o, (s₁.wroteBack i (off + c)).byte i o = s₁.memByte i o := fun o => by
    rw [State.byte_eq_memByte hd', State.wroteBack_memByte]
  have hspares : (∀ o, off + c ≤ o → o < (s.itable i).d.size → s₁.memByte i o = s.memByte i o) ∧
      (∀ disk, s.Clean disk → s₁.Clean disk) → LeavesRest s (s₁.wroteBack i (off + c)) i off c := by
    rintro ⟨h1, h2⟩
    refine ⟨fun o ho hlt => ?_, fun disk hcl => (h2 disk hcl).wroteBack i (off + c)⟩
    rw [hbytes, State.byte_eq_memByte hd, h1 o ho (by rwa [hd])]
  refine ⟨c, _, hr, .inr ⟨c, rfl, hcut.le, fun hc => ?_⟩⟩
  cases hcut.ends with
  | done he => omega
  | full _ hmap hrec =>
    obtain ⟨h1, h2⟩ := hcut.full_spares hmap hrec
    refine ⟨fun _ => hspares ⟨fun o ho hlt => ?_, h2⟩, fun hin _ hf hb => ?_⟩
    · exact h1 o ho (hw.memSlot_ne_zero ((div_mul_le o).trans_lt hlt))
    · -- the block is the one that could not be allocated
      exfalso
      have hfc : c ≤ src.readable 0 n := by
        by_contra hlt
        have hnone := (src.readable_spec 0 n).2 hf
        rw [Nat.zero_add] at hnone
        have := hcut.copied _ (by omega : src.readable 0 n < c)
        rw [hnone] at this
        exact absurd this (by simp)
      have hz := hcut.unmapped hmap
      have hend : (s.dinode i).size ≤ (off + c) / bsize * bsize := by
        by_contra hlt
        exact hw.memSlot_ne_zero (by rw [hd]; omega) hz
      have hle : (off + c) / bsize ≤ (off + src.readable 0 n) / bsize :=
        Nat.div_le_div_right (Nat.add_le_add_left hfc off)
      have hge := Nat.le_of_mul_le_mul_right (hin.trans hend) bsize_pos
      rw [Nat.le_antisymm hge hle] at hb
      exact hb hz
  | @fault addr m s₂ new' _ h0 hmap hrec hm hk hs =>
    obtain ⟨hf, hdiv, hstart⟩ := hcut.first_fault hc hm hk
    have hle := src.readable_le c m
    have hmod := Nat.mod_lt (off + c) bsize_pos
    have ht : Torn lost i src off c (src.readable c m) s₀ s₂ addr new' s₁ :=
      ⟨h0, hmap, hrec, by omega, (src.readable_spec c m).1, hs⟩
    unfold Harmless
    dsimp only
    rw [hf, hdiv, hstart]
    constructor
    · intro hharm
      refine hspares (ht.spares hcut hw fun hne j hj hor => ?_)
      rw [← State.byte_eq_memByte hd]
      exact hharm (by omega) hne (c + j) (by omega) (by omega) (by rwa [← hd])
    · intro _ ⟨h1, h2⟩ _ hne k hk1 hk2 hor
      obtain ⟨j, rfl⟩ : ∃ j, k = c + j := ⟨k - c, by omega⟩
      rw [State.byte_eq_memByte hd]
      refine ht.harmless hcut hw hlay hc (fun o ho hlt => ?_) (fun b hb hib => ?_) hne (by omega)
        (by rwa [hd])
      · rw [← hbytes, h1 o ho (by rwa [← hd]), State.byte_eq_memByte hd]
      · have hsb : s₁.sb = s.sb := hcut.wrote_all.touch.sb
        refine (h2 _ s.clean_shown).data b fun hm => ?_
        rcases List.mem_cons.1 hm with rfl | hm
        · exact hib (by rw [hsb])
        · exact hb hm

theorem mkfsSb_laid : mkfsSb.Laid := by
  have hds : mkfsSb.datastart = 46 := rfl
  refine ⟨fun i hi => ?_, fun b hb => ?_⟩
  · have hi : i < 200 := hi
    have : mkfsSb.iblock i = i / 16 + 32 := rfl
    omega
  · have hb : b < 2000 := hb
    have : mkfsSb.bblock b = b / 8192 + 45 := rfl
    omega

/-- The file holds one byte, `a`, which is on the disk. -/
def tornFile : State :=
  match writei 2 (fun _ => some 97) 0 1 newFile with
  | .ok (_, s) => { s with logged := [] }
  | .error _ => newFile

theorem tornFile_wf : tornFile.Wf ∧ tornFile.sb = mkfsSb := by
  unfold tornFile
  rcases writei_run (newFile_wf.at newFile_locked) (fun _ => some 97) 0 (by decide : 1 < 2 ^ 32) with
    ⟨hr, -⟩ | ⟨t, s', hr, hw⟩
  · rw [hr]
    exact ⟨newFile_wf.of_table rfl rfl rfl rfl newFile_wf.agree, rfl⟩
  · rw [hr]
    exact ⟨hw.wf.of_table rfl rfl rfl rfl hw.wf.agree, hw.touch.sb⟩

theorem tornFile_locked : tornFile.Locked 2 :=
  of_decide_eq_true (p := 0 < (tornFile.itable 2).ref ∧ (tornFile.itable 2).valid = true)
    (by decide +kernel)

/-- The byte is written again, and a second one from an unmapped address: the file is as it was. -/
theorem failed_write_spares_same : ∃ s', writei 2 (fun k => if k = 0 then some 97 else none) 0 2 tornFile =
    .ok (0, s') ∧ LeavesRest tornFile s' 2 0 0 ∧ tornFile.byte 2 0 = 97 ∧ s'.byte 2 0 = 97 := by
  have hfile : decide ((tornFile.dinode 2).size = 1 ∧ tornFile.byte 2 0 = 97 ∧
      Src.readable (fun k => if k = 0 then some 97 else none) 0 2 = 1) = true := by decide +kernel
  obtain ⟨hsize, hbyte, hread⟩ := of_decide_eq_true hfile
  obtain ⟨x, hrun, h0⟩ : ∃ x, writei 2 (fun k => if k = 0 then some 97 else none) 0 2 tornFile =
      .ok x ∧ x.1 = 0 := exists_ok (by decide +kernel)
  obtain ⟨r, s', hr, ⟨rfl, -⟩ | ⟨t, rfl, -, hspare⟩⟩ := failed_write_spares tornFile_wf.1
    tornFile_locked (tornFile_wf.2 ▸ mkfsSb_laid) (fun k => if k = 0 then some 97 else none) 0 (by decide : 2 < 2 ^ 32) <;>
    obtain rfl := Except.ok.inj (hr.symm.trans hrun)
  · cases h0
  · obtain rfl : t = 0 := Int.ofNat_eq_zero.1 h0
    have hrest := (hspare (by decide)).1 fun _ _ k hk1 hk2 _ => by
      rw [hread] at hk1 hk2
      obtain rfl : k = 0 := by omega
      rw [hbyte]
      rfl
    exact ⟨s', hr, hrest, hbyte, (hrest.1 0 le_rfl (by rw [hsize]; decide)).trans hbyte⟩

/-- **A failed write tears the block.** Two bytes are written over the one byte of the file, the
second from an unmapped address: nothing is reported as written, but the first byte has changed,
in a buffer that is not in the log. -/
theorem failed_write_torn : tornFile.Wf ∧ tornFile.Locked 2 ∧ (tornFile.dinode 2).type = .file ∧
    (tornFile.dinode 2).size = 1 ∧ ∃ s', writei 2 (fun k => if k = 0 then some 98 else none) 0 2 tornFile =
      .ok (0, s') ∧ s'.byte 2 0 ≠ tornFile.byte 2 0 ∧ ¬ s'.Clean tornFile.shown := by
  have hfile : decide ((tornFile.dinode 2).type = .file ∧ (tornFile.dinode 2).size = 1 ∧ tornFile.byte 2 0 = 97 ∧
      (tornFile.data 47).get 0 = 97) = true := by
    decide +kernel
  obtain ⟨htype, hsize, hbyte, hdata⟩ := of_decide_eq_true hfile
  obtain ⟨⟨r, s'⟩, hr, rfl, hb, hlog, hd⟩ :
      ∃ x, writei 2 (fun k => if k = 0 then some 98 else none) 0 2 tornFile = .ok x ∧ x.1 = 0 ∧
        x.2.byte 2 0 = 98 ∧ 47 ∉ x.2.logged ∧ (x.2.data 47).get 0 = 98 := exists_ok (by decide +kernel)
  exact ⟨tornFile_wf.1, tornFile_locked, htype, hsize, s', hr, by rw [hb, hbyte]; decide,
    State.not_clean hlog (by rw [hd, hdata]; decide)⟩

end Xv6.Fs
