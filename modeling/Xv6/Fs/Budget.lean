import Xv6.Fs.Faults
import Xv6.Fs.Call

/-!
# A write fits its share of the log

`filewrite` cuts a write into pieces of three blocks, one for each transaction. Such a piece may
touch four blocks of the file, the indirect block and the inode; each block it allocates also
dirties a block of the free map, and these may all be different.

* `Recorded.card_le`: work on the blocks `lo ≤ bn < hi` logs at most their number, the indirect
  block, and a block of the free map for each slot that was empty.
* `write_chunk_budget`: that is at most `MAXOPBLOCKS` in all. A piece that touches four blocks does
  not begin at a block boundary, so that the first of them was there.
-/

namespace Xv6.Fs

open Lib Finset

/-- The slots that work on the blocks `lo ≤ bn < hi` may fill. -/
def slotsOf (lo hi : ℕ) : Finset ℕ := insert ndirect ((Ico lo hi).image fileSlot)

theorem State.InRange.mem_slotsOf {lo hi σ : ℕ} (h : State.InRange lo hi σ) : σ ∈ slotsOf lo hi := by
  rcases h with rfl | ⟨bn, h1, h2, rfl⟩
  · exact mem_insert_self _ _
  · exact mem_insert_of_mem (mem_image_of_mem _ (mem_Ico.2 ⟨h1, h2⟩))

theorem card_slotsOf_le (lo hi : ℕ) : (slotsOf lo hi).card ≤ hi - lo + 1 := by
  refine (card_insert_le _ _).trans ?_
  have := (Ico lo hi).card_image_le (f := fileSlot)
  rw [Nat.card_Ico] at this
  omega

variable {lost : ℕ → Prop} {s s' : State} {i lo hi : ℕ} {new : List ℕ}

/-- **What is logged**: the blocks themselves, and the free map for the slots that were empty. -/
theorem State.Recorded.card_le (h : State.Recorded i lo hi s s' new) :
    new.toFinset.card ≤ (slotsOf lo hi).card + ((slotsOf lo hi).filter (s.memSlot i · = 0)).card := by
  have hsub : new.toFinset ⊆ (slotsOf lo hi).image (s'.memSlot i) ∪
      ((slotsOf lo hi).filter (s.memSlot i · = 0)).image fun σ => s.sb.bblock (s'.memSlot i σ) := by
    intro b hb
    obtain ⟨σ, hσ, -, he | ⟨h0, he⟩⟩ := h.mem b (List.mem_toFinset.1 hb)
    · exact mem_union_left _ (mem_image.2 ⟨σ, hσ.mem_slotsOf, he.symm⟩)
    · exact mem_union_right _ (mem_image.2 ⟨σ, mem_filter.2 ⟨hσ.mem_slotsOf, h0⟩, he.symm⟩)
  calc new.toFinset.card
      ≤ _ := card_le_card hsub
    _ ≤ _ := card_union_le _ _
    _ ≤ _ := Nat.add_le_add card_image_le card_image_le

/-- If the first block is there, it is not among the empty slots. -/
theorem card_empty_le (hne : s.memSlot i (fileSlot lo) ≠ 0) :
    ((slotsOf lo hi).filter (s.memSlot i · = 0)).card ≤ hi - (lo + 1) + 1 := by
  refine (card_le_card fun σ hσ => ?_).trans (card_slotsOf_le (lo + 1) hi)
  obtain ⟨hσ, h0⟩ := mem_filter.1 hσ
  rcases mem_insert.1 hσ with rfl | hσ
  · exact mem_insert_self _ _
  · obtain ⟨bn, hbn, rfl⟩ := mem_image.1 hσ
    have hlo : bn ≠ lo := by
      rintro rfl
      exact hne h0
    rw [mem_Ico] at hbn
    exact mem_insert_of_mem (mem_image_of_mem _ (mem_Ico.2 ⟨by omega, by omega⟩))

/-- All that the loop of `writei` logs, however it ends. -/
theorem Cut.logs {src : Src} {off n c : ℕ} {s₀ : State} (h : Cut lost i src off n s s₀ hi new c s') :
    ∃ s₁ hi' new', State.Recorded i (off / bsize) hi' s s₁ new' ∧ s'.logged = s₁.logged ∧
      hi' * bsize < off + n + bsize := by
  -- the last piece, in a state `s₁` of its own
  have hlast : ∀ {s₁ new' addr}, c < n → State.Mapped lost i (fileSlot ((off + c) / bsize)) s₀ addr s₁ →
      State.Recorded i ((off + c) / bsize) ((off + c) / bsize + 1) s₀ s₁ new' →
      State.Recorded i (off / bsize) ((off + c) / bsize + 1) s s₁ (new' ++ new) ∧
        ((off + c) / bsize + 1) * bsize < off + n + bsize := by
    intro s₁ new' addr hc hmap hrec
    have hle : off / bsize ≤ (off + c) / bsize := Nat.div_le_div_right (Nat.le_add_right off c)
    have hend := div_mul_le (off + c)
    refine ⟨(h.recorded.mono le_rfl (Nat.le_succ_of_le (h.hi_le hc))).trans (hrec.mono hle le_rfl)
      h.wrote.touch.sb h.wrote.slots hmap.grow.slots, ?_⟩
    rw [Nat.add_mul]
    omega
  cases h.ends with
  | done _ hs => exact ⟨s₀, hi, new, h.recorded, by rw [hs], h.hi_top⟩
  | full hc hmap hrec => exact ⟨s', _, _, (hlast hc hmap hrec).1, rfl, (hlast hc hmap hrec).2⟩
  | fault hc h0 hmap hrec hm hk hs =>
    exact ⟨_, _, _, (hlast hc hmap hrec).1, by rw [hs], (hlast hc hmap hrec).2⟩

/-- **A piece of a write fits the share of the log** that an operation reserves. In every file
system without holes, with any number of blocks in its free map, `filewrite`'s call of `writei`
hands at most `MAXOPBLOCKS` different blocks to `log_write`, wherever it is cut short. -/
theorem write_chunk_budget (h : s.WfBut lost) (hl : s.Locked i) (src : Src) {off n : ℕ}
    (hoff : off ≤ (s.dinode i).size) (hn : n ≤ writeMax) :
    ∃ (r : ℤ) (s' : State) (new : List ℕ), writei i src off n s = .ok (r, s') ∧
      s'.logged = new ++ s.logged ∧ new.toFinset.card ≤ maxopblocks := by
  have hw := h.at hl
  have hd := (h.agree i hl).1
  have hmax : writeMax = 3 * bsize := by decide
  have hlim : 3 * bsize < 2 ^ 32 := by decide
  rcases writei_cut hw src off (by omega : n < 2 ^ 32) with ⟨hr, -⟩ | ⟨c, s₀, hi, new, s₁, hr, -, -, hcut⟩
  · exact ⟨-1, s, [], hr, rfl, Nat.zero_le _⟩
  obtain ⟨s₂, hi', new', hrec, hlog, htop⟩ := hcut.logs
  refine ⟨c, _, s₁.sb.iblock i :: new', hr, ?_, ?_⟩
  · rw [List.cons_append, ← hrec.logged, ← hlog]
    rfl
  have hcard := hrec.card_le
  have hslots := card_slotsOf_le (off / bsize) hi'
  have hinode := Finset.card_insert_le (s₁.sb.iblock i) new'.toFinset
  rw [List.toFinset_cons]
  -- at most four blocks of the file
  have hdm := Nat.div_add_mod off bsize
  have hmod := Nat.mod_lt off bsize_pos
  have hfour : hi' ≤ off / bsize + 4 := by
    by_contra hgt
    have := Nat.mul_le_mul_right bsize (by omega : off / bsize + 5 ≤ hi')
    rw [Nat.add_mul, Nat.mul_comm (off / bsize)] at this
    omega
  have hempty : ((slotsOf (off / bsize) hi').filter (s.memSlot i · = 0)).card ≤ 4 := by
    rcases Nat.lt_or_ge hi' (off / bsize + 4) with hlt | hge
    · exact (Finset.card_filter_le _ _).trans (by omega)
    · -- with four of them, the first is partly filled
      have hfirst : off / bsize * bsize < (s.itable i).d.size := by
        have := Nat.mul_le_mul_right bsize hge
        rw [Nat.add_mul] at this
        rw [hd]
        omega
      exact (card_empty_le (hw.memSlot_ne_zero hfirst)).trans (by omega)
  have : maxopblocks = 10 := rfl
  omega

/-- The first three blocks of a new file. -/
theorem write_chunk_budget_new : ∃ (r : ℤ) (s' : State) (new : List ℕ),
    writei 2 (fun _ => some 7) 0 writeMax newFile = .ok (r, s') ∧ s'.logged = new ++ newFile.logged ∧
      new.toFinset.card ≤ maxopblocks :=
  write_chunk_budget newFile_wf newFile_locked _ (Nat.zero_le _) le_rfl

end Xv6.Fs
