import Xv6.Fs.Disk

/-!
# The bits of the free map

`balloc` and `bfree` of `Fs.Disk` take the free map for a function of block numbers. Here they work
on the bytes of the blocks that hold it, of any number.

* `balloc_bitmap`: the first clear bit is found and set, and `bfree` undoes that, if the blocks of
  the map are marked in use.
* `balloc_erases`: where one is not, `balloc` zeroes it.
-/

namespace Xv6.Fs.Bitmap

open Function Lib

/-- The blocks of the disk, as `bread` finds and `log_write` leaves them. -/
abbrev Blocks := ℕ → Bytes bsize

/-- `1 << (bi % 8)`. -/
def mask (bi : ℕ) : UInt8 := 1 <<< UInt8.ofNat (bi % 8)

/-- `bp->data[bi/8] |= m`. -/
def mark (bp : Bytes bsize) (bi : ℕ) : Bytes bsize :=
  bp.write (bi / 8) 1 fun _ => bp.get (bi / 8) ||| mask bi

/-- `bp->data[bi/8] &= ~m`. -/
def unmark (bp : Bytes bsize) (bi : ℕ) : Bytes bsize :=
  bp.write (bi / 8) 1 fun _ => bp.get (bi / 8) &&& ~~~mask bi

/-- The inner loop of `balloc`. -/
def scan (size b : ℕ) (bp : Bytes bsize) : (fuel bi : ℕ) → Option ℕ
  | 0, _ => none
  | fuel + 1, bi =>
    if bi < bpb ∧ b + bi < size then
      if bp.get (bi / 8) &&& mask bi = 0 then some bi else scan size b bp fuel (bi + 1)
    else none

/-- The outer loop: `b` is an `int`, and compared as a `uint`. -/
def ballocFrom (sb : Superblock) (d : Blocks) : (fuel b : ℕ) → ℕ × Blocks
  | 0, _ => (0, d)
  | fuel + 1, b =>
    if b < sb.size then
      match scan sb.size b (d (sb.bblock b)) bpb 0 with
      | some bi =>
        (b + bi, update (update d (sb.bblock b) (mark (d (sb.bblock b)) bi)) (b + bi) fun _ => 0)
      | none => ballocFrom sb d fuel ((b + bpb) % 2 ^ 32)
    else (0, d)

/-- `balloc`. -/
def balloc (sb : Superblock) (d : Blocks) : ℕ × Blocks := ballocFrom sb d sb.size 0

/-- `bfree`; `none` is the panic. -/
def bfree (sb : Superblock) (b : ℕ) (d : Blocks) : Option Blocks :=
  let bp := d (sb.bblock b)
  let bi := b % bpb
  if bp.get (bi / 8) &&& mask bi = 0 then none else some (update d (sb.bblock b) (unmark bp bi))

/-! ## Bits -/

/-- Bit `bi` of a block. -/
def bit (bp : Bytes bsize) (bi : ℕ) : Bool := (bp.get (bi / 8)).toNat.testBit (bi % 8)

theorem mask_toNat (bi : ℕ) : (mask bi).toNat = 2 ^ (bi % 8) := by
  have h : bi % 8 < 8 := Nat.mod_lt _ (by decide)
  unfold mask
  interval_cases bi % 8 <;> rfl

theorem and_mask (bp : Bytes bsize) (bi : ℕ) :
    bp.get (bi / 8) &&& mask bi = 0 ↔ bit bp bi = false := by
  rw [← UInt8.toNat_inj, UInt8.toNat_and, mask_toNat, Nat.and_two_pow, UInt8.toNat_zero, bit]
  cases (bp.get (bi / 8)).toNat.testBit (bi % 8) <;> simp

variable {bp : Bytes bsize} {bi j : ℕ}

theorem bit_mark (hj : j < bpb) : bit (mark bp bi) j = (bit bp j || decide (j = bi)) := by
  have hin : j / 8 < bsize := by
    unfold bpb at hj
    omega
  unfold bit mark
  rw [Bytes.get_write _ _ _ _ hin]
  by_cases h : j / 8 = bi / 8
  · have hiff : bi % 8 = j % 8 ↔ j = bi := by omega
    rw [if_pos (by omega), UInt8.toNat_or, Nat.testBit_or, mask_toNat, Nat.testBit_two_pow, h]
    simp only [hiff]
  · have hne : j ≠ bi := fun he => h (he ▸ rfl)
    rw [if_neg (by omega), decide_eq_false hne, Bool.or_false]

/-- What `mark` has set, `unmark` clears again. -/
theorem unmark_mark (hbi : bi < bpb) (h : bit bp bi = false) : unmark (mark bp bi) bi = bp := by
  have hin : bi / 8 < bsize := by
    unfold bpb at hbi
    omega
  have h0 := congrArg UInt8.toBitVec ((and_mask bp bi).2 h)
  have hbyte : (bp.get (bi / 8) ||| mask bi) &&& ~~~mask bi = bp.get (bi / 8) := by
    rw [← UInt8.toBitVec_inj]
    refine BitVec.eq_of_getLsbD_eq fun i hi => ?_
    have := congrArg (BitVec.getLsbD · i) h0
    rw [UInt8.toBitVec_and] at this
    simp only [BitVec.getLsbD_and, UInt8.toBitVec_zero, BitVec.getLsbD_zero] at this
    rw [UInt8.toBitVec_and, UInt8.toBitVec_or, UInt8.toBitVec_not, BitVec.getLsbD_and,
      BitVec.getLsbD_or, BitVec.getLsbD_not, decide_eq_true hi]
    revert this
    cases (bp.get (bi / 8)).toBitVec.getLsbD i <;> cases (mask bi).toBitVec.getLsbD i <;> decide
  refine Bytes.ext_get fun i hi => ?_
  unfold unmark mark
  rw [Bytes.get_write _ _ _ _ hi, Bytes.get_write _ _ _ _ hi, Bytes.get_write _ _ _ _ hin,
    if_pos (by omega : bi / 8 ≤ bi / 8 ∧ bi / 8 < bi / 8 + 1), hbyte]
  split_ifs with hc
  · rw [show i = bi / 8 by omega]
  · rfl

/-! ## The search -/

variable {sb : Superblock} {d : Blocks} {b c : ℕ}

/-- The bit of a block in the free map. -/
def used (sb : Superblock) (d : Blocks) (b : ℕ) : Bool := bit (d (sb.bblock b)) (b % bpb)

theorem scan_spec (size b : ℕ) (bp : Bytes bsize) : ∀ fuel bi, bpb ≤ fuel + bi →
    match scan size b bp fuel bi with
    | some x => bi ≤ x ∧ x < bpb ∧ b + x < size ∧ bit bp x = false ∧
        ∀ j, bi ≤ j → j < x → bit bp j = true
    | none => ∀ j, bi ≤ j → j < bpb → b + j < size → bit bp j = true := by
  intro fuel
  induction fuel with
  | zero =>
    intro bi hf j hj hlt
    omega
  | succ fuel ih =>
    intro bi hf
    unfold scan
    split_ifs with hin hclear
    · exact ⟨le_rfl, hin.1, hin.2, (and_mask bp bi).1 hclear, fun j h1 h2 => by omega⟩
    · have hbit : bit bp bi = true := by rwa [and_mask, Bool.not_eq_false] at hclear
      have hfirst : ∀ j, bi ≤ j → ¬ bi + 1 ≤ j → bit bp j = true := by
        intro j h1 h2
        rwa [show j = bi by omega]
      have hrest := ih (bi + 1) (by omega)
      split at hrest
      · obtain ⟨h1, h2, h3, h4, h5⟩ := hrest
        refine ⟨by omega, h2, h3, h4, fun j hj hlt => ?_⟩
        exact (em (bi + 1 ≤ j)).elim (fun h => h5 j h hlt) (hfirst j hj)
      · exact fun j hj h1 h2 => (em (bi + 1 ≤ j)).elim (fun h => hrest j h h1 h2) (hfirst j hj)
    · intro j hj h1 h2
      omega

/-- The disk after `balloc` has taken block `b`. -/
def taken (sb : Superblock) (d : Blocks) (b : ℕ) : Blocks :=
  update (update d (sb.bblock b) (mark (d (sb.bblock b)) (b % bpb))) b fun _ => 0

/-- The bits of one block of the map. -/
theorem used_group (sb : Superblock) (d : Blocks) (k : ℕ) (hj : j < bpb) :
    sb.bblock (bpb * k + j) = sb.bblock (bpb * k) ∧
    used sb d (bpb * k + j) = bit (d (sb.bblock (bpb * k))) j := by
  have hb : sb.bblock (bpb * k + j) = sb.bblock (bpb * k) := by
    unfold Superblock.bblock
    rw [Nat.mul_add_div (by decide), Nat.div_eq_of_lt hj, Nat.mul_div_cancel_left _ (by decide),
      Nat.add_zero]
  exact ⟨hb, by rw [used, hb, Nat.mul_add_mod, Nat.mod_eq_of_lt hj]⟩

theorem ballocFrom_spec (hsize : sb.size < 2 ^ 31) : ∀ fuel k, sb.size ≤ fuel + bpb * k →
    (∀ c < sb.size, c < bpb * k → used sb d c = true) →
    ballocFrom sb d fuel (bpb * k) = (0, d) ∧ (∀ c < sb.size, used sb d c = true) ∨
    ∃ b < sb.size, used sb d b = false ∧ (∀ c < b, used sb d c = true) ∧
      ballocFrom sb d fuel (bpb * k) = (b, taken sb d b) := by
  have hpb : bpb = 8192 := rfl
  intro fuel
  induction fuel with
  | zero => exact fun k hf hset => .inl ⟨rfl, fun c hc => hset c hc (by omega)⟩
  | succ fuel ih =>
    intro k hf hset
    unfold ballocFrom
    split_ifs with hlt
    · have hscan := scan_spec sb.size (bpb * k) (d (sb.bblock (bpb * k))) bpb 0 le_rfl
      -- what is set below this group and in it up to `x`
      have hbelow : ∀ x c, (∀ j < x, j < bpb → bpb * k + j < sb.size →
          bit (d (sb.bblock (bpb * k))) j = true) → c < bpb * k + x → c < bpb * k + bpb →
          c < sb.size → used sb d c = true := by
        intro x c hx hc hin hs
        rcases Nat.lt_or_ge c (bpb * k) with hlow | hge
        · exact hset c hs hlow
        · obtain ⟨j, rfl⟩ := Nat.exists_eq_add_of_le hge
          exact (used_group sb d k (by omega)).2.trans (hx j (by omega) (by omega) hs)
      cases hx : scan sb.size (bpb * k) (d (sb.bblock (bpb * k))) bpb 0 with
      | some x =>
        rw [hx] at hscan
        obtain ⟨-, h1, h2, h3, h4⟩ := hscan
        obtain ⟨hb, hu⟩ := used_group sb d k h1
        refine .inr ⟨bpb * k + x, h2, hu.trans h3, fun c hc => ?_, ?_⟩
        · exact hbelow x c (fun j hj _ _ => h4 j (Nat.zero_le j) hj) hc (by omega) (by omega)
        · rw [taken, hb, Nat.mul_add_mod, Nat.mod_eq_of_lt h1]
      | none =>
        rw [hx] at hscan
        have hnext : (bpb * k + bpb) % 2 ^ 32 = bpb * (k + 1) := by
          rw [Nat.mul_succ, Nat.mod_eq_of_lt (by omega)]
        dsimp only
        rw [hnext]
        refine ih (k + 1) (by rw [Nat.mul_succ]; omega) fun c hc hlt' => ?_
        rw [Nat.mul_succ] at hlt'
        exact hbelow bpb c (fun j _ => hscan j (Nat.zero_le j)) hlt' hlt' hc
    · exact .inl ⟨rfl, fun c hc => hset c hc (by omega)⟩

/-- The block is one of those that hold the free map. -/
def Maps (sb : Superblock) (x : ℕ) : Prop := ∃ c < sb.size, sb.bblock c = x

instance (x : ℕ) : Decidable (Maps sb x) :=
  inferInstanceAs (Decidable (∃ c < sb.size, sb.bblock c = x))

/-- **The block allocator**, over a map of any size whose own blocks are marked in use: the first
clear bit is set and no other, the block is zeroed, and `bfree` makes the map what it was. -/
theorem balloc_bitmap (sb : Superblock) (d : Blocks) (hsize : sb.size < 2 ^ 31)
    (hmap : ∀ x < sb.size, Maps sb x → used sb d x = true) :
    (∀ b < sb.size, used sb d b = false → (∀ c < b, used sb d c = true) →
      ∃ d', balloc sb d = (b, d') ∧
        (∀ c, Maps sb (sb.bblock c) → used sb d' c = (used sb d c || decide (c = b))) ∧
        d' b = (fun _ => 0) ∧ (∀ x, x ≠ b → x ≠ sb.bblock b → d' x = d x) ∧
        bfree sb b d' = some (update d b fun _ => 0)) ∧
    ((∀ c < sb.size, used sb d c = true) → balloc sb d = (0, d)) := by
  have hrun := ballocFrom_spec (d := d) hsize sb.size 0 le_self_add
    (fun c _ hc => absurd hc (Nat.not_lt_zero c))
  refine ⟨fun b hb hclear hleast => ?_, fun hall => ?_⟩
  · obtain ⟨b', hb', hclear', hleast', hrun⟩ := hrun.resolve_left fun h => by
      rw [h.2 b hb] at hclear
      cases hclear
    obtain rfl : b = b' := by
      rcases lt_trichotomy b b' with h | h | h
      · rw [hleast' b h] at hclear
        cases hclear
      · exact h
      · rw [hleast b' h] at hclear'
        cases hclear'
    have hne : ∀ x, Maps sb x → x ≠ b := by
      rintro x hx rfl
      rw [hmap x hb hx] at hclear
      cases hclear
    have hself : sb.bblock b ≠ b := hne _ ⟨b, hb, rfl⟩
    have hlt (c : ℕ) : c % bpb < bpb := Nat.mod_lt c (by decide)
    refine ⟨taken sb d b, hrun, fun c hc => ?_, update_self .., fun x h1 h2 => ?_, ?_⟩
    · unfold used taken
      rw [update_of_ne (hne _ hc)]
      by_cases hblock : sb.bblock c = sb.bblock b
      · -- the same block and the same bit are the same number
        have hiff : c % bpb = b % bpb ↔ c = b := by
          refine ⟨fun h => ?_, fun h => h ▸ rfl⟩
          rw [← Nat.div_add_mod c bpb, ← Nat.div_add_mod b bpb, h, Nat.add_right_cancel hblock]
        rw [hblock, update_self, bit_mark (hlt c)]
        simp only [hiff]
      · rw [update_of_ne hblock, decide_eq_false fun h => hblock (congrArg _ h), Bool.or_false]
    · rw [taken, update_of_ne h1, update_of_ne h2]
    · have hmark : taken sb d b (sb.bblock b) = mark (d (sb.bblock b)) (b % bpb) := by
        rw [taken, update_of_ne hself, update_self]
      unfold bfree
      dsimp only
      rw [hmark, if_neg, unmark_mark (hlt b) hclear, taken, update_comm hself.symm, update_idem,
        update_eq_self]
      rw [and_mask, bit_mark (hlt b)]
      simp
  · exact (hrun.resolve_right fun ⟨b, hb, h, _⟩ => by rw [hall b hb] at h; cases h).1

/-- Eight blocks, whose map is in block 1. -/
def eight : Superblock := ⟨8, 6, 0, 0, 1⟩

/-- All blocks but the last are in use. -/
theorem balloc_bitmap_last : ∃ d', balloc eight (fun _ _ => 127) = (7, d') ∧
    bfree eight 7 d' = some (update (fun _ _ => 127) 7 fun _ => 0) := by
  obtain ⟨d', hrun, -, -, -, hfree⟩ := (balloc_bitmap eight (fun _ _ => 127) (by decide)
    (by decide)).1 7 (by decide) (by decide) (by decide)
  exact ⟨d', hrun, hfree⟩

/-- Block 1, which holds the map, is not marked in use: `balloc` takes it, and the bit of block 0 is
lost. -/
theorem balloc_erases : used eight (fun _ _ => 1) 0 = true ∧ (balloc eight fun _ _ => 1).1 = 1 ∧
    used eight (balloc eight fun _ _ => 1).2 0 = false := by
  decide

end Xv6.Fs.Bitmap
