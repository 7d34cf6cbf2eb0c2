import Mathlib

/-!
# Ring buffers

`window size data r k` is the content of a ring of `size` cells from position `r` on, `k`
values long. The positions of a ring are counters that only grow and are reduced modulo
`size` when a cell is used, so reducing the counters themselves modulo a multiple of `size`
changes nothing (`window_mod`).

`queue size data r i` is what lies between two such counters of `w` bits.
-/

namespace Lib

open Function

variable {α : Type*} {size : ℕ}

/-- The `k` values from position `r` on. -/
def window (size : ℕ) (data : ℕ → α) (r k : ℕ) : List α :=
  (List.range k).map fun j => data ((r + j) % size)

@[simp] theorem length_window (data : ℕ → α) (r k : ℕ) : (window size data r k).length = k := by
  simp [window]

/-- Storing behind the last value appends, as long as there is a free cell. -/
theorem window_push (data : ℕ → α) (r : ℕ) {k : ℕ} (hk : k < size) (x : α) :
    window size (update data ((r + k) % size) x) r (k + 1) = window size data r k ++ [x] := by
  unfold window
  rw [List.range_succ, List.map_append]
  congr 1
  · apply List.map_congr_left
    intro j hj
    have hjk : j < k := List.mem_range.1 hj
    refine update_of_ne (fun he => ?_) _ _
    have h : j ≡ k [MOD size] := Nat.ModEq.add_left_cancel' r he
    rw [Nat.ModEq, Nat.mod_eq_of_lt (by omega), Nat.mod_eq_of_lt hk] at h
    omega
  · simp

/-- Taking the first value leaves the window of the next position. -/
theorem window_pop (data : ℕ → α) (r k : ℕ) :
    window size data r (k + 1) = data (r % size) :: window size data (r + 1) k := by
  unfold window
  rw [List.range_succ_eq_map, List.map_cons, List.map_map]
  congr 1
  apply List.map_congr_left
  intro j _
  simp only [comp_apply, Nat.succ_eq_add_one]
  rw [show r + (j + 1) = r + 1 + j by omega]

theorem window_mod {M : ℕ} (h : size ∣ M) (data : ℕ → α) (r k : ℕ) :
    window size data (r % M) k = window size data r k := by
  unfold window
  apply List.map_congr_left
  intro j _
  rw [Nat.add_mod, Nat.mod_mod_of_dvd r h, ← Nat.add_mod]

/-- The last value of a window is the one at its end. -/
theorem window_succ (data : ℕ → α) (r k : ℕ) :
    window size data r (k + 1) = window size data r k ++ [data ((r + k) % size)] := by
  simp [window, List.range_succ]

section Queue

variable {w : ℕ}

/-- The values from counter `r` up to counter `i`. -/
def queue (size : ℕ) (data : ℕ → α) (r i : BitVec w) : List α := window size data r.toNat (i - r).toNat

@[simp] theorem length_queue (data : ℕ → α) (r i : BitVec w) : (queue size data r i).length = (i - r).toNat :=
  length_window ..

variable {i r : BitVec w}

theorem sub_toNat_eq_zero : (i - r).toNat = 0 ↔ r = i := by
  constructor
  · intro h
    have h0 : i - r = 0#w := BitVec.eq_of_toNat_eq (by simpa using h)
    have := congrArg (· + r) h0
    simpa [BitVec.sub_add_cancel] using this.symm
  · rintro rfl
    simp

theorem queue_eq_nil {data : ℕ → α} : queue size data r i = [] ↔ r = i := by
  rw [← List.length_eq_zero_iff, length_queue, sub_toNat_eq_zero]

/-- The cell behind the last value is the one of the counter. -/
theorem cell_eq (hw : size ∣ 2 ^ w) (r i : BitVec w) : (r.toNat + (i - r).toNat) % size = i.toNat % size := by
  rw [← Nat.mod_mod_of_dvd _ hw, ← BitVec.toNat_add, BitVec.add_comm, BitVec.sub_add_cancel]

/-- Storing at the end leaves the values as they are, as long as there is a free cell. -/
theorem queue_update (hw : size ∣ 2 ^ w) (data : ℕ → α) (hk : (i - r).toNat < size) (x : α) :
    queue size (update data (i.toNat % size) x) r i = queue size data r i := by
  have h := window_push data r.toNat hk x
  rw [window_succ, cell_eq hw] at h
  exact List.append_inj_left h (by simp)

/-- Moving the end takes in one more value. -/
theorem queue_push (hw : size ∣ 2 ^ w) (data : ℕ → α) (hk : (i - r).toNat + 1 < 2 ^ w) :
    queue size data r (i + 1#w) = queue size data r i ++ [data (i.toNat % size)] := by
  have he : i + 1#w - r = (i - r) + 1#w := by
    rw [BitVec.sub_eq_add_neg, BitVec.sub_eq_add_neg, BitVec.add_assoc, BitVec.add_comm 1#w, ← BitVec.add_assoc]
  have h1 : (i + 1#w - r).toNat = (i - r).toNat + 1 := by
    rw [he, BitVec.toNat_add, BitVec.toNat_ofNat, Nat.add_mod_mod, Nat.mod_eq_of_lt hk]
  rw [queue, h1, window_succ, cell_eq hw]
  rfl

/-- Storing at the end and moving it appends. -/
theorem queue_store (hw : size ∣ 2 ^ w) (data : ℕ → α) (hk : (i - r).toNat < size)
    (hs : size < 2 ^ w) (x : α) : queue size (update data (i.toNat % size) x) r (i + 1#w) =
      queue size data r i ++ [x] := by
  rw [queue_push hw _ (by omega), queue_update hw _ hk, update_self]

/-- Moving the start takes out the first value. -/
theorem queue_pop (hw : size ∣ 2 ^ w) (data : ℕ → α) (hne : r ≠ i) :
    queue size data r i = data (r.toNat % size) :: queue size data (r + 1#w) i := by
  have he : i - r = (i - (r + 1#w)) + 1#w := by
    rw [BitVec.sub_eq_add_neg, BitVec.sub_eq_add_neg, BitVec.neg_add]
    rw [BitVec.sub_eq_add_neg, ← BitVec.add_assoc, BitVec.add_assoc _ (-1#w), BitVec.add_comm (-1#w),
      BitVec.add_right_neg, BitVec.add_zero]
  have hpos : (i - r).toNat ≠ 0 := fun h0 => hne (sub_toNat_eq_zero.1 h0)
  have hlt := (i - r).isLt
  -- two different counters have more than one value
  have hone : 1 % 2 ^ w = 1 := Nat.mod_eq_of_lt (by omega)
  have h1 : (i - r).toNat = (i - (r + 1#w)).toNat + 1 := by
    have hx := (i - (r + 1#w)).isLt
    rw [he, BitVec.toNat_add, BitVec.toNat_ofNat, hone] at hpos ⊢
    rcases Nat.lt_or_ge ((i - (r + 1#w)).toNat + 1) (2 ^ w) with h | h
    · exact Nat.mod_eq_of_lt h
    · rw [show (i - (r + 1#w)).toNat + 1 = 2 ^ w by omega, Nat.mod_self] at hpos
      exact absurd rfl hpos
  rw [queue, h1, window_pop, queue, BitVec.toNat_add, BitVec.toNat_ofNat, hone, window_mod hw]

end Queue

end Lib
