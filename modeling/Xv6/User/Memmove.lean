import Mathlib

/-!
# The two copies of `memmove`

`kernel/string.c` copies downwards if the source begins below the destination and reaches into it,
`user/ulib.c` unless the source begins above the destination. Memory is flat, and pointers wrap at
`2 ^ 64`: one past the last byte may be 0.

* `moved`: what is to be in memory afterwards.
* `memmove_moved`: both functions do that, for every overlap.
-/

namespace Xv6

open Function

/-- A flat memory. -/
abbrev Flat := ℕ → UInt8

/-- Memory `m` with the `n` bytes from `src` on, as they are in `m`, at `dst`. -/
def moved (n dst src : ℕ) (m : Flat) : Flat := fun a =>
  if dst ≤ a ∧ a < dst + n then m (src + (a - dst)) else m a

/-- `while(n-- > 0) *d++ = *s++`. -/
def copyUp : (n d s : ℕ) → Flat → Flat
  | 0, _, _, m => m
  | n + 1, d, s, m => copyUp n ((d + 1) % 2 ^ 64) ((s + 1) % 2 ^ 64) (update m d (m s))

/-- `while(n-- > 0) *--d = *--s`. -/
def copyDown : (n d s : ℕ) → Flat → Flat
  | 0, _, _, m => m
  | n + 1, d, s, m =>
    let d := (d + 2 ^ 64 - 1) % 2 ^ 64
    let s := (s + 2 ^ 64 - 1) % 2 ^ 64
    copyDown n d s (update m d (m s))

/-- `memmove` of `kernel/string.c`, which takes a `uint`. -/
def Kernel.memmove (dst src : ℕ) (n : UInt32) (m : Flat) : ℕ × Flat :=
  if n = 0 then (dst, m)
  else if src < dst ∧ (src + n.toNat) % 2 ^ 64 > dst then
    (dst, copyDown n.toNat ((dst + n.toNat) % 2 ^ 64) ((src + n.toNat) % 2 ^ 64) m)
  else (dst, copyUp n.toNat dst src m)

/-- `memmove` of `user/ulib.c`, which takes an `int`. -/
def User.memmove (dst src : ℕ) (n : Int32) (m : Flat) : ℕ × Flat :=
  if src > dst then (dst, copyUp n.toInt.toNat dst src m)
  else (dst, copyDown n.toInt.toNat ((dst + n.toInt) % 2 ^ 64).toNat
    ((src + n.toInt) % 2 ^ 64).toNat m)

theorem moved_zero (dst src : ℕ) (m : Flat) : moved 0 dst src m = m :=
  funext fun _ => if_neg (by omega)

/-- Upwards, a byte is read before it is overwritten unless the source begins below the destination
and reaches into it. -/
theorem copyUp_eq : ∀ {n d s : ℕ} (m : Flat), d + n ≤ 2 ^ 64 → s + n ≤ 2 ^ 64 →
    d ≤ s ∨ s + n ≤ d → copyUp n d s m = moved n d s m := by
  intro n
  induction n with
  | zero => exact fun {d s} m _ _ _ => (moved_zero d s m).symm
  | succ n ih =>
    intro d s m hd hs h
    -- the pointers wrap only when nothing is left
    have hrest (m : Flat) : copyUp n ((d + 1) % 2 ^ 64) ((s + 1) % 2 ^ 64) m =
        moved n (d + 1) (s + 1) m := by
      rcases n.eq_zero_or_pos with rfl | hn
      · exact (moved_zero _ _ m).symm
      · rw [Nat.mod_eq_of_lt (by omega), Nat.mod_eq_of_lt (by omega)]
        exact ih m (by omega) (by omega) (by omega)
    rw [copyUp, hrest]
    funext a
    unfold moved
    rcases eq_or_ne a d with rfl | ha
    · rw [if_neg (by omega), update_self, if_pos (by omega), Nat.sub_self, Nat.add_zero]
    · by_cases hin : d ≤ a ∧ a < d + (n + 1)
      · rw [if_pos (by omega), if_pos hin, update_of_ne (by omega)]
        congr 1
        omega
      · rw [if_neg (by omega), if_neg hin, update_of_ne ha]

/-- Downwards, unless the destination begins below the source and reaches into it. -/
theorem copyDown_eq : ∀ {n d s : ℕ} (m : Flat), d + n ≤ 2 ^ 64 → s + n ≤ 2 ^ 64 →
    s ≤ d ∨ d + n ≤ s →
    copyDown n ((d + n) % 2 ^ 64) ((s + n) % 2 ^ 64) m = moved n d s m := by
  intro n
  induction n with
  | zero => exact fun {d s} m _ _ _ => (moved_zero d s m).symm
  | succ n ih =>
    intro d s m hd hs h
    have hdec : ∀ {x : ℕ}, x + (n + 1) ≤ 2 ^ 64 →
        ((x + (n + 1)) % 2 ^ 64 + 2 ^ 64 - 1) % 2 ^ 64 = (x + n) % 2 ^ 64 := by omega
    rw [copyDown, hdec hd, hdec hs, ih _ (by omega) (by omega) (by omega),
      Nat.mod_eq_of_lt (by omega), Nat.mod_eq_of_lt (by omega)]
    funext a
    unfold moved
    rcases eq_or_ne a (d + n) with rfl | ha
    · rw [if_neg (by omega), update_self, if_pos (by omega), Nat.add_sub_cancel_left]
    · by_cases hin : d ≤ a ∧ a < d + (n + 1)
      · rw [if_pos (by omega), if_pos hin, update_of_ne (by omega)]
      · rw [if_neg (by omega), if_neg hin, update_of_ne ha]

/-- `memmove` of the kernel. -/
theorem Kernel.memmove_eq {dst src : ℕ} {n : UInt32} (m : Flat) (hd : dst + n.toNat ≤ 2 ^ 64)
    (hs : src + n.toNat ≤ 2 ^ 64) : memmove dst src n m = (dst, moved n.toNat dst src m) := by
  unfold memmove
  split_ifs with h0 h
  · rw [h0, UInt32.toNat_zero, moved_zero]
  · rw [copyDown_eq m hd hs (by omega)]
  · -- below the destination the end of the source does not wrap
    rw [copyUp_eq m hd hs (by omega)]

/-- `memmove` of the user library. A count below zero moves nothing. -/
theorem User.memmove_eq {dst src : ℕ} {n : Int32} (m : Flat) (hd : dst + n.toInt.toNat ≤ 2 ^ 64)
    (hs : src + n.toInt.toNat ≤ 2 ^ 64) :
    memmove dst src n m = (dst, moved n.toInt.toNat dst src m) := by
  unfold memmove
  split_ifs with h
  · rw [copyUp_eq m hd hs (by omega)]
  · rcases le_or_gt n.toInt 0 with hn | hn
    · rw [Int.toNat_of_nonpos hn, moved_zero]
      rfl
    · rw [← copyDown_eq m hd hs (by omega)]
      congr 2 <;> omega

/-- **`memmove` is correct for overlapping ranges**, in the kernel and in the user library, and the
two agree. -/
theorem memmove_moved (dst src : ℕ) (m : Flat) :
    (∀ n : UInt32, dst + n.toNat ≤ 2 ^ 64 → src + n.toNat ≤ 2 ^ 64 →
      Kernel.memmove dst src n m = (dst, moved n.toNat dst src m)) ∧
    (∀ n : Int32, dst + n.toInt.toNat ≤ 2 ^ 64 → src + n.toInt.toNat ≤ 2 ^ 64 →
      User.memmove dst src n m = (dst, moved n.toInt.toNat dst src m)) ∧
    ∀ (k : UInt32) (n : Int32), k.toNat = n.toInt → dst + k.toNat ≤ 2 ^ 64 →
      src + k.toNat ≤ 2 ^ 64 → Kernel.memmove dst src k m = User.memmove dst src n m := by
  refine ⟨fun n => Kernel.memmove_eq m, fun n => User.memmove_eq m, fun k n hk hd hs => ?_⟩
  have hn : n.toInt.toNat = k.toNat := by omega
  rw [Kernel.memmove_eq m hd hs, User.memmove_eq m (by omega) (by omega), hn]

/-- Three bytes are moved up by one. -/
theorem memmove_moved_up : Kernel.memmove 1 0 3 UInt8.ofNat = (1, moved 3 1 0 UInt8.ofNat) ∧
    User.memmove 1 0 3 UInt8.ofNat = (1, moved 3 1 0 UInt8.ofNat) ∧
    Kernel.memmove 1 0 3 UInt8.ofNat = User.memmove 1 0 3 UInt8.ofNat :=
  have ⟨hk, hu, h⟩ := memmove_moved 1 0 UInt8.ofNat
  ⟨hk 3 (by decide) (by decide), hu 3 (by decide) (by decide),
    h 3 3 (by decide) (by decide) (by decide)⟩

end Xv6
