import Mathlib

/-!
# Byte blocks and the little-endian words inside them

A block is a fixed-length array of bytes. `word` reads the `w`-th 32-bit word of a
block, `setWord` writes it, `dword` and `setDword` do the same for 64-bit words, `write`
copies a run of bytes to an offset. The lemmas say what each read sees after each write;
nothing here depends on what the blocks are used for.
-/

namespace Lib

/-- A block of `n` bytes. -/
abbrev Bytes (n : ℕ) := Fin n → UInt8

namespace Bytes

variable {n : ℕ}

/-- The byte at offset `i`, zero past the end. -/
def get (b : Bytes n) (i : ℕ) : UInt8 := if h : i < n then b ⟨i, h⟩ else 0

/-- Copy the bytes `src 0, …, src (m - 1)` to offset `off`. -/
def write (b : Bytes n) (off m : ℕ) (src : ℕ → UInt8) : Bytes n :=
  fun i => if off ≤ i.val ∧ i.val < off + m then src (i.val - off) else b i

/-- The `w`-th little-endian 32-bit word. -/
def word (b : Bytes n) (w : ℕ) : ℕ :=
  (b.get (4 * w)).toNat + 256 * (b.get (4 * w + 1)).toNat + 65536 * (b.get (4 * w + 2)).toNat +
    16777216 * (b.get (4 * w + 3)).toNat

/-- The bytes of a 32-bit word, least significant first. -/
def ofWord (v k : ℕ) : UInt8 := UInt8.ofNat (v / 256 ^ k)

/-- Store `v` (modulo `2 ^ 32`) as the `w`-th word. -/
def setWord (b : Bytes n) (w v : ℕ) : Bytes n := b.write (4 * w) 4 (ofWord v)

theorem ext_get {a b : Bytes n} (h : ∀ i < n, a.get i = b.get i) : a = b := by
  funext i
  have := h i.val i.isLt
  simpa [get] using this

theorem get_write (b : Bytes n) (off m : ℕ) (src : ℕ → UInt8) {i : ℕ} (hi : i < n) :
    (b.write off m src).get i = if off ≤ i ∧ i < off + m then src (i - off) else b.get i := by
  simp [get, write, hi]

theorem get_of_le (b : Bytes n) {i : ℕ} (hi : n ≤ i) : b.get i = 0 := by
  simp [get, Nat.not_lt.2 hi]

/-- A byte outside the written run keeps its value. -/
theorem get_write_of_not (b : Bytes n) (off m : ℕ) (src : ℕ → UInt8) {i : ℕ}
    (h : ¬ (off ≤ i ∧ i < off + m)) : (b.write off m src).get i = b.get i := by
  rcases Nat.lt_or_ge i n with hi | hi
  · rw [get_write _ _ _ _ hi, if_neg h]
  · rw [get_of_le _ hi, get_of_le _ hi]

theorem word_lt (b : Bytes n) (w : ℕ) : b.word w < 2 ^ 32 := by
  have h0 := (b.get (4 * w)).toNat_lt
  have h1 := (b.get (4 * w + 1)).toNat_lt
  have h2 := (b.get (4 * w + 2)).toNat_lt
  have h3 := (b.get (4 * w + 3)).toNat_lt
  unfold word; omega

theorem get_zero (i : ℕ) : get (fun _ => 0 : Bytes n) i = 0 := by
  simp [get]

theorem word_zero (w : ℕ) : word (fun _ => 0 : Bytes n) w = 0 := by
  simp [word, get_zero]

/-- A word is given by its four bytes. -/
theorem word_eq_of_get {b : Bytes n} {w v : ℕ} (h : ∀ k < 4, b.get (4 * w + k) = ofWord v k) :
    b.word w = v % 2 ^ 32 := by
  have h0 := h 0 (by omega); rw [Nat.add_zero] at h0
  unfold word
  rw [h0, h 1 (by omega), h 2 (by omega), h 3 (by omega)]
  simp only [ofWord, UInt8.toNat_ofNat']
  omega

/-- **Reading back a word.** -/
theorem word_setWord (b : Bytes n) {w : ℕ} (hw : 4 * w + 4 ≤ n) (v : ℕ) :
    (b.setWord w v).word w = v % 2 ^ 32 := by
  refine word_eq_of_get fun k hk => ?_
  rw [setWord, get_write _ _ _ _ (by omega), if_pos (by omega), Nat.add_sub_cancel_left]

/-- A write of a run of bytes leaves every word outside the run. -/
theorem word_write_of_disjoint (b : Bytes n) (off m : ℕ) (src : ℕ → UInt8) {w : ℕ}
    (h : 4 * w + 4 ≤ off ∨ off + m ≤ 4 * w) : (b.write off m src).word w = b.word w := by
  unfold word
  rw [get_write_of_not _ _ _ _ (by omega), get_write_of_not _ _ _ _ (by omega),
    get_write_of_not _ _ _ _ (by omega), get_write_of_not _ _ _ _ (by omega)]

theorem word_setWord_ne (b : Bytes n) {w w' : ℕ} (v : ℕ) (h : w ≠ w') :
    (b.setWord w v).word w' = b.word w' :=
  word_write_of_disjoint _ _ _ _ (by omega)

/-- The `w`-th little-endian 64-bit word. -/
def dword (b : Bytes n) (w : ℕ) : ℕ := b.word (2 * w) + 2 ^ 32 * b.word (2 * w + 1)

/-- Store `v` (modulo `2 ^ 64`) as the `w`-th 64-bit word. -/
def setDword (b : Bytes n) (w v : ℕ) : Bytes n :=
  (b.setWord (2 * w) v).setWord (2 * w + 1) (v / 2 ^ 32)

theorem dword_zero (w : ℕ) : dword (fun _ => 0 : Bytes n) w = 0 := by
  simp [dword, word_zero]

theorem dword_setDword (b : Bytes n) {w : ℕ} (hw : 8 * w + 8 ≤ n) (v : ℕ) :
    (b.setDword w v).dword w = v % 2 ^ 64 := by
  unfold dword setDword
  rw [word_setWord_ne _ _ (by omega), word_setWord _ (by omega), word_setWord _ (by omega)]
  omega

theorem dword_setDword_ne (b : Bytes n) {w w' : ℕ} (v : ℕ) (h : w ≠ w') :
    (b.setDword w v).dword w' = b.dword w' := by
  unfold dword setDword
  rw [word_setWord_ne _ _ (by omega), word_setWord_ne _ _ (by omega),
    word_setWord_ne _ _ (by omega), word_setWord_ne _ _ (by omega)]

end Bytes

/-! ## Blocks of one length in a row -/

variable {α : Type*}

theorem length_flatten {L : List (List α)} {n : ℕ} (h : ∀ l ∈ L, l.length = n) :
    L.flatten.length = n * L.length := by
  rw [List.length_flatten, List.map_congr_left h]
  simp [Nat.mul_comm]

theorem getD_flatten {L : List (List α)} {n j : ℕ} (h : ∀ l ∈ L, l.length = n) (hj : j < n) (d : α) :
    ∀ k, L.flatten.getD (n * k + j) d = (L[k]?.getD []).getD j d := by
  induction L with
  | nil => simp
  | cons l L ih =>
    obtain ⟨hl, h⟩ := List.forall_mem_cons.1 h
    rintro (_ | k)
    · rw [Nat.mul_zero, Nat.zero_add, List.flatten_cons, List.getD_append _ _ _ _ (by omega)]
      rfl
    · have hk : n * (k + 1) + j = l.length + (n * k + j) := by
        rw [hl, Nat.mul_succ]
        omega
      rw [hk, List.flatten_cons, List.getD_append_right _ _ _ _ (Nat.le_add_right _ _),
        Nat.add_sub_cancel_left, ih h]
      rfl

end Lib
