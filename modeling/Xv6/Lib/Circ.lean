import Mathlib

/-!
# Circular doubly linked lists

A list kept by `next` and `prev` links through a head, which is the node `none`. `Circ k l`
says that the links `k` form one circle through the head with the elements `l`, in the order
of `next`.

* `Circ.unlink`, `Circ.push`: the two pointer updates that take an element out, and the four
  that put one behind the head, as C code writes them.
* `Circ.scan`: a loop that follows the links until it finds an element or the head is
  `List.find?`; `Circ.swap` does the same for the loop backwards.
-/

namespace Lib

open Function

variable {α : Type*}

/-- The links of a circular list; the head is `none`. -/
structure Links (α : Type*) where
  next : Option α → Option α
  prev : Option α → Option α

namespace Links

/-- The links read backwards. -/
def swap (k : Links α) : Links α := ⟨k.prev, k.next⟩

/-- The links lead from `a` through `l` to `z` and back. -/
def Seg (k : Links α) : Option α → List α → Option α → Prop
  | a, [], z => k.next a = z ∧ k.prev z = a
  | a, b :: l, z => k.next a = some b ∧ k.prev (some b) = a ∧ Seg k (some b) l z

/-- The links are one circle through the head. -/
def Circ (k : Links α) (l : List α) : Prop := k.Seg none l none

/-- Follow `step` to the first element with `p`, for at most `fuel` elements. -/
def scan (step : Option α → Option α) (p : α → Bool) : ℕ → Option α → Option α
  | 0, _ => none
  | _ + 1, none => none
  | fuel + 1, some b => if p b then some b else scan step p fuel (step (some b))

section Update

variable [DecidableEq α]

/-- Take `b` out. -/
def unlink (k : Links α) (b : α) : Links α :=
  -- b->next->prev = b->prev
  let k : Links α := { k with prev := update k.prev (k.next (some b)) (k.prev (some b)) }
  -- b->prev->next = b->next
  { k with next := update k.next (k.prev (some b)) (k.next (some b)) }

/-- Put `b` behind the head. -/
def push (k : Links α) (b : α) : Links α :=
  -- b->next = head.next
  let k : Links α := { k with next := update k.next (some b) (k.next none) }
  -- b->prev = &head
  let k : Links α := { k with prev := update k.prev (some b) none }
  -- head.next->prev = b
  let k : Links α := { k with prev := update k.prev (k.next none) (some b) }
  -- head.next = b
  { k with next := update k.next none (some b) }

end Update

variable {k k' : Links α} {a z : Option α} {b : α} {l l₁ l₂ : List α}

theorem seg_append :
    k.Seg a (l₁ ++ b :: l₂) z ↔ k.Seg a l₁ (some b) ∧ k.Seg (some b) l₂ z := by
  induction l₁ generalizing a with
  | nil => simp only [List.nil_append, Seg, and_assoc]
  | cons c l₁ ih => simp only [List.cons_append, Seg, ih, and_assoc]

/-- Links that agree where the segment reads them have the segment too. -/
theorem Seg.congr (h : k.Seg a l z) (hn : ∀ x, x = a ∨ x ∈ l.map some → k'.next x = k.next x)
    (hp : ∀ x, x = z ∨ x ∈ l.map some → k'.prev x = k.prev x) : k'.Seg a l z := by
  induction l generalizing a with
  | nil => exact ⟨(hn a (.inl rfl)).trans h.1, (hp z (.inl rfl)).trans h.2⟩
  | cons c l ih =>
    obtain ⟨h1, h2, h3⟩ := h
    refine ⟨(hn a (.inl rfl)).trans h1, (hp _ (.inr (by simp))).trans h2, ih h3 ?_ ?_⟩
    · rintro x (rfl | hx)
      · exact hn _ (.inr (by simp))
      · exact hn x (.inr (by simp only [List.map_cons, List.mem_cons, hx, or_true]))
    · rintro x (rfl | hx)
      · exact hp _ (.inl rfl)
      · exact hp x (.inr (by simp only [List.map_cons, List.mem_cons, hx, or_true]))

/-- The first link of a segment leads to one of its elements or to its end. -/
theorem Seg.next_mem (h : k.Seg a l z) : k.next a = z ∨ k.next a ∈ l.map some := by
  cases l with
  | nil => exact .inl h.1
  | cons c l => exact .inr (by rw [h.1]; simp)

theorem Seg.prev_mem (h : k.Seg a l z) : k.prev z = a ∨ k.prev z ∈ l.map some := by
  induction l generalizing a with
  | nil => exact .inl h.2
  | cons c l ih =>
    rcases ih h.2.2 with h1 | h1
    · exact .inr (by rw [h1]; simp)
    · exact .inr (by simp only [List.map_cons, List.mem_cons, h1, or_true])

/-- **A segment read backwards.** -/
theorem Seg.swap (h : k.Seg a l z) : k.swap.Seg z l.reverse a := by
  induction l generalizing a with
  | nil => exact ⟨h.2, h.1⟩
  | cons c l ih =>
    rw [List.reverse_cons, seg_append]
    exact ⟨ih h.2.2, h.2.1, h.1⟩

theorem Circ.swap (h : k.Circ l) : k.swap.Circ l.reverse := Seg.swap h

/-- The loop over a segment that ends at the head. -/
theorem Seg.scan {fuel : ℕ} (p : α → Bool) (h : k.Seg a l none) (hl : l.length ≤ fuel) :
    scan k.next p fuel (k.next a) = l.find? p := by
  induction l generalizing a fuel with
  | nil =>
    rw [h.1]
    cases fuel <;> rfl
  | cons c l ih =>
    cases fuel with
    | zero => exact absurd hl (by simp)
    | succ f =>
      rw [h.1, Links.scan, List.find?_cons]
      cases p c with
      | true => rfl
      | false => exact ih h.2.2 (Nat.le_of_succ_le_succ hl)

theorem scan_some {step : Option α → Option α} {p : α → Bool} {fuel : ℕ}
    (h : Links.scan step p fuel a = some b) : p b = true := by
  induction fuel generalizing a with
  | zero => cases h
  | succ f ih =>
    cases a with
    | none => cases h
    | some x =>
      rw [Links.scan] at h
      split at h
      · next hx => cases h; exact hx
      · exact ih h

/-- **The loop from the head finds what is first in the list.** -/
theorem Circ.scan {fuel : ℕ} (p : α → Bool) (h : k.Circ l) (hl : l.length ≤ fuel) :
    scan k.next p fuel (k.next none) = l.find? p := Seg.scan p h hl

variable [DecidableEq α]

/-- Taking out the element behind `l₁`. -/
theorem Seg.unlink (h : k.Seg a (l₁ ++ b :: l₂) none) (ha : a ∉ (l₁ ++ b :: l₂).map some)
    (hd : (l₁ ++ b :: l₂).Nodup) : (k.unlink b).Seg a (l₁ ++ l₂) none := by
  have hb : k.next (some b) ≠ some b := by
    intro he
    have := (seg_append.1 h).2.next_mem
    rw [he] at this
    simp [(List.nodup_cons.1 (List.nodup_append.1 hd).2.1).1] at this
  have hprev : (k.unlink b).prev = update k.prev (k.next (some b)) (k.prev (some b)) := rfl
  have hnext : (k.unlink b).next = update k.next (k.prev (some b)) (k.next (some b)) := by
    simp [Links.unlink, hb.symm]
  induction l₁ generalizing a with
  | nil =>
    obtain ⟨h1, h2, h3⟩ := h
    rw [h2] at hprev hnext
    cases l₂ with
    | nil =>
      obtain ⟨h4, h5⟩ := h3
      rw [h4] at hprev hnext
      exact ⟨by rw [hnext, update_self], by rw [hprev, update_self]⟩
    | cons c l₂ =>
      obtain ⟨h4, h5, h6⟩ := h3
      rw [h4] at hprev hnext
      simp only [List.nil_append, List.map_cons, List.mem_cons, not_or, List.nodup_cons] at ha hd
      refine ⟨by rw [hnext, update_self], by rw [hprev, update_self], h6.congr ?_ ?_⟩
      · rintro x hx
        rw [hnext, update_of_ne]
        rintro rfl
        rcases hx with rfl | hx
        · exact ha.2.1 rfl
        · exact ha.2.2 hx
      · rintro x hx
        rw [hprev, update_of_ne]
        rintro rfl
        rcases hx with hx | hx
        · cases hx
        · exact hd.2.1 (by simpa using hx)
  | cons c l₁ ih =>
    obtain ⟨h1, h2, h3⟩ := h
    have hd' := List.nodup_cons.1 hd
    have hc : (some c : Option α) ∉ (l₁ ++ b :: l₂).map some := by simpa using hd'.1
    refine ⟨?_, ?_, ih h3 hc hd'.2⟩
    -- the links of `c` are not touched
    · rw [hnext, update_of_ne]
      · exact h1
      · rintro rfl
        rcases (seg_append.1 h3).1.prev_mem with he | he
        · exact ha (by rw [he]; simp)
        · exact ha (by simp only [List.cons_append, List.map_cons, List.map_append, List.mem_cons,
            List.mem_append, he, true_or, or_true])
    · rw [hprev, update_of_ne]
      · exact h2
      · intro he
        rcases (seg_append.1 h3).2.next_mem with hx | hx
        · rw [hx] at he; cases he
        · rw [← he] at hx
          exact hc (by simp only [List.map_append, List.map_cons, List.mem_append, List.mem_cons, hx, or_true])

/-- **Taking an element out of the circle.** -/
theorem Circ.unlink (h : k.Circ (l₁ ++ b :: l₂)) (hd : (l₁ ++ b :: l₂).Nodup) :
    (k.unlink b).Circ (l₁ ++ l₂) :=
  Seg.unlink h (by simp) hd

/-- **Putting an element behind the head.** -/
theorem Circ.push (h : k.Circ l) (hd : l.Nodup) (hb : b ∉ l) : (k.push b).Circ (b :: l) := by
  cases l with
  | nil =>
    obtain ⟨h1, h2⟩ := h
    simp [Circ, Seg, Links.push, h1]
  | cons c l =>
    obtain ⟨h1, h2, h3⟩ := h
    obtain ⟨hbc, hbl⟩ := List.ne_and_not_mem_of_not_mem_cons hb
    have hnext : (k.push b).next =
        update (update k.next (some b) (some c)) none (some b) := by
      simp [Links.push, h1]
    have hprev : (k.push b).prev =
        update (update k.prev (some b) none) (some c) (some b) := by
      simp [Links.push, h1]
    refine ⟨by simp [hnext], by simp [hprev, hbc], by simp [hnext], by simp [hprev], h3.congr ?_ ?_⟩
    · intro x hx
      have hx0 : x ≠ none := by
        rintro rfl
        simp at hx
      have hxb : x ≠ some b := by
        rintro rfl
        simp [hbc, hbl] at hx
      rw [hnext, update_of_ne hx0, update_of_ne hxb]
    · intro x hx
      have hxc : x ≠ some c := by
        rintro rfl
        simp [(List.nodup_cons.1 hd).1] at hx
      have hxb : x ≠ some b := by
        rintro rfl
        simp [hbl] at hx
      rw [hprev, update_of_ne hxc, update_of_ne hxb]

end Links

end Lib
