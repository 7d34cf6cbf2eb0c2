import Mathlib

/-!
# Counting the elements with a property

How the number of elements of a finite set that have a property changes when the property
changes for one element.
-/

namespace Lib

variable {α : Type*} [DecidableEq α] {s : Finset α} {a : α} {p q : α → Prop} [DecidablePred p]
  [DecidablePred q]

/-- The property is gained by one element. -/
theorem card_filter_gain (ha : a ∈ s) (hp : ¬ p a) (hq : q a)
    (h : ∀ x ∈ s, x ≠ a → (q x ↔ p x)) : (s.filter q).card = (s.filter p).card + 1 := by
  have hins : s.filter q = insert a (s.filter p) := by
    ext x
    rw [Finset.mem_insert, Finset.mem_filter, Finset.mem_filter]
    by_cases hx : x = a
    · subst hx
      simp [ha, hq]
    · constructor
      · rintro ⟨hs, hqx⟩
        exact .inr ⟨hs, (h x hs hx).1 hqx⟩
      · rintro (he | ⟨hs, hpx⟩)
        · exact absurd he hx
        · exact ⟨hs, (h x hs hx).2 hpx⟩
  rw [hins, Finset.card_insert_of_notMem]
  rw [Finset.mem_filter]
  exact fun hm => hp hm.2

omit [DecidableEq α] in
/-- The property changes for no element. -/
theorem card_filter_same (h : ∀ x ∈ s, (q x ↔ p x)) : (s.filter q).card = (s.filter p).card := by
  rw [Finset.filter_congr h]

/-- The property changes for at most one element. -/
theorem card_filter_change (ha : a ∈ s) (h : ∀ x ∈ s, x ≠ a → (q x ↔ p x)) :
    (s.filter q).card + (if p a then 1 else 0) = (s.filter p).card + if q a then 1 else 0 := by
  by_cases hp : p a
  · by_cases hq : q a
    · have := card_filter_same (p := p) (q := q) fun x hx => by
        by_cases hxa : x = a
        · rw [hxa]
          exact iff_of_true hq hp
        · exact h x hx hxa
      rw [if_pos hp, if_pos hq, this]
    · have := card_filter_gain (p := q) (q := p) ha hq hp fun x hx hxa => (h x hx hxa).symm
      rw [if_pos hp, if_neg hq, this]
  · by_cases hq : q a
    · rw [if_neg hp, if_pos hq, card_filter_gain ha hp hq h]
    · have := card_filter_same (p := p) (q := q) fun x hx => by
        by_cases hxa : x = a
        · rw [hxa]
          exact iff_of_false hq hp
        · exact h x hx hxa
      rw [if_neg hp, if_neg hq, this]

end Lib
