import Mathlib

/-!
# Radix trees in a heap

A radix tree whose nodes live in a heap: a node is an array of `fan` entries, an entry of an
inner node is empty or leads to a node one level below, and a key is followed digit by digit
from the most significant one. The heap is a function from nodes to arrays, so two trees, or two
branches of a tree, may overlap; what is said about the effect of a write is under the assumption
that the nodes of the tree are distinct.

* `nodes`: the nodes of a tree, with multiplicity.
* `find`: the slot of a key, `value` what is in it.
* `nodes_congr`, `find_congr`: a tree depends on its own nodes only.
* `value_set`: a write to the slot of a key changes the value of that key alone.
* `Extends`: a tree has grown by new empty nodes; `link` and `child` build it up.
* `Bare`: a tree without values, whose lowest nodes have empty slots only.
-/

namespace Lib

open Function

/-- The shape of the nodes: how many entries they have, which entries lead to a node, and what
an empty slot holds. -/
structure Shape (ν ε : Type*) where
  fan : ℕ
  fan_pos : 0 < fan
  sub : ε → Option ν
  nil : ε
  sub_nil : sub nil = none

namespace Shape

variable {ν ε : Type*} (S : Shape ν ε)

/-- The digit of key `k` that selects the entry at level `l`. -/
def digit (l k : ℕ) : ℕ := k / S.fan ^ l % S.fan

/-- The nodes of the tree with root `r` and `l` levels below it. -/
def nodes (H : ν → ℕ → ε) : ℕ → ν → Multiset ν
  | 0, r => {r}
  | l + 1, r => r ::ₘ ∑ i ∈ Finset.range S.fan, (S.sub (H r i)).elim 0 (nodes H l)

/-- The slot of key `k`: a node of the lowest level and an index in it. -/
def find (H : ν → ℕ → ε) : ℕ → ν → ℕ → Option (ν × ℕ)
  | 0, r, k => some (r, S.digit 0 k)
  | l + 1, r, k => (S.sub (H r (S.digit (l + 1) k))).bind fun c => find H l c k

/-- What the tree holds for key `k`. -/
def value (H : ν → ℕ → ε) (l : ℕ) (r : ν) (k : ℕ) : ε :=
  (S.find H l r k).elim S.nil fun p => H p.1 p.2

/-- Every entry that leads to a node of the tree satisfies `C`. -/
def Linked (C : ε → Prop) (H : ν → ℕ → ε) : ℕ → ν → Prop
  | 0, _ => True
  | l + 1, r => ∀ i < S.fan, ∀ c, S.sub (H r i) = some c → C (H r i) ∧ Linked C H l c

theorem digit_lt (l k : ℕ) : S.digit l k < S.fan := Nat.mod_lt _ S.fan_pos

/-- Two keys agree on the digits up to level `l + 1` when they agree up to `l` and on the next. -/
theorem mod_eq_iff_digit (l k k' : ℕ) : k % S.fan ^ (l + 2) = k' % S.fan ^ (l + 2) ↔
    S.digit (l + 1) k = S.digit (l + 1) k' ∧ k % S.fan ^ (l + 1) = k' % S.fan ^ (l + 1) := by
  have hdvd : S.fan ^ (l + 1) ∣ S.fan ^ (l + 2) := pow_dvd_pow _ (by omega)
  constructor
  · intro h
    constructor
    · have := congrArg (· / S.fan ^ (l + 1)) h
      simpa only [digit, pow_succ _ (l + 1), Nat.mod_mul_right_div_self] using this
    · rw [← Nat.mod_mod_of_dvd k hdvd, h, Nat.mod_mod_of_dvd k' hdvd]
  · rintro ⟨hd, hm⟩
    rw [Nat.mod_pow_succ, Nat.mod_pow_succ (k := l + 1) (x := k')]
    simp only [digit] at hd
    rw [hd, hm]

section Reading

variable {S} {H H' : ν → ℕ → ε}

theorem root_mem (l : ℕ) (r : ν) : r ∈ S.nodes H l r := by
  cases l with
  | zero => exact Multiset.mem_singleton_self r
  | succ l => exact Multiset.mem_cons_self r _

variable {c : ν} {i l : ℕ} {r : ν}

theorem nodes_child_le (hi : i < S.fan) (hc : S.sub (H r i) = some c) :
    S.nodes H l c ≤ ∑ i ∈ Finset.range S.fan, (S.sub (H r i)).elim 0 (S.nodes H l) := by
  have h := Finset.single_le_sum (f := fun i => (S.sub (H r i)).elim 0 (S.nodes H l))
    (fun j _ => Multiset.zero_le _) (Finset.mem_range.2 hi)
  simpa only [hc, Option.elim_some] using h

theorem mem_of_child {n : ν} (hi : i < S.fan) (hc : S.sub (H r i) = some c)
    (hn : n ∈ S.nodes H l c) : n ∈ S.nodes H (l + 1) r :=
  Multiset.mem_cons_of_mem (Multiset.mem_of_le (nodes_child_le hi hc) hn)

theorem nodup_child (h : (S.nodes H (l + 1) r).Nodup) (hi : i < S.fan)
    (hc : S.sub (H r i) = some c) : (S.nodes H l c).Nodup :=
  Multiset.nodup_of_le (nodes_child_le hi hc) (Multiset.nodup_cons.1 h).2

theorem root_notMem_child (h : (S.nodes H (l + 1) r).Nodup) (hi : i < S.fan)
    (hc : S.sub (H r i) = some c) : r ∉ S.nodes H l c := fun hr =>
  (Multiset.nodup_cons.1 h).1 (Multiset.mem_of_le (nodes_child_le hi hc) hr)

/-- The trees under two entries of the root have no node in common. -/
theorem disjoint_children {j : ℕ} {d n : ν} (h : (S.nodes H (l + 1) r).Nodup)
    (hi : i < S.fan) (hj : j < S.fan) (hij : i ≠ j) (hc : S.sub (H r i) = some c)
    (hd : S.sub (H r j) = some d) (hn : n ∈ S.nodes H l c) : n ∉ S.nodes H l d := by
  classical
  intro hn'
  have hj' : j ∈ (Finset.range S.fan).erase i :=
    Finset.mem_erase.2 ⟨hij.symm, Finset.mem_range.2 hj⟩
  have hsum := (Multiset.nodup_cons.1 h).2
  rw [← Finset.add_sum_erase _ _ (Finset.mem_range.2 hi), ← Finset.add_sum_erase _ _ hj'] at hsum
  simp only [hc, hd, Option.elim_some] at hsum
  exact Multiset.disjoint_left.1 (Multiset.nodup_add.1 hsum).2.2 hn
    (Multiset.mem_add.2 (.inl hn'))

/-- **A tree depends on its own nodes only.** -/
theorem nodes_congr (h : ∀ n ∈ S.nodes H l r, H' n = H n) :
    S.nodes H' l r = S.nodes H l r := by
  induction l generalizing r with
  | zero => rfl
  | succ l ih =>
    simp only [nodes]
    rw [h r (root_mem _ r)]
    congr 1
    refine Finset.sum_congr rfl fun i hi => ?_
    cases hc : S.sub (H r i) with
    | none => rfl
    | some c => exact ih fun n hn => h n (mem_of_child (Finset.mem_range.1 hi) hc hn)

theorem find_congr (h : ∀ n ∈ S.nodes H l r, H' n = H n) (k : ℕ) :
    S.find H' l r k = S.find H l r k := by
  induction l generalizing r with
  | zero => rfl
  | succ l ih =>
    simp only [find]
    rw [h r (root_mem _ r)]
    cases hc : S.sub (H r (S.digit (l + 1) k)) with
    | none => rfl
    | some c => exact ih fun n hn => h n (mem_of_child (S.digit_lt _ _) hc hn)

variable {k : ℕ}

/-- The slot of a key is in a node of the tree, at the key's last digit. -/
theorem find_mem {p : ν × ℕ} (h : S.find H l r k = some p) :
    p.1 ∈ S.nodes H l r ∧ p.2 = S.digit 0 k := by
  induction l generalizing r with
  | zero =>
    cases h
    exact ⟨root_mem 0 r, rfl⟩
  | succ l ih =>
    simp only [find] at h
    obtain ⟨c, hc, h⟩ := Option.bind_eq_some_iff.1 h
    exact ⟨mem_of_child (S.digit_lt _ _) hc (ih h).1, (ih h).2⟩

theorem value_congr (h : ∀ n ∈ S.nodes H l r, H' n = H n) (k : ℕ) :
    S.value H' l r k = S.value H l r k := by
  unfold value
  rw [find_congr h]
  cases hp : S.find H l r k with
  | none => rfl
  | some p => exact congrFun (h p.1 (find_mem hp).1) p.2

theorem linked_congr {C : ε → Prop} (h : ∀ n ∈ S.nodes H l r, H' n = H n)
    (hl : S.Linked C H l r) : S.Linked C H' l r := by
  induction l generalizing r with
  | zero => trivial
  | succ l ih =>
    intro i hi c hc
    rw [h r (root_mem _ r)] at hc ⊢
    exact ⟨(hl i hi c hc).1, ih (fun n hn => h n (mem_of_child hi hc hn)) (hl i hi c hc).2⟩

/-- Keys with different digits have different slots. -/
theorem find_inj {k' : ℕ} {p : ν × ℕ} (hn : (S.nodes H l r).Nodup)
    (h : S.find H l r k = some p) (h' : S.find H l r k' = some p) :
    k % S.fan ^ (l + 1) = k' % S.fan ^ (l + 1) := by
  induction l generalizing r with
  | zero =>
    cases h
    simpa [find, digit, eq_comm] using h'
  | succ l ih =>
    simp only [find] at h h'
    obtain ⟨c, hc, h⟩ := Option.bind_eq_some_iff.1 h
    obtain ⟨c', hc', h'⟩ := Option.bind_eq_some_iff.1 h'
    rw [mod_eq_iff_digit]
    -- the two slots are in one node, so the keys leave the root through one entry
    have hd : S.digit (l + 1) k = S.digit (l + 1) k' := by
      by_contra hne
      exact disjoint_children hn (S.digit_lt _ _) (S.digit_lt _ _) hne hc hc' (find_mem h).1
        (find_mem h').1
    rw [← hd, hc] at hc'
    cases hc'
    exact ⟨hd, ih (nodup_child hn (S.digit_lt _ _) hc) h h'⟩

/-- Keys with the same digits have the same slot. -/
theorem find_of_mod_eq {k' : ℕ}
    (h : k % S.fan ^ (l + 1) = k' % S.fan ^ (l + 1)) : S.find H l r k = S.find H l r k' := by
  induction l generalizing r with
  | zero =>
    have : S.digit 0 k = S.digit 0 k' := by simpa [digit] using h
    simp only [find, this]
  | succ l ih =>
    obtain ⟨hd, hm⟩ := (S.mod_eq_iff_digit l k k').1 h
    simp only [find, hd]
    cases S.sub (H r (S.digit (l + 1) k')) with
    | none => rfl
    | some c => exact ih hm

end Reading

section Writing

variable [DecidableEq ν] {S} {H H' : ν → ℕ → ε}

/-- Store `e` in entry `i` of node `n`. -/
def set (H : ν → ℕ → ε) (n : ν) (i : ℕ) (e : ε) : ν → ℕ → ε :=
  update H n (update (H n) i e)

theorem set_of_ne {n n' : ν} (i : ℕ) (e : ε) (h : n' ≠ n) : set H n i e n' = H n' :=
  update_of_ne h _ _

theorem set_self (n : ν) (i : ℕ) (e : ε) : set H n i e n = update (H n) i e :=
  update_self _ _ _

variable {k l : ℕ} {p : ν × ℕ} {r : ν}

/-- The write leaves the root and the trees under the entries that the key does not take. -/
theorem set_below (e : ε) (hn : (S.nodes H (l + 1) r).Nodup) (h : S.find H (l + 1) r k = some p) :
    ∃ c, S.sub (H r (S.digit (l + 1) k)) = some c ∧ S.find H l c k = some p ∧
      set H p.1 p.2 e r = H r ∧ ∀ i < S.fan, ∀ c', S.sub (H r i) = some c' → i ≠ S.digit (l + 1) k →
        ∀ n ∈ S.nodes H l c', set H p.1 p.2 e n = H n := by
  simp only [find] at h
  obtain ⟨c, hc, h⟩ := Option.bind_eq_some_iff.1 h
  have hd := S.digit_lt (l + 1) k
  refine ⟨c, hc, h, set_of_ne _ _ fun he => ?_, fun i hi c' hc' hik n hn' => set_of_ne _ _ fun he => ?_⟩
  · exact root_notMem_child hn hd hc (he ▸ (find_mem h).1)
  · exact disjoint_children hn hi hd hik hc' hc hn' (he ▸ (find_mem h).1)

/-- A write to the slot of a key leaves the shape of the tree. -/
theorem shape_set (e : ε) (hn : (S.nodes H l r).Nodup)
    (h : S.find H l r k = some p) :
    S.nodes (set H p.1 p.2 e) l r = S.nodes H l r ∧
      ∀ k', S.find (set H p.1 p.2 e) l r k' = S.find H l r k' := by
  induction l generalizing r with
  | zero => exact ⟨rfl, fun _ => rfl⟩
  | succ l ih =>
    obtain ⟨c, hc, h, hr, hother⟩ := set_below e hn h
    -- under the entry that the key takes the induction applies, the others are not touched
    have hsub : ∀ i < S.fan, ∀ c', S.sub (H r i) = some c' →
        S.nodes (set H p.1 p.2 e) l c' = S.nodes H l c' ∧
          ∀ k', S.find (set H p.1 p.2 e) l c' k' = S.find H l c' k' := by
      intro i hi c' hc'
      by_cases hik : i = S.digit (l + 1) k
      · subst hik
        rw [hc] at hc'
        cases hc'
        exact ih (nodup_child hn hi hc) h
      · have := hother i hi c' hc' hik
        exact ⟨nodes_congr this, find_congr this⟩
    constructor
    · simp only [nodes, hr]
      congr 1
      refine Finset.sum_congr rfl fun i hi => ?_
      cases hc' : S.sub (H r i) with
      | none => rfl
      | some c' => exact (hsub i (Finset.mem_range.1 hi) c' hc').1
    · intro k'
      simp only [find, hr]
      cases hc' : S.sub (H r (S.digit (l + 1) k')) with
      | none => rfl
      | some c' => exact (hsub _ (S.digit_lt _ _) c' hc').2 k'

/-- **A write to the slot of a key changes the value of that key alone.** -/
theorem value_set (e : ε) (hn : (S.nodes H l r).Nodup)
    (h : S.find H l r k = some p) (k' : ℕ) :
    S.value (set H p.1 p.2 e) l r k' =
      if k' % S.fan ^ (l + 1) = k % S.fan ^ (l + 1) then e else S.value H l r k' := by
  unfold value
  rw [(shape_set e hn h).2]
  split
  · next hk =>
    rw [find_of_mod_eq hk, h]
    simp [set]
  · next hk =>
    cases hp : S.find H l r k' with
    | none => rfl
    | some q =>
      simp only [Option.elim_some]
      by_cases hq : q.1 = p.1
      · have hne : q.2 ≠ p.2 := fun h2 => hk (find_inj hn hp (by rw [h, Prod.ext hq h2]))
        rw [hq, set_self, update_of_ne hne]
      · rw [set_of_ne _ _ hq]

theorem linked_set {C : ε → Prop} (e : ε)
    (hn : (S.nodes H l r).Nodup) (h : S.find H l r k = some p) (hl : S.Linked C H l r) :
    S.Linked C (set H p.1 p.2 e) l r := by
  induction l generalizing r with
  | zero => trivial
  | succ l ih =>
    obtain ⟨c, hc, h, hr, hother⟩ := set_below e hn h
    intro i hi c' hc'
    rw [hr] at hc' ⊢
    refine ⟨(hl i hi c' hc').1, ?_⟩
    by_cases hik : i = S.digit (l + 1) k
    · subst hik
      rw [hc] at hc'
      cases hc'
      exact ih (nodup_child hn hi hc) h (hl _ hi c hc).2
    · exact linked_congr (hother i hi c' hc' hik) (hl i hi c' hc').2

end Writing

section Growing

variable {S} {H H' : ν → ℕ → ε}

/-- The tree of `H` has grown to that of `H'` by the nodes `F`: no slot has moved, no value has
changed, and nothing outside the tree and `F` was written. -/
structure Extends (S : Shape ν ε) (C : ε → Prop) (H H' : ν → ℕ → ε) (l : ℕ) (r : ν)
    (F : Multiset ν) : Prop where
  nodes : S.nodes H' l r = S.nodes H l r + F
  find : ∀ k p, S.find H l r k = some p → S.find H' l r k = some p
  value : ∀ k, S.value H' l r k = S.value H l r k
  linked : S.Linked C H l r → S.Linked C H' l r
  frame : ∀ n, n ∉ S.nodes H l r → n ∉ F → H' n = H n

theorem Extends.refl (C : ε → Prop) (H : ν → ℕ → ε) (l : ℕ) (r : ν) : Extends S C H H l r 0 :=
  ⟨(add_zero _).symm, fun _ _ h => h, fun _ => rfl, id, fun _ _ _ => rfl⟩

variable {C : ε → Prop} {l : ℕ} {r : ν}

theorem Extends.trans {H'' : ν → ℕ → ε} {F G : Multiset ν}
    (h : Extends S C H H' l r F) (h' : Extends S C H' H'' l r G) :
    Extends S C H H'' l r (F + G) where
  nodes := by rw [h'.nodes, h.nodes, add_assoc]
  find k p hp := h'.find k p (h.find k p hp)
  value k := (h'.value k).trans (h.value k)
  linked hl := h'.linked (h.linked hl)
  frame n hn hF := by
    rw [Multiset.mem_add, not_or] at hF
    have hn' : n ∉ S.nodes H' l r := by
      rw [h.nodes, Multiset.mem_add, not_or]
      exact ⟨hn, hF.1⟩
    rw [h'.frame n hn' hF.2, h.frame n hn hF.1]

variable {c : ν} {d : ℕ} {F : Multiset ν}

theorem value_succ (k : ℕ) : S.value H (l + 1) r k =
    (S.sub (H r (S.digit (l + 1) k))).elim S.nil (S.value H l · k) := by
  unfold value
  rw [find]
  cases S.sub (H r (S.digit (l + 1) k)) <;> rfl

/-- A tree grows under one entry of its root; the other entries and the trees under them stay. -/
theorem Extends.entry (hd : d < S.fan) (hsame : ∀ i, i ≠ d → H' r i = H r i)
    (hother : ∀ i < S.fan, ∀ c, S.sub (H r i) = some c → i ≠ d → ∀ n ∈ S.nodes H l c, H' n = H n)
    (hnodes : (S.sub (H' r d)).elim 0 (S.nodes H' l) = (S.sub (H r d)).elim 0 (S.nodes H l) + F)
    (hfind : ∀ k p, (S.sub (H r d)).bind (S.find H l · k) = some p →
      (S.sub (H' r d)).bind (S.find H' l · k) = some p)
    (hvalue : ∀ k, (S.sub (H' r d)).elim S.nil (S.value H' l · k) =
      (S.sub (H r d)).elim S.nil (S.value H l · k))
    (hlinked : S.Linked C H (l + 1) r → ∀ c, S.sub (H' r d) = some c →
      C (H' r d) ∧ S.Linked C H' l c)
    (hframe : ∀ n, n ∉ S.nodes H (l + 1) r → n ∉ F → H' n = H n) :
    Extends S C H H' (l + 1) r F := by
  refine ⟨?_, fun k p hp => ?_, fun k => ?_, fun hl i hi c' hc' => ?_, hframe⟩
  · have hmem := Finset.mem_range.2 hd
    have hrest : ∑ i ∈ (Finset.range S.fan).erase d, (S.sub (H' r i)).elim 0 (S.nodes H' l) =
        ∑ i ∈ (Finset.range S.fan).erase d, (S.sub (H r i)).elim 0 (S.nodes H l) := by
      refine Finset.sum_congr rfl fun i hi => ?_
      obtain ⟨hid, hi⟩ := Finset.mem_erase.1 hi
      rw [hsame i hid]
      cases hc' : S.sub (H r i) with
      | none => rfl
      | some c' => exact nodes_congr (hother i (Finset.mem_range.1 hi) c' hc' hid)
    simp only [Shape.nodes]
    rw [← Finset.add_sum_erase _ _ hmem, ← Finset.add_sum_erase (Finset.range S.fan)
      (fun i => (S.sub (H r i)).elim 0 (S.nodes H l)) hmem, hrest, hnodes]
    simp only [← Multiset.singleton_add]
    abel
  · simp only [Shape.find] at hp ⊢
    by_cases hkd : S.digit (l + 1) k = d
    · rw [hkd] at hp ⊢
      exact hfind k p hp
    · obtain ⟨c', hc', hp⟩ := Option.bind_eq_some_iff.1 hp
      rw [hsame _ hkd, hc', Option.bind_some, find_congr (hother _ (S.digit_lt _ _) c' hc' hkd)]
      exact hp
  · rw [value_succ, value_succ]
    by_cases hkd : S.digit (l + 1) k = d
    · rw [hkd, hvalue]
    · rw [hsame _ hkd]
      cases hc' : S.sub (H r (S.digit (l + 1) k)) with
      | none => rfl
      | some c' => exact value_congr (hother _ (S.digit_lt _ _) c' hc' hkd) k
  · rcases eq_or_ne i d with rfl | hid
    · exact hlinked hl c' hc'
    · rw [hsame i hid] at hc' ⊢
      exact ⟨(hl i hi c' hc').1, linked_congr (hother i hi c' hc' hid) (hl i hi c' hc').2⟩

/-- A tree grows when the tree under one of its root's entries does. -/
theorem Extends.child (h : Extends S C H H' l c F) (hd : d < S.fan) (hc : S.sub (H r d) = some c)
    (hn : (S.nodes H (l + 1) r).Nodup) (hF : ∀ n ∈ F, n ∉ S.nodes H (l + 1) r) :
    Extends S C H H' (l + 1) r F := by
  have hr : H' r = H r :=
    h.frame r (root_notMem_child hn hd hc) fun hr => hF r hr (root_mem _ r)
  refine .entry hd (fun i _ => by rw [hr]) (fun i hi c' hc' hid n hn' => ?_) ?_ ?_ ?_ ?_ ?_
  · exact h.frame n (disjoint_children hn hi hd hid hc' hc hn') fun hnF =>
      hF n hnF (mem_of_child hi hc' hn')
  · rw [hr, hc]
    exact h.nodes
  · rw [hr, hc]
    exact h.find
  · rw [hr, hc]
    exact h.value
  · rw [hr]
    rintro hl c' hc'
    obtain rfl : c = c' := Option.some.inj (hc.symm.trans hc')
    exact ⟨(hl d hd c hc).1, h.linked (hl d hd c hc).2⟩
  · exact fun n hn' hnF => h.frame n (fun hm => hn' (mem_of_child hd hc hm)) hnF

/-- A node whose entries are all empty is a tree without other nodes and without values. -/
theorem empty_node (hc : ∀ i, H c i = S.nil) (l : ℕ) :
    S.nodes H l c = {c} ∧ (∀ k, S.value H l c k = S.nil) ∧ S.Linked C H l c := by
  cases l with
  | zero => exact ⟨rfl, fun k => hc _, trivial⟩
  | succ l =>
    refine ⟨?_, fun k => ?_, fun i hi c' hc' => ?_⟩
    · simp [nodes, hc, S.sub_nil]
    · simp [value, find, hc, S.sub_nil]
    · simp [hc, S.sub_nil] at hc'

/-- A tree grows by an empty node that a free entry of its root now leads to. -/
theorem Extends.link {e : ε} (hd : d < S.fan)
    (hn : (S.nodes H (l + 1) r).Nodup) (hfree : S.sub (H r d) = none)
    (hc : c ∉ S.nodes H (l + 1) r) (he : S.sub e = some c) (hC : C e)
    (hr : H' r = update (H r) d e) (hzero : ∀ i, H' c i = S.nil)
    (hframe : ∀ n, n ≠ r → n ≠ c → H' n = H n) : Extends S C H H' (l + 1) r {c} := by
  have hnew : H' r d = e := by rw [hr, update_self]
  obtain ⟨hnodes, hvalue, hlinked⟩ := empty_node (C := C) hzero l
  refine .entry hd (fun i hid => by rw [hr, update_of_ne hid]) (fun i hi c' hc' _ n hn' => ?_)
    ?_ ?_ ?_ ?_ ?_
  · refine hframe n ?_ ?_
    · rintro rfl
      exact root_notMem_child hn hi hc' hn'
    · rintro rfl
      exact hc (mem_of_child hi hc' hn')
  · rw [hnew, he, hfree, Option.elim_some, hnodes]
    exact (zero_add _).symm
  · rw [hfree]
    exact nofun
  · rw [hnew, he, hfree]
    exact hvalue
  · rw [hnew, he]
    rintro - _ ⟨⟩
    exact ⟨hC, hlinked⟩
  · exact fun n hn' hnc => hframe n (fun he => hn' (he ▸ root_mem _ _)) (by simpa using hnc)

end Growing

end Shape

end Lib
