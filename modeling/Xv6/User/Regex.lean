import Mathlib

/-!
# The pattern matchers of `grep` and `find`

`user/grep.c` and `user/find.c` each have a copy of a matcher for patterns with `^`, `$`, `.` and
`*`. A string is the list of its bytes before the terminating zero.

* `items`, `Accepts`: how a pattern is read, and which texts begin with a match.
* `patterns_match`: `match` finds exactly the texts that the pattern selects, in both copies.
-/

namespace Xv6.User

/-- The characters `^`, `$`, `*` and `.`. -/
def caret : UInt8 := 94
@[inherit_doc caret] def dollar : UInt8 := 36
@[inherit_doc caret] def star : UInt8 := 42
@[inherit_doc caret] def period : UInt8 := 46

/-! ## The program -/

namespace Grep

mutual

/-- `matchhere`: search for `re` at the beginning of the text. -/
def matchhere (re text : List UInt8) : Bool :=
  match re with
  | [] => true
  | c :: re =>
    if re.head? = some star then matchstar c re.tail text
    else if c = dollar ∧ re = [] then text.isEmpty
    else
      match text with
      | [] => false
      | a :: text => if c = period ∨ c = a then matchhere re text else false
termination_by (re.length, 0, text.length)

/-- `matchstar`: search for `c*re` at the beginning of the text. -/
def matchstar (c : UInt8) (re text : List UInt8) : Bool :=
  if matchhere re text then true
  else
    match text with
    | [] => false
    | a :: text => if a = c ∨ c = period then matchstar c re text else false
termination_by (re.length, 1, text.length)

end

/-- The loop of `match`. -/
def matchFrom (re : List UInt8) : (text : List UInt8) → Bool
  | [] => matchhere re []
  | a :: text => if matchhere re (a :: text) then true else matchFrom re text

/-- `match`. -/
def «match» (re text : List UInt8) : Bool :=
  if re.head? = some caret then matchhere re.tail text else matchFrom re text

end Grep

namespace Find

mutual

/-- `matchhere`, in the copy of `find`. -/
def matchhere (re text : List UInt8) : Bool :=
  match re with
  | [] => true
  | c :: re =>
    if re.head? = some star then matchstar c re.tail text
    else if c = dollar ∧ re = [] then text.isEmpty
    else
      match text with
      | [] => false
      | a :: text => if c = period ∨ c = a then matchhere re text else false
termination_by (re.length, 0, text.length)

/-- `matchstar`, in the copy of `find`. -/
def matchstar (c : UInt8) (re text : List UInt8) : Bool :=
  if matchhere re text then true
  else
    match text with
    | [] => false
    | a :: text => if a = c ∨ c = period then matchstar c re text else false
termination_by (re.length, 1, text.length)

end

@[inherit_doc Grep.matchFrom]
def matchFrom (re : List UInt8) : (text : List UInt8) → Bool
  | [] => matchhere re []
  | a :: text => if matchhere re (a :: text) then true else matchFrom re text

@[inherit_doc Grep.match]
def «match» (re text : List UInt8) : Bool :=
  if re.head? = some caret then matchhere re.tail text else matchFrom re text

end Find

/-! ## What a pattern means -/

/-- The parts of a pattern. -/
inductive Item
  | star (c : UInt8)
  | eot
  | any
  | lit (c : UInt8)

/-- A pattern without its `^`, read from left to right. -/
def items (re : List UInt8) : List Item :=
  match re with
  | [] => []
  | c :: re =>
    if re.head? = some star then .star c :: items re.tail
    else if c = dollar ∧ re = [] then [.eot]
    else (if c = period then .any else .lit c) :: items re
termination_by re.length

/-- The strings that a part matches. -/
def Item.Matches : Item → List UInt8 → Prop
  | .star c, w => ∀ a ∈ w, a = c ∨ c = period
  | .eot, w => w = []
  | .any, w => ∃ a, w = [a]
  | .lit c, w => w = [c]

/-- The text begins with strings that the parts match in order; `$` asks for nothing after them. -/
def Accepts (is : List Item) (text : List UInt8) : Prop :=
  ∃ ws rest, List.Forall₂ Item.Matches is ws ∧ text = ws.flatten ++ rest ∧ (.eot ∈ is → rest = [])

/-- The text has a match: at its beginning if the pattern begins with `^`, else anywhere. -/
def Selects (re text : List UInt8) : Prop :=
  if re.head? = some caret then Accepts (items re.tail) text
  else ∃ s, s <:+ text ∧ Accepts (items re) s

theorem accepts_nil (text : List UInt8) : Accepts [] text :=
  ⟨[], text, .nil, rfl, fun h => absurd h List.not_mem_nil⟩

theorem accepts_eot {text : List UInt8} : Accepts [.eot] text ↔ text = [] := by
  constructor
  · rintro ⟨_, rest, hws, rfl, hrest⟩
    cases hws with
    | cons hw hws =>
      cases hws
      rw [hrest List.mem_cons_self, show _ = [] from hw]
      rfl
  · rintro rfl
    exact ⟨[[]], [], .cons rfl .nil, rfl, fun _ => rfl⟩

theorem accepts_cons {i : Item} {is : List Item} {text : List UInt8} (hi : i ≠ .eot) :
    Accepts (i :: is) text ↔ ∃ w t, text = w ++ t ∧ i.Matches w ∧ Accepts is t := by
  constructor
  · rintro ⟨_, rest, hws, rfl, hrest⟩
    cases hws with
    | @cons _ w _ ws hw hws =>
      refine ⟨w, ws.flatten ++ rest, ?_, hw, ws, rest, hws, rfl, fun he => ?_⟩
      · rw [List.flatten_cons, List.append_assoc]
      · exact hrest (List.mem_cons_of_mem i he)
  · rintro ⟨w, _, rfl, hw, ws, rest, hws, rfl, hrest⟩
    refine ⟨w :: ws, rest, .cons hw hws, ?_, fun he => hrest ?_⟩
    · rw [List.flatten_cons, List.append_assoc]
    · exact (List.mem_cons.1 he).resolve_left hi.symm

/-- A part other than `*` and `$` takes one byte. -/
theorem accepts_one {c : UInt8} {is : List Item} {text : List UInt8} :
    Accepts ((if c = period then .any else .lit c) :: is) text ↔
      ∃ a t, text = a :: t ∧ (c = period ∨ c = a) ∧ Accepts is t := by
  split_ifs with hc
  · refine (accepts_cons (i := .any) nofun).trans ⟨?_, ?_⟩
    · rintro ⟨_, t, rfl, ⟨a, rfl⟩, ht⟩
      exact ⟨a, t, rfl, .inl hc, ht⟩
    · rintro ⟨a, t, rfl, -, ht⟩
      exact ⟨[a], t, rfl, ⟨a, rfl⟩, ht⟩
  · refine (accepts_cons (i := .lit c) nofun).trans ⟨?_, ?_⟩
    · rintro ⟨_, t, rfl, rfl, ht⟩
      exact ⟨c, t, rfl, .inr rfl, ht⟩
    · rintro ⟨a, t, rfl, h, ht⟩
      exact ⟨[a], t, rfl, by rw [h.resolve_left hc]; rfl, ht⟩

/-! ## Correctness -/

/-- `matchstar` tries the rest of the pattern after every run of bytes that `c*` matches. -/
theorem matchstar_iff {re : List UInt8} {P : List UInt8 → Prop}
    (hre : ∀ text, Grep.matchhere re text = true ↔ P text) (c : UInt8) (text : List UInt8) :
    Grep.matchstar c re text = true ↔ ∃ w t, text = w ++ t ∧ (Item.star c).Matches w ∧ P t := by
  induction text with
  | nil =>
    have hnil : Grep.matchstar c re [] = true ↔ P [] := by
      rw [← hre]
      unfold Grep.matchstar
      split_ifs with h <;> simp [h]
    rw [hnil]
    constructor
    · exact fun h => ⟨[], [], rfl, fun a ha => absurd ha List.not_mem_nil, h⟩
    · rintro ⟨w, t, he, -, h⟩
      rwa [(List.append_eq_nil_iff.1 he.symm).2] at h
  | cons a text ih =>
    have hcons : Grep.matchstar c re (a :: text) = true ↔
        P (a :: text) ∨ (a = c ∨ c = period) ∧ Grep.matchstar c re text = true := by
      rw [← hre, Grep.matchstar]
      split_ifs with h1 h2
      · simp [h1]
      · simp [h1, h2]
      · simp [h1, h2]
    rw [hcons, ih]
    constructor
    · rintro (h | ⟨ha, w, t, rfl, hw, h⟩)
      · exact ⟨[], _, rfl, fun a ha => absurd ha List.not_mem_nil, h⟩
      · exact ⟨a :: w, t, rfl, List.forall_mem_cons.2 ⟨ha, hw⟩, h⟩
    · rintro ⟨w, t, he, hw, h⟩
      cases w with
      | nil => exact .inl (he ▸ h)
      | cons b w =>
        obtain ⟨rfl, rfl⟩ := List.cons.inj he
        obtain ⟨hb, hw⟩ := List.forall_mem_cons.1 hw
        exact .inr ⟨hb, w, t, rfl, hw, h⟩

theorem matchhere_iff (re text : List UInt8) :
    Grep.matchhere re text = true ↔ Accepts (items re) text := by
  induction hn : re.length using Nat.strongRecOn generalizing re text with
  | ind n ih =>
    subst hn
    cases re with
    | nil =>
      unfold Grep.matchhere items
      exact ⟨fun _ => accepts_nil text, fun _ => rfl⟩
    | cons c re =>
      unfold Grep.matchhere items
      by_cases hstar : re.head? = some star
      · have hlt : re.tail.length < (c :: re).length := by
          rw [List.length_tail, List.length_cons]
          omega
        rw [if_pos hstar, if_pos hstar]
        exact (matchstar_iff (fun t => ih _ hlt _ t rfl) c text).trans
          (accepts_cons (i := .star c) nofun).symm
      rw [if_neg hstar, if_neg hstar]
      by_cases heot : c = dollar ∧ re = []
      · rw [if_pos heot, if_pos heot, accepts_eot, List.isEmpty_iff]
      rw [if_neg heot, if_neg heot, accepts_one]
      cases text with
      | nil => exact ⟨nofun, fun ⟨a, t, h, _⟩ => absurd h nofun⟩
      | cons a text =>
        have hre := ih _ (Nat.lt_succ_self re.length) re text rfl
        dsimp only
        split_ifs with hc
        · rw [hre]
          exact ⟨fun h => ⟨a, text, rfl, hc, h⟩, fun ⟨_, _, he, _, h⟩ => (List.cons.inj he).2 ▸ h⟩
        · refine ⟨nofun, fun ⟨b, t, he, hb, _⟩ => absurd hb ?_⟩
          rwa [← (List.cons.inj he).1]

theorem matchFrom_iff (re text : List UInt8) :
    Grep.matchFrom re text = true ↔ ∃ s, s <:+ text ∧ Accepts (items re) s := by
  induction text with
  | nil =>
    unfold Grep.matchFrom
    rw [matchhere_iff]
    simp only [List.suffix_nil, exists_eq_left]
  | cons a text ih =>
    unfold Grep.matchFrom
    simp only [List.suffix_cons_iff, or_and_right, exists_or, exists_eq_left]
    rw [← ih, ← matchhere_iff]
    split_ifs with h <;> simp [h]

/-! ## The two copies -/

theorem find_matchstar_eq {re : List UInt8}
    (hre : ∀ text, Find.matchhere re text = Grep.matchhere re text) (c : UInt8) (text : List UInt8) :
    Find.matchstar c re text = Grep.matchstar c re text := by
  induction text with
  | nil =>
    unfold Find.matchstar Grep.matchstar
    rw [hre]
  | cons a text ih =>
    unfold Find.matchstar Grep.matchstar
    dsimp only
    rw [hre, ih]

theorem find_matchhere_eq (re text : List UInt8) :
    Find.matchhere re text = Grep.matchhere re text := by
  induction hn : re.length using Nat.strongRecOn generalizing re text with
  | ind n ih =>
    subst hn
    unfold Find.matchhere Grep.matchhere
    cases re with
    | nil => rfl
    | cons c re =>
      have hlt : re.tail.length < (c :: re).length := by
        rw [List.length_tail, List.length_cons]
        omega
      dsimp only
      rw [find_matchstar_eq fun t => ih _ hlt _ t rfl]
      cases text with
      | nil => rfl
      | cons a text =>
        dsimp only
        rw [ih _ (Nat.lt_succ_self re.length) re text rfl]

/-- **The matchers are correct.** `match` of `grep` returns exactly for the texts that the pattern
selects, and `match` of `find` returns the same. -/
theorem patterns_match (re text : List UInt8) :
    (Grep.match re text = true ↔ Selects re text) ∧ Find.match re text = Grep.match re text := by
  have hfrom : ∀ text, Find.matchFrom re text = Grep.matchFrom re text := by
    intro text
    induction text with
    | nil => exact find_matchhere_eq re []
    | cons a text ih =>
      unfold Find.matchFrom Grep.matchFrom
      rw [find_matchhere_eq, ih]
  unfold Grep.match Find.match Selects
  split_ifs with hc
  · exact ⟨matchhere_iff re.tail text, find_matchhere_eq re.tail text⟩
  · exact ⟨matchFrom_iff re text, hfrom text⟩

end Xv6.User
