import Xv6.Log.Ops

/-!
# Group commit takes whole operations

* `GroupInv`: what holds of the log whenever `log.lock` is free. `outstanding` counts the
  operations in progress, none of which is in progress while a process commits; the entries
  of `log.lh` are the blocks that the operations since the last commit logged.
* `outline`: every process keeps it, also those that touch `log.lh` without the lock.
* `group_commit`: no operation starts and no block is added during a commit, and every
  ended operation belongs to exactly one commit, which got all its blocks.
-/

namespace Xv6.Log

open Function Thread Lib

variable {n size : ℕ} {p q : Fin n} {sh : Shared n}

/-! ## Entries of the header -/

section Header

variable {b : ℕ} {h : Header}

theorem Header.mem_blocks : b ∈ h.blocks ↔ ∃ i < h.n, h.block i = b := by
  simp [Header.blocks]

@[simp] theorem Header.length_blocks (h : Header) : h.blocks.length = h.n := by simp [Header.blocks]

variable {i : ℕ}

/-- The scan found `b`: absorption. -/
theorem Header.put_of_lt (hi : i < h.n) (hb : h.block i = b) : h.put b i = h := by
  have hne : i ≠ h.n := by omega
  subst hb
  simp [Header.put, hne]

/-- The scan ran off the end: a new entry. -/
theorem Header.blocks_put_end (h : Header) (b : ℕ) : (h.put b h.n).blocks = h.blocks ++ [b] := by
  simp only [Header.put, if_true, Header.blocks, List.range_succ, List.map_append, List.map_cons,
    List.map_nil, update_self, List.append_cancel_right_eq]
  apply List.map_congr_left
  intro i hi
  have hlt := List.mem_range.1 hi
  rw [update_of_ne (by omega)]

/-- Where the search of `log_write` for `b` ended. -/
structure Header.Found (h : Header) (b i : ℕ) : Prop where
  le : i ≤ h.n
  before : ∀ j < i, h.block j ≠ b
  at_lt : i < h.n → h.block i = b

theorem Header.Found.mem_blocks (hf : h.Found b i) (x : ℕ) :
    x ∈ (h.put b i).blocks ↔ x ∈ h.blocks ∨ x = b := by
  rcases Nat.lt_or_eq_of_le hf.le with hi | rfl
  · rw [Header.put_of_lt hi (hf.at_lt hi)]
    constructor
    · exact Or.inl
    · rintro (hx | rfl)
      · exact hx
      · exact Header.mem_blocks.2 ⟨i, hi, hf.at_lt hi⟩
  · rw [Header.blocks_put_end, List.mem_append, List.mem_singleton]

theorem Header.Found.nodup (hf : h.Found b i) (hn : h.blocks.Nodup) :
    (h.put b i).blocks.Nodup := by
  rcases Nat.lt_or_eq_of_le hf.le with hi | rfl
  · rwa [Header.put_of_lt hi (hf.at_lt hi)]
  · rw [Header.blocks_put_end]
    refine List.Nodup.append hn (List.nodup_singleton b) ?_
    rw [List.disjoint_singleton]
    intro hb
    obtain ⟨j, hj, hjb⟩ := Header.mem_blocks.1 hb
    exact hf.before j hj hjb

theorem Header.put_n_le : (h.put b i).n ≤ h.n + 1 := by
  unfold Header.put
  dsimp only
  split_ifs <;> omega

end Header

/-! ## The invariant -/

/-- The processes with an operation in progress. -/
def Hist.active (h : Hist n) : Finset (Fin n) := Finset.univ.filter fun p => (h.cur p).isSome

/-- The operations whose blocks `log.lh` holds. -/
def Hist.Open (h : Hist n) (o : ℕ) : Prop := o ∈ h.group ∨ ∃ p, h.cur p = some o

theorem Hist.mem_active {h : Hist n} : p ∈ h.active ↔ ∃ o, h.cur p = some o := by
  simp [Hist.active, Option.isSome_iff_exists]

/-- **The log between critical sections.** -/
structure GroupInv (size : ℕ) (sh : Shared n) : Prop where
  outstanding : sh.outstanding = sh.hist.active.card
  /-- `committing` keeps operations out. -/
  committing : sh.committing = true → ∀ p, sh.hist.cur p = none
  committer : sh.committing = true ↔ ∃ p, sh.hist.committer = some p
  handed : sh.hist.handed = true → sh.committing = true ∧ sh.hist.group = []
  /-- Operations are numbered apart, and ended ones are not in progress. -/
  current : ∀ p o, sh.hist.cur p = some o → o < sh.hist.nextOp ∧ o ∉ sh.hist.ended
  current_inj : ∀ p q o, sh.hist.cur p = some o → sh.hist.cur q = some o → p = q
  ended_lt : ∀ o ∈ sh.hist.ended, o < sh.hist.nextOp
  ended_nodup : sh.hist.ended.Nodup
  ended_eq : sh.hist.ended = sh.hist.commits.flatMap Group.ops ++ sh.hist.group
  /-- Nothing is logged for operations that have not started. -/
  wrote_new : ∀ o, sh.hist.nextOp ≤ o → sh.hist.wrote o = []
  commits : ∀ g ∈ sh.hist.commits, ∀ b, b ∈ g.blocks ↔ ∃ o ∈ g.ops, b ∈ sh.hist.wrote o
  /-- Until `commit` is called, `log.lh` holds what the open operations logged. -/
  blocks : sh.hist.handed = false →
    ∀ b, b ∈ sh.lh.blocks ↔ ∃ o, sh.hist.Open o ∧ b ∈ sh.hist.wrote o
  nodup : sh.lh.blocks.Nodup
  fits : sh.lh.n ≤ min logsize (size - 1)
  commits_fit : ∀ g ∈ sh.hist.commits, g.blocks.Nodup ∧ g.blocks.length ≤ min logsize (size - 1)

theorem GroupInv.init : GroupInv size (Shared.init : Shared n) where
  outstanding := by simp [Shared.init, Hist.active]
  committing := by simp [Shared.init]
  committer := by simp [Shared.init]
  handed := by simp [Shared.init]
  current := by simp [Shared.init]
  current_inj := by simp [Shared.init]
  ended_lt := by simp [Shared.init]
  ended_nodup := by simp [Shared.init]
  ended_eq := by simp [Shared.init]
  wrote_new := by simp [Shared.init]
  commits := by simp [Shared.init]
  blocks := by simp [Shared.init, Header.blocks, Hist.Open]
  nodup := by simp [Shared.init, Header.blocks]
  fits := by simp [Shared.init]
  commits_fit := by simp [Shared.init]

namespace GroupInv

variable {o : ℕ} (h : GroupInv size sh)

include h

/-- While an operation is in progress nobody commits. -/
theorem not_committing (hp : sh.hist.cur p = some o) : sh.committing = false := by
  by_contra hc
  rw [h.committing (by simpa using hc) p] at hp
  cases hp

theorem not_handed (hc : sh.committing = false) : sh.hist.handed = false := by
  by_contra hh
  rw [(h.handed (by simpa using hh)).1] at hc
  cases hc

/-- `committing = 1` means `outstanding = 0`. -/
theorem outstanding_zero (hc : sh.committing = true) : sh.outstanding = 0 := by
  have hnone : sh.hist.active = ∅ := by
    apply Finset.eq_empty_of_forall_notMem
    intro p hp
    obtain ⟨o, ho⟩ := Hist.mem_active.1 hp
    rw [h.committing hc p] at ho
    cases ho
  rw [h.outstanding, hnone]
  rfl

theorem reserve (hc : sh.committing = false) (hp : sh.hist.cur p = none) :
    GroupInv size (sh.reserve p) := by
  have hact : (sh.reserve p).hist.active = insert p sh.hist.active := by
    ext q
    rw [Finset.mem_insert, Hist.mem_active, Hist.mem_active]
    rcases eq_or_ne q p with rfl | hq
    · simp [Shared.reserve]
    · simp [Shared.reserve, hq]
  have hpa : p ∉ sh.hist.active := fun hpa => by
    obtain ⟨o, ho⟩ := Hist.mem_active.1 hpa
    rw [hp] at ho; cases ho
  have hcur : ∀ q o, (sh.reserve p).hist.cur q = some o →
      (q = p ∧ o = sh.hist.nextOp) ∨ (q ≠ p ∧ sh.hist.cur q = some o) := by
    intro q o hq
    rcases eq_or_ne q p with rfl | hqp
    · simp only [Shared.reserve, update_self, Option.some.injEq] at hq
      exact Or.inl ⟨rfl, hq.symm⟩
    · simp only [Shared.reserve, update_of_ne hqp] at hq
      exact Or.inr ⟨hqp, hq⟩
  have hlt : sh.hist.nextOp ∉ sh.hist.ended := fun hm => absurd (h.ended_lt _ hm) (lt_irrefl _)
  constructor
  case outstanding =>
    have hout := h.outstanding
    rw [hact, Finset.card_insert_of_notMem hpa]
    simp only [Shared.reserve]
    omega
  case committing => exact fun hc' => absurd (hc.symm.trans hc') (by simp)
  case committer => exact h.committer
  case handed => exact h.handed
  case current =>
    intro q o hq
    rcases hcur q o hq with ⟨-, rfl⟩ | ⟨-, hq⟩
    · exact ⟨Nat.lt_succ_self _, hlt⟩
    · exact ⟨Nat.lt_succ_of_lt (h.current q o hq).1, (h.current q o hq).2⟩
  case current_inj =>
    intro q r o hq hr
    rcases hcur q o hq with ⟨rfl, ho⟩ | ⟨-, hq'⟩ <;> rcases hcur r o hr with ⟨rfl, ho'⟩ | ⟨-, hr'⟩
    · rfl
    · exact absurd (h.current r o hr').1 (by omega)
    · exact absurd (h.current q o hq').1 (by omega)
    · exact h.current_inj q r o hq' hr'
  case ended_lt => exact fun o ho => Nat.lt_succ_of_lt (h.ended_lt o ho)
  case ended_nodup => exact h.ended_nodup
  case ended_eq => exact h.ended_eq
  case wrote_new => exact fun o ho => h.wrote_new o (Nat.le_of_succ_le ho)
  case commits => exact h.commits
  case blocks =>
    intro hh b
    have hnew : sh.hist.wrote sh.hist.nextOp = [] := h.wrote_new _ le_rfl
    refine (h.blocks hh b).trans ⟨?_, ?_⟩
    · rintro ⟨o, ho, hb⟩
      refine ⟨o, ?_, hb⟩
      rcases ho with ho | ⟨q, hq⟩
      · exact Or.inl ho
      · have hqp : q ≠ p := by rintro rfl; rw [hp] at hq; cases hq
        exact Or.inr ⟨q, by simpa [Shared.reserve, hqp] using hq⟩
    · rintro ⟨o, ho, hb⟩
      refine ⟨o, ?_, hb⟩
      rcases ho with ho | ⟨q, hq⟩
      · exact Or.inl ho
      · rcases hcur q o hq with ⟨-, rfl⟩ | ⟨-, hq⟩
        · have hb' : b ∈ sh.hist.wrote sh.hist.nextOp := hb
          rw [hnew] at hb'; cases hb'
        · exact Or.inr ⟨q, hq⟩
  case nodup => exact h.nodup
  case fits => exact h.fits
  case commits_fit => exact h.commits_fit

theorem put {b i : ℕ} (hp : sh.hist.cur p = some o) (hf : sh.lh.Found b i)
    (hroom : sh.lh.n < logsize ∧ sh.lh.n < size - 1) : GroupInv size (sh.put p b i) := by
  have hhist : (sh.put p b i).hist =
      { sh.hist with wrote := update sh.hist.wrote o ((sh.hist.wrote o).insert b) } := by
    simp [Shared.put, Hist.log, hp]
  have hwrote : ∀ o', o' ≠ o → (sh.put p b i).hist.wrote o' = sh.hist.wrote o' := by
    intro o' ho'
    rw [hhist]
    exact update_of_ne ho' _ _
  have hself : ∀ x, x ∈ (sh.put p b i).hist.wrote o ↔ x = b ∨ x ∈ sh.hist.wrote o := by
    intro x
    rw [hhist]
    simp only [update_self]
    exact List.mem_insert_iff
  have hlh : (sh.put p b i).lh = sh.lh.put b i := rfl
  constructor
  case outstanding => rw [show (sh.put p b i).hist.active = sh.hist.active by rw [hhist]; rfl]; exact h.outstanding
  case committing => rw [hhist]; exact h.committing
  case committer => rw [hhist]; exact h.committer
  case handed => rw [hhist]; exact h.handed
  case current => rw [hhist]; exact h.current
  case current_inj => rw [hhist]; exact h.current_inj
  case ended_lt => rw [hhist]; exact h.ended_lt
  case ended_nodup => rw [hhist]; exact h.ended_nodup
  case ended_eq => rw [hhist]; exact h.ended_eq
  case wrote_new =>
    intro o' ho'
    have hlt := (h.current p o hp).1
    have hle : sh.hist.nextOp ≤ o' := by rw [hhist] at ho'; exact ho'
    rw [hwrote o' (by omega)]
    exact h.wrote_new o' hle
  case commits =>
    intro g hg x
    have hg' : g ∈ sh.hist.commits := by rw [hhist] at hg; exact hg
    -- the operation in progress belongs to no commit
    have hno : ∀ o' ∈ g.ops, o' ≠ o := by
      rintro o' ho' rfl
      apply (h.current p o' hp).2
      rw [h.ended_eq]
      exact List.mem_append_left _ (List.mem_flatMap.2 ⟨g, hg', ho'⟩)
    rw [h.commits g hg' x]
    constructor
    · rintro ⟨o', ho', hx⟩; exact ⟨o', ho', by rwa [hwrote o' (hno o' ho')]⟩
    · rintro ⟨o', ho', hx⟩; exact ⟨o', ho', by rwa [hwrote o' (hno o' ho')] at hx⟩
  case blocks =>
    intro hh x
    have hh' : sh.hist.handed = false := by rw [hhist] at hh; exact hh
    have hopen : ∀ o', (sh.put p b i).hist.Open o' ↔ sh.hist.Open o' := by
      intro o'; rw [hhist]; rfl
    rw [hlh, hf.mem_blocks x, h.blocks hh' x]
    constructor
    · rintro (⟨o', ho', hx⟩ | rfl)
      · refine ⟨o', (hopen o').2 ho', ?_⟩
        rcases eq_or_ne o' o with rfl | hne
        · exact (hself x).2 (Or.inr hx)
        · rwa [hwrote o' hne]
      · exact ⟨o, (hopen o).2 (Or.inr ⟨p, hp⟩), (hself x).2 (Or.inl rfl)⟩
    · rintro ⟨o', ho', hx⟩
      rcases eq_or_ne o' o with rfl | hne
      · rcases (hself x).1 hx with rfl | hx
        · exact Or.inr rfl
        · exact Or.inl ⟨o', (hopen o').1 ho', hx⟩
      · rw [hwrote o' hne] at hx
        exact Or.inl ⟨o', (hopen o').1 ho', hx⟩
  case nodup => exact hf.nodup h.nodup
  case fits =>
    have hle := Header.put_n_le (h := sh.lh) (b := b) (i := i)
    rw [hlh]; omega
  case commits_fit => rw [hhist]; exact h.commits_fit

theorem finish (hp : sh.hist.cur p = some o) :
    GroupInv size (sh.finish p) := by
  have hc := h.not_committing hp
  have hact : (sh.finish p).hist.active = sh.hist.active.erase p := by
    ext q
    rw [Finset.mem_erase, Hist.mem_active, Hist.mem_active]
    rcases eq_or_ne q p with rfl | hq
    · simp [Shared.finish, Hist.finish]
    · simp [Shared.finish, Hist.finish, hq]
  have hpa : p ∈ sh.hist.active := Hist.mem_active.2 ⟨o, hp⟩
  have hended : (sh.finish p).hist.ended = sh.hist.ended ++ [o] := by
    simp [Shared.finish, Hist.finish, hp]
  have hgroup : (sh.finish p).hist.group = sh.hist.group ++ [o] := by
    simp [Shared.finish, Hist.finish, hp]
  have hcur : ∀ q o', (sh.finish p).hist.cur q = some o' → q ≠ p ∧ sh.hist.cur q = some o' := by
    intro q o' hq
    rcases eq_or_ne q p with rfl | hqp
    · simp [Shared.finish, Hist.finish] at hq
    · exact ⟨hqp, by simpa [Shared.finish, Hist.finish, hqp] using hq⟩
  have hopen : ∀ o', (sh.finish p).hist.Open o' ↔ sh.hist.Open o' := by
    intro o'
    unfold Hist.Open
    rw [hgroup, List.mem_append, List.mem_singleton]
    constructor
    · rintro ((ho' | rfl) | ⟨q, hq⟩)
      · exact Or.inl ho'
      · exact Or.inr ⟨p, hp⟩
      · exact Or.inr ⟨q, (hcur q o' hq).2⟩
    · rintro (ho' | ⟨q, hq⟩)
      · exact Or.inl (Or.inl ho')
      · rcases eq_or_ne q p with rfl | hqp
        · rw [hp] at hq; cases hq; exact Or.inl (Or.inr rfl)
        · exact Or.inr ⟨q, by simpa [Shared.finish, Hist.finish, hqp] using hq⟩
  constructor
  case outstanding =>
    have hpos : 0 < sh.hist.active.card := Finset.card_pos.2 ⟨p, hpa⟩
    have hout := h.outstanding
    rw [hact, Finset.card_erase_of_mem hpa]
    simp only [Shared.finish]
    omega
  case committing => exact fun hc' => absurd (hc.symm.trans hc') (by simp)
  case committer => exact h.committer
  case handed => exact fun hh => absurd ((h.not_handed hc).symm.trans hh) (by simp)
  case current =>
    intro q o' hq
    obtain ⟨hqp, hq⟩ := hcur q o' hq
    refine ⟨(h.current q o' hq).1, ?_⟩
    rw [hended, List.mem_append, List.mem_singleton]
    rintro (hm | rfl)
    · exact (h.current q o' hq).2 hm
    · exact hqp (h.current_inj q p o' hq hp)
  case current_inj => exact fun q r o' hq hr => h.current_inj q r o' (hcur q o' hq).2 (hcur r o' hr).2
  case ended_lt =>
    intro o' ho'
    rw [hended, List.mem_append, List.mem_singleton] at ho'
    rcases ho' with ho' | rfl
    · exact h.ended_lt o' ho'
    · exact (h.current p o' hp).1
  case ended_nodup =>
    rw [hended]
    exact h.ended_nodup.append (List.nodup_singleton o) (List.disjoint_singleton.2 (h.current p o hp).2)
  case ended_eq => rw [hended, hgroup, h.ended_eq, List.append_assoc]; rfl
  case wrote_new => exact h.wrote_new
  case commits => exact h.commits
  case blocks =>
    intro hh b
    refine (h.blocks hh b).trans ?_
    simp only [hopen]
    rfl
  case nodup => exact h.nodup
  case fits => exact h.fits
  case commits_fit => exact h.commits_fit

/-- The last operation ends. -/
theorem setCommitting (h0 : sh.outstanding = 0) (hc : sh.committing = false) :
    GroupInv size (sh.setCommitting p) := by
  have hnone : ∀ q, sh.hist.cur q = none := by
    intro q
    by_contra hq
    obtain ⟨o, ho⟩ := Option.ne_none_iff_exists'.1 hq
    have hpos : 0 < sh.hist.active.card := Finset.card_pos.2 ⟨q, Hist.mem_active.2 ⟨o, ho⟩⟩
    have := h.outstanding
    omega
  exact { h with
    committing := fun _ => hnone
    committer := ⟨fun _ => ⟨p, rfl⟩, fun _ => rfl⟩
    handed := fun hh => absurd ((h.not_handed hc).symm.trans hh) (by simp) }

theorem hand (hc : sh.committing = true) (hh : sh.hist.handed = false) :
    GroupInv size sh.hand := by
  have hblocks : ∀ b, b ∈ sh.lh.blocks ↔ ∃ o ∈ sh.hist.group, b ∈ sh.hist.wrote o := by
    intro b
    rw [h.blocks hh b]
    constructor
    · rintro ⟨o, ho | ⟨q, hq⟩, hb⟩
      · exact ⟨o, ho, hb⟩
      · rw [h.committing hc q] at hq; cases hq
    · rintro ⟨o, ho, hb⟩; exact ⟨o, Or.inl ho, hb⟩
  have hmem : ∀ g, g ∈ sh.hand.hist.commits → g ∈ sh.hist.commits ∨ g = ⟨sh.hist.group, sh.lh.blocks⟩ :=
    fun g hg => by simpa [Shared.hand] using hg
  exact { h with
    handed := fun _ => ⟨hc, rfl⟩
    ended_eq := by simpa [Shared.hand] using h.ended_eq
    commits := fun g hg b => by
      rcases hmem g hg with hg | rfl
      · exact h.commits g hg b
      · exact hblocks b
    blocks := fun hf => by simp [Shared.hand] at hf
    commits_fit := fun g hg => by
      rcases hmem g hg with hg | rfl
      · exact h.commits_fit g hg
      · exact ⟨h.nodup, by simpa using h.fits⟩ }

theorem clear (hh : sh.hist.handed = true) : GroupInv size sh.clear :=
  { h with
    blocks := fun hf => absurd (hh.symm.trans hf) (by simp)
    nodup := by simp [Shared.clear, Header.blocks]
    fits := Nat.zero_le _ }

theorem clearCommitting (hh : sh.hist.handed = true) (h0 : sh.lh.n = 0) :
    GroupInv size sh.clearCommitting := by
  obtain ⟨hc, hg⟩ := h.handed hh
  exact { h with
    committing := fun hf => by simp [Shared.clearCommitting] at hf
    committer := by simp [Shared.clearCommitting]
    handed := fun hf => by simp [Shared.clearCommitting] at hf
    blocks := fun _ b => by
      have hempty : sh.lh.blocks = [] := by simp [Header.blocks, h0]
      simp [Shared.clearCommitting, hempty, Hist.Open, hg, h.committing hc] }

end GroupInv

/-! ## What each process knows -/

/-- A process is outside any operation, in one, or the one that commits. -/
inductive Role
  | idle | inOp | commits (handed : Bool)

def Pc.role : Pc → Role
  | .beginRelease | .inOp | .writeAcquire _ | .writeTest _ | .writeScan _ _ | .writePut _ _
  | .writeRelease | .tooBig | .outsideTrans | .endAcquire | .endTest => .inOp
  | .endRelease true | .commit => .commits false
  | .writeLog _ | .writeHead | .installTrans _ | .clear | .eraseHead | .doneAcquire | .doneClear =>
    .commits true
  | _ => .idle

def Role.Holds (p : Fin n) (sh : Shared n) : Role → Prop
  | .idle => sh.hist.cur p = none ∧ sh.hist.committer ≠ some p
  | .inOp => (∃ o, sh.hist.cur p = some o) ∧ sh.hist.committer ≠ some p
  | .commits handed =>
    sh.hist.cur p = none ∧ sh.hist.committer = some p ∧ sh.hist.handed = handed

/-- What else is known at a local state. -/
def Pc.Extra (size : ℕ) (sh : Shared n) : Pc → Prop
  | .writeScan b i => (sh.lh.n < logsize ∧ sh.lh.n < size - 1) ∧ i ≤ sh.lh.n ∧
      ∀ j < i, sh.lh.block j ≠ b
  | .writePut b i => (sh.lh.n < logsize ∧ sh.lh.n < size - 1) ∧ sh.lh.Found b i
  | .outsideTrans | .endPanic => False
  | .eraseHead | .doneAcquire | .doneClear => sh.lh.n = 0
  | _ => True

/-- **What a process knows at a local state.** -/
structure Knows (size : ℕ) (p : Fin n) (l : Pc) (sh : Shared n) : Prop where
  inv : l.locked = true → GroupInv size sh
  role : l.role.Holds p sh
  extra : l.Extra size sh

/-- The ways process `p` changes the log. -/
inductive Change (size : ℕ) (p : Fin n) (sh : Shared n) : Shared n → Prop
  | same : Change size p sh sh
  | reserve (hI : GroupInv size sh) (hc : sh.committing = false) (hp : sh.hist.cur p = none) :
      Change size p sh (sh.reserve p)
  | put {b i o : ℕ} (hI : GroupInv size sh) (hp : sh.hist.cur p = some o) (hf : sh.lh.Found b i)
      (hroom : sh.lh.n < logsize ∧ sh.lh.n < size - 1) : Change size p sh (sh.put p b i)
  | finish {o : ℕ} (hI : GroupInv size sh) (hp : sh.hist.cur p = some o)
      (h0 : (sh.finish p).outstanding ≠ 0) : Change size p sh (sh.finish p)
  | last {o : ℕ} (hI : GroupInv size sh) (hp : sh.hist.cur p = some o)
      (h0 : (sh.finish p).outstanding = 0) : Change size p sh ((sh.finish p).setCommitting p)
  | hand (hc : sh.hist.committer = some p) (hh : sh.hist.handed = false) : Change size p sh sh.hand
  | clear (hc : sh.hist.committer = some p) (hh : sh.hist.handed = true) : Change size p sh sh.clear
  | done (hI : GroupInv size sh) (hc : sh.hist.committer = some p) (hh : sh.hist.handed = true)
      (h0 : sh.lh.n = 0) : Change size p sh sh.clearCommitting

section Change

variable {sh' : Shared n} {l : Pc} {f : Req → Shared n → Shared n × Pc} {x : Req}

theorem Change.inv (h : Change size p sh sh') (hI : GroupInv size sh) : GroupInv size sh' := by
  cases h with
  | same => exact hI
  | reserve _ hc hp => exact hI.reserve hc hp
  | put _ hp hf hroom => exact hI.put hp hf hroom
  | finish _ hp => exact hI.finish hp
  | last _ hp h0 => exact (hI.finish hp).setCommitting h0 (hI.not_committing hp)
  | hand hc hh => exact hI.hand (hI.committer.2 ⟨p, hc⟩) hh
  | clear hc hh => exact hI.clear hh
  | done _ hc hh h0 => exact hI.clearCommitting hh h0

/-- Nobody else touches the log while `q` commits. -/
theorem Change.eq_of_committer (h : Change size p sh sh') (hq : q ≠ p)
    (hc : sh.hist.committer = some q) : sh' = sh := by
  have hne : sh.hist.committer ≠ some p := by
    rw [hc]
    exact fun he => hq (Option.some.inj he)
  cases h with
  | same => rfl
  | reserve hI hc' hp => rw [hI.committer.2 ⟨q, hc⟩] at hc'; cases hc'
  | put hI hp | finish hI hp | last hI hp =>
    rw [hI.committing (hI.committer.2 ⟨q, hc⟩) p] at hp; cases hp
  | hand hc' | clear hc' | done _ hc' => exact absurd hc' hne

/-- Another process's role does not change. -/
theorem Change.role (h : Change size p sh sh') (hq : q ≠ p) {r : Role} (hr : r.Holds q sh) :
    r.Holds q sh' := by
  cases r with
  | commits b => rw [h.eq_of_committer hq hr.2.1]; exact hr
  | idle | inOp =>
    cases h with
    | same | hand | clear => exact hr
    | reserve | finish => exact ⟨by simpa [Shared.reserve, Shared.finish, Hist.finish, hq] using hr.1, hr.2⟩
    | put hI hp => exact ⟨by simpa [Shared.put, Hist.log, hp] using hr.1, by simpa [Shared.put, Hist.log, hp] using hr.2⟩
    | last =>
      refine ⟨by simpa [Shared.setCommitting, Shared.finish, Hist.finish, hq] using hr.1, ?_⟩
      simpa [Shared.setCommitting] using hq.symm
    | done => exact ⟨hr.1, by simp [Shared.clearCommitting]⟩

/-- Every action of the program is such a change. -/
theorem act_change (h : prog size p l = .act f) (hk : Knows size p l sh) :
    Change size p sh (f x sh).1 := by
  have hinv := hk.inv
  have hrole := hk.role
  have hextra := hk.extra
  cases l <;> cases h
  case idle | inOp => cases x <;> exact .same
  case beginTest =>
    dsimp only
    split_ifs with hc hs
    · exact .same
    · exact .same
    · exact .reserve (hinv rfl) (by simpa using hc) hrole.1
  case writePut b i =>
    obtain ⟨⟨o, ho⟩, -⟩ := hrole
    exact .put (hinv rfl) ho hextra.2 hextra.1
  case endTest =>
    obtain ⟨⟨o, ho⟩, -⟩ := hrole
    dsimp only
    have hc : (sh.finish p).committing = false := (hinv rfl).not_committing ho
    split_ifs with hc' h0
    · rw [hc] at hc'; cases hc'
    · exact .last (hinv rfl) ho h0
    · exact .finish (hinv rfl) ho h0
  case commit => exact .hand hrole.2.1 hrole.2.2
  case clear => exact .clear hrole.2.1 hrole.2.2
  case doneClear => exact .done (hinv rfl) hrole.2.1 hrole.2.2 hextra
  case writeTest | writeScan =>
    dsimp only
    split_ifs <;> exact .same
  all_goals exact .same

/-- Without the lock only the committing process changes anything. -/
theorem act_unlocked (h : prog size p l = .act f) (hk : Knows size p l sh) (hl : l.locked = false) :
    (f x sh).1 = sh ∨ sh.hist.committer = some p := by
  have hrole := hk.role
  cases l <;> cases h
  case idle | inOp => cases x <;> exact Or.inl rfl
  case commit | clear => exact Or.inr hrole.2.1
  case writeLog | writeHead | installTrans | eraseHead => exact Or.inl rfl
  all_goals cases hl

/-- An operation in progress is counted. -/
theorem GroupInv.one_le (hI : GroupInv size sh) {o : ℕ} (hp : sh.hist.cur p = some o) :
    1 ≤ sh.outstanding := by
  have hpos : 0 < sh.hist.active.card := Finset.card_pos.2 ⟨p, Hist.mem_active.2 ⟨o, hp⟩⟩
  have hout := hI.outstanding
  omega

theorem Role.Holds.finish {o : ℕ} (hI : GroupInv size sh) (hp : sh.hist.cur p = some o)
    (hc : sh.hist.committer ≠ some p) :
    Role.Holds p (sh.finish p) .idle ∧ Role.Holds p ((sh.finish p).setCommitting p) (.commits false) := by
  have hh : sh.hist.handed = false := hI.not_handed (hI.not_committing hp)
  exact ⟨⟨by simp [Shared.finish, Hist.finish], hc⟩,
    by simp [Shared.setCommitting, Shared.finish, Hist.finish], rfl, hh⟩

/-- The actions of `p` keep what `p` knows. -/
theorem Knows.act (h : prog size p l = .act f) (hk : Knows size p l sh) :
    Knows size p (f x sh).2 (f x sh).1 := by
  have hch := act_change (x := x) h hk
  have hlocked := locked_act h x sh
  suffices hre : (f x sh).2.role.Holds p (f x sh).1 ∧ (f x sh).2.Extra size (f x sh).1 from
    ⟨fun hl => hch.inv (hk.inv (hlocked ▸ hl)), hre.1, hre.2⟩
  obtain ⟨hinv, hrole, hextra⟩ := hk
  cases l <;> cases h
  case idle | inOp => cases x <;> exact ⟨hrole, trivial⟩
  case beginTest =>
    dsimp only
    split_ifs with hc hs
    · exact ⟨hrole, trivial⟩
    · exact ⟨hrole, trivial⟩
    · exact ⟨⟨⟨sh.hist.nextOp, by simp [Shared.reserve]⟩, hrole.2⟩, trivial⟩
  case writeTest b =>
    dsimp only
    split_ifs with hbig hout
    · exact ⟨hrole, trivial⟩
    · obtain ⟨⟨o, ho⟩, -⟩ := hrole
      have hle := (hinv rfl).one_le ho
      omega
    · have hroom : sh.lh.n < logsize ∧ sh.lh.n < size - 1 := by omega
      exact ⟨hrole, hroom, Nat.zero_le _, fun j hj => absurd hj (Nat.not_lt_zero j)⟩
  case writeScan b i =>
    obtain ⟨hroom, hi, hbefore⟩ := hextra
    dsimp only
    split_ifs with hlt hb
    · exact ⟨hrole, hroom, hi, hbefore, fun _ => hb⟩
    · refine ⟨hrole, hroom, hlt, fun j hj => ?_⟩
      rcases Nat.lt_or_eq_of_le (Nat.le_of_lt_succ hj) with hj | rfl
      · exact hbefore j hj
      · exact hb
    · exact ⟨hrole, hroom, hi, hbefore, fun hi' => absurd hi' hlt⟩
  case writePut b i =>
    obtain ⟨⟨o, ho⟩, hc⟩ := hrole
    refine ⟨⟨⟨o, ?_⟩, ?_⟩, trivial⟩
    · simp [Shared.put, Hist.log, ho]
    · simpa [Shared.put, Hist.log, ho] using hc
  case endTest =>
    obtain ⟨⟨o, ho⟩, hc⟩ := hrole
    have hfin := Role.Holds.finish (hinv rfl) ho hc
    dsimp only
    split_ifs with hcom h0
    · have hnot := (hinv rfl).not_committing ho
      rw [show (sh.finish p).committing = sh.committing from rfl, hnot] at hcom
      cases hcom
    · exact ⟨hfin.2, trivial⟩
    · exact ⟨hfin.1, trivial⟩
  case commit =>
    have hr : Role.Holds p sh.hand (.commits true) := ⟨hrole.1, hrole.2.1, rfl⟩
    dsimp only
    split_ifs with hn
    · exact ⟨hr, trivial⟩
    · exact ⟨hr, Nat.eq_zero_of_not_pos hn⟩
  case writeLog | installTrans =>
    dsimp only
    split_ifs <;> exact ⟨hrole, trivial⟩
  case writeHead => exact ⟨hrole, trivial⟩
  case clear => exact ⟨hrole, rfl⟩
  case eraseHead => exact ⟨hrole, hextra⟩
  case doneClear => exact ⟨⟨hrole.1, by simp [Shared.clearCommitting]⟩, trivial⟩

/-- They keep what the others know. -/
theorem Knows.stable (h : prog size p l = .act f) (hk : Knows size p l sh) (hq : q ≠ p) {l' : Pc}
    (hex : l'.locked = true → l.locked = false) (hk' : Knows size q l' sh) :
    Knows size q l' (f x sh).1 := by
  have hch := act_change (x := x) h hk
  -- a process that has the lock inside an operation sees no change at all
  have hin : l'.locked = true → l'.role = .inOp → (f x sh).1 = sh := by
    intro hl hr
    rcases act_unlocked (x := x) h hk (hex hl) with he | hc
    · exact he
    · have hI := hk'.inv hl
      have hrole := hk'.role
      rw [hr] at hrole
      obtain ⟨⟨o, ho⟩, -⟩ := hrole
      rw [hI.committing (hI.committer.2 ⟨p, hc⟩) q] at ho
      cases ho
  refine ⟨fun hl => hch.inv (hk'.inv hl), hch.role hq hk'.role, ?_⟩
  have hrole := hk'.role
  have hextra := hk'.extra
  cases l'
  case writeScan | writePut => rw [hin rfl rfl]; exact hextra
  case eraseHead | doneAcquire | doneClear => rw [hch.eq_of_committer hq hrole.2.1]; exact hextra
  all_goals exact hextra

end Change

/-- What a process asleep in `begin_op` knows. -/
def Asleep (p : Fin n) (l : Pc) (sh : Shared n) : Prop := l = .beginTest ∧ Role.idle.Holds p sh

/-- **The outline of `log.c`.** -/
theorem outline (size : ℕ) : Outline (prog (n := n) size) held () (fun _ _ _ => True)
    (fun _ _ _ _ => True) (GroupInv size) (Knows size) Asleep where
  acquire {p l ℓ l' sh} h hk hI := by
    cases l <;> cases h <;> exact ⟨fun _ => hI rfl, hk.role, hk.extra⟩
  release {p l ℓ l' sh} h hk := by
    cases l <;> cases h <;> refine ⟨fun _ => hk.inv rfl, ?_⟩
    case endRelease dc => cases dc <;> exact ⟨nofun, hk.role, trivial⟩
    all_goals exact ⟨nofun, hk.role, trivial⟩
  act h _ _ hk := hk.act h
  stable {p l f x sh} h _ _ hk q hq := by
    refine ⟨fun l' hex hk' => hk.stable h hq (fun hl => ?_) hk', fun l' hw => ⟨hw.1, ?_⟩⟩
    · simpa [held] using hex ⟨rfl, hl⟩
    · exact (act_change h hk).role hq hw.2
  unlocked h _ _ _ hk hI := (act_change h hk).inv hI
  sleep {p l c k' l' sh} h hk := by
    cases l <;> cases h
    exact ⟨⟨rfl, hk.role⟩, fun _ => ⟨rfl, hk.inv rfl⟩⟩
  back {p l' sh} hw hI := by
    obtain ⟨rfl, hr⟩ := hw
    exact ⟨fun _ => hI ⟨rfl, rfl⟩, hr, trivial⟩
  wakeup {p l c l' sh} h hk := by
    cases l <;> cases h <;> exact ⟨fun _ => hk.inv rfl, hk.role, trivial⟩
  killed {p l f sh} h := by cases l <;> simp [prog] at h
  kill {p l pid f sh} h hk b := by
    cases l <;> cases h
    exact ⟨nofun, hk.role, trivial⟩

/-! ## Whole runs -/

variable {s : State n Unit Unit (Shared n) Pc} {G : State n Unit Unit (Shared n) Pc → Fin n × Req → Prop}

/-- What is known in every reachable state, whichever steps the processes take. -/
theorem reach_outline (hr : Reach (step (prog size)) G initial s) :
    LockInv held s ∧ OutlineInv held () (GroupInv size) (Knows size) Asleep s := by
  refine (outline size).reach (disciplined size) (fun _ _ _ _ _ => trivial)
    (fun _ _ _ _ _ _ _ _ => trivial) (LockInv.start fun m => ?_) (OutlineInv.start .init fun q => ?_) hr
  · simp [held, Pc.locked]
  · exact ⟨by rintro ⟨⟩, ⟨rfl, by rintro ⟨⟩⟩, trivial⟩

theorem reach_inv (hr : Reach (step (prog size)) G initial s) : GroupInv size s.sh :=
  (reach_outline hr).2.always (fun _ _ _ hl hk => hk.inv hl.2) (reach_outline hr).1

/-- A step changes the log in one of the ways of `Change`, or not at all. -/
theorem step_change {s' : State n Unit Unit (Shared n) Pc} {x : Req}
    (ho : OutlineInv held () (GroupInv size) (Knows size) Asleep s)
    (h : step (prog size) s (p, x) = some s') : Change size p s.sh s'.sh := by
  have hk := ho.asserts p
  cases step_move h with
  | act hc hi =>
    rw [hc] at hk
    exact act_change hi hk
  | _ => exact .same

/-- **`commit` is handed transactions it can log**, as long as the operations log no block of the log
itself. `x` has the contents of the buffers at each call. -/
theorem commits_ok {g : Geom} (hr : Reach (step (prog g.size)) G initial s)
    (hh : ∀ o, ∀ b ∈ s.sh.hist.wrote o, b < 2 ^ 32 ∧ ¬ g.Inside b) (x : Group → ℕ → Block) :
    ∀ t ∈ s.sh.hist.commits.map (fun c => c.blocks.map fun b => (b, x c b)), Txn.Ok g t := by
  have hI := reach_inv hr
  intro t ht
  obtain ⟨c, hc, rfl⟩ := List.mem_map.1 ht
  refine .of_blocks (hI.commits_fit c hc).1 (hI.commits_fit c hc).2 (fun b hb => ?_) (x c)
  obtain ⟨o, -, ho⟩ := (hI.commits c hc b).1 hb
  exact hh o b ho

section Run

variable {s s' : State n Unit Unit (Shared n) Pc}

theorem Change.group {sh' : Shared n} (h : Change size p sh sh') (hI : GroupInv size sh)
    (ih : sh.outstanding = 0 → sh.committing = false → sh.hist.group = []) :
    sh'.outstanding = 0 → sh'.committing = false → sh'.hist.group = [] := by
  cases h with
  | same => exact ih
  | reserve =>
    intro h0
    have hout := hI.outstanding
    simp only [Shared.reserve] at h0
    omega
  | put _ hp =>
    intro h0 hc
    simpa [Shared.put, Hist.log, hp] using ih h0 hc
  | finish _ _ h0 => exact fun h0' => absurd h0' h0
  | last => exact fun _ hc => by cases hc
  | hand => exact fun _ _ => rfl
  | clear => exact ih
  | done _ _ hh _ => exact fun _ _ => (hI.handed hh).2

/-- An ended operation waits for its commit only while another is in progress or a commit
is on its way. -/
theorem reach_group (hr : Reach (step (prog size)) G initial s) :
    s.sh.outstanding = 0 → s.sh.committing = false → s.sh.hist.group = [] := by
  refine hr.inv' (I := fun s => s.sh.outstanding = 0 → s.sh.committing = false → s.sh.hist.group = [])
    (fun _ _ => rfl) ?_
  rintro s ⟨p, x⟩ s' hreach ih - hstep
  exact (step_change (reach_outline hreach).2 hstep).group (reach_inv hreach) ih

/-- During a commit nothing is admitted and nothing is logged. -/
theorem Change.committing {sh' : Shared n} (h : Change size p sh sh') (hI : GroupInv size sh)
    (hc : sh.committing = true) :
    sh'.outstanding = sh.outstanding ∧ sh'.hist.nextOp = sh.hist.nextOp ∧ sh'.hist.cur = sh.hist.cur ∧
      (sh'.lh = sh.lh ∨ sh'.lh = { sh.lh with n := 0 }) := by
  cases h with
  | same | hand | done => exact ⟨rfl, rfl, rfl, Or.inl rfl⟩
  | reserve _ hc' => rw [hc] at hc'; cases hc'
  | put _ hp | finish _ hp | last _ hp => rw [hI.committing hc p] at hp; cases hp
  | clear => exact ⟨rfl, rfl, rfl, Or.inr rfl⟩

/-- `end_op` never finds a commit in progress. -/
theorem reach_panic (hr : Reach (step (prog size)) G initial s) : s.panic ≠ some "log.committing" := by
  refine no_panic (fun s hs q l hc hi => ?_) rfl (by decide) hr
  have hk := (reach_outline hs).2.asserts q
  rw [hc] at hk
  cases l <;> simp only [prog, Instr.panic.injEq, reduceCtorEq, String.reduceEq] at hi
  exact hk.extra

/-- **Group commit takes whole operations.** In every reachable state: no operation is in
progress while a process commits; until it has finished, no `begin_op` is admitted and no
`log_write` adds to `log.lh`; `end_op` does not panic; each call of `commit` was handed
exactly the blocks logged by some operations that had ended; and the ended operations are,
each once, those of the calls of `commit` so far and those the next call will take. -/
theorem group_commit (hr : Reach (step (prog size)) (fun _ _ => True) initial s) :
    (s.sh.committing = true → s.sh.outstanding = 0) ∧
    (s.sh.committing = true → ∀ a s', step (prog size) s a = some s' →
      s'.sh.outstanding = s.sh.outstanding ∧ s'.sh.hist.nextOp = s.sh.hist.nextOp ∧
      s'.sh.hist.cur = s.sh.hist.cur ∧ (s'.sh.lh = s.sh.lh ∨ s'.sh.lh = { s.sh.lh with n := 0 })) ∧
    s.panic ≠ some "log.committing" ∧
    (∀ g ∈ s.sh.hist.commits, (∀ o ∈ g.ops, o ∈ s.sh.hist.ended) ∧
      ∀ b, b ∈ g.blocks ↔ ∃ o ∈ g.ops, b ∈ s.sh.hist.wrote o) ∧
    s.sh.hist.ended.Nodup ∧
    s.sh.hist.ended = s.sh.hist.commits.flatMap Group.ops ++ s.sh.hist.group ∧
    (s.sh.outstanding = 0 → s.sh.committing = false → s.sh.hist.group = []) := by
  have hI := reach_inv hr
  have ho := (reach_outline hr).2
  refine ⟨hI.outstanding_zero, ?_, reach_panic hr, ?_, hI.ended_nodup, hI.ended_eq, reach_group hr⟩
  · rintro hc ⟨p, x⟩ s' hstep
    exact (step_change ho hstep).committing hI hc
  · intro g hg
    refine ⟨fun o hog => ?_, hI.commits g hg⟩
    rw [hI.ended_eq]
    exact List.mem_append_left _ (List.mem_flatMap.2 ⟨g, hg, hog⟩)

end Run

/-- Two operations that log the same block, and the commit of both. -/
def twoOps : List (Fin 2 × Req) :=
  List.replicate 4 (0, .op) ++ List.replicate 4 (1, .op) ++ List.replicate 6 (0, .write 7) ++
    List.replicate 6 (1, .write 7) ++ List.replicate 9 (0, .done) ++ List.replicate 20 (1, .done)

theorem group_commit_twoOps : ∃ s : State 2 Unit Unit (Shared 2) Pc,
    Reach (step (prog logsize)) (fun _ _ => True) initial s ∧
      s.sh.hist.commits.map (fun g => (g.ops, g.blocks)) = [([0, 1], [7])] ∧ s.sh.hist.ended.Nodup := by
  obtain ⟨s, hr, hobs⟩ : ∃ s : State 2 Unit Unit (Shared 2) Pc,
      Reach (step (prog logsize)) (fun _ _ => True) initial s ∧
      s.sh.hist.commits.map (fun g => (g.ops, g.blocks)) = [([0, 1], [7])] :=
    exists_reach twoOps (by decide +kernel)
  exact ⟨s, hr, hobs, (group_commit hr).2.2.2.2.1⟩

end Xv6.Log
