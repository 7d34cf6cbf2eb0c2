import Xv6.Fs.Itable
import Xv6.Lib.Count

/-!
# The inode table is coherent

At most one entry in use is about an inode, `ref` counts the references, an entry in use stays
with its inode, and the copy of the inode in an entry that is in use, valid and not locked is the
inode on disk (`used_coherent`). The last holds although `iput` frees an inode with
`itable.lock` released, so that another process may allocate the inode again and find the dying
entry: until `valid` is cleared the entry is locked.

For an entry that is *not* in use it fails. By the comment in `fs.c` `iput` clears `valid` when
`ref` has fallen to zero; the code does so only for an inode without links. `iget` may then take
another entry for the same inode, and the old copy goes stale (`unused_entry_stale`). In runs where
no `iput` leaves such an entry, the copies are right in all of them (`itable_coherent`).

* `Change`: what a step can do to the table and the disk.
* `Kept`: what the other processes and the free locks see of it.
* `Knows`: what a process knows of the inodes it has locked.
-/

namespace Xv6.Itable

open Function Lib Conc
open Fs (Dinode FType)

variable {n m : ℕ}

namespace Data

variable (t : Data m) {e e' : Fin m}

@[simp] theorem set_self (e : Fin m) (i : Inode) : (t.set e i).inode e = i :=
  update_self ..

theorem set_of_ne (h : e' ≠ e) (i : Inode) : (t.set e i).inode e' = t.inode e' :=
  update_of_ne h ..

theorem set_inode (e e' : Fin m) (i : Inode) :
    (t.set e i).inode e' = if e' = e then i else t.inode e' := update_apply ..

/-- What the new entry has in common with the old one stays. -/
theorem set_eq {α : Type*} (f : Inode → α) {i : Inode} (h : f i = f (t.inode e)) (e' : Fin m) :
    f ((t.set e i).inode e') = f (t.inode e') := by
  rw [set_inode]
  split
  · next he => rw [he]; exact h
  · rfl

theorem body_ref (e e' : Fin m) (v : Bool) (d : Dinode) : ((t.body e v d).inode e').ref = (t.inode e').ref :=
  t.set_eq Inode.ref (by rfl) e'

@[simp] theorem set_disk (e : Fin m) (i : Inode) : (t.set e i).disk = t.disk := rfl

@[simp] theorem write_inode (dev inum : ℕ) (d : Dinode) : (t.write dev inum d).inode = t.inode := rfl

theorem write_disk (dev inum dev' inum' : ℕ) (d : Dinode) :
    (t.write dev inum d).disk dev' inum' = if dev' = dev ∧ inum' = inum then d else t.disk dev' inum' := by
  unfold write
  dsimp only
  rcases eq_or_ne dev' dev with rfl | h
  · rw [update_self, update_apply]; simp
  · rw [update_of_ne h]; simp [h]

theorem find_some {dev inum : ℕ} (h : t.find dev inum = some e) : 0 < (t.inode e).ref := by
  have := List.find?_some h
  simp only [decide_eq_true_eq] at this
  exact this.1

theorem find_none {dev inum : ℕ} (h : t.find dev inum = none) (e : Fin m) (hr : 0 < (t.inode e).ref)
    (hd : (t.inode e).dev = dev) : (t.inode e).inum ≠ inum := by
  have := List.find?_eq_none.1 h e (List.mem_finRange e)
  simp only [decide_eq_true_eq, not_and] at this
  exact this hr hd

theorem empty_some (h : t.empty = some e) : (t.inode e).ref = 0 := by
  simpa using List.find?_some h

end Data

/-- What a step at `pc` can do: `S` are the entries it may change apart from `ref`. -/
inductive Change (S : Fin m → Prop) (pc : Pc m) (t : Data m) : Data m → Prop
  | same : Change S pc t t
  | gain {e : Fin m} : pc.itable = true → 0 < (t.inode e).ref → Change S pc t (t.gain e)
  | recycle {e : Fin m} {dev inum : ℕ} : pc.itable = true → (t.inode e).ref = 0 →
      (∀ e', 0 < (t.inode e').ref → (t.inode e').dev = dev → (t.inode e').inum ≠ inum) →
      Change S pc t (t.recycle e dev inum)
  | drop {e : Fin m} : pc = .iputDrop e → Change S pc t (t.drop e)
  | body {e : Fin m} {v : Bool} {d : Dinode} : S e → Change S pc t (t.body e v d)
  | update {e : Fin m} : S e → Change S pc t (t.iupdate e)
  | alloc {dev inum : ℕ} {d : Dinode} : (t.disk dev inum).type = .free →
      Change S pc t (t.write dev inum d)

/-- At most one entry in use per inode. -/
def Unique (t : Data m) : Prop :=
  ∀ e e', 0 < (t.inode e).ref → 0 < (t.inode e').ref → (t.inode e).dev = (t.inode e').dev →
    (t.inode e).inum = (t.inode e').inum → e = e'

/-- No entry is valid that is not in use. -/
def Vacant (t : Data m) : Prop := ∀ e, (t.inode e).ref = 0 → (t.inode e).valid = false

/-- Entry `e` stays as it is, and so does its inode on disk unless that was free. -/
structure Kept (t t' : Data m) (e : Fin m) : Prop where
  dev : (t'.inode e).dev = (t.inode e).dev
  inum : (t'.inode e).inum = (t.inode e).inum
  valid : (t'.inode e).valid = (t.inode e).valid
  d : (t'.inode e).d = (t.inode e).d
  home : (t.home e).type ≠ .free → t'.home e = t.home e

namespace Change

variable {S : Fin m → Prop} {pc : Pc m} {t t' : Data m} {e : Fin m}

/-- An entry in use stays with its inode. -/
theorem key (h : Change S pc t t') (hr : 0 < (t.inode e).ref) :
    (t'.inode e).dev = (t.inode e).dev ∧ (t'.inode e).inum = (t.inode e).inum := by
  cases h with
  | same | update _ | alloc _ => exact ⟨rfl, rfl⟩
  | gain | drop | body => exact ⟨t.set_eq Inode.dev (by rfl) e, t.set_eq Inode.inum (by rfl) e⟩
  | @recycle e' _ _ _ h0 _ =>
    have hne : e ≠ e' := by rintro rfl; omega
    simp only [Data.recycle, Data.set_of_ne _ hne, and_self]

theorem ref (h : Change S pc t t') (hpc : pc.itable = false) : (t'.inode e).ref = (t.inode e).ref := by
  cases h with
  | same | update _ | alloc _ => rfl
  | gain hb | recycle hb => rw [hpc] at hb; cases hb
  | drop hb => rw [hb] at hpc; cases hpc
  | body _ => exact t.set_eq Inode.ref (by rfl) e

/-- An entry comes into use only by `iget`. -/
theorem used (h : Change S pc t t') (hr : 0 < (t'.inode e).ref) :
    0 < (t.inode e).ref ∨ ∃ dev inum, t' = t.recycle e dev inum ∧
      ∀ e', 0 < (t.inode e').ref → (t.inode e').dev = dev → (t.inode e').inum ≠ inum := by
  cases h with
  | same | update _ | alloc _ => exact .inl hr
  | @gain e' _ h0 =>
    rcases eq_or_ne e e' with rfl | hne
    · exact .inl h0
    · rw [Data.gain, Data.set_of_ne _ hne] at hr; exact .inl hr
  | @drop e' _ =>
    rcases eq_or_ne e e' with rfl | hne
    · rw [Data.drop, Data.set_self] at hr; exact .inl (by dsimp only at hr; omega)
    · rw [Data.drop, Data.set_of_ne _ hne] at hr; exact .inl hr
  | @body e' _ _ _ =>
    rcases eq_or_ne e e' with rfl | hne
    · rw [Data.body, Data.set_self] at hr; exact .inl hr
    · rw [Data.body, Data.set_of_ne _ hne] at hr; exact .inl hr
  | @recycle e' dev inum _ _ hno =>
    rcases eq_or_ne e e' with rfl | hne
    · exact .inr ⟨dev, inum, rfl, hno⟩
    · rw [Data.recycle, Data.set_of_ne _ hne] at hr; exact .inl hr

/-- The entry that `iget` recycles differs from every other one in use. -/
theorem recycled {e' : Fin m} {dev inum : ℕ} (hne : e' ≠ e) (h0 : 0 < ((t.recycle e dev inum).inode e').ref)
    (hno : ∀ e', 0 < (t.inode e').ref → (t.inode e').dev = dev → (t.inode e').inum ≠ inum)
    (hd : ((t.recycle e dev inum).inode e').dev = ((t.recycle e dev inum).inode e).dev) :
    ((t.recycle e dev inum).inode e').inum ≠ ((t.recycle e dev inum).inode e).inum := by
  simp only [Data.recycle, Data.set_of_ne _ hne, Data.set_self] at *
  exact hno e' h0 hd

/-- **No two entries in use for one inode.** -/
theorem unique (h : Change S pc t t') (hu : Unique t) : Unique t' := by
  intro e₁ e₂ h₁ h₂ hd hi
  by_contra hne
  rcases h.used h₁ with hr₁ | ⟨dev, inum, rfl, hno⟩
  · rcases h.used h₂ with hr₂ | ⟨dev, inum, rfl, hno⟩
    · rw [(h.key hr₁).1, (h.key hr₂).1] at hd
      rw [(h.key hr₁).2, (h.key hr₂).2] at hi
      exact hne (hu e₁ e₂ hr₁ hr₂ hd hi)
    · exact recycled hne h₁ hno hd hi
  · exact recycled (Ne.symm hne) h₂ hno hd.symm hi.symm

/-- **What the step leaves alone.** -/
theorem kept (h : Change S pc t t') (hu : Unique t) (hS : ∀ e', S e' → 0 < (t.inode e').ref)
    (he : ¬ S e) (hr : 0 < (t.inode e).ref) : Kept t t' e := by
  have hk := h.key hr
  have hhome : ∀ dev inum d, ((t.inode e).dev = dev → (t.inode e).inum = inum → (t.home e).type = .free) →
      (t.home e).type ≠ .free → (t.write dev inum d).home e = t.home e := by
    intro dev inum d hn hf
    rw [Data.home, Data.write_disk, if_neg]
    · rfl
    · exact fun hc => hf (hn hc.1 hc.2)
  cases h with
  | same => exact ⟨rfl, rfl, rfl, rfl, fun _ => rfl⟩
  | gain | drop =>
    refine ⟨hk.1, hk.2, t.set_eq Inode.valid (by rfl) e, t.set_eq Inode.d (by rfl) e, fun _ => ?_⟩
    rw [Data.home, hk.1, hk.2]
    rfl
  | @recycle e' dev inum _ h0 _ =>
    have hne : e ≠ e' := by rintro rfl; omega
    simp only [Data.recycle]
    constructor <;> simp [Data.home, Data.set_of_ne _ hne]
  | @body e' _ _ hs =>
    have hne : e ≠ e' := by rintro rfl; exact he hs
    simp only [Data.body]
    constructor <;> simp [Data.home, Data.set_of_ne _ hne]
  | @update e' hs =>
    refine ⟨rfl, rfl, rfl, rfl, hhome _ _ _ fun hd hi => ?_⟩
    exact absurd (hu e e' hr (hS e' hs) hd hi ▸ hs) he
  | @alloc dev inum d hf =>
    refine ⟨rfl, rfl, rfl, rfl, hhome _ _ _ fun hd hi => ?_⟩
    rw [Data.home, hd, hi]; exact hf

/-- No entry is valid that is not in use, unless `iput` leaves it so. -/
theorem vacant (h : Change S pc t t') (hS : ∀ e', S e' → 0 < (t.inode e').ref)
    (hd : ∀ e, pc = .iputDrop e → (t.inode e).ref = 1 → (t.inode e).valid = false) (hv : Vacant t) : Vacant t' := by
  have key : ∀ {e' : Fin m} {i : Inode}, (i.ref = 0 → i.valid = false) → Vacant (t.set e' i) := by
    intro e' i hi e
    rcases eq_or_ne e e' with rfl | hne
    · rw [Data.set_self]; exact hi
    · rw [Data.set_of_ne _ hne]; exact hv e
  cases h with
  | same | update _ | alloc _ => exact hv
  | gain | recycle => exact key nofun
  | @body e' _ _ hs => exact key fun h0 => absurd h0 (hS e' hs).ne'
  | @drop e' hpc =>
    refine key fun h0 => ?_
    rcases Nat.le_one_iff_eq_zero_or_eq_one.1 (Nat.sub_eq_zero_iff_le.1 h0) with h1 | h1
    · exact hv e' h1
    · exact hd e' hpc h1

end Change

/-- An inode that a process has locked: valid, allocated, and on disk as in memory unless the
process has changed it. -/
structure Open (dirty : Finset (Fin m)) (t : Data m) (e : Fin m) : Prop where
  valid : (t.inode e).valid = true
  type : (t.inode e).d.type ≠ .free
  home : (t.home e).type ≠ .free
  clean : e ∉ dirty → (t.inode e).d = t.home e

/-- What a free sleep-lock guards. -/
def Guarded (t : Data m) (e : Fin m) : Prop :=
  0 < (t.inode e).ref → (t.inode e).valid = true →
    (t.inode e).d = t.home e ∧ (t.inode e).d.type ≠ .free

section Kept

variable {t t' : Data m} {e : Fin m} {D : Finset (Fin m)}

theorem Open.kept (h : Open D t e) (k : Kept t t' e) : Open D t' e where
  valid := k.valid.trans h.valid
  type := by rw [k.d]; exact h.type
  home := by rw [k.home h.home]; exact h.home
  clean hD := by rw [k.d, k.home h.home]; exact h.clean hD

theorem Open.guarded (h : Open D t e) (hD : e ∉ D) : Guarded t e := fun _ _ => ⟨h.clean hD, h.type⟩

theorem Guarded.kept (h : Guarded t e) (hr : 0 < (t.inode e).ref) (k : Kept t t' e) : Guarded t' e := by
  intro _ hv
  rw [k.valid] at hv
  obtain ⟨h1, h2⟩ := h hr hv
  rw [k.d, k.home (h1 ▸ h2)]
  exact ⟨h1, h2⟩

end Kept

/-- `ref` counts the references: those in use and those that `iput` is about to drop. -/
def Counted (t : Data m) (h : Hist n m) : Prop :=
  ∀ e, (t.inode e).ref = h.out e + (Finset.univ.filter fun q => (h.pcs q).pc.drops = some e).card

/-- What a process knows. -/
structure Knows (l : Local m) (t : Data m) (h : Hist n m) : Prop where
  out : ∀ e, l.uses e → 0 < h.out e
  dropping : ∀ e, l.pc.drops = some e → e ∉ l.locked
  opened : ∀ e ∈ l.locked, l.pc.holds ≠ some e → Open l.dirty t e
  fresh : ∀ e, l.pc = .ilockValid e ∨ l.pc = .iunlockWake e → Guarded t e
  read : ∀ e, l.pc = .ilockDone e → (t.inode e).d.type ≠ .free → (t.inode e).d = t.home e
  freed : ∀ e, l.pc = .iputWake e → (t.inode e).valid = false
  alone : ∀ e, l.pc = .iputSleep e → (t.inode e).ref = 1

/-- The history knows where the process is. -/
def At (p : Fin n) (l : Local m) (h : Hist n m) : Prop := h.pcs p = l

section Live

variable {t : Data m} {h : Hist n m} {p : Fin n} {l : Local m} {e : Fin m}

/-- A reference that is being dropped is still counted. -/
theorem Counted.drops (hc : Counted t h) (hp : At p l h) (hd : l.pc.drops = some e) :
    0 < (t.inode e).ref := by
  have : 0 < (Finset.univ.filter fun q => (h.pcs q).pc.drops = some e).card :=
    Finset.card_pos.2 ⟨p, by simp [show h.pcs p = l from hp, hd]⟩
  have := hc e
  omega

/-- An inode that someone has locked is in use. -/
theorem Knows.live (hk : Knows l t h) (hc : Counted t h) (hp : At p l h) (hh : l.has e) :
    0 < (t.inode e).ref := by
  by_cases hd : l.pc.drops = some e
  · exact hc.drops hp hd
  · have := hk.out e (.inl ⟨hh, hd⟩)
    have := hc e
    omega

end Live

/-- The entry whose contents the next step may change. -/
def touches (l : Local m) (r : Req m) (e : Fin m) : Prop :=
  match l.pc, r with
  | .user, .edit e' _ | .user, .iupdate e' => e' = e
  | .user, _ => False
  | pc, _ => pc.holds = some e

section Step

variable {N : ℕ} {p : Fin n} {l : Local m} {r : Req m} {t : Data m} {h : Hist n m}

theorem touches_has (hok : Allowed l r h) {e : Fin m} (ht : touches l r e) : l.has e := by
  obtain ⟨locked, dirty, pc⟩ := l
  cases pc with
  | user =>
    cases r with
    | edit e' d => cases ht; exact .inl (hok rfl)
    | iupdate e' => cases ht; exact .inl (hok rfl)
    | _ => exact absurd ht id
  | _ => exact .inr ht

/-- The entry whose `ref` the next step of `iput` brings down. -/
def Pc.dropping : Pc m → Option (Fin m)
  | .iputDrop e => some e
  | _ => none

/-- `iput` is about to drop the last reference to an entry and leaves it valid. -/
def Leaves (l : Local m) (t : Data m) : Prop :=
  ∃ e, l.pc.dropping = some e ∧ (t.inode e).ref = 1 ∧ (t.inode e).valid = true

instance (l : Local m) (t : Data m) : Decidable (Leaves l t) := inferInstanceAs (Decidable (∃ _, _))

/-- **What a step does to the table and the disk.** -/
theorem change (hc : Counted t h) (hk : Knows l t h) :
    Change (touches l r) l.pc t ((prog N p l).data r t) := by
  obtain ⟨locked, dirty, pc⟩ := l
  cases pc with
  | user =>
    cases r with
    | ilock e | iunlock e =>
      simp only [prog, Instr.data]
      split <;> exact .same
    | edit e d => exact .body rfl
    | iupdate e => exact .update rfl
    | _ => exact .same
  | igetScan dev inum =>
    simp only [prog, Instr.data]
    split
    · next e he => exact .gain rfl (t.find_some he)
    · next hn =>
      split
      · next e he => exact .recycle rfl (t.empty_some he) (t.find_none hn)
      · exact .same
  | idupInc e =>
    refine .gain rfl ?_
    have := hk.out e (.inr rfl)
    have := hc e
    omega
  | ilockValid e | iputTest e =>
    simp only [prog, Instr.data]
    split <;> exact .same
  | ilockRead e | iputTrunc e | iputType e | iputValid e => exact .body rfl
  | ilockDone e =>
    simp only [prog, Instr.data]
    split <;> exact .body rfl
  | iputTruncUpdate e | iputUpdate e => exact .update rfl
  | iputDrop e => exact .drop rfl
  | iallocScan dev type inum =>
    simp only [prog, Instr.data]
    split
    · split
      · next hf => exact .alloc hf
      · exact .same
    · exact .same
  | _ => exact .same

/-- One more reference is one more in `ref`. -/
theorem balance (hok : Allowed l r h) (hc : Counted t h) (hp : At p l h) (e : Fin m) :
    (((prog N p l).data r t).inode e).ref + (if l.pc.drops = some e then 1 else 0) + h.out e =
      (t.inode e).ref + (if ((prog N p l).target r t l).pc.drops = some e then 1 else 0) +
        tally l r t h.out e := by
  have hpos : l.pc.drops = some e → 0 < (t.inode e).ref := hc.drops hp
  obtain ⟨locked, dirty, pc⟩ := l
  cases pc with
  | user =>
    cases r with
    | ilock e' | iunlock e' =>
      simp only [prog, Instr.data, Instr.target, tally]
      split <;> simp [Pc.drops]
    | iput e' =>
      have hpos' := (hok rfl).1
      rcases eq_or_ne e e' with rfl | hne
      · simp only [prog, Instr.data, Instr.target, tally, Pc.drops, update_self, reduceCtorEq,
          if_false, if_true]
        omega
      · simp [prog, Instr.data, Instr.target, tally, Pc.drops, hne, Ne.symm hne]
    | _ => simp [prog, Instr.data, Instr.target, tally, Pc.drops, Data.iupdate, Data.body_ref]
  | igetScan dev inum =>
    cases hf : t.find dev inum with
    | some e' =>
      simp only [prog, Instr.data, Instr.target, tally, Data.slot, hf, Option.some_or]
      rcases eq_or_ne e e' with rfl | hne
      · simp [Pc.drops, Data.gain]; omega
      · simp [Pc.drops, Data.gain, Data.set_of_ne _ hne, hne]
    | none =>
      cases he : t.empty with
      | some e' =>
        have h0 := t.empty_some he
        simp only [prog, Instr.data, Instr.target, tally, Data.slot, hf, he, Option.none_or]
        rcases eq_or_ne e e' with rfl | hne
        · simp [Pc.drops, Data.recycle, h0]; omega
        · simp [Pc.drops, Data.recycle, Data.set_of_ne _ hne, hne]
      | none => simp [prog, Instr.data, Instr.target, tally, Data.slot, hf, he, Pc.drops]
  | idupInc e' =>
    rcases eq_or_ne e e' with rfl | hne
    · simp [prog, Instr.data, Instr.target, tally, Pc.drops, Data.gain]; omega
    · simp [prog, Instr.data, Instr.target, tally, Pc.drops, Data.gain, Data.set_of_ne _ hne, hne]
  | iputDrop e' =>
    rcases eq_or_ne e e' with rfl | hne
    · have := hpos rfl
      simp [prog, Instr.data, Instr.target, tally, Pc.drops, Data.drop]
      omega
    · simp [prog, Instr.data, Instr.target, tally, Pc.drops, Data.drop, Data.set_of_ne _ hne, Ne.symm hne]
  | ilockValid e' | iputTest e' | ilockDone e' =>
    simp only [prog, Instr.data, Instr.target, tally]
    split <;> simp [Pc.drops, Data.body_ref]
  | iallocScan dev type inum =>
    simp only [prog, Instr.data, Instr.target, tally]
    split
    · split <;> simp [Pc.drops]
    · simp [Pc.drops]
  | _ => simp [prog, Instr.data, Instr.target, tally, Pc.drops, Data.iupdate, Data.body_ref]

/-- **`ref` goes on counting the references.** -/
theorem Counted.step (hok : Allowed l r h) (hc : Counted t h) (hp : At p l h) :
    Counted ((prog N p l).data r t) (note N p l r t h) := by
  intro e
  have hb := balance (N := N) hok hc hp e
  have hcard := card_filter_change (s := Finset.univ) (a := p)
    (p := fun q => (h.pcs q).pc.drops = some e)
    (q := fun q => ((note N p l r t h).pcs q).pc.drops = some e) (Finset.mem_univ p)
    (fun q _ hq => by simp [note, hq])
  have hself : (note N p l r t h).pcs p = (prog N p l).target r t l := by simp [note]
  rw [hself, show h.pcs p = l from hp] at hcard
  have := hc e
  change _ = tally l r t h.out e + _
  omega

/-- A process comes to rely on a reference only by a call. -/
theorem uses_step (hdrop : ∀ e, l.pc.drops = some e → e ∉ l.locked) (hok : Allowed l r h) {e : Fin m}
    (hu : ((prog N p l).target r t l).uses e) : l.uses e ∨ 0 < h.out e := by
  obtain ⟨locked, dirty, pc⟩ := l
  cases pc with
  | user =>
    cases r with
    | idup e' =>
      simp only [prog, Instr.target, Local.uses, Local.has, Pc.holds, Pc.drops, Pc.asks, Option.some.injEq] at hu ⊢
      rcases hu with hu | rfl
      · exact .inl (.inl hu)
      · exact .inr (hok rfl)
    | ilock e' =>
      simp only [prog, Instr.target] at hu
      split at hu
      · left
        simpa [Local.uses, Local.has, Pc.holds, Pc.drops, Pc.asks] using hu
      · simp only [Local.uses, Local.has, Pc.holds, Pc.drops, Pc.asks, Option.some.injEq] at hu ⊢
        rcases hu with hu | rfl
        · exact .inl (.inl hu)
        · exact .inr (hok rfl)
    | iunlock e' =>
      left
      simp only [prog, Instr.target] at hu
      split at hu
      · simpa [Local.uses, Local.has, Pc.holds, Pc.drops, Pc.asks] using hu
      · next hn =>
        simp only [Local.uses, Local.has, Pc.holds, Pc.drops, Pc.asks, Option.some.injEq] at hu ⊢
        grind
    | _ =>
      left
      simp only [prog, Instr.target, Local.uses, Local.has, Pc.holds, Pc.drops, Pc.asks] at hu ⊢
      grind
  | igetScan dev inum | iallocScan dev type inum =>
    left
    simp only [prog, Instr.target] at hu
    (repeat' split at hu) <;> simpa [Local.uses, Local.has, Pc.holds, Pc.drops, Pc.asks] using hu
  | ilockValid e' | ilockDone e' | iputTest e' =>
    left
    simp only [prog, Instr.target] at hu
    split at hu
    all_goals
      simp only [Local.uses, Local.has, Pc.holds, Pc.drops, Pc.asks, Option.some.injEq, Finset.mem_insert] at hu ⊢
      grind
  | iputDrop e' =>
    left
    have := hdrop e' rfl
    simp only [prog, Instr.target, Local.uses, Local.has, Pc.holds, Pc.drops, Pc.asks] at hu ⊢
    grind
  | _ =>
    left
    simp only [prog, Instr.target, Local.uses, Local.has, Pc.holds, Pc.drops, Pc.asks, Option.some.injEq,
      Finset.mem_erase] at hu ⊢
    grind

/-- Only a call of `iput` takes a reference away. -/
theorem tally_le (l : Local m) (r : Req m) (t : Data m) (o : Fin m → ℕ) (e : Fin m) :
    o e ≤ tally l r t o e ∨ l.pc = .user ∧ r = .iput e := by
  have hadd : ∀ e', o e ≤ update o e' (o e' + 1) e := by
    intro e'
    rw [update_apply]
    split
    · next h => rw [h]; exact Nat.le_succ _
    · exact Nat.le_refl _
  obtain ⟨locked, dirty, pc⟩ := l
  cases pc with
  | user =>
    cases r with
    | iput e' =>
      rcases eq_or_ne e e' with rfl | hne
      · exact .inr ⟨rfl, rfl⟩
      · exact .inl (by simp [tally, hne])
    | _ => exact .inl (Nat.le_refl _)
  | igetScan dev inum =>
    simp only [tally]
    cases t.slot dev inum with
    | some e' => exact .inl (hadd e')
    | none => exact .inl (Nat.le_refl _)
  | idupInc e' => exact .inl (hadd e')
  | _ => exact .inl (Nat.le_refl _)

/-- Whoever relies on a reference has one. -/
theorem Knows.out_step (hok : Allowed l r h) (hk : Knows l t h) (e : Fin m)
    (hu : ((prog N p l).target r t l).uses e) : 0 < tally l r t h.out e := by
  rcases tally_le l r t h.out e with hle | ⟨hl, rfl⟩
  · rcases uses_step hk.dropping hok hu with h1 | h1
    · exact (hk.out e h1).trans_le hle
    · exact h1.trans_le hle
  -- the caller of `iput` does not rely on the reference any longer
  · obtain ⟨locked, dirty, pc⟩ := l
    cases hl
    exfalso
    simp [prog, Instr.target, Local.uses, Local.has, Pc.holds, Pc.drops, Pc.asks] at hu

/-- `iput` is called without the lock. -/
theorem Knows.dropping_step (hok : Allowed l r h) (hk : Knows l t h) (e : Fin m)
    (hd : ((prog N p l).target r t l).pc.drops = some e) :
    e ∉ ((prog N p l).target r t l).locked := by
  have hdrop := hk.dropping e
  obtain ⟨locked, dirty, pc⟩ := l
  cases pc with
  | user =>
    cases r with
    | iput e' => cases hd; exact (hok rfl).2.1
    | ilock e' | iunlock e' =>
      simp only [prog, Instr.target] at hd
      split at hd <;> cases hd
    | _ => cases hd
  | igetScan dev inum | ilockValid e' | ilockDone e' | iallocScan dev type inum =>
    simp only [prog, Instr.target] at hd
    (repeat' split at hd) <;> cases hd
  | iputTest e' =>
    simp only [prog, Instr.target] at hd ⊢
    split
    · next hc => rw [if_pos hc] at hd; exact hdrop hd
    · next hc => rw [if_neg hc] at hd; exact hdrop hd
  | iputLock e' | iputSleep e' | iputUnlock e' | iputTrunc e' | iputTruncUpdate e' | iputType e'
  | iputUpdate e' | iputValid e' | iputRelock e' => exact hdrop hd
  | iputWake e' => exact fun he => hdrop hd (Finset.mem_of_mem_erase he)
  | _ => cases hd

/-- Only `ilock`, `iunlock`, a change and `iupdate` touch the sets of inodes. -/
theorem target_sets (hl : l.pc = .user → ∀ e d, r ≠ .edit e d ∧ r ≠ .iupdate e)
    (hl' : ∀ e, l.pc ≠ .ilockValid e ∧ l.pc ≠ .ilockDone e ∧ l.pc ≠ .iunlockWake e ∧ l.pc ≠ .iputWake e) :
    ((prog N p l).target r t l).locked = l.locked ∧
      ((prog N p l).target r t l).dirty = l.dirty := by
  obtain ⟨locked, dirty, pc⟩ := l
  cases pc with
  | user =>
    cases r with
    | edit e d => exact absurd rfl (hl rfl e d).1
    | iupdate e => exact absurd rfl (hl rfl e .zero).2
    | ilock e | iunlock e =>
      simp only [prog, Instr.target]
      split <;> exact ⟨rfl, rfl⟩
    | _ => exact ⟨rfl, rfl⟩
  | ilockValid e => exact absurd rfl (hl' e).1
  | ilockDone e => exact absurd rfl (hl' e).2.1
  | iunlockWake e => exact absurd rfl (hl' e).2.2.1
  | iputWake e => exact absurd rfl (hl' e).2.2.2
  | igetScan dev inum | iputTest e | iallocScan dev type inum =>
    simp only [prog, Instr.target]
    (repeat' split) <;> exact ⟨rfl, rfl⟩
  | _ => exact ⟨rfl, rfl⟩

theorem Open.mono {D D' : Finset (Fin m)} {e : Fin m} (h : Open D t e) (hD : e ∈ D → e ∈ D') :
    Open D' t e :=
  ⟨h.valid, h.type, h.home, fun he => h.clean fun hd => he (hD hd)⟩

/-- After `iupdate` the disk has what the entry has. -/
theorem Data.iupdate_home (t : Data m) (e : Fin m) : (t.iupdate e).home e = (t.inode e).d := by
  simp [Data.iupdate, Data.home, Data.write_disk]

theorem Data.body_home (t : Data m) (e e' : Fin m) (v : Bool) (d : Dinode) :
    (t.body e v d).home e' = t.home e' := by
  simp only [Data.body, Data.home, Data.set_inode, Data.set_disk]
  split
  · next h => subst h; rfl
  · rfl

/-- The inodes that a process has locked, apart from the one it is busy with. -/
theorem Knows.opened_step (hok : Allowed l r h) (hu : Unique t) (hc : Counted t h) (hp : At p l h)
    (hk : Knows l t h) (e : Fin m) (he : e ∈ ((prog N p l).target r t l).locked)
    (hh : ((prog N p l).target r t l).pc.holds ≠ some e) :
    Open ((prog N p l).target r t l).dirty ((prog N p l).data r t) e := by
  have hch := change (N := N) (p := p) (r := r) hc hk
  have hS : ∀ e', touches l r e' → 0 < (t.inode e').ref := fun e' ht => hk.live hc hp (touches_has hok ht)
  -- an inode that the step does not touch stays open
  have hrest : e ∈ l.locked → l.pc.holds ≠ some e → ¬ touches l r e →
      Open l.dirty ((prog N p l).data r t) e := fun h1 h2 h3 =>
    (hk.opened e h1 h2).kept (hch.kept hu hS h3 (hk.live hc hp (.inl h1)))
  have hlive : e ∈ l.locked → 0 < (t.inode e).ref := fun h1 => hk.live hc hp (.inl h1)
  have hset := target_sets (N := N) (p := p) (l := l) (r := r) (t := t)
  have hopen := hk.opened e
  have hfresh := hk.fresh e
  have hread := hk.read e
  have hhas : l.pc.holds = some e → 0 < (t.inode e).ref := fun h1 => hk.live hc hp (.inr h1)
  obtain ⟨locked, dirty, pc⟩ := l
  cases pc with
  | user =>
    have hnone : (Pc.user : Pc m).holds ≠ some e := by simp [Pc.holds]
    cases r with
    | ilock e' | iunlock e' =>
      obtain ⟨h1, h2⟩ := hset (by simp) (by simp)
      rw [h1] at he
      rw [h2]
      exact hrest he hnone id
    | edit e' d =>
      rcases eq_or_ne e e' with rfl | hne
      · have ho := hopen he hnone
        refine ⟨?_, ?_, ?_, fun hD => absurd (Finset.mem_insert_self e dirty) hD⟩
        · simpa [prog, Instr.data, Data.body] using ho.valid
        · simpa [prog, Instr.data, Data.body] using ho.type
        · simpa [prog, Instr.data, Data.body_home] using ho.home
      · exact (hrest he hnone (Ne.symm hne)).mono (Finset.mem_insert_of_mem)
    | iupdate e' =>
      rcases eq_or_ne e e' with rfl | hne
      · have ho := hopen he hnone
        exact ⟨ho.valid, ho.type, (t.iupdate_home e).symm ▸ ho.type, fun _ => (t.iupdate_home e).symm⟩
      · exact (hrest he hnone (Ne.symm hne)).mono fun hD => Finset.mem_erase.2 ⟨hne, hD⟩
    | _ => exact hrest he hnone id
  | ilockValid e' =>
    by_cases hv : (t.inode e').valid = true
    · simp only [prog, Instr.target, Instr.data, if_pos hv, Finset.mem_insert] at he ⊢
      rcases eq_or_ne e e' with rfl | hne
      · obtain ⟨h1, h2⟩ := hfresh (.inl rfl) (hhas rfl) hv
        exact ⟨hv, h2, h1 ▸ h2, fun _ => h1⟩
      · exact hopen (he.resolve_left hne) (by simpa [Pc.holds] using hne.symm)
    · simp only [prog, Instr.target, Instr.data, if_neg hv] at he hh ⊢
      exact hopen he hh
  | ilockDone e' =>
    by_cases hf : (t.inode e').d.type = .free
    · simp only [prog, Instr.target, Instr.data, if_pos hf] at he hh hrest ⊢
      exact hrest he hh hh
    · simp only [prog, Instr.target, Instr.data, if_neg hf, Finset.mem_insert] at he hh hrest ⊢
      rcases eq_or_ne e e' with rfl | hne
      · have h1 := hread rfl hf
        refine ⟨?_, ?_, ?_, fun _ => ?_⟩
        · simp [Data.body]
        · simpa [Data.body] using hf
        · rw [Data.body_home, ← h1]; exact hf
        · rw [Data.body_home, ← h1]; simp [Data.body]
      · have hne' : (some e' : Option (Fin m)) ≠ some e := by simpa using hne.symm
        exact hrest (he.resolve_left hne) hne' hne'
  | iunlockWake e' | iputWake e' =>
    obtain ⟨hne, hm⟩ := Finset.mem_erase.1 he
    have hne' : (some e' : Option (Fin m)) ≠ some e := by simpa using hne.symm
    exact hrest hm hne' hne'
  | igetScan dev inum | iputTest e' | iallocScan dev type inum =>
    obtain ⟨h1, h2⟩ := hset (by simp) (by simp)
    rw [h1] at he
    rw [h2]
    exact hrest he (by simp [Pc.holds]) (by simp [touches, Pc.holds])
  | ilockRead e' | iputUnlock e' | iputTrunc e' | iputTruncUpdate e' | iputType e' | iputUpdate e'
  | iputValid e' | panic b e' => exact hrest he hh hh
  | _ => exact hrest he (by simp [Pc.holds]) (by simp [touches, Pc.holds])

/-- How a process comes to `pc`. -/
def From (l : Local m) (r : Req m) (t : Data m) (pc : Pc m) : Prop :=
  match pc with
  | .ilockValid e => l.pc = .ilockSleep e
  | .ilockDone e => l.pc = .ilockRead e
  | .iunlockWake e => l.pc = .user ∧ r = .iunlock e ∧ e ∈ l.locked
  | .iputSleep e => l.pc = .iputTest e ∧ (t.inode e).ref = 1
  | .iputWake e => l.pc = .iputValid e
  | _ => True

theorem came {pc : Pc m} (he : ((prog N p l).target r t l).pc = pc) : From l r t pc := by
  subst he
  obtain ⟨locked, dirty, pc⟩ := l
  cases pc with
  | user =>
    cases r with
    | ilock e =>
      simp only [prog, Instr.target]
      split <;> exact trivial
    | iunlock e =>
      simp only [prog, Instr.target]
      split
      · exact trivial
      · next h =>
        rw [not_or, not_not] at h
        exact ⟨rfl, rfl, h.1⟩
    | _ => exact trivial
  | igetScan dev inum | ilockValid e | ilockDone e | iallocScan dev type inum =>
    simp only [prog, Instr.target]
    (repeat' split) <;> exact trivial
  | iputTest e =>
    simp only [prog, Instr.target]
    split
    · next h => exact ⟨rfl, h.1⟩
    · exact trivial
  | ilockSleep e | ilockRead e | iputValid e => rfl
  | _ => exact trivial

/-- What a process knows after its own step; a sleep-lock that it takes was guarded. -/
theorem Knows.step (hok : Allowed l r h) (hu : Unique t) (hc : Counted t h) (hp : At p l h)
    (hk : Knows l t h) (hlock : ∀ e, l.pc = .ilockSleep e → Guarded t e) :
    Knows ((prog N p l).target r t l) ((prog N p l).data r t) (note N p l r t h) where
  out := hk.out_step hok
  dropping := hk.dropping_step hok
  opened := hk.opened_step hok hu hc hp
  fresh e he := by
    have hopen := hk.opened e
    rcases he with he | he
    · have hl := came he
      have hg := hlock e hl
      obtain ⟨locked, dirty, pc⟩ := l
      cases hl
      exact hg
    · obtain ⟨hl, rfl, hm⟩ := came he
      obtain ⟨locked, dirty, pc⟩ := l
      cases hl
      have hg := (hopen hm (by simp [Pc.holds])).guarded (hok rfl)
      simp only [prog, Instr.data]
      split <;> exact hg
  read e he hf := by
    have hfrom := came he
    obtain ⟨locked, dirty, pc⟩ := l
    cases hfrom
    simp only [prog, Instr.data]
    rw [Data.body_home]
    simp [Data.body]
  freed e he := by
    have hfrom := came he
    obtain ⟨locked, dirty, pc⟩ := l
    cases hfrom
    simp [prog, Instr.data, Data.body]
  alone e he := by
    obtain ⟨hl, h1⟩ := came he
    obtain ⟨locked, dirty, pc⟩ := l
    cases hl
    simp only [prog, Instr.data]
    split <;> exact h1

/-- What another process knows survives the step. -/
theorem Knows.stable {q : Fin n} {l' : Local m} (hlocks : ∀ k, held q l' k → ¬ held p l k)
    (hok : Allowed l r h) (hu : Unique t) (hc : Counted t h) (hp : At p l h) (hq' : At q l' h)
    (hk : Knows l t h) (hk' : Knows l' t h) :
    Knows l' ((prog N p l).data r t) (note N p l r t h) := by
  have hch := change (N := N) (p := p) (r := r) hc hk
  have hS : ∀ e', touches l r e' → 0 < (t.inode e').ref := fun e' ht => hk.live hc hp (touches_has hok ht)
  have hkept : ∀ e, l'.has e → Kept t ((prog N p l).data r t) e := fun e he =>
    hch.kept hu hS (fun ht => hlocks (.inode e) he (touches_has hok ht)) (hk'.live hc hq' he)
  constructor
  case out =>
    intro e he
    have hpos := hk'.out e he
    rcases tally_le l r t h.out e with hle | ⟨hl, rfl⟩
    · exact hpos.trans_le hle
    -- `iput` is not called with the last reference while someone relies on it
    · obtain ⟨locked, dirty, pc⟩ := l
      cases hl
      have hne : h.out e ≠ 1 := fun h1 => (hok rfl).2.2 h1 q (hq'.symm ▸ he)
      simp only [note, tally, update_self]
      omega
  case dropping => exact hk'.dropping
  case opened => exact fun e he hh => (hk'.opened e he hh).kept (hkept e (.inl he))
  case fresh =>
    intro e he
    have hhas : l'.has e := by
      rcases he with he | he <;> exact .inr (by rw [he]; rfl)
    exact (hk'.fresh e he).kept (hk'.live hc hq' hhas) (hkept e hhas)
  case read =>
    intro e he hf
    have k := hkept e (.inr (by rw [he]; rfl))
    rw [k.d] at hf ⊢
    have h1 := hk'.read e he hf
    rw [k.home (h1 ▸ hf)]
    exact h1
  case freed =>
    intro e he
    rw [(hkept e (.inr (by rw [he]; rfl))).valid]
    exact hk'.freed e he
  case alone =>
    intro e he
    have hfree : l.pc.itable = false := by
      have := hlocks .itable (by change l'.pc.itable = true; rw [he]; rfl)
      simpa [held] using this
    rw [hch.ref hfree]
    exact hk'.alone e he

/-- What a sleep-lock guards survives the steps of those who do not hold it. -/
theorem Guarded.stable {e : Fin m} (he : ¬ l.has e) (hok : Allowed l r h) (hu : Unique t)
    (hc : Counted t h) (hp : At p l h) (hk : Knows l t h) (hg : Guarded t e) :
    Guarded ((prog N p l).data r t) e := by
  have hch := change (N := N) (p := p) (r := r) hc hk
  intro hr hv
  rcases hch.used hr with hr' | ⟨dev, inum, heq, -⟩
  · have k := hch.kept hu (fun e' ht => hk.live hc hp (touches_has hok ht))
      (fun ht => he (touches_has hok ht)) hr'
    exact hg.kept hr' k hr hv
  · rw [heq] at hv
    simp [Data.recycle] at hv

end Step

/-- The locks are taken and released where `held` says. -/
theorem disciplined (ninodes : ℕ) : Disciplined (prog (m := m) (n := n) ninodes) held where
  acquire := by
    rintro p ⟨locked, dirty, pc⟩ k l' hi k'
    cases pc <;> cases hi
    all_goals cases k' <;> simp [held, Local.has, Pc.holds, Pc.itable, eq_comm]
  release := by
    rintro p ⟨locked, dirty, pc⟩ k l' hi
    cases pc <;> cases hi
    all_goals refine ⟨by simp [held, Local.has, Pc.holds, Pc.itable], fun k' => ?_⟩
    all_goals cases k' <;> simp only [held, Local.has, Pc.holds, Pc.itable, Finset.mem_erase] <;> grind
  act := by
    rintro p ⟨locked, dirty, pc⟩ f hi r t k
    cases pc <;> cases hi
    case user =>
      cases r with
      | iunlock e =>
        dsimp only
        split <;> cases k <;> simp [held, Local.has, Pc.holds, Pc.itable]
        grind
      | _ =>
        dsimp only
        (repeat' split) <;> cases k <;> simp [held, Local.has, Pc.holds, Pc.itable]
    case ilockValid | ilockDone =>
      dsimp only
      split <;> cases k <;> simp [held, Local.has, Pc.holds, Pc.itable]
      all_goals grind
    all_goals
      dsimp only
      (repeat' split) <;> cases k <;> simp [held, Local.has, Pc.holds, Pc.itable]

/-- **The annotations of the inode operations.** -/
theorem coherence (ninodes : ℕ) : Proof (prog (m := m) (n := n) ninodes) (note ninodes) held
    (fun p l _ h => At p l h) (fun _ l r _ h => Allowed l r h) (fun t h => Unique t ∧ Counted t h)
    (fun k t _ => ∀ e, k = .inode e → Guarded t e) (fun _ l t h => Knows l t h) := by
  refine .of_own (fun {p l r t h} htake hok hp hI hk => ?_) (fun {p l k l' r t h} hi _ hp hI hk => ?_)
    (fun _ hlocks hok hp hq' hI hk hk' => .stable hlocks hok hI.1 hI.2 hp hq' hk hk') ?_
  · refine ⟨⟨(change hI.2 hk).unique hI.1, hI.2.step hok hp⟩, hk.step hok hI.1 hI.2 hp fun e hl => ?_⟩
    exact (htake (by rw [prog, hl])).2 e rfl
  · rintro e rfl
    obtain ⟨locked, dirty, pc⟩ := l
    -- `releasesleep` in `iunlock` and in `iput`
    cases pc <;> cases hi
    · exact hk.fresh e (.inr rfl)
    · intro _ hv
      rw [hk.freed e rfl] at hv
      cases hv
  · rintro p l r t h k hh hok hp hI hk hR e rfl
    exact Guarded.stable hh hok hI.1 hI.2 hp hk (hR e rfl)

section Reach

variable {ninodes : ℕ} {disk : ℕ → ℕ → Dinode} {s : State (Fin n) (Lock m) (Data m) (Local m)} {h : Hist n m}

/-- The history knows where the processes are. -/
theorem pcs_eq
    (hr : Reach (step (prog ninodes) (note ninodes)) Proper (boot disk, Hist.boot) (s, h)) : h.pcs = s.pc := by
  refine hr.inv (I := fun y => y.2.pcs = y.1.pc) rfl ?_
  rintro ⟨s, h⟩ ⟨p, r⟩ y' heq - hstep
  obtain ⟨s', hs', rfl⟩ := Option.map_eq_some_iff.1 hstep
  have heq' : h.pcs = s.pc := heq
  change update h.pcs p _ = s'.pc
  rw [(next_move hs').pc_eq, heq']

theorem coherence_boot :
    Sound held (fun t h => Unique t ∧ Counted t h) (fun k t _ => ∀ e, k = .inode e → Guarded t e)
      (fun _ l t h => Knows l t h) (boot (n := n) (m := m) disk) (Hist.boot (n := n)) where
  locks := LockInv.start fun p k => by cases k <;> simp [held, Local.idle, Local.has, Pc.holds, Pc.itable]
  inv := by
    refine ⟨fun e e' h => absurd h (by simp [boot, start]), fun e => ?_⟩
    simp [boot, start, Hist.boot, Local.idle, Pc.drops]
  free k _ e _ hr := absurd hr (by simp [boot, start])
  knows q := by
    constructor <;> simp [boot, start, Hist.boot, Local.idle, Local.uses, Local.has, Pc.drops, Pc.holds, Pc.asks]

theorem coherence_reach
    (hr : Reach (step (prog ninodes) (note ninodes)) Proper (boot disk, Hist.boot) (s, h)) :
    Sound held (fun t h => Unique t ∧ Counted t h) (fun k t _ => ∀ e, k = .inode e → Guarded t e)
      (fun _ l t h => Knows l t h) s h := by
  refine (coherence ninodes).reach (disciplined ninodes) (fun y hy q => ?_) (fun y p r hy hg => ?_)
    coherence_boot hr
  · exact congrFun (pcs_eq hy) q
  · have hg' : Allowed (y.1.pc p) r ⟨y.2.out, y.1.pc⟩ := hg
    rw [← pcs_eq hy] at hg' ⊢
    exact hg'

/-- In every run in which the callers keep their promises: no two entries in use are about one
inode; `ref` is the number of references, with those that `iput` has not dropped yet; an entry in
use stays with its inode; and an entry in use that is valid and not locked has what the disk has. -/
theorem used_coherent
    (hr : Reach (step (prog ninodes) (note ninodes)) Proper (boot disk, Hist.boot) (s, h)) :
    (∀ e e', 0 < (s.sh.inode e).ref → 0 < (s.sh.inode e').ref →
      (s.sh.inode e).dev = (s.sh.inode e').dev → (s.sh.inode e).inum = (s.sh.inode e').inum → e = e') ∧
    (∀ e, (s.sh.inode e).ref =
      h.out e + (Finset.univ.filter fun p => (s.pc p).pc.drops = some e).card) ∧
    (∀ a y, Proper (s, h) a → step (prog ninodes) (note ninodes) (s, h) a = some y →
      ∀ e, 0 < (s.sh.inode e).ref →
        (y.1.sh.inode e).dev = (s.sh.inode e).dev ∧ (y.1.sh.inode e).inum = (s.sh.inode e).inum) ∧
    (∀ e, s.lock (.inode e) = none → 0 < (s.sh.inode e).ref → (s.sh.inode e).valid = true →
      (s.sh.inode e).d = s.sh.disk (s.sh.inode e).dev (s.sh.inode e).inum) := by
  have hs := coherence_reach hr
  refine ⟨hs.inv.1, fun e => ?_, ?_, fun e hf hr hv => (hs.free _ hf e rfl hr hv).1⟩
  · rw [← pcs_eq hr]
    exact hs.inv.2 e
  · rintro ⟨p, r⟩ y - hstep e he
    obtain ⟨s', hs', rfl⟩ := Option.map_eq_some_iff.1 hstep
    rw [(next_move hs').sh_eq]
    exact (change hs.inv.2 (hs.knows p)).key he

/-- The callers keep their promises, and no `iput` leaves an entry valid that is not in use. -/
def Tidy (y : State (Fin n) (Lock m) (Data m) (Local m) × Hist n m) (a : Fin n × Req m) : Prop :=
  Proper y a ∧ ¬ Leaves (y.1.pc a.1) y.1.sh

instance (y : State (Fin n) (Lock m) (Data m) (Local m) × Hist n m) (a : Fin n × Req m) :
    Decidable (Tidy y a) := inferInstanceAs (Decidable (_ ∧ _))

theorem vacant_reach
    (hr : Reach (step (prog ninodes) (note ninodes)) Tidy (boot disk, Hist.boot) (s, h)) : Vacant s.sh := by
  refine hr.inv' (I := fun y => Vacant y.1.sh) (fun _ _ => rfl) ?_
  rintro ⟨s, h⟩ ⟨p, r⟩ y' hy hv hg hstep
  have hy : Reach _ Proper _ (s, h) := hy.mono fun _ _ h0 => h0.1
  have hs := coherence_reach hy
  have hok : Allowed (s.pc p) r h := by
    have hok : Allowed (s.pc p) r ⟨h.out, s.pc⟩ := hg.1
    rw [← pcs_eq hy] at hok ⊢
    exact hok
  obtain ⟨s', hs', rfl⟩ := Option.map_eq_some_iff.1 hstep
  change Vacant s'.sh
  rw [(next_move hs').sh_eq]
  refine (change hs.inv.2 (hs.knows p)).vacant (fun e ht => ?_) (fun e hpc h1 => ?_) hv
  · exact (hs.knows p).live hs.inv.2 (congrFun (pcs_eq hy) p) (touches_has hok ht)
  · exact Bool.eq_false_of_not_eq_true fun h2 => hg.2 ⟨e, congrArg Pc.dropping hpc, h1, h2⟩

/-- **The inode table is coherent.** In every run in which the callers keep their promises and no
`iput` leaves an entry valid that is not in use: no two entries in use are about one inode; `ref`
is the number of references, with those that `iput` has not dropped yet; an entry in use stays
with its inode; and every entry that is valid and not locked has what the disk has. -/
theorem itable_coherent
    (hr : Reach (step (prog ninodes) (note ninodes)) Tidy (boot disk, Hist.boot) (s, h)) :
    (∀ e e', 0 < (s.sh.inode e).ref → 0 < (s.sh.inode e').ref →
      (s.sh.inode e).dev = (s.sh.inode e').dev → (s.sh.inode e).inum = (s.sh.inode e').inum → e = e') ∧
    (∀ e, (s.sh.inode e).ref =
      h.out e + (Finset.univ.filter fun p => (s.pc p).pc.drops = some e).card) ∧
    (∀ a y, Proper (s, h) a → step (prog ninodes) (note ninodes) (s, h) a = some y →
      ∀ e, 0 < (s.sh.inode e).ref →
        (y.1.sh.inode e).dev = (s.sh.inode e).dev ∧ (y.1.sh.inode e).inum = (s.sh.inode e).inum) ∧
    (∀ e, s.lock (.inode e) = none → (s.sh.inode e).valid = true →
      (s.sh.inode e).d = s.sh.disk (s.sh.inode e).dev (s.sh.inode e).inum) := by
  obtain ⟨h1, h2, h3, h4⟩ := used_coherent (hr.mono fun _ _ h0 => h0.1)
  refine ⟨h1, h2, h3, fun e hf hv => h4 e hf (Nat.pos_of_ne_zero fun h0 => ?_) hv⟩
  rw [vacant_reach hr e h0] at hv
  cases hv

/-- A process frees inode 1. Between its last `iupdate` and its `ref--` another process allocates
the inode again, and then locks and unlocks it. -/
def freeAndAlloc : List (Fin 2 × Req 2) :=
  List.replicate 4 (0, .iget 1 1) ++ List.replicate 5 (0, .ilock 0) ++ List.replicate 2 (0, .iunlock 0) ++
  List.replicate 9 (0, .iput 0) ++ List.replicate 5 (1, .ialloc 1 .dir) ++ List.replicate 5 (0, .iput 0) ++
  List.replicate 5 (1, .ilock 0) ++ List.replicate 2 (1, .iunlock 0)

theorem itable_coherent_realloc :
    ∃ x, Reach (step (prog 4) (note 4)) Tidy
        (boot (n := 2) (m := 2) fun _ _ => { Dinode.zero with type := .file }, Hist.boot) x ∧
      (x.1.lock (.inode 0) = none ∧ (x.1.sh.inode 0).ref = 1 ∧ (x.1.sh.inode 0).valid = true ∧
        (x.1.sh.disk 1 1).type = .dir) ∧
      (x.1.sh.inode 0).d = x.1.sh.disk (x.1.sh.inode 0).dev (x.1.sh.inode 0).inum := by
  obtain ⟨x, hr, hobs⟩ : ∃ x, Reach (step (prog 4) (note 4)) Tidy
      (boot (n := 2) (m := 2) fun _ _ => { Dinode.zero with type := .file }, Hist.boot) x ∧
      x.1.lock (.inode 0) = none ∧ (x.1.sh.inode 0).ref = 1 ∧ (x.1.sh.inode 0).valid = true ∧
      (x.1.sh.disk 1 1).type = .dir := exists_reach freeAndAlloc (by decide +kernel)
  exact ⟨x, hr, hobs, (itable_coherent hr).2.2.2 0 hobs.1 hobs.2.2.1⟩

/-- A process loads inode 2 into the second entry and drops both entries; inode 2 then comes back
in the first entry, where it gets a second link. -/
def dropAndReload : List (Fin 2 × Req 2) :=
  List.replicate 4 (0, .iget 1 1) ++ List.replicate 4 (0, .iget 1 2) ++ List.replicate 5 (0, .ilock 1) ++
  List.replicate 2 (0, .iunlock 1) ++ List.replicate 5 (0, .iput 1) ++ List.replicate 5 (0, .iput 0) ++
  List.replicate 4 (0, .iget 1 2) ++ List.replicate 5 (0, .ilock 0) ++
  [(0, .edit 0 { Dinode.zero with nlink := 2 }), (0, .iupdate 0)] ++ List.replicate 2 (0, .iunlock 0)

/-- **An entry that is not in use goes stale**: it is valid and not locked, and its copy is not
what the disk has. -/
theorem unused_entry_stale :
    ∃ x, Reach (step (prog 4) (note 4)) Proper
        (boot (n := 2) (m := 2) fun _ _ => { Dinode.zero with type := .file, nlink := 1 }, Hist.boot) x ∧
      x.1.lock (.inode 1) = none ∧ (x.1.sh.inode 1).valid = true ∧ (x.1.sh.inode 1).ref = 0 ∧
      (x.1.sh.inode 1).d ≠ x.1.sh.disk (x.1.sh.inode 1).dev (x.1.sh.inode 1).inum := by
  obtain ⟨x, hr, hl, hv, h0, hne⟩ : ∃ x, Reach (step (prog 4) (note 4)) Proper
      (boot (n := 2) (m := 2) fun _ _ => { Dinode.zero with type := .file, nlink := 1 }, Hist.boot) x ∧
      x.1.lock (.inode 1) = none ∧ (x.1.sh.inode 1).valid = true ∧ (x.1.sh.inode 1).ref = 0 ∧
      (x.1.sh.inode 1).d.nlink ≠ (x.1.sh.disk (x.1.sh.inode 1).dev (x.1.sh.inode 1).inum).nlink :=
    exists_reach dropAndReload (by decide +kernel)
  exact ⟨x, hr, hl, hv, h0, fun heq => hne (by rw [heq])⟩

end Reach

end Xv6.Itable
