import Xv6.Thread.Wakeup
import Xv6.Virtio.Chains

/-!
# The protocol of the disk driver

An outline of the driver: `Holds` is what the process with `vdisk_lock` knows of the descriptors
it has in hand, `Mine` what a process knows of its own request, also asleep.

* `virtio_protocol`: in every reachable state with `vdisk_lock` free the descriptors are the
  free ones and the chains of the requests in flight; the driver never panics; an entry of the
  `avail` ring is not overwritten before the device has taken it; `virtio_disk_rw` returns when
  the device has carried out its own request; and no caller sleeps on once
  `virtio_disk_intr` is done with its buffer.
-/

namespace Xv6.Virtio

open Function Thread Lib

variable {β : Type} {n : ℕ}

/-- The descriptors that `free_chain` will find behind `i`. -/
def Linked (t : Disk β) : ℕ → List ℕ → Prop
  | i, [] => (t.desc i).flags &&& fNext = 0
  | i, j :: L => (t.desc i).flags &&& fNext ≠ 0 ∧ (t.desc i).next = j ∧ Linked t j L

/-- What the process that has `vdisk_lock` knows of the driver. -/
def Holds (l : Pc β) (t : Disk β) (h : Hist n β) : Prop :=
  match l with
  | .rwAlloc _ got | .rwUndo _ got | .rwUndoWake _ got => Owned got t h ∧ h.seen = t.usedIdx
  | .rwFormat _ i₀ i₁ i₂ => Owned [i₀, i₁, i₂] t h ∧ h.seen = t.usedIdx
  | .rwRing c i₀ i₁ i₂ =>
    Owned [i₀, i₁, i₂] t h ∧ h.seen = t.usedIdx ∧ Formatted t c i₀ i₁ i₂ ∧ t.disk c.b = true
  | .rwPublish c i₀ i₁ i₂ =>
    Owned [i₀, i₁, i₂] t h ∧ h.seen = t.usedIdx ∧ Formatted t c i₀ i₁ i₂ ∧ t.disk c.b = true ∧
      t.avail.ring (t.avail.idx.toNat % num) = i₀
  | .rwClear c _ => Owned [] t h ∧ h.seen = t.usedIdx ∧ t.disk c.b = false
  | .rwFree _ i => (∃ L, Linked t i L ∧ Owned (i :: L) t h) ∧ h.seen = t.usedIdx
  | .rwFreeWake _ (some i) => (∃ L, Linked t i L ∧ Owned (i :: L) t h) ∧ h.seen = t.usedIdx
  | .intrRead => Owned [] t h ∧ h.seen = t.usedIdx ∧ t.tail h.seen ≠ []
  | .intrWake _ | .intrNext => Owned [] t h ∧ h.seen = t.usedIdx + 1
  | .fault _ => False
  | _ => Owned [] t h ∧ h.seen = t.usedIdx

/-- The call for whose buffer the process has the sleep-lock. -/
def Pc.call : Pc β → Option (Call β)
  | .rwAcquire c | .rwAlloc c _ | .rwUndo c _ | .rwUndoWake c _ | .rwWait c | .rwFormat c _ _ _
  | .rwRing c _ _ _ | .rwPublish c _ _ _ | .rwCheck c _ | .rwSleep c _ | .rwClear c _ | .rwFree c _
  | .rwFreeWake c _ | .rwRelease c | .bufUnlock c => some c
  | _ => none

/-- The request that the process has in flight. -/
def Pc.flying : Pc β → Option (Call β × ℕ)
  | .rwCheck c i₀ | .rwSleep c i₀ | .rwClear c i₀ => some (c, i₀)
  | _ => none

/-- The call for which the process need not wait any more. -/
def Pc.over : Pc β → Option (Call β)
  | .rwClear c _ | .rwFree c _ | .rwFreeWake c _ | .rwRelease c | .bufUnlock c => some c
  | _ => none

/-- What a process knows of its own request. -/
structure Mine (p : Fin n) (l : Pc β) (t : Disk β) (h : Hist n β) : Prop where
  own : ∀ c, l.call = some c → h.owner c.b = some p ∧ t.locked c.b = true
  flying : ∀ c i, l.flying = some (c, i) →
    ∃ f, h.flight i = some f ∧ f.p = p ∧ f.ticket = h.ticket p ∧ f.call = c
  only : ∀ i f, h.flight i = some f → f.p = p → ∃ c, l.flying = some (c, i)
  done : ∀ c, l.over = some c → Completed h p (h.ticket p) c

def Inv (x : Disk β × Hist n β) : Prop :=
  Chains x.1 x.2 ∧ Queues x.1 x.2 ∧ Owned [] x.1 x.2 ∧ x.2.seen = x.1.usedIdx

def Knows (p : Fin n) (l : Pc β) (x : Disk β × Hist n β) : Prop :=
  Mine p l x.1 x.2 ∧ (l.locked = true → Chains x.1 x.2 ∧ Queues x.1 x.2 ∧ Holds l x.1 x.2)

/-- What a process knows asleep: it will look again. -/
def Waits (p : Fin n) (l : Pc β) (x : Disk β × Hist n β) : Prop :=
  Mine p l x.1 x.2 ∧ ((∃ c, l = .rwAlloc c []) ∨ ∃ c i₀, l = .rwCheck c i₀)

/-! ## Steps without the lock -/

/-- What does not change while a process works with `vdisk_lock` held. -/
structure Outer (t t' : Disk β) (h h' : Hist n β) : Prop where
  desc : t'.desc = t.desc
  ops : t'.ops = t.ops
  free : t'.free = t.free
  avail : t'.avail = t.avail
  usedIdx : t'.usedIdx = t.usedIdx
  disk : t'.disk = t.disk
  info : ∀ i, (t'.info i).b = (t.info i).b
  flight : h'.flight = h.flight
  seen : h'.seen = h.seen
  tail : t.tail h.seen ≠ [] → t'.tail h.seen ≠ []

section Outer

variable {t t' : Disk β} {h h' : Hist n β} {l : Pc β}

theorem Linked.congr : ∀ {i : ℕ} {L : List ℕ}, (∀ k ∈ i :: L, t'.desc k = t.desc k) → Linked t i L → Linked t' i L
  | _, [], hd, hl => by rw [Linked, hd _ List.mem_cons_self]; exact hl
  | _, _ :: _, hd, ⟨h1, h2, h3⟩ => by
    rw [Linked, hd _ List.mem_cons_self]
    exact ⟨h1, h2, h3.congr fun k hk => hd k (List.mem_cons_of_mem _ hk)⟩

theorem Holds.outer (hh : Holds l t h) (ho : Outer t t' h h') : Holds l t' h' := by
  have hown : ∀ {extra}, Owned extra t h → Owned extra t' h' := fun hw => hw.congr ho.flight ho.free
  have hseen : h.seen = t.usedIdx → h'.seen = t'.usedIdx := fun he => by rw [ho.seen, ho.usedIdx, he]
  have hform : ∀ {c i₀ i₁ i₂}, Formatted t c i₀ i₁ i₂ → Formatted t' c i₀ i₁ i₂ := fun hf =>
    hf.congr (fun k _ => by rw [ho.desc]) (by rw [ho.ops]) (ho.info _)
  cases l with
  | rwAlloc _ _ | rwUndo _ _ | rwUndoWake _ _ | rwFormat _ _ _ _ => exact ⟨hown hh.1, hseen hh.2⟩
  | rwRing c i₀ i₁ i₂ =>
    obtain ⟨h1, h2, h3, h4⟩ := hh
    exact ⟨hown h1, hseen h2, hform h3, by rw [ho.disk]; exact h4⟩
  | rwPublish c i₀ i₁ i₂ =>
    obtain ⟨h1, h2, h3, h4, h5⟩ := hh
    exact ⟨hown h1, hseen h2, hform h3, by rw [ho.disk]; exact h4, by rw [ho.avail]; exact h5⟩
  | rwClear c i₀ => exact ⟨hown hh.1, hseen hh.2.1, by rw [ho.disk]; exact hh.2.2⟩
  | rwFree c i =>
    obtain ⟨⟨L, h1, h2⟩, h3⟩ := hh
    exact ⟨⟨L, h1.congr fun k _ => by rw [ho.desc], hown h2⟩, hseen h3⟩
  | rwFreeWake c nxt =>
    cases nxt with
    | none => exact ⟨hown hh.1, hseen hh.2⟩
    | some i =>
      obtain ⟨⟨L, h1, h2⟩, h3⟩ := hh
      exact ⟨⟨L, h1.congr fun k _ => by rw [ho.desc], hown h2⟩, hseen h3⟩
  | intrRead => exact ⟨hown hh.1, hseen hh.2.1, by rw [ho.seen]; exact ho.tail hh.2.2⟩
  | intrWake b | intrNext => exact ⟨hown hh.1, by rw [ho.seen, ho.usedIdx]; exact hh.2⟩
  | fault msg => exact hh
  | _ => exact ⟨hown hh.1, hseen hh.2⟩

theorem outer_finish (hq : Queues t h) (hc : Chains t h) {h' : Hist n β} (hfl : h'.flight = h.flight)
    (hs : h'.seen = h.seen) (i : ℕ) : Outer t (t.finish i) h h' := by
  by_cases hi : i ∈ t.dev.taken
  · rw [finish_eq hq hc hi]
    refine ⟨rfl, rfl, rfl, rfl, rfl, rfl, fun j => ?_, hfl, hs, id⟩
    dsimp only
    rw [update_apply]
    split
    · next he => rw [he]
    · rfl
  · rw [Disk.finish, if_neg hi]
    exact ⟨rfl, rfl, rfl, rfl, rfl, rfl, fun _ => rfl, hfl, hs, id⟩

theorem outer_append (i : ℕ) : Outer t (t.append i) h h := by
  unfold Disk.append
  split
  · refine ⟨rfl, rfl, rfl, rfl, rfl, rfl, fun _ => rfl, rfl, rfl, fun hne he => hne ?_⟩
    rw [Disk.tail, queue_eq_nil] at he ⊢
    exact he
  · exact ⟨rfl, rfl, rfl, rfl, rfl, rfl, fun _ => rfl, rfl, rfl, id⟩

theorem outer_advance (hq : Queues t h) (hc : Chains t h) : Outer t t.advance h h := by
  unfold Disk.advance
  split
  · exact ⟨rfl, rfl, rfl, rfl, rfl, rfl, fun _ => rfl, rfl, rfl, id⟩
  · refine ⟨rfl, rfl, rfl, rfl, rfl, rfl, fun _ => rfl, rfl, rfl, fun _ he => ?_⟩
    have hlen := hq.length_live hc
    rw [Disk.length_live] at hlen
    have := queue_push num_dvd t.used.ring (r := h.seen) (i := t.used.idx) (by unfold num at hlen; omega)
    rw [Disk.tail] at he
    dsimp only at he
    rw [show t.used.idx + 1 = t.used.idx + 1#16 from rfl, this] at he
    simp at he

end Outer

section Unlocked

variable [DecidableEq β] {p : Fin n} {l : Pc β} {f : Req β → Disk β → Disk β × Pc β} {r : Req β}
variable {t : Disk β} {h : Hist n β}

/-- **A step without the lock** keeps the chains and the queues, and what the holder of the lock
knows. -/
theorem unlocked_act (hi : prog p l = .act f) (hl : l.locked = false) (hm : Mine p l t h) (hc : Chains t h)
    (hq : Queues t h) : Chains (f r t).1 (note p l r t h) ∧ Queues (f r t).1 (note p l r t h) ∧
      Outer t (f r t).1 h (note p l r t h) := by
  have hsame : Outer t t h h := ⟨rfl, rfl, rfl, rfl, rfl, rfl, fun _ => rfl, rfl, rfl, id⟩
  -- taking or giving back the sleep-lock of a buffer that no request in flight uses
  have hlock : ∀ {b : β} {x : Bool} {o : Option (Fin n)}, (∀ i g, h.flight i = some g → g.call.b ≠ b) →
      Chains (t.setLocked b x) { h with owner := update h.owner b o } ∧
        Queues (t.setLocked b x) { h with owner := update h.owner b o } ∧
        Outer t (t.setLocked b x) h { h with owner := update h.owner b o } := by
    intro b x o hb
    refine ⟨hc.congr rfl (fun i g hg => (hc.formatted i g hg).congr (fun _ _ => rfl) rfl rfl) fun i g hg => ?_,
      hq.congr rfl rfl (fun _ he => he) rfl rfl rfl (fun _ _ _ hd => hd) fun _ _ => rfl,
      ⟨rfl, rfl, rfl, rfl, rfl, rfl, fun _ => rfl, rfl, rfl, id⟩⟩
    simp only [Disk.setLocked]
    rw [update_of_ne (hb i g hg), update_of_ne (hb i g hg)]
    exact hc.owner i g hg
  cases l <;> cases hi <;>
    simp only [Pc.locked, Bool.true_eq_false] at hl
  case idle =>
    cases r with
    | consume =>
      refine ⟨chains_consume hc, queues_consume hq, ?_⟩
      dsimp only [note]
      unfold Disk.consume
      split
      · exact hsame
      · exact ⟨rfl, rfl, rfl, rfl, rfl, rfl, fun _ => rfl, rfl, rfl, id⟩
    | finish i =>
      refine ⟨chains_finish hq hc, queues_finish hq hc, outer_finish hq hc ?_ ?_ i⟩
      all_goals
        simp only [note]
        split
        · split <;> rfl
        · rfl
    | append i => exact ⟨chains_append hc, queues_append hq hc, outer_append i⟩
    | advance => exact ⟨chains_advance hc, queues_advance hq hc, outer_advance hq hc⟩
    | _ => exact ⟨hc, hq, hsame⟩
  case bufLock c =>
    by_cases hb : t.locked c.b = true
    · simp only [note, if_pos hb]
      exact ⟨hc, hq, hsame⟩
    · simp only [note, if_neg hb]
      refine hlock fun i g hg he => hb ?_
      rw [← he]
      exact (hc.owner i g hg).2
  case bufUnlock c =>
    refine hlock fun i g hg he => ?_
    have h1 := (hc.owner i g hg).1
    rw [he, (hm.own c rfl).1] at h1
    obtain ⟨c', hfl⟩ := hm.only i g hg (Option.some.inj h1).symm
    cases hfl

end Unlocked

/-! ## What a process knows of its own request -/

section Own

variable {p q : Fin n} {l l' : Pc β} {t t' : Disk β} {h h' : Hist n β}

/-- A step that does not touch what the process knows. -/
theorem Mine.congr (hm : Mine q l t h)
    (ho : ∀ b, h.owner b = some q → t.locked b = true → h'.owner b = some q ∧ t'.locked b = true)
    (hf : ∀ i f, f.p = q → (h'.flight i = some f ↔ h.flight i = some f) := by exact fun _ _ _ => .rfl)
    (ht : h'.ticket q = h.ticket q := by rfl) (hd : ∀ e ∈ h.done, e ∈ h'.done := by exact fun _ => id) :
    Mine q l t' h' := by
  refine ⟨fun c hc => ho c.b (hm.own c hc).1 (hm.own c hc).2, fun c i hc => ?_, fun i f hfl hp => ?_, fun c hc => ?_⟩
  · obtain ⟨f, h1, h2, h3, h4⟩ := hm.flying c i hc
    exact ⟨f, (hf i f h2).2 h1, h2, h3.trans ht.symm, h4⟩
  · exact hm.only i f ((hf i f hp).1 hfl) hp
  · obtain ⟨e, h1, h2⟩ := hm.done c hc
    rw [ht]
    exact ⟨e, hd e h1, h2⟩

/-- A step from one local state to another. -/
theorem Mine.move (hm : Mine p l t h) (hc : ∀ c, l'.call = some c → l.call = some c := by rintro _ ⟨⟩ <;> rfl)
    (hf : l'.flying = l.flying := by rfl) (ho : ∀ c, l'.over = some c → l.over = some c := by rintro _ ⟨⟩ <;> rfl)
    (he : t'.locked = t.locked := by rfl) : Mine p l' t' h :=
  ⟨fun c h1 => by rw [he]; exact hm.own c (hc c h1), fun c i h1 => hm.flying c i (hf ▸ h1),
    fun i f h1 h2 => by rw [hf]; exact hm.only i f h1 h2, fun c h1 => hm.done c (ho c h1)⟩

theorem Mine.none (hm : Mine p l t h) (hc : l'.call = none) (hf : l'.flying = l.flying) (ho : l'.over = none) :
    Mine p l' t h :=
  hm.move (fun _ h1 => absurd (hc.symm.trans h1) nofun) hf fun _ h1 => absurd (ho.symm.trans h1) nofun

theorem Disk.freeDesc_ok {t' : Disk β} {i : ℕ} (h : t.freeDesc i = .ok t') :
    t'.disk = t.disk ∧ t'.avail = t.avail := by
  unfold Disk.freeDesc at h
  (repeat' split at h) <;> cases h
  exact ⟨rfl, rfl⟩

/-- `free_chain` will find the three descriptors of a request. -/
theorem Formatted.linked {c : Call β} {i₀ i₁ i₂ : ℕ} (hf : Formatted t c i₀ i₁ i₂) : Linked t i₀ [i₁, i₂] := by
  have hflags : c.flags &&& fNext ≠ 0 := by
    unfold Call.flags
    split <;> decide
  have hhead : fNext &&& fNext ≠ 0 := by decide
  have hlast : fWrite &&& fNext = 0 := by decide
  refine ⟨?_, ?_, ?_, ?_, ?_⟩
  · rw [hf.head]; exact hhead
  · rw [hf.head]
  · rw [hf.data]; exact hflags
  · rw [hf.data]
  · rw [Linked, hf.status]; exact hlast

variable [DecidableEq β] {f : Req β → Disk β → Disk β × Pc β} {r : Req β}

/-- What the history of `p` does not mention. -/
theorem note_idle (r : Req β) : (note p .idle r t h).owner = h.owner ∧ (note p .idle r t h).flight = h.flight ∧
    (note p .idle r t h).ticket = h.ticket ∧ ∀ e ∈ h.done, e ∈ (note p .idle r t h).done := by
  cases r with
  | finish i =>
    simp only [note]
    split
    · split
      · exact ⟨rfl, rfl, rfl, fun e he => List.mem_cons_of_mem _ he⟩
      · exact ⟨rfl, rfl, rfl, fun e he => he⟩
    · exact ⟨rfl, rfl, rfl, fun e he => he⟩
  | _ => exact ⟨rfl, rfl, rfl, fun e he => he⟩

/-- The device touches neither the buffers nor the `avail` ring. -/
theorem idle_act (hi : prog p (.idle : Pc β) = .act f) :
    (f r t).1.locked = t.locked ∧ (f r t).1.disk = t.disk ∧ (f r t).1.avail = t.avail := by
  cases hi
  cases r with
  | consume => dsimp only [Disk.consume]; split <;> exact ⟨rfl, rfl, rfl⟩
  | finish i =>
    dsimp only [Disk.finish, Disk.setStatus]
    (repeat' split) <;> exact ⟨rfl, rfl, rfl⟩
  | append i => dsimp only [Disk.append]; split <;> exact ⟨rfl, rfl, rfl⟩
  | advance => dsimp only [Disk.advance]; split <;> exact ⟨rfl, rfl, rfl⟩
  | _ => exact ⟨rfl, rfl, rfl⟩

/-- **What another process knows of its request stays true.** -/
theorem mine_other (hi : prog p l = .act f) (hk : Knows p l (t, h)) (hqp : q ≠ p) (hm : Mine q l' t h) :
    Mine q l' (f r t).1 (note p l r t h) := by
  have hsame : ∀ t' : Disk β, t'.locked = t.locked → Mine q l' t' h := fun t' he =>
    hm.congr (fun b h1 h2 => ⟨h1, by rw [he]; exact h2⟩)
  obtain ⟨hp, hlk⟩ := hk
  cases l with
  | idle =>
    obtain ⟨h1, h2, h3, h4⟩ := note_idle (p := p) (t := t) (h := h) r
    have h5 := (idle_act (r := r) (t := t) hi).1
    exact hm.congr (fun b hb hl => ⟨by rw [h1]; exact hb, by rw [h5]; exact hl⟩) (fun i g _ => by rw [h2]) (by rw [h3]) h4
  | bufLock c =>
    cases hi
    by_cases hb : t.locked c.b = true
    · simp only [note, if_pos hb]
      exact hm
    · simp only [note, if_neg hb]
      refine hm.congr (fun b h1 h2 => ?_)
      have hne : b ≠ c.b := fun he => hb (he ▸ h2)
      simp only [Disk.setLocked]
      rw [update_of_ne hne, update_of_ne hne]
      exact ⟨h1, h2⟩
  | bufUnlock c =>
    cases hi
    refine hm.congr (fun b h1 h2 => ?_)
    have hne : b ≠ c.b := by
      rintro rfl
      rw [(hp.own c rfl).1] at h1
      exact hqp (Option.some.inj h1).symm
    simp only [Disk.setLocked, note]
    rw [update_of_ne hne, update_of_ne hne]
    exact ⟨h1, h2⟩
  | rwPublish c i₀ i₁ i₂ =>
    cases hi
    obtain ⟨-, -, ho, -⟩ := hlk rfl
    refine hm.congr (fun b h1 h2 => ⟨h1, h2⟩) (fun i g hg => ?_) (update_of_ne hqp ..)
    dsimp only [note]
    rw [update_apply]
    split
    · next he =>
      subst he
      have h0 : h.flight i = none := ho.no_flight List.mem_cons_self
      rw [h0]
      refine iff_of_false ?_ (Option.some_ne_none g).symm
      rintro ⟨⟩
      exact hqp hg.symm
    · exact Iff.rfl
  | rwClear c i₀ =>
    cases hi
    obtain ⟨f, h1, h2, -, -⟩ := hp.flying c i₀ rfl
    refine hm.congr (fun b h1 h2 => ⟨h1, h2⟩) fun i g hg => ?_
    dsimp only [note]
    rw [update_apply]
    split
    · next he =>
      subst he
      refine iff_of_false (Option.some_ne_none g).symm fun he => hqp ?_
      rw [← hg, ← h2, Option.some.inj (h1.symm.trans he)]
    · exact Iff.rfl
  | intrRead =>
    refine hm.congr (fun b h1 h2 => ⟨h1, ?_⟩)
    cases hi
    dsimp only
    split
    · exact h2
    · split <;> exact h2
  | rwAlloc c got =>
    refine hsame _ ?_
    cases hi
    dsimp only
    split
    · split <;> rfl
    · rfl
  | rwUndo c got =>
    refine hsame _ ?_
    obtain ⟨-, -, ho, -⟩ := hlk rfl
    cases hi
    cases got with
    | nil => rfl
    | cons i rest =>
      dsimp only
      rw [ho.freeDesc]
  | rwFree c i =>
    refine hsame _ ?_
    obtain ⟨-, -, ⟨L, -, ho⟩, -⟩ := hlk rfl
    cases hi
    dsimp only
    rw [ho.freeDesc]
  | rwCheck c i₀ | intrLoop =>
    refine hsame _ ?_
    cases hi
    dsimp only
    split <;> rfl
  | _ =>
    simp only [prog, Instr.act.injEq, reduceCtorEq] at hi <;> (subst hi; exact hsame _ rfl)

/-- What the process knows of its own request after its own step. -/
theorem mine_act (hi : prog p l = .act f) (hk : Knows p l (t, h)) :
    Mine p (f r t).2 (f r t).1 (note p l r t h) := by
  have hall := hk
  obtain ⟨hm, hlk⟩ := hk
  cases l with
  | idle =>
    obtain ⟨h1, h2, h3, h4⟩ := note_idle (p := p) (t := t) (h := h) r
    have h5 := (idle_act (r := r) (t := t) hi).1
    have hquiet : (f r t).2.call = none ∧ (f r t).2.flying = none ∧ (f r t).2.over = none := by
      cases hi
      cases r <;> exact ⟨rfl, rfl, rfl⟩
    have hm' : Mine p (f r t).2 t h := hm.none hquiet.1 hquiet.2.1 hquiet.2.2
    exact hm'.congr (fun b hb hl => ⟨by rw [h1]; exact hb, by rw [h5]; exact hl⟩) (fun i g _ => by rw [h2]) (by rw [h3]) h4
  | bufLock c =>
    cases hi
    by_cases hb : t.locked c.b = true
    · simp only [note, if_pos hb]
      exact hm
    · simp only [note, if_neg hb]
      refine ⟨fun c' hc => ?_, by rintro _ _ ⟨⟩, hm.only, by rintro _ ⟨⟩⟩
      cases hc
      exact ⟨update_self .., update_self ..⟩
  | bufUnlock c =>
    cases hi
    exact ⟨by rintro _ ⟨⟩, by rintro _ _ ⟨⟩, hm.only, by rintro _ ⟨⟩⟩
  | rwPublish c i₀ i₁ i₂ =>
    cases hi
    refine ⟨fun c' hc => hm.own c' hc, fun c' i hc => ?_, fun i g hg hp => ?_, by rintro _ ⟨⟩⟩
    · cases hc
      refine ⟨_, update_self .., rfl, ?_, rfl⟩
      exact (update_self p (h.ticket p + 1) h.ticket).symm
    · dsimp only [note] at hg
      rw [update_apply] at hg
      split at hg
      · next he => exact ⟨c, by rw [he]; rfl⟩
      · obtain ⟨c', hc⟩ := hm.only i g hg hp
        cases hc
  | rwCheck c i₀ =>
    obtain ⟨-, hq, -⟩ := hlk rfl
    cases hi
    dsimp only [note]
    split
    · exact hm.move
    · next hd =>
      refine ⟨hm.own, hm.flying, hm.only, fun c' hc => ?_⟩
      cases hc
      obtain ⟨g, h1, rfl, h3, rfl⟩ := hm.flying c i₀ rfl
      rw [← h3]
      refine hq.done i₀ g h1 fun hfresh => hd ?_
      obtain ⟨g', h1', hb⟩ := hq.live i₀ (List.mem_append_left _ hfresh)
      rwa [Option.some.inj (h1.symm.trans h1')]
  | rwClear c i₀ =>
    cases hi
    refine ⟨hm.own, by rintro _ _ ⟨⟩, fun i g hg hp => ?_, hm.done⟩
    dsimp only [note] at hg
    rw [update_apply] at hg
    split at hg
    · cases hg
    · next hne =>
      obtain ⟨c', hc⟩ := hm.only i g hg hp
      cases hc
      exact absurd rfl hne
  | rwAlloc c got =>
    cases hi
    dsimp only
    split
    · split <;> exact hm.move
    · exact hm.move
  | rwUndo c got =>
    obtain ⟨-, -, ho, -⟩ := hlk rfl
    cases hi
    cases got with
    | nil => exact hm.move
    | cons i rest =>
      dsimp only
      rw [ho.freeDesc]
      exact hm.move
  | rwFree c i =>
    obtain ⟨-, -, ⟨L, -, ho⟩, -⟩ := hlk rfl
    cases hi
    dsimp only
    rw [ho.freeDesc]
    exact hm.move
  | intrRead =>
    cases hi
    have hnone : ∀ l' : Pc β, l'.call = none → l'.flying = none → l'.over = none →
        Mine p l' t (note p .intrRead r t h) := fun l' h1 h2 h3 =>
      (hm.none h1 h2 h3).congr fun _ h4 h5 => ⟨h4, h5⟩
    dsimp only
    split
    · exact hnone _ rfl rfl rfl
    · split
      · exact (hnone _ rfl rfl rfl).congr (fun _ h4 h5 => ⟨h4, h5⟩)
      · exact hnone _ rfl rfl rfl
  | intrLoop =>
    cases hi
    dsimp only
    split <;> exact hm.move
  | rwFormat c i₀ i₁ i₂ | rwRing c i₀ i₁ i₂ =>
    cases hi
    exact hm.move
  | intrNext =>
    cases hi
    exact hm.move
  | _ => simp only [prog, reduceCtorEq] at hi

/-- What the holder of the lock knows after its own step. -/
theorem holds_act (hi : prog p l = .act f) (hl : l.locked = true) (hk : Knows p l (t, h)) :
    Chains (f r t).1 (note p l r t h) ∧ Queues (f r t).1 (note p l r t h) ∧
      Holds (f r t).2 (f r t).1 (note p l r t h) := by
  obtain ⟨hm, hlk⟩ := hk
  obtain ⟨hc, hq, hh⟩ := hlk hl
  clear hlk
  dsimp only at hm hc hq hh
  cases l with
  | rwAlloc c got =>
    obtain ⟨ho, hs⟩ := hh
    cases hi
    dsimp only
    split
    · next i hi =>
      have hc' : Chains (t.take i) h :=
        hc.quiet
      have hq' : Queues (t.take i) h := hq.quiet
      have ho' := ho.take hi
      split
      · exact ⟨hc', hq', ho', hs⟩
      · exact ⟨hc', hq', ho', hs⟩
    · exact ⟨hc, hq, ho, hs⟩
  | rwUndo c got =>
    obtain ⟨ho, hs⟩ := hh
    cases hi
    cases got with
    | nil => exact ⟨hc, hq, ho, hs⟩
    | cons i rest =>
      dsimp only
      rw [ho.freeDesc]
      exact ⟨hc.free ho, hq.quiet, ho.free, hs⟩
  | rwFormat c i₀ i₁ i₂ =>
    obtain ⟨ho, hs⟩ := hh
    cases hi
    exact ⟨hc.format ho, hq.format ho, ho.congr rfl rfl, hs, formatted_format ho.nodup, update_self ..⟩
  | rwRing c i₀ i₁ i₂ =>
    obtain ⟨ho, hs, hf, hd⟩ := hh
    cases hi
    have hroom := ho.room hq hc List.mem_cons_self
    refine ⟨hc.quiet, ?_,
      ho.congr rfl rfl, hs, hf.congr (fun _ _ => rfl) rfl rfl, hd, update_self ..⟩
    refine hq.congr rfl rfl (fun _ he => he) ?_ rfl rfl (fun _ _ _ hb => hb) fun _ _ => rfl
    rw [Disk.fresh, pub_setRing hroom]
    rfl
  | rwPublish c i₀ i₁ i₂ =>
    obtain ⟨ho, hs, hf, hd, hr⟩ := hh
    cases hi
    refine ⟨hc.publish ho hf (hm.own c rfl) fun i g hg hp => ?_, hq.publish hc ho hd hr, ho.publish, hs⟩
    obtain ⟨c', hfl⟩ := hm.only i g hg hp
    cases hfl
  | rwCheck c i₀ =>
    cases hi
    dsimp only
    split
    · exact ⟨hc, hq, hh⟩
    · next hd => exact ⟨hc, hq, hh.1, hh.2, by simpa using hd⟩
  | rwClear c i₀ =>
    obtain ⟨ho, hs, hd⟩ := hh
    obtain ⟨g, h1, -, -, rfl⟩ := hm.flying c i₀ rfl
    cases hi
    refine ⟨hc.clear (p := p) (c := g.call), hq.clear (p := p) (c := g.call) h1 hd,
      ⟨[g.i₁, g.i₂], ?_, ho.clear (p := p) (c := g.call) hc h1⟩, hs⟩
    exact (hc.formatted i₀ g h1).linked.congr fun _ _ => rfl
  | rwFree c i =>
    obtain ⟨⟨L, hlink, ho⟩, hs⟩ := hh
    cases hi
    dsimp only
    rw [ho.freeDesc]
    refine ⟨hc.free ho, hq.quiet, ?_⟩
    cases L with
    | nil =>
      rw [Linked] at hlink
      rw [if_neg (not_not.2 hlink)]
      exact ⟨ho.free, hs⟩
    | cons j L =>
      obtain ⟨h1, h2, h3⟩ := hlink
      rw [if_pos h1, h2]
      refine ⟨⟨L, h3.congr fun k hk => update_of_ne ?_ .., ho.free⟩, hs⟩
      rintro rfl
      exact (List.nodup_cons.1 ho.nodup).1 hk
  | intrLoop =>
    obtain ⟨ho, hs⟩ := hh
    cases hi
    dsimp only
    split
    · next hne =>
      refine ⟨hc, hq, ho, hs, fun he => hne ?_⟩
      rw [Disk.tail, queue_eq_nil] at he
      exact hs.symm.trans he
    · exact ⟨hc, hq, ho, hs⟩
  | intrRead =>
    obtain ⟨ho, hs, hne⟩ := hh
    have hpop : t.tail h.seen = t.usedId :: t.tail (t.usedIdx + 1) := by
      rw [Disk.tail, hs]
      exact queue_pop num_dvd _ fun he => hne (queue_eq_nil.2 (hs.trans he))
    have hend : t.usedId ∈ t.ended h.seen := by
      rw [Disk.ended, hpop]
      simp
    obtain ⟨g, hg, -⟩ := hq.live t.usedId (List.mem_append_right _ hend)
    cases hi
    simp only [hq.status _ hend, (hc.formatted _ g hg).info, ne_eq, not_true_eq_false, if_false]
    refine ⟨?_, hq.setDone (p := p) hc hs hg hne, ho.congr rfl rfl, rfl⟩
    exact hc.quiet
  | intrNext =>
    obtain ⟨ho, hs⟩ := hh
    cases hi
    refine ⟨?_, hq.quiet, ho.congr rfl rfl, hs⟩
    exact hc.quiet
  | idle | bufLock c | bufUnlock c => cases hl
  | _ => simp only [prog, reduceCtorEq] at hi

end Own

/-! ## The outline -/

section Outline

variable [DecidableEq β]

variable {l : Pc β} {p : Fin n}

omit [DecidableEq β] in
theorem Knows.inv {x : Disk β × Hist n β} (hk : Knows p l x) (hl : l.locked = true)
    (hh : Holds l x.1 x.2 → Owned [] x.1 x.2 ∧ x.2.seen = x.1.usedIdx) : Inv x := by
  obtain ⟨hc, hq, hh'⟩ := hk.2 hl
  exact ⟨hc, hq, hh hh'⟩

theorem outline : Outline (noting (prog (β := β)) (note (n := n))) held () (fun _ _ _ => True)
    (fun _ _ _ _ => True) Inv Knows Waits where
  acquire {p l ℓ l' x} hi hk hI := by
    rw [noting, noting_eq_acquire] at hi
    cases l <;> cases hi
    case rwAcquire | intrAcquire =>
      obtain ⟨h1, h2, h3, h4⟩ := hI rfl
      exact ⟨hk.1.move, fun _ => ⟨h1, h2, h3, h4⟩⟩
  release {p l ℓ l' x} hi hk := by
    rw [noting, noting_eq_release] at hi
    cases l <;> cases hi
    case rwRelease | intrRelease => exact ⟨fun _ => hk.inv rfl id, hk.1.move, by rintro ⟨⟩⟩
  act {p l g r x} hi _ _ hk := by
    obtain ⟨f, hf, rfl⟩ := noting_eq_act.1 hi
    refine ⟨mine_act hf hk, fun hl => ?_⟩
    rw [locked_act hf] at hl
    exact holds_act hf hl hk
  stable {p l g r x} hi _ _ hk q hqp := by
    obtain ⟨f, hf, rfl⟩ := noting_eq_act.1 hi
    refine ⟨fun l' hlock hkq => ⟨mine_other hf hk hqp hkq.1, fun hl' => ?_⟩, fun l' hw =>
      ⟨mine_other hf hk hqp hw.1, hw.2⟩⟩
    -- the other process has the lock, so this step was made without it
    have hl : l.locked = false := by
      have := hlock ⟨rfl, hl'⟩
      simpa [held] using this
    obtain ⟨hc, hq, hh⟩ := hkq.2 hl'
    obtain ⟨h1, h2, h3⟩ := unlocked_act hf hl hk.1 hc hq (r := r)
    exact ⟨h1, h2, hh.outer h3⟩
  unlocked {p l g r x} hi hl _ _ hk hI := by
    obtain ⟨f, hf, rfl⟩ := noting_eq_act.1 hi
    obtain ⟨hc, hq, ho, hs⟩ := hI
    have hl' : l.locked = false := by simpa [held] using hl
    obtain ⟨h1, h2, h3⟩ := unlocked_act hf hl' hk.1 hc hq (r := r)
    exact ⟨h1, h2, ho.congr h3.flight h3.free, by rw [h3.seen, h3.usedIdx]; exact hs⟩
  sleep {p l c k l' x} hi hk := by
    rw [noting, noting_eq_sleep] at hi
    cases l <;> cases hi
    case rwWait c =>
      exact ⟨⟨hk.1.move, .inl ⟨c, rfl⟩⟩, fun _ => ⟨rfl, hk.inv rfl id⟩⟩
    case rwSleep c i₀ =>
      exact ⟨⟨hk.1.move, .inr ⟨c, i₀, rfl⟩⟩, fun _ => ⟨rfl, hk.inv rfl id⟩⟩
  back {p l' x} hw hI := by
    obtain ⟨hm, ⟨c, rfl⟩ | ⟨c, i₀, rfl⟩⟩ := hw
    all_goals
      obtain ⟨h1, h2, h3, h4⟩ := hI ⟨rfl, rfl⟩
      exact ⟨hm, fun _ => ⟨h1, h2, h3, h4⟩⟩
  wakeup {p l c l' x} hi hk := by
    rw [noting, noting_eq_wakeup] at hi
    cases l <;> cases hi
    case rwFreeWake c nxt => cases nxt <;> exact ⟨hk.1.move, fun _ => hk.2 rfl⟩
    all_goals exact ⟨hk.1.move, fun _ => hk.2 rfl⟩
  killed {p l g x} hi hk := by
    rw [noting, noting_eq_killed] at hi
    cases l <;> simp only [prog, reduceCtorEq] at hi
  kill {p l pid g x} hi hk b := by
    rw [noting, noting_eq_kill] at hi
    cases l <;> cases hi
    exact ⟨hk.1.move, by rintro ⟨⟩⟩

variable {f : Req β → Disk β → Disk β × Pc β}

/-- Only `virtio_disk_rw` and `virtio_disk_intr` change `b->disk`. -/
theorem disk_unlocked (hi : prog p l = .act f)
    (hl : l.locked = false) (r : Req β) (t : Disk β) : (f r t).1.disk = t.disk := by
  cases l with
  | idle => exact (idle_act hi).2.1
  | _ => ?_
  all_goals cases hi
  all_goals simp only [Pc.locked, Bool.true_eq_false] at hl
  case bufLock c =>
    dsimp only
    split <;> rfl
  case bufUnlock c => rfl

/-- What a step with the lock does to `b->disk`. -/
theorem disk_locked (hi : prog p l = .act f)
    (hl : l.locked = true) (r : Req β) (t : Disk β) (b : β) (hd : (f r t).1.disk b = false) :
    t.disk b = false ∨ (f r t).2 = .intrWake b := by
  cases l <;> cases hi <;>
    simp only [Pc.locked, Bool.false_eq_true] at hl
  case rwAlloc c got =>
    dsimp only at hd
    split at hd
    · split at hd <;> exact .inl hd
    · exact .inl hd
  case rwUndo c got =>
    cases got with
    | nil => exact .inl hd
    | cons i rest =>
      dsimp only at hd
      split at hd
      · next t' he => exact .inl (by rwa [(Disk.freeDesc_ok he).1] at hd)
      · exact .inl hd
  case rwFree c i =>
    dsimp only at hd
    split at hd
    · next t' he => exact .inl (by rwa [(Disk.freeDesc_ok he).1] at hd)
    · exact .inl hd
  case rwFormat c i₀ i₁ i₂ =>
    dsimp only [Disk.format] at hd
    rw [update_apply] at hd
    split at hd
    · cases hd
    · exact .inl hd
  case rwCheck c i₀ =>
    dsimp only at hd
    split at hd <;> exact .inl hd
  case intrLoop =>
    dsimp only at hd
    split at hd <;> exact .inl hd
  case intrRead =>
    dsimp only at hd ⊢
    split at hd
    · exact .inl hd
    · next hs =>
      split at hd
      · next b' hb =>
        dsimp only [Disk.setDone] at hd
        rw [update_apply] at hd
        split at hd
        · next he =>
          subst he
          right
          rw [if_neg hs]
        · exact .inl hd
      · exact .inl hd
  all_goals exact .inl hd

/-- A caller sleeps on its buffer only while `b->disk` is 1, and `virtio_disk_intr` wakes it. -/
theorem signals (b : β) : Signals (noting (prog (β := β)) (note (n := n))) held () (.buf b)
    (fun x => x.1.disk b = false) Knows (fun l => ∃ c i₀, l = .rwSleep c i₀ ∧ c.b = b) (fun l => l = .intrWake b) where
  acquire {p l ℓ l'} hi := by
    rw [noting, noting_eq_acquire] at hi
    cases l <;> cases hi <;> exact ⟨by simp, by simp⟩
  release {p l ℓ l'} hi := by
    rw [noting, noting_eq_release] at hi
    cases l <;> cases hi <;> exact ⟨by simp, by simp⟩
  act {p l g} hi r x _ _ := by
    obtain ⟨f, hf, rfl⟩ := noting_eq_act.1 hi
    refine ⟨?_, fun hl hd => ?_, fun hl hd ho => ?_⟩
    · rintro ⟨c, i₀, he, rfl⟩
      dsimp only at he
      clear hi
      cases l <;> simp only [prog, Instr.act.injEq, reduceCtorEq] at hf <;> subst hf
      case rwCheck c' i₀' _ _ =>
        dsimp only at he ⊢
        split at he
        · next hd =>
          cases he
          rw [if_pos hd]
          exact ⟨⟨rfl, rfl⟩, by simp [hd]⟩
        · cases he
      case idle => cases r <;> cases he
      case bufLock | intrLoop | rwAlloc | rwFree | intrRead =>
        dsimp only at he
        (repeat' split at he) <;> cases he
      case rwUndo c' got _ _ =>
        cases got with
        | nil => cases he
        | cons i rest =>
          dsimp only at he
          split at he <;> cases he
      all_goals cases he
    · have hl' : l.locked = false := by simpa [held] using hl
      dsimp only at hd
      rwa [disk_unlocked hf hl'] at hd
    · rcases disk_locked hf hl.2 r x.1 b hd with h0 | h0
      · have he := ho h0
        subst he
        simp only [prog, reduceCtorEq] at hf
      · exact h0
  sleep {p l d k' l'} hi := by
    rw [noting, noting_eq_sleep] at hi
    cases l <;> cases hi
    case rwWait c => exact ⟨by rintro ⟨⟩, by simp, by simp⟩
    case rwSleep c i₀ => exact ⟨fun he => ⟨c, i₀, rfl, Chan.buf.inj he⟩, by simp, by simp⟩
  wakeup {p l d l'} hi := by
    rw [noting, noting_eq_wakeup] at hi
    cases l <;> cases hi
    case rwFreeWake c nxt => cases nxt <;> exact ⟨by simp, by simp⟩
    case intrWake b' => exact ⟨by simp, fun hne he => absurd (by cases he; rfl) hne⟩
    all_goals exact ⟨by simp, by simp⟩
  killed {p l g} hi := by
    rw [noting, noting_eq_killed] at hi
    cases l <;> simp only [prog, reduceCtorEq] at hi
  kill {p l pid g} hi := by
    rw [noting, noting_eq_kill] at hi
    cases l <;> cases hi
    exact ⟨by simp, by simp⟩

/-- Only `virtio_disk_rw` writes the `avail` ring. -/
theorem ring_act (hi : prog p l = .act f) (r : Req β)
    (t : Disk β) : (f r t).1.avail.ring = t.avail.ring ∨ ∃ c i₀ i₁ i₂, l = .rwRing c i₀ i₁ i₂ ∧ (f r t).1 = t.setRing i₀ := by
  cases l with
  | idle => exact .inl (by rw [(idle_act hi).2.2])
  | _ => ?_
  all_goals cases hi
  case bufLock | rwCheck | intrLoop | rwAlloc | intrRead =>
    left
    dsimp only
    (repeat' split) <;> rfl
  case rwUndo c got =>
    left
    cases got with
    | nil => rfl
    | cons i rest =>
      dsimp only
      split
      · next t' he => rw [(Disk.freeDesc_ok he).2]
      · rfl
  case rwFree c i =>
    left
    dsimp only
    split
    · next t' he => rw [(Disk.freeDesc_ok he).2]
    · rfl
  case rwRing c i₀ i₁ i₂ => exact .inr ⟨c, i₀, i₁, i₂, rfl, rfl⟩
  all_goals exact .inl rfl

omit [DecidableEq β] in
theorem inv_init : Inv (Disk.init, (Hist.empty : Hist n β)) := by
  have hlive : (Disk.init : Disk β).live 0 = [] := by
    have h1 : (Disk.init : Disk β).pub = [] := queue_eq_nil.2 rfl
    have h2 : (Disk.init : Disk β).tail 0 = [] := queue_eq_nil.2 rfl
    rw [Disk.live, Disk.fresh, Disk.ended, h1, h2]
    rfl
  have hended : ∀ i, i ∉ (Disk.init : Disk β).ended 0 := fun i hi => by
    have : i ∈ (Disk.init : Disk β).live 0 := List.mem_append_right _ hi
    rw [hlive] at this
    cases this
  refine ⟨⟨by rintro _ _ ⟨⟩, by rintro _ _ ⟨⟩, by rintro _ _ _ _ ⟨⟩, by rintro _ _ ⟨⟩, by rintro _ _ _ _ ⟨⟩⟩,
    ⟨?_, fun i hi => ?_, fun i hi => absurd hi (hended i), by rintro _ _ ⟨⟩, by rintro _ ⟨⟩⟩,
    ⟨.nil, by rintro _ ⟨⟩, by rintro _ ⟨⟩, fun i _ => ?_⟩, rfl⟩
  · dsimp only [Hist.empty]
    rw [hlive]
    exact .nil
  · dsimp only [Hist.empty] at hi
    rw [hlive] at hi
    cases hi
  · simp [Disk.init, Hist.empty]

/-- **The protocol of the disk driver**, in every reachable state. With `vdisk_lock` free, each
descriptor is free or in the chain of exactly one request in flight, and the chains are as
`virtio_disk_rw` formatted them. The driver does not panic. No step overwrites an entry of the
`avail` ring that the device has yet to take. A process about to return from `virtio_disk_rw` has
had its own request carried out. And where a process sleeps on a buffer whose `disk` is 0 again,
the holder of `vdisk_lock` is in `wakeup(b)` and has not come to it yet. -/
theorem virtio_protocol {s : State n Unit (Chan β) (Disk β) (Pc β)} {h : Hist n β}
    (hr : Reach (stepNoted prog note) (fun _ _ => True) (initial, .empty) (s, h)) :
    (s.lock (.mon ()) = none →
      (∀ i f, h.flight i = some f → Formatted s.sh f.call i f.i₁ f.i₂ ∧ (f.chain i).Nodup ∧ ∀ k ∈ f.chain i, k < num) ∧
      ∀ k < num, (s.sh.free k = true ∧ ∀ i f, h.flight i = some f → k ∉ f.chain i) ∨
        s.sh.free k = false ∧ ∃ i f, h.flight i = some f ∧ k ∈ f.chain i ∧
          ∀ j g, h.flight j = some g → k ∈ g.chain j → j = i) ∧
    (s.panic ≠ some "free_desc 1" ∧ s.panic ≠ some "free_desc 2" ∧ s.panic ≠ some "virtio_disk_intr status") ∧
    (∀ a y, stepNoted prog note (s, h) a = some y → ∀ j < (s.sh.avail.idx - s.sh.dev.last).toNat,
      y.1.sh.avail.ring ((s.sh.dev.last.toNat + j) % num) = s.sh.avail.ring ((s.sh.dev.last.toNat + j) % num)) ∧
    (∀ p c, (s.procs p).ctl = .run (.rwRelease c) → Completed h p (h.ticket p) c) ∧
    ∀ q b, (s.procs q).state = .sleeping → (s.procs q).chan = some (.buf b) → s.sh.disk b = false →
      ∃ r, s.lock (.mon ()) = some r ∧ (s.procs r).ctl.Covers (.buf b) (fun l => l = .intrWake b) q := by
  have hstart : OutlineInv held () Inv Knows Waits
      ((initial : State n Unit (Chan β) (Disk β) (Pc β)).keeping (.empty : Hist n β)) :=
    OutlineInv.start inv_init fun q => ⟨⟨nofun, nofun, nofun, nofun⟩, nofun⟩
  have hreach : ∀ {y}, Reach (step (noting prog note)) (fun _ _ => True)
      ((initial : State n Unit (Chan β) (Disk β) (Pc β)).keeping (.empty : Hist n β)) y →
      LockInv held y ∧ OutlineInv held () Inv Knows Waits y := fun hy =>
    outline.reach disciplined.noting (fun _ _ _ _ _ => trivial) (fun _ _ _ _ _ _ _ _ => trivial)
      (LockInv.start fun m => by simp [held, Pc.locked]) hstart hy
  have hrn := reach_noting hr
  have hknows : ∀ {y}, Reach (step (noting prog note)) (fun _ _ => True)
      ((initial : State n Unit (Chan β) (Disk β) (Pc β)).keeping (.empty : Hist n β)) y →
      ∀ q l, (y.procs q).ctl = .run l → Knows q l y.sh := by
    intro y hy q l hl
    have := (hreach hy).2.asserts q
    rwa [hl] at this
  have hpanic : ∀ msg, msg ≠ "release" → s.panic ≠ some msg := fun msg hne =>
    no_panic (s := s.keeping h) (fun y hy q l hl hi => by
      have hk := hknows hy q l hl
      cases l <;> simp only [noting, prog, Instr.noting, reduceCtorEq] at hi
      exact (hk.2 rfl).2.2) rfl hne hrn
  obtain ⟨hl, ho⟩ := hreach hrn
  refine ⟨fun hfree => ?_, ⟨hpanic _ (by decide), hpanic _ (by decide), hpanic _ (by decide)⟩, ?_, fun p c hp => ?_, ?_⟩
  · obtain ⟨hc, -, hown, -⟩ := ho.free hfree
    refine ⟨fun i f hf => ⟨hc.formatted i f hf, hc.chain i f hf⟩, fun k hk => ?_⟩
    have hused := hown.used k hk
    simp only [List.not_mem_nil, false_or] at hused
    cases hfr : s.sh.free k with
    | true =>
      refine .inl ⟨rfl, fun i f hf hm => ?_⟩
      have : s.sh.free k = false := hused.2 ⟨i, f, hf, hm⟩
      rw [hfr] at this
      cases this
    | false =>
      obtain ⟨i, f, hf, hm⟩ := hused.1 hfr
      exact .inr ⟨rfl, i, f, hf, hm, fun j g hg hm' => hc.apart j g i f hg hf k hm' hm⟩
  · rintro ⟨p, r⟩ y hstep j hj
    obtain ⟨s', hs', rfl⟩ := Option.map_eq_some_iff.1 hstep
    cases step_move hs' with
    | act hcl hi =>
      rename_i l f
      dsimp only [goto_sh]
      rcases ring_act hi r s.sh with he | ⟨c, i₀, i₁, i₂, rfl, he⟩
      · rw [he]
      · obtain ⟨hc, hq, hown, -⟩ := (hknows hrn p _ hcl).2 rfl
        have hroom := hown.room hq hc List.mem_cons_self
        have hpub := (pub_setRing hroom : (s.sh.setRing i₀).pub = _)
        rw [he]
        exact List.map_inj_left.1 hpub j (List.mem_range.2 hj)
    | _ => rfl
  · exact (hknows hrn p _ hp).1.done c rfl
  · intro q b hq hb hd
    have hnever : ∀ y, Reach (step (noting prog note)) (fun _ _ => True)
        ((initial : State n Unit (Chan β) (Disk β) (Pc β)).keeping (.empty : Hist n β)) y →
        ∀ p f, (y.procs p).ctl ≠ .killedHold f := fun y hy p f =>
      (no_killed (fun p l f hi => by
        rw [noting, noting_eq_killed] at hi
        cases l <;> simp only [prog, reduceCtorEq] at hi) (by simp [initial, start]) hy p f).2
    have hw := wake_reach (signals b) (fun y hy => (hreach hy).1) (fun y hy => hknows hy)
      SleepInv.start (WakeInv.start (by simp)) hrn fun y p x f q hy _ hf _ _ _ => absurd hf (hnever y hy p f)
    exact hw.2.covers hw.1 hq hb hd

end Outline

/-- Process 0 writes block 5 and sleeps; process 1 makes the steps of the device and takes the
interrupt; process 0 frees the chain. -/
def oneWrite : List (Fin 2 × Req Unit) :=
  List.replicate 15 (0, .rw () true 5) ++ [(1, .consume), (1, .finish 0), (1, .append 0), (1, .advance)] ++
  List.replicate 12 (1, .intr) ++ List.replicate 23 (0, .intr)

/-- The sector of a call that is about to release `vdisk_lock` and return. -/
def returning : Ctl 2 Unit (Chan Unit) (Pc Unit) → Option (BitVec 64)
  | .run (.rwRelease c) => some c.sector
  | _ => none

/-- It returns when its request for sector 10 has been carried out. -/
theorem virtio_protocol_write : ∃ (s : State 2 Unit (Chan Unit) (Disk Unit) (Pc Unit)) (h : Hist 2 Unit) (c : Call Unit),
    (s.procs 0).ctl = .run (.rwRelease c) ∧ h.ticket 0 = 1 ∧ c.sector = 10 ∧ Completed h 0 (h.ticket 0) c := by
  obtain ⟨⟨s, h⟩, hr, hctl, hticket⟩ : ∃ x : State 2 Unit (Chan Unit) (Disk Unit) (Pc Unit) × Hist 2 Unit,
      Reach (stepNoted prog note) (fun _ _ => True) (initial, .empty) x ∧
      returning (x.1.procs 0).ctl = some 10 ∧ x.2.ticket 0 = 1 := exists_reach oneWrite (by decide +kernel)
  unfold returning at hctl
  split at hctl
  · next c hc =>
    exact ⟨s, h, c, hc, hticket, Option.some.inj hctl, (virtio_protocol hr).2.2.2.1 0 c hc⟩
  · cases hctl

end Xv6.Virtio
