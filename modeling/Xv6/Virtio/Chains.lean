import Xv6.Virtio.Driver

/-!
# Descriptors and rings of the disk driver

What holds between the driver and the device at all times. `Hist` is not in the source: it
records which process has a request in flight with which descriptors, and which requests the
device has carried out.

* `Chains`: the three descriptors of a request in flight are formatted as `virtio_disk_rw` left
  them, and no descriptor belongs to two requests.
* `Queues`: every request is in one place at most: published, taken by the device, finished, or
  waiting in the `used` ring.
* `Owned`: the descriptors that are not free are those of the requests in flight and those that
  the process at work has in hand.
-/

namespace Xv6.Virtio

open Function Thread Lib

variable {β : Type} {n : ℕ}

/-- A request in flight: who made it, as which of its requests, and the descriptors behind the
first one. -/
structure Flight (n : ℕ) (β : Type) where
  p : Fin n
  ticket : ℕ
  call : Call β
  i₁ : ℕ
  i₂ : ℕ

/-- The descriptors of a request whose first one is `i`. -/
def Flight.chain (f : Flight n β) (i : ℕ) : List ℕ := [i, f.i₁, f.i₂]

/-- A request that the device has carried out. -/
structure Done (n : ℕ) (β : Type) where
  p : Fin n
  ticket : ℕ
  request : Option (Request β)

/-- What has happened so far. -/
structure Hist (n : ℕ) (β : Type) where
  /-- Who has the sleep-lock of a buffer. -/
  owner : β → Option (Fin n)
  /-- How many requests a process has published. -/
  ticket : Fin n → ℕ
  /-- The requests in flight, by their first descriptor. -/
  flight : ℕ → Option (Flight n β)
  /-- How far `virtio_disk_intr` has come; ahead of `used_idx` while it wakes the caller. -/
  seen : BitVec 16
  done : List (Done n β)

def Hist.empty : Hist n β := ⟨fun _ => none, fun _ => 0, fun _ => none, 0, []⟩

/-- What each action adds to the history. -/
def note [DecidableEq β] (p : Fin n) (l : Pc β) (r : Req β) (t : Disk β) (h : Hist n β) : Hist n β :=
  match l with
  | .idle =>
    match r with
    | .finish i =>
      if i ∈ t.dev.taken then
        match h.flight i with
        | some f => { h with done := ⟨f.p, f.ticket, t.request i⟩ :: h.done }
        | none => h
      else h
    | _ => h
  | .bufLock c => if t.locked c.b = true then h else { h with owner := update h.owner c.b (some p) }
  | .bufUnlock c => { h with owner := update h.owner c.b none }
  | .rwPublish c i₀ i₁ i₂ =>
    { h with
      ticket := update h.ticket p (h.ticket p + 1)
      flight := update h.flight i₀ (some ⟨p, h.ticket p + 1, c, i₁, i₂⟩) }
  | .rwClear _ i₀ => { h with flight := update h.flight i₀ none }
  | .intrRead => { h with seen := t.usedIdx + 1 }
  | _ => h

/-- The device has carried out request number `k` of process `p`, which was `c`. -/
def Completed (h : Hist n β) (p : Fin n) (k : ℕ) (c : Call β) : Prop :=
  ∃ e ∈ h.done, e.p = p ∧ e.ticket = k ∧ e.request = some c.request

/-- The descriptors `i₀`, `i₁`, `i₂` are as `virtio_disk_rw` formats them. -/
structure Formatted (t : Disk β) (c : Call β) (i₀ i₁ i₂ : ℕ) : Prop where
  head : t.desc i₀ = ⟨.op i₀, 16, fNext, i₁⟩
  data : t.desc i₁ = ⟨.data c.b, 1024, c.flags, i₂⟩
  status : t.desc i₂ = ⟨.status i₀, 1, fWrite, 0⟩
  op : t.ops i₀ = ⟨c.type, 0, c.sector⟩
  info : (t.info i₀).b = some c.b

namespace Disk

variable (t : Disk β)

/-- Published and not yet taken by the device. -/
def pub : List ℕ := queue num t.avail.ring t.dev.last t.avail.idx

/-- In the `used` ring, from `k` on. -/
def tail (k : BitVec 16) : List ℕ := queue num t.used.ring k t.used.idx

/-- Not carried out yet. -/
def fresh : List ℕ := t.pub ++ t.dev.taken

/-- Carried out, and not yet seen by `virtio_disk_intr`. -/
def ended (k : BitVec 16) : List ℕ := t.dev.finished ++ (t.dev.writing.toList ++ t.tail k)

/-- The requests between `virtio_disk_rw` and `virtio_disk_intr`. -/
def live (k : BitVec 16) : List ℕ := t.fresh ++ t.ended k

end Disk

structure Chains (t : Disk β) (h : Hist n β) : Prop where
  formatted : ∀ i f, h.flight i = some f → Formatted t f.call i f.i₁ f.i₂
  chain : ∀ i f, h.flight i = some f → (f.chain i).Nodup ∧ ∀ k ∈ f.chain i, k < num
  apart : ∀ i f j g, h.flight i = some f → h.flight j = some g → ∀ k, k ∈ f.chain i → k ∈ g.chain j → i = j
  owner : ∀ i f, h.flight i = some f → h.owner f.call.b = some f.p ∧ t.locked f.call.b = true
  once : ∀ i f j g, h.flight i = some f → h.flight j = some g → f.call.b = g.call.b → i = j

structure Queues (t : Disk β) (h : Hist n β) : Prop where
  nodup : (t.live h.seen).Nodup
  live : ∀ i ∈ t.live h.seen, ∃ f, h.flight i = some f ∧ t.disk f.call.b = true
  status : ∀ i ∈ t.ended h.seen, (t.info i).status = 0
  done : ∀ i f, h.flight i = some f → i ∉ t.fresh → Completed h f.p f.ticket f.call
  writing : ∀ i, t.dev.writing = some i → t.used.ring (t.used.idx.toNat % num) = i

/-- The descriptors in use, apart from those of the requests in flight, are `extra`. -/
structure Owned (extra : List ℕ) (t : Disk β) (h : Hist n β) : Prop where
  nodup : extra.Nodup
  bound : ∀ i ∈ extra, i < num
  apart : ∀ i ∈ extra, ∀ j f, h.flight j = some f → i ∉ f.chain j
  used : ∀ i < num, t.free i = false ↔ i ∈ extra ∨ ∃ j f, h.flight j = some f ∧ i ∈ f.chain j

section Facts

variable {t t' : Disk β} {h h' : Hist n β} {c : Call β} {i j i₀ i₁ i₂ : ℕ} {extra : List ℕ} {f : Flight n β}

theorem num_dvd : num ∣ 2 ^ 16 := by decide

theorem Flight.mem_chain (f : Flight n β) (i : ℕ) : i ∈ f.chain i := List.mem_cons_self

/-- There are `num` descriptors. -/
theorem length_le {L : List ℕ} (hd : L.Nodup) (hb : ∀ i ∈ L, i < num) : L.length ≤ num := by
  have hsub : L ⊆ List.range num := fun i hi => List.mem_range.2 (hb i hi)
  have := (List.subperm_of_subset hd hsub).length_le
  rwa [List.length_range] at this

theorem Queues.bound (hq : Queues t h) (hc : Chains t h) (hi : i ∈ t.live h.seen) : i < num := by
  obtain ⟨f, hf, -⟩ := hq.live i hi
  exact (hc.chain i f hf).2 i (f.mem_chain i)

theorem Queues.length_live (hq : Queues t h) (hc : Chains t h) : (t.live h.seen).length ≤ num :=
  length_le hq.nodup fun _ hi => hq.bound hc hi

theorem Disk.length_live (k : BitVec 16) : (t.live k).length = (t.avail.idx - t.dev.last).toNat +
    t.dev.taken.length + t.dev.finished.length + t.dev.writing.toList.length + (t.used.idx - k).toNat := by
  simp only [Disk.live, Disk.fresh, Disk.ended, Disk.pub, Disk.tail, List.length_append, length_queue]
  omega

theorem Formatted.congr (hf : Formatted t c i₀ i₁ i₂) (hd : ∀ k ∈ [i₀, i₁, i₂], t'.desc k = t.desc k)
    (ho : t'.ops i₀ = t.ops i₀) (hi : (t'.info i₀).b = (t.info i₀).b) : Formatted t' c i₀ i₁ i₂ :=
  ⟨(hd i₀ (by simp)).trans hf.head, (hd i₁ (by simp)).trans hf.data, (hd i₂ (by simp)).trans hf.status,
    ho.trans hf.op, hi.trans hf.info⟩

/-- What the driver has told the device about a chain is what the device reads. -/
theorem Formatted.request (hf : Formatted t c i₀ i₁ i₂) : t.request i₀ = some c.request := by
  simp [Disk.request, hf.head, hf.data, hf.op, Call.request]

theorem Chains.congr (hc : Chains t h) (hfl : h'.flight = h.flight)
    (hf : ∀ i f, h.flight i = some f → Formatted t' f.call i f.i₁ f.i₂)
    (ho : ∀ i f, h.flight i = some f → h'.owner f.call.b = some f.p ∧ t'.locked f.call.b = true) :
    Chains t' h' := by
  refine ⟨?_, ?_, ?_, ?_, ?_⟩ <;> rw [hfl]
  · exact hf
  · exact hc.chain
  · exact hc.apart
  · exact ho
  · exact hc.once

/-- Where the chains are left alone. -/
theorem Chains.quiet (hc : Chains t h) (hfl : h'.flight = h.flight := by rfl) (hd : t'.desc = t.desc := by rfl)
    (ho : t'.ops = t.ops := by rfl) (hi : ∀ i, (t'.info i).b = (t.info i).b := by exact fun _ => rfl)
    (hw : h'.owner = h.owner := by rfl) (hl : t'.locked = t.locked := by rfl) : Chains t' h' := by
  refine hc.congr hfl (fun i f hf => (hc.formatted i f hf).congr (fun _ _ => by rw [hd]) (by rw [ho]) (hi i)) ?_
  rw [hw, hl]
  exact hc.owner

theorem Owned.congr (ho : Owned extra t h) (hfl : h'.flight = h.flight) (hf : t'.free = t.free) :
    Owned extra t' h' := by
  refine ⟨ho.nodup, ho.bound, ?_, ?_⟩
  · rw [hfl]; exact ho.apart
  · rw [hfl, hf]; exact ho.used

/-- Where no request changes its place. -/
theorem Queues.congr (hq : Queues t h) (hfl : h'.flight = h.flight) (hs : h'.seen = h.seen)
    (hd : ∀ e ∈ h.done, e ∈ h'.done) (ha : t'.fresh = t.fresh) (hu : t'.used = t.used) (hv : t'.dev = t.dev)
    (hdisk : ∀ i f, h.flight i = some f → t.disk f.call.b = true → t'.disk f.call.b = true)
    (hi : ∀ i ∈ t.ended h.seen, (t'.info i).status = (t.info i).status) : Queues t' h' := by
  have he : t'.ended h'.seen = t.ended h.seen := by simp only [Disk.ended, Disk.tail, hs, hu, hv]
  have hl : t'.live h'.seen = t.live h.seen := by rw [Disk.live, Disk.live, he, ha]
  refine ⟨by rw [hl]; exact hq.nodup, fun i hm => ?_, fun i hm => ?_, fun i f hf hm => ?_, fun i hm => ?_⟩
  · rw [hl] at hm
    obtain ⟨f, hf, hb⟩ := hq.live i hm
    exact ⟨f, hfl ▸ hf, hdisk i f hf hb⟩
  · rw [he] at hm
    rw [hi i hm]
    exact hq.status i hm
  · obtain ⟨e, hm', h1⟩ := hq.done i f (hfl ▸ hf) (ha ▸ hm)
    exact ⟨e, hd e hm', h1⟩
  · rw [hv] at hm
    rw [hu]
    exact hq.writing i hm

end Facts

/-! ## The steps of the device -/

section Device

variable {t : Disk β} {h : Hist n β} {i : ℕ}

/-- Requests move from one place to another. -/
theorem Queues.move {t' : Disk β} (hq : Queues t h) (hp : (t'.live h.seen).Perm (t.live h.seen))
    (hdisk : t'.disk = t.disk) (hs : ∀ i ∈ t'.ended h.seen, (t'.info i).status = 0)
    (hd : ∀ i f, h.flight i = some f → i ∉ t'.fresh → Completed h f.p f.ticket f.call)
    (hw : ∀ i, t'.dev.writing = some i → t'.used.ring (t'.used.idx.toNat % num) = i) : Queues t' h :=
  ⟨hp.nodup_iff.2 hq.nodup, fun i hm => by rw [hdisk]; exact hq.live i (hp.mem_iff.1 hm), hs, hd, hw⟩

/-- Two places are told apart by how often a request occurs in them. -/
theorem Disk.count_live (k : BitVec 16) (a : ℕ) : (t.live k).count a = t.pub.count a + t.dev.taken.count a +
    t.dev.finished.count a + t.dev.writing.toList.count a + (t.tail k).count a := by
  simp only [Disk.live, Disk.fresh, Disk.ended, List.count_append]
  omega

theorem queues_consume (hq : Queues t h) : Queues t.consume h := by
  unfold Disk.consume
  split
  · exact hq
  next hne =>
  have hpop : t.pub = t.avail.ring (t.dev.last.toNat % num) ::
      queue num t.avail.ring (t.dev.last + 1) t.avail.idx := queue_pop num_dvd _ hne
  refine hq.move (List.perm_iff_count.2 fun a => ?_) rfl hq.status (fun i f hf hm => hq.done i f hf fun hi => hm ?_)
    hq.writing
  · rw [Disk.count_live, Disk.count_live, hpop]
    simp only [Disk.pub, Disk.tail, List.count_append, List.count_cons, List.count_nil]
    omega
  · rw [Disk.fresh, hpop, List.mem_append, List.mem_cons] at hi
    simp only [Disk.fresh, Disk.pub, List.mem_append, List.mem_singleton]
    tauto

theorem chains_consume (hc : Chains t h) : Chains t.consume h := by
  unfold Disk.consume
  split
  · exact hc
  · exact hc.quiet

/-- What the device does to a request that it has taken. -/
theorem finish_eq (hq : Queues t h) (hc : Chains t h) (hi : i ∈ t.dev.taken) :
    t.finish i = { t with
      info := update t.info i { t.info i with status := 0 }
      dev := { t.dev with taken := t.dev.taken.erase i, finished := i :: t.dev.finished } } := by
  obtain ⟨f, hf, -⟩ := hq.live i (by simp [Disk.live, Disk.fresh, hi])
  have hform := hc.formatted i f hf
  simp [Disk.finish, hi, hform.head, hform.data, hform.status, Disk.setStatus]

/-- The device stores a finished request in the `used` ring. -/
theorem queues_append (hq : Queues t h) (hc : Chains t h) : Queues (t.append i) h := by
  unfold Disk.append
  split
  · next hi =>
    obtain ⟨hi, hw⟩ := hi
    -- there is a free entry, since the request itself is not in the ring yet
    have hroom : (t.used.idx - h.seen).toNat < num := by
      have h1 := hq.length_live hc
      rw [Disk.length_live] at h1
      have h2 := List.length_pos_of_mem hi
      omega
    have htail : queue num (update t.used.ring (t.used.idx.toNat % num) i) h.seen t.used.idx =
        t.tail h.seen := queue_update num_dvd _ hroom i
    refine hq.move (List.perm_iff_count.2 fun a => ?_) rfl (fun j hj => hq.status j ?_) hq.done (fun j hj => ?_)
    · have := (List.perm_cons_erase hi).count_eq a
      rw [Disk.count_live, Disk.count_live]
      simp only [Disk.pub, Disk.tail, List.count_cons, Option.toList, hw, List.count_nil] at this htail ⊢
      rw [htail]
      omega
    · simp only [Disk.ended, Disk.tail, Option.toList, hw, List.mem_append, List.mem_singleton, List.nil_append] at hj htail ⊢
      rw [htail] at hj
      rcases hj with hj | rfl | hj
      · exact .inl (List.mem_of_mem_erase hj)
      · exact .inl hi
      · exact .inr hj
    · cases hj
      exact update_self ..
  · exact hq

theorem chains_append (hc : Chains t h) : Chains (t.append i) h := by
  unfold Disk.append
  split
  · exact hc.quiet
  · exact hc

/-- The device counts the entry that it has stored. -/
theorem queues_advance (hq : Queues t h) (hc : Chains t h) : Queues t.advance h := by
  cases hw : t.dev.writing with
  | none => simp only [Disk.advance, hw, if_true]; exact hq
  | some i =>
    have hlen := hq.length_live hc
    rw [Disk.length_live] at hlen
    have hring := hq.writing i hw
    have htail : queue num t.used.ring h.seen (t.used.idx + 1) = t.tail h.seen ++ [i] := by
      have := queue_push num_dvd t.used.ring (r := h.seen) (i := t.used.idx) (by unfold num at hlen; omega)
      rw [hring] at this
      exact this
    simp only [Disk.advance, hw, reduceCtorEq, if_false]
    refine hq.move (List.perm_iff_count.2 fun a => ?_) rfl (fun j hj => hq.status j ?_) hq.done (by simp)
    · rw [Disk.count_live, Disk.count_live]
      simp only [Disk.pub, Disk.tail, htail, hw, Option.toList, List.count_append, List.count_nil]
      omega
    · simp only [Disk.ended, Disk.tail, htail, hw, Option.toList, List.mem_append, List.mem_singleton,
        List.nil_append] at hj ⊢
      tauto

theorem chains_advance (hc : Chains t h) : Chains t.advance h := by
  unfold Disk.advance
  split
  · exact hc
  · exact hc.quiet

variable [DecidableEq β] {p : Fin n}

/-- The device finishes a request. -/
theorem queues_finish (hq : Queues t h) (hc : Chains t h) :
    Queues (t.finish i) (note p .idle (.finish i) t h) := by
  by_cases hi : i ∈ t.dev.taken
  · obtain ⟨f, hf, -⟩ := hq.live i (by simp [Disk.live, Disk.fresh, hi])
    rw [finish_eq hq hc hi]
    simp only [note, if_pos hi, hf]
    have hq' : Queues t { h with done := ⟨f.p, f.ticket, t.request i⟩ :: h.done } :=
      hq.congr rfl rfl (fun e he => List.mem_cons_of_mem _ he) rfl rfl rfl (fun _ _ _ hb => hb) fun _ _ => rfl
    refine hq'.move (List.perm_iff_count.2 fun a => ?_) rfl (fun j hj => ?_) (fun j g hg hj => ?_) hq.writing
    · have := (List.perm_cons_erase hi).count_eq a
      rw [Disk.count_live, Disk.count_live]
      simp only [Disk.pub, Disk.tail, List.count_cons] at this ⊢
      omega
    · dsimp only
      rw [update_apply]
      split
      · rfl
      next hne =>
      refine hq.status j ?_
      simp only [Disk.ended, List.cons_append, List.mem_cons] at hj
      exact hj.resolve_left hne
    · by_cases hfresh : j ∈ t.fresh
      · -- `i` is the one that is no longer there
        have hji : j = i := by
          by_contra hne
          refine hj ?_
          rw [Disk.fresh, List.mem_append] at hfresh ⊢
          exact hfresh.imp_right fun hm => (List.mem_erase_of_ne hne).2 hm
        subst hji
        have hfg : f = g := Option.some.inj (hf.symm.trans hg)
        subst hfg
        exact ⟨_, List.mem_cons_self, rfl, rfl, (hc.formatted j f hf).request⟩
      · exact hq'.done j g hg hfresh
  · simp only [Disk.finish, note, if_neg hi]
    exact hq

theorem chains_finish (hq : Queues t h) (hc : Chains t h) : Chains (t.finish i) (note p .idle (.finish i) t h) := by
  by_cases hi : i ∈ t.dev.taken
  · obtain ⟨f, hf, -⟩ := hq.live i (by simp [Disk.live, Disk.fresh, hi])
    rw [finish_eq hq hc hi]
    simp only [note, if_pos hi, hf]
    refine hc.congr rfl (fun j g hg => (hc.formatted j g hg).congr (fun _ _ => rfl) rfl ?_) hc.owner
    dsimp only
    rw [update_apply]
    split
    · next he => rw [he]
    · rfl
  · simp only [Disk.finish, note, if_neg hi]
    exact hc

end Device

/-! ## The steps of the driver -/

section Driver

variable {t : Disk β} {h : Hist n β} {c : Call β} {i i₀ i₁ i₂ : ℕ} {extra : List ℕ} {f : Flight n β} {p : Fin n}

theorem Owned.no_flight (ho : Owned extra t h) (hi : i ∈ extra) : h.flight i = none := by
  cases hf : h.flight i with
  | none => rfl
  | some f => exact absurd (f.mem_chain i) (ho.apart i hi i f hf)

theorem Owned.not_live (ho : Owned extra t h) (hq : Queues t h) (hi : i ∈ extra) : i ∉ t.live h.seen := by
  intro hm
  obtain ⟨f, hf, -⟩ := hq.live i hm
  rw [ho.no_flight hi] at hf
  cases hf

/-- `alloc_desc` takes a free descriptor. -/
theorem Owned.take (ho : Owned extra t h) (hi : t.allocDesc = some i) : Owned (extra ++ [i]) (t.take i) h := by
  have hfree : t.free i = true := List.find?_some hi
  have hlt : i < num := List.mem_range.1 (List.mem_of_find?_eq_some hi)
  have hnot : ¬ (i ∈ extra ∨ ∃ j f, h.flight j = some f ∧ i ∈ f.chain j) := by
    rw [← ho.used i hlt, hfree]
    nofun
  refine ⟨List.nodup_append.2 ⟨ho.nodup, List.nodup_singleton i, ?_⟩, fun j hj => ?_, fun j hj k f hf hm => ?_,
    fun j hj => ?_⟩
  · rintro j hj k hk rfl
    exact hnot (.inl (List.mem_singleton.1 hk ▸ hj))
  · rcases List.mem_append.1 hj with hj | hj
    · exact ho.bound j hj
    · rw [List.mem_singleton.1 hj]; exact hlt
  · rcases List.mem_append.1 hj with hj | hj
    · exact ho.apart j hj k f hf hm
    · rw [List.mem_singleton.1 hj] at hm
      exact hnot (.inr ⟨k, f, hf, hm⟩)
  · simp only [Disk.take, update_apply, List.mem_append, List.mem_singleton]
    split
    · next he => simp [he]
    · next he => rw [ho.used j hj]; simp [he]

/-- `free_desc` on a descriptor in hand does not panic. -/
theorem Owned.freeDesc (ho : Owned (i :: extra) t h) : t.freeDesc i = .ok { t with
    desc := update t.desc i ⟨.null, 0, 0, 0⟩, free := update t.free i true } := by
  have hlt := ho.bound i List.mem_cons_self
  have hused : t.free i = false := (ho.used i hlt).2 (.inl List.mem_cons_self)
  simp [Disk.freeDesc, Nat.not_le.2 hlt, hused]

theorem Owned.free {d : ℕ → Desc β} (ho : Owned (i :: extra) t h) :
    Owned extra { t with desc := d, free := update t.free i true } h := by
  obtain ⟨hnot, hd⟩ := List.nodup_cons.1 ho.nodup
  refine ⟨hd, fun j hj => ho.bound j (List.mem_cons_of_mem _ hj), fun j hj => ho.apart j (List.mem_cons_of_mem _ hj),
    fun j hj => ?_⟩
  dsimp only
  rw [update_apply]
  split
  · next he =>
    subst he
    refine iff_of_false nofun ?_
    rintro (hm | ⟨k, f, hf, hm⟩)
    · exact hnot hm
    · exact ho.apart j List.mem_cons_self k f hf hm
  · next he => rw [ho.used j hj, List.mem_cons]; simp [he]

/-- The descriptors in hand are no part of a request in flight. -/
theorem Owned.outside (ho : Owned extra t h) (hi : i ∈ extra) (hf : h.flight i₀ = some f) : ∀ k ∈ f.chain i₀, k ≠ i := by
  rintro k hk rfl
  exact ho.apart k hi i₀ f hf hk

theorem Chains.free (hc : Chains t h) (ho : Owned (i :: extra) t h) : Chains { t with
    desc := update t.desc i ⟨.null, 0, 0, 0⟩, free := update t.free i true } h :=
  hc.congr rfl (fun j g hg => (hc.formatted j g hg).congr
    (fun k hk => update_of_ne (ho.outside List.mem_cons_self hg k hk) ..) rfl rfl) hc.owner

theorem Queues.quiet {t' : Disk β} (hq : Queues t h) (ha : t'.avail = t.avail := by rfl)
    (hu : t'.used = t.used := by rfl) (hv : t'.dev = t.dev := by rfl) (hdisk : t'.disk = t.disk := by rfl)
    (hi : t'.info = t.info := by rfl) : Queues t' h := by
  refine hq.congr rfl rfl (fun _ he => he) ?_ hu hv ?_ ?_
  · simp only [Disk.fresh, Disk.pub, ha, hv]
  · rw [hdisk]; exact fun _ _ _ hb => hb
  · rw [hi]; exact fun _ _ => rfl

/-- There is a free entry in the `avail` ring for a request that is not published yet. -/
theorem Owned.room (ho : Owned extra t h) (hq : Queues t h) (hc : Chains t h) (hi : i ∈ extra) :
    (t.avail.idx - t.dev.last).toNat < num := by
  have hnot : i ∉ t.pub := fun hm => ho.not_live hq hi (List.mem_append_left _ (List.mem_append_left _ hm))
  have hd : t.pub.Nodup := (List.nodup_append.1 (List.nodup_append.1 hq.nodup).1).1
  have := length_le (L := i :: t.pub) (List.nodup_cons.2 ⟨hnot, hd⟩) (by
    intro j hj
    rcases List.mem_cons.1 hj with rfl | hj
    · exact ho.bound j hi
    · exact hq.bound hc (List.mem_append_left _ (List.mem_append_left _ hj)))
  rw [List.length_cons, Disk.pub, length_queue] at this
  omega

/-- The entry of the `avail` ring that is written is not one that the device has yet to take. -/
theorem pub_setRing (hroom : (t.avail.idx - t.dev.last).toNat < num) : (t.setRing i₀).pub = t.pub :=
  queue_update num_dvd _ hroom i₀

theorem pub_publish (hroom : (t.avail.idx - t.dev.last).toNat < num) :
    t.publish.pub = t.pub ++ [t.avail.ring (t.avail.idx.toNat % num)] :=
  queue_push num_dvd _ (r := t.dev.last) (i := t.avail.idx) (by unfold num at hroom; omega)

variable [DecidableEq β]

/-! ### Formatting a request -/

theorem formatted_format (hd : [i₀, i₁, i₂].Nodup) : Formatted (t.format c i₀ i₁ i₂) c i₀ i₁ i₂ := by
  have h01 : i₀ ≠ i₁ := by rintro rfl; simp at hd
  have h02 : i₀ ≠ i₂ := by rintro rfl; simp at hd
  have h12 : i₁ ≠ i₂ := by rintro rfl; simp at hd
  constructor <;> simp [Disk.format, h01, h02, h12]

theorem Chains.format (hc : Chains t h) (ho : Owned [i₀, i₁, i₂] t h) : Chains (t.format c i₀ i₁ i₂) h := by
  refine hc.congr rfl (fun j g hg => (hc.formatted j g hg).congr (fun k hk => ?_) ?_ ?_) hc.owner
  · have h0 := ho.outside (i := i₀) (by simp) hg k hk
    have h1 := ho.outside (i := i₁) (by simp) hg k hk
    have h2 := ho.outside (i := i₂) (by simp) hg k hk
    simp [Disk.format, h0, h1, h2]
  · exact update_of_ne (ho.outside (by simp) hg j (g.mem_chain j)) ..
  · simp only [Disk.format]
    rw [update_of_ne (ho.outside (by simp) hg j (g.mem_chain j))]

theorem Queues.format (hq : Queues t h) (ho : Owned [i₀, i₁, i₂] t h) : Queues (t.format c i₀ i₁ i₂) h := by
  refine hq.congr rfl rfl (fun _ he => he) rfl rfl rfl (fun j g _ hb => ?_) (fun j hj => ?_)
  · simp only [Disk.format, update_apply]
    split
    · rfl
    · exact hb
  · have hne : j ≠ i₀ := by
      rintro rfl
      exact ho.not_live hq (i := j) (by simp) (List.mem_append_right _ hj)
    simp only [Disk.format]
    rw [update_of_ne hne]

/-- **A request is published.** -/
theorem Chains.publish (hc : Chains t h) (ho : Owned [i₀, i₁, i₂] t h) (hf : Formatted t c i₀ i₁ i₂)
    (hown : h.owner c.b = some p ∧ t.locked c.b = true) (hp : ∀ i f, h.flight i = some f → f.p ≠ p) :
    Chains t.publish (note p (.rwPublish c i₀ i₁ i₂) .intr t h) := by
  have hnew : ∀ j g, update h.flight i₀ (some ⟨p, h.ticket p + 1, c, i₁, i₂⟩) j = some g →
      j = i₀ ∧ g = ⟨p, h.ticket p + 1, c, i₁, i₂⟩ ∨ j ≠ i₀ ∧ h.flight j = some g := by
    intro j g hg
    rw [update_apply] at hg
    split at hg
    · next he => exact .inl ⟨he, (Option.some.inj hg).symm⟩
    · next he => exact .inr ⟨he, hg⟩
  have hapart : ∀ {j g}, h.flight j = some g → ∀ k ∈ [i₀, i₁, i₂], k ∉ g.chain j := fun hg k hk =>
    ho.apart k hk _ _ hg
  have hbuf : ∀ {j g}, h.flight j = some g → g.call.b ≠ c.b := by
    intro j g hg he
    have := (hc.owner j g hg).1
    rw [he, hown.1] at this
    exact hp j g hg (Option.some.inj this).symm
  refine ⟨fun j g hg => ?_, fun j g hg => ?_, fun j g k e hg he a ha hb => ?_, fun j g hg => ?_,
    fun j g k e hg he hb => ?_⟩
  · rcases hnew j g hg with ⟨rfl, rfl⟩ | ⟨-, hg⟩
    · exact hf.congr (fun _ _ => rfl) rfl rfl
    · exact (hc.formatted j g hg).congr (fun _ _ => rfl) rfl rfl
  · rcases hnew j g hg with ⟨rfl, rfl⟩ | ⟨-, hg⟩
    · exact ⟨ho.nodup, ho.bound⟩
    · exact hc.chain j g hg
  · rcases hnew j g hg with ⟨rfl, rfl⟩ | ⟨-, hg'⟩ <;> rcases hnew k e he with ⟨rfl, rfl⟩ | ⟨-, he'⟩
    · rfl
    · exact absurd hb (hapart he' a ha)
    · exact absurd ha (hapart hg' a hb)
    · exact hc.apart j g k e hg' he' a ha hb
  · rcases hnew j g hg with ⟨rfl, rfl⟩ | ⟨-, hg⟩
    · exact hown
    · exact hc.owner j g hg
  · rcases hnew j g hg with ⟨rfl, rfl⟩ | ⟨-, hg'⟩ <;> rcases hnew k e he with ⟨rfl, rfl⟩ | ⟨-, he'⟩
    · rfl
    · exact absurd hb.symm (hbuf he')
    · exact absurd hb (hbuf hg')
    · exact hc.once j g k e hg' he' hb

theorem Queues.publish (hq : Queues t h) (hc : Chains t h) (ho : Owned [i₀, i₁, i₂] t h) (hd : t.disk c.b = true)
    (hr : t.avail.ring (t.avail.idx.toNat % num) = i₀) :
    Queues t.publish (note p (.rwPublish c i₀ i₁ i₂) .intr t h) := by
  have hmem : i₀ ∈ [i₀, i₁, i₂] := List.mem_cons_self
  have hpub := pub_publish (ho.room hq hc hmem)
  rw [hr] at hpub
  have hperm : (t.publish.live h.seen).Perm (i₀ :: t.live h.seen) := by
    refine List.perm_iff_count.2 fun a => ?_
    rw [List.count_cons, Disk.count_live, Disk.count_live, hpub, List.count_append, List.count_singleton]
    simp only [Disk.publish, Disk.tail]
    omega
  have hfl : ∀ {j}, j ≠ i₀ → (note p (.rwPublish c i₀ i₁ i₂) .intr t h).flight j = h.flight j := fun hne =>
    update_of_ne hne ..
  refine ⟨hperm.nodup_iff.2 (List.nodup_cons.2 ⟨ho.not_live hq hmem, hq.nodup⟩), fun j hj => ?_, hq.status,
    fun j g hg hj => ?_, hq.writing⟩
  · rcases List.mem_cons.1 (hperm.mem_iff.1 hj) with rfl | hj'
    · exact ⟨_, update_self .., hd⟩
    · have hne : j ≠ i₀ := by
        rintro rfl
        exact ho.not_live hq hmem hj'
      obtain ⟨g, hg, hb⟩ := hq.live j hj'
      exact ⟨g, (hfl hne).trans hg, hb⟩
  · have hne : j ≠ i₀ := by
      rintro rfl
      refine hj (List.mem_append_left _ ?_)
      rw [hpub]
      exact List.mem_append_right _ List.mem_cons_self
    refine hq.done j g ((hfl hne).symm.trans hg) fun hm => hj ?_
    rw [Disk.fresh, List.mem_append] at hm ⊢
    refine hm.imp_left fun hm => ?_
    rw [hpub]
    exact List.mem_append_left _ hm

theorem Owned.publish (ho : Owned [i₀, i₁, i₂] t h) :
    Owned [] t.publish (note p (.rwPublish c i₀ i₁ i₂) .intr t h) := by
  refine ⟨.nil, nofun, nofun, fun i hi => (ho.used i hi).trans ?_⟩
  simp only [List.not_mem_nil, false_or]
  constructor
  · rintro (hm | ⟨j, f, hf, hm⟩)
    · exact ⟨i₀, _, update_self .., hm⟩
    · refine ⟨j, f, (update_of_ne ?_ ..).trans hf, hm⟩
      rintro rfl
      rw [ho.no_flight List.mem_cons_self] at hf
      cases hf
  · rintro ⟨j, f, hf, hm⟩
    dsimp only [note] at hf
    rw [update_apply] at hf
    split at hf
    · next he =>
      cases hf
      subst he
      exact .inl hm
    · exact .inr ⟨j, f, hf, hm⟩

/-! ### Ending a request -/

/-- `virtio_disk_intr` sees that a request is done. -/
theorem Queues.setDone (hq : Queues t h) (hc : Chains t h) (hs : h.seen = t.usedIdx) (hf : h.flight t.usedId = some f)
    (hne : t.tail h.seen ≠ []) : Queues (t.setDone f.call.b) (note p .intrRead .intr t h) := by
  have hpop : t.tail h.seen = t.usedId :: t.tail (t.usedIdx + 1) := by
    rw [Disk.tail, hs]
    exact queue_pop num_dvd _ fun he => hne (queue_eq_nil.2 (hs.trans he))
  have hperm : (t.live h.seen).Perm (t.usedId :: t.live (t.usedIdx + 1)) := by
    refine List.perm_iff_count.2 fun a => ?_
    rw [List.count_cons, Disk.count_live, Disk.count_live, hpop, List.count_cons]
    omega
  obtain ⟨hnot, hd⟩ := List.nodup_cons.1 (hperm.nodup_iff.1 hq.nodup)
  refine ⟨hd, fun j hj => ?_, fun j hj => hq.status j ?_, hq.done, hq.writing⟩
  · obtain ⟨g, hg, hb⟩ := hq.live j (hperm.mem_iff.2 (List.mem_cons_of_mem _ hj))
    refine ⟨g, hg, (update_of_ne (fun he => ?_) ..).trans hb⟩
    rw [hc.once j g _ f hg hf he] at hj
    exact hnot hj
  · rw [Disk.ended, hpop]
    simp only [Disk.ended, Disk.setDone, note, List.mem_append, List.mem_cons] at hj ⊢
    tauto

/-- The caller clears `disk.info[idx[0]].b`. -/
theorem Chains.clear (hc : Chains t h) : Chains (t.clear i₀) (note p (.rwClear c i₀) .intr t h) := by
  have hold : ∀ j g, update h.flight i₀ none j = some g → j ≠ i₀ ∧ h.flight j = some g := by
    intro j g hg
    rw [update_apply] at hg
    split at hg
    · cases hg
    · next he => exact ⟨he, hg⟩
  refine ⟨fun j g hg => ?_, fun j g hg => hc.chain j g (hold j g hg).2,
    fun j g k e hg he => hc.apart j g k e (hold j g hg).2 (hold k e he).2,
    fun j g hg => hc.owner j g (hold j g hg).2,
    fun j g k e hg he => hc.once j g k e (hold j g hg).2 (hold k e he).2⟩
  obtain ⟨hne, hg⟩ := hold j g hg
  refine (hc.formatted j g hg).congr (fun _ _ => rfl) rfl ?_
  simp only [Disk.clear]
  rw [update_of_ne hne]

theorem Queues.clear (hq : Queues t h) (hf : h.flight i₀ = some f) (hd : t.disk f.call.b = false) :
    Queues (t.clear i₀) (note p (.rwClear c i₀) .intr t h) := by
  have hnot : i₀ ∉ t.live h.seen := by
    intro hm
    obtain ⟨g, hg, hb⟩ := hq.live i₀ hm
    obtain rfl : f = g := Option.some.inj (hf.symm.trans hg)
    rw [hd] at hb
    cases hb
  refine ⟨hq.nodup, fun j hj => ?_, fun j hj => ?_, fun j g hg => ?_, hq.writing⟩
  · have hne : j ≠ i₀ := fun he => hnot (he ▸ hj)
    obtain ⟨g, hg, hb⟩ := hq.live j hj
    exact ⟨g, (update_of_ne hne ..).trans hg, hb⟩
  · have hne : j ≠ i₀ := fun he => hnot (he ▸ List.mem_append_right _ hj)
    simp only [Disk.clear]
    rw [update_of_ne hne]
    exact hq.status j hj
  · dsimp only [note] at hg
    rw [update_apply] at hg
    split at hg
    · cases hg
    · exact hq.done j g hg

theorem Owned.clear (ho : Owned [] t h) (hc : Chains t h) (hf : h.flight i₀ = some f) :
    Owned (f.chain i₀) (t.clear i₀) (note p (.rwClear c i₀) .intr t h) := by
  have hold : ∀ j g, update h.flight i₀ none j = some g → j ≠ i₀ ∧ h.flight j = some g := by
    intro j g hg
    rw [update_apply] at hg
    split at hg
    · cases hg
    · next he => exact ⟨he, hg⟩
  obtain ⟨h1, h2⟩ := hc.chain i₀ f hf
  refine ⟨h1, h2, fun k hk j g hg hm => ?_, fun k hk => (ho.used k hk).trans ?_⟩
  · obtain ⟨hne, hg⟩ := hold j g hg
    exact hne (hc.apart j g i₀ f hg hf k hm hk)
  · simp only [List.not_mem_nil, false_or]
    constructor
    · rintro ⟨j, g, hg, hm⟩
      rcases eq_or_ne j i₀ with rfl | hne
      · obtain rfl : f = g := Option.some.inj (hf.symm.trans hg)
        exact .inl hm
      · exact .inr ⟨j, g, (update_of_ne hne ..).trans hg, hm⟩
    · rintro (hm | ⟨j, g, hg, hm⟩)
      · exact ⟨i₀, f, hf, hm⟩
      · exact ⟨j, g, (hold j g hg).2, hm⟩

end Driver

end Xv6.Virtio
