import Xv6.Bio.Protocol

/-!
# What the cache and the log know of the contents

The invariant behind the transparency of the buffer cache: the disk may lag behind what was
stored only for the blocks in `log.lh` that are not installed yet, for a buffer that an operation
has changed and not yet logged, and for the log block that `commit` is about to write
(`Inv.fresh`). A block of the first kind has a buffer that is pinned exactly once, and the buffer
of the others is locked, so that none of them can be evicted.

* `Ready.stable`: what one process knows survives the steps of the others.
-/

namespace Xv6.Bio

open Function Lib Conc

variable {n m : ℕ}

/-- A locked buffer has what was last stored to its block. -/
def Holding (t : Data m) (h : Hist n m) (b : Fin m) : Prop :=
  (t.buf b).valid = true ∧ (t.buf b).data = h.store (t.buf b).dev (t.buf b).blockno

/-- A buffer that is valid has what was last stored to its block. -/
def Guarded (t : Data m) (h : Hist n m) (b : Fin m) : Prop :=
  (t.buf b).valid = true → (t.buf b).data = h.store (t.buf b).dev (t.buf b).blockno

/-- The process has changed the block and neither logged nor written it yet. -/
def Dirties (l : Local m) (t : Data m) (dev blockno : ℕ) : Prop :=
  ∃ b, (b ∈ l.unlogged ∨ l.pc.flushes = some b) ∧ t.About b dev blockno

/-- The buffer that `log_write` has pinned and whose block is not yet in `log.lh`. -/
def Pc.pinning : Pc m → Option (Fin m)
  | .bpinUnlock b _ | .writeAdd b => some b
  | _ => none

/-- What holds at all times. -/
structure Inv (c : Conf) (t : Data m) (h : Hist n m) : Prop where
  tidy : ∀ q, Tidy (h.pcs q)
  ops : t.log.outstanding = (Finset.univ.filter fun q => (h.pcs q).inOp = true).card
  quiet : t.log.committing = true → t.log.outstanding = 0
  commits : ∀ q, (h.pcs q).pc.commits = true → t.log.committing = true
  one : ∀ q q', (h.pcs q).pc.commits = true → (h.pcs q').pc.commits = true → q = q'
  idle : t.log.committing = false → h.installed = 0
  valid : ∀ q, ∀ b ∈ (h.pcs q).held, (t.buf b).valid = true
  nodup : t.log.lh.Nodup
  home : ∀ x ∈ t.log.lh, ¬ c.geom.Inside x
  short : t.log.lh.length ≤ min logsize (c.geom.size - 1)
  fresh : ∀ dev x, t.disk dev x = h.store dev x ∨ (dev = c.dev ∧ x ∈ t.log.lh.drop h.installed) ∨
    ∃ q, Dirties (h.pcs q) t dev x
  pinned : ∀ x ∈ t.log.lh.drop h.installed, ∃ b, t.About b c.dev x ∧ 0 < h.pins b ∧ (t.buf b).valid = true
  pins : ∀ b, 0 < h.pins b → h.pins b = 1 ∧ (t.buf b).dev = c.dev ∧
    ((t.buf b).blockno ∈ t.log.lh.drop h.installed ∨ ∃ q, (h.pcs q).pc.pinning = some b)

/-- What a process knows. -/
structure Knows (c : Conf) (p : Fin n) (l : Local m) (t : Data m) (h : Hist n m) : Prop where
  holding : ∀ b ∈ l.held, Holding t h b
  reading : ∀ b k, l.pc = .breadValid b k → Guarded t h b
  missing : ∀ b k, l.pc = .breadDisk b k → (t.buf b).valid = false
  stage : Stage c t h l.pc
  alone : l.pc.log = true → ∀ q, q ≠ p → (h.pcs q).pc.pinning = none

/-- What the structure of the cache gives a process. -/
structure Solid (p : Fin n) (l : Local m) (t : Data m) (h : Hist n m) : Prop where
  place : At p l h
  counted : Counted t h
  ordered : ∃ L, Ordered t h.zeroed h.clock L
  fits : Fits l

/-- A short name for the entry of `log.lh`. -/
theorem getD_eq {L : List ℕ} {j : ℕ} (hj : j < L.length) : L.getD j 0 = L[j] := by
  simp [List.getD, List.getElem?_eq_getElem hj]

section Facts

variable {c : Conf} {p q : Fin n} {l : Local m} {r : Req m} {t : Data m} {h : Hist n m}

theorem Inv.of_inOp (hi : Inv c t h) (hq : (h.pcs q).inOp = true) : t.log.committing = false := by
  have hpos : 0 < (Finset.univ.filter fun q => (h.pcs q).inOp = true).card :=
    Finset.card_pos.2 ⟨q, by simp [hq]⟩
  have := hi.ops
  cases hc : t.log.committing with
  | false => rfl
  | true => have := hi.quiet hc; omega

/-- No operation is outstanding while a process commits. -/
theorem Inv.of_commits (hi : Inv c t h) (hp : (h.pcs p).pc.commits = true) (q : Fin n) :
    (h.pcs q).inOp = false := by
  cases hq : (h.pcs q).inOp with
  | false => rfl
  | true => have := hi.of_inOp hq; rw [hi.commits p hp] at this; cases this

theorem Solid.holds (hs : Solid p l t h) {b : Fin m} (hb : l.holds b) : 0 < (t.buf b).refcnt :=
  (Nat.zero_le _).trans_lt (hs.counted.holds hs.place hb)

theorem Solid.held (hs : Solid p l t h) {b : Fin m} (hb : b ∈ l.held) : 0 < (t.buf b).refcnt :=
  hs.holds (.inl hb)

theorem Solid.waits (hs : Solid p l t h) {b : Fin m} (hb : l.pc.waits = some b) : 0 < (t.buf b).refcnt := by
  have : 0 < (Finset.univ.filter fun q => (h.pcs q).pc.waits = some b).card :=
    Finset.card_pos.2 ⟨p, by simp [show h.pcs p = l from hs.place, hb]⟩
  have := hs.counted b
  omega

theorem Solid.pins (hs : Solid p l t h) {b : Fin m} (hb : 0 < h.pins b) : 0 < (t.buf b).refcnt := by
  have := hs.counted b
  omega

/-- Two buffers in use for one block are the same. -/
theorem Solid.unique (hs : Solid p l t h) {a b : Fin m} {dev x : ℕ} (ha : 0 < (t.buf a).refcnt)
    (hb : 0 < (t.buf b).refcnt ∨ (t.buf b).valid = true) (ka : t.About a dev x) (kb : t.About b dev x) :
    a = b := by
  obtain ⟨L, hL⟩ := hs.ordered
  exact hL.unique (.inl ha) hb (ka.1.trans kb.1.symm) (ka.2.trans kb.2.symm)

/-- The block that `install_trans` unpins is pinned. -/
theorem Knows.unpin (hk : Knows c p l t h) (hi : Inv c t h) (hs : Solid p l t h) {b : Fin m}
    {k : Option (ℕ × Fin m)} (hl : l.pc = .bunpinDec b k) : 0 < h.pins b := by
  have hst := hk.stage
  rw [hl] at hst
  obtain ⟨tail, lbuf, -, ⟨-, -, hin⟩, hlt, hab, -⟩ := hst
  have hmem : t.log.lh.getD tail 0 ∈ t.log.lh.drop h.installed := by
    rw [hin, List.drop_eq_getElem_cons hlt, getD_eq hlt]
    exact List.mem_cons_self
  obtain ⟨b', hab', hpin, -⟩ := hi.pinned _ hmem
  have hb : b ∈ l.held := hs.fits.held b (by rw [hl]; exact List.mem_cons_self)
  rw [hs.unique (hs.held hb) (.inl (hs.pins hpin)) hab hab']
  exact hpin

/-- The protocol keeps the promises of the cache. -/
theorem Knows.allowed (hk : Knows c p l t h) (hi : Inv c t h) (hs : Solid p l t h) (hok : Follows c l r t) :
    Allowed l r h := by
  have hun := fun b k => hk.unpin hi hs (b := b) (k := k)
  obtain ⟨held, unlogged, inOp, pc⟩ := l
  cases pc with
  | user =>
    cases r with
    | logWrite b => exact hok.2.1
    | bpin b | bunpin b => exact absurd hok id
    | _ => exact trivial
  | bunpinDec b k => exact hun b k rfl
  | _ => exact trivial

end Facts

/-! ## What a step leaves alone -/

section Frame

variable {c : Conf} {p q : Fin n} {l l' : Local m} {r : Req m} {t t' : Data m} {h g : Hist n m} {b : Fin m}

theorem Data.About.refl (t : Data m) (b : Fin m) : t.About b (t.buf b).dev (t.buf b).blockno := ⟨rfl, rfl⟩

theorem Data.store_data (b b' : Fin m) (x : Block) :
    ((t.store b x).buf b').data = if b' = b then x else (t.buf b').data := by
  rw [Data.store, Data.set_buf]
  split <;> rfl

theorem Data.store_valid (b b' : Fin m) (x : Block) : ((t.store b x).buf b').valid = (t.buf b').valid :=
  t.set_eq Buf.valid (by rfl) b'

theorem Hist.write_store (x : Buf) (y : Block) (dev blockno : ℕ) : (h.write x y).store dev blockno =
    if dev = x.dev ∧ blockno = x.blockno then y else h.store dev blockno := by
  simp only [Hist.write, update_apply]
  by_cases h1 : dev = x.dev
  · subst h1
    by_cases h2 : blockno = x.blockno <;> simp [h2]
  · simp [h1]

/-- A buffer in use keeps its contents unless the process has its lock. -/
theorem Act.buffer (ha : Act c l t h t' g) (hf : Fits l) (hn : ¬ l.has b)
    (hb : 0 < (t.buf b).refcnt ∨ (t'.buf b).valid = true) :
    (t'.buf b).data = (t.buf b).data ∧ (t'.buf b).valid = (t.buf b).valid := by
  have hheld : ∀ a ∈ l.held, b ≠ a := fun a hm he => hn (.inl (he ▸ hm))
  have hbufs : ∀ a ∈ l.pc.bufs, b ≠ a := fun a hm => hheld a (hf.held a hm)
  have hstore : ∀ a x, b ≠ a → ((t.store a x).buf b).data = (t.buf b).data ∧
      ((t.store a x).buf b).valid = (t.buf b).valid := by
    intro a x hne
    rw [Data.store_data, Data.store_valid, if_neg hne]
    exact ⟨rfl, rfl⟩
  cases ha with
  | calm hc _ =>
    refine ⟨hc.data b, (hc.valid b).resolve_right ?_⟩
    rintro ⟨h0, h1⟩
    rcases hb with hb | hb
    · omega
    · rw [h1] at hb; cases hb
  | @read a k hl =>
    have hne : b ≠ a := fun he => hn (.inr (by rw [hl, he]; rfl))
    rw [Data.read, Data.set_of_ne _ hne]
    exact ⟨rfl, rfl⟩
  | edit _ _ hm _ => exact hstore _ _ (hheld _ hm)
  | copy hl | fill hl | install hl => exact hstore _ _ (hbufs _ (by rw [hl]; simp [Pc.bufs]))
  | write _ | add _ | clear _ => exact ⟨rfl, rfl⟩
  | pin | unpin => exact ⟨t.set_eq Buf.data (by rfl) b, t.set_eq Buf.valid (by rfl) b⟩

/-- What is stored to a block changes only with the buffer locked. -/
theorem Act.stored (ha : Act c l t h t' g) (hs : Solid p l t h) (hn : ¬ l.has b)
    (hb : 0 < (t.buf b).refcnt ∨ (t.buf b).valid = true) :
    g.store (t.buf b).dev (t.buf b).blockno = h.store (t.buf b).dev (t.buf b).blockno := by
  have hw : ∀ a x, a ∈ l.held → (h.write (t.buf a) x).store (t.buf b).dev (t.buf b).blockno =
      h.store (t.buf b).dev (t.buf b).blockno := by
    intro a x hm
    rw [Hist.write_store, if_neg]
    rintro ⟨h1, h2⟩
    have hab : a = b := hs.unique (hs.held hm) hb ⟨h1.symm, h2.symm⟩ (.refl t b)
    exact hn (.inl (hab ▸ hm))
  have hbufs := hs.fits.held
  cases ha with
  | calm _ hst => rw [hst.store]
  | edit _ _ hm _ => exact hw _ _ hm
  | copy hl | fill hl => exact hw _ _ (hbufs _ (by rw [hl]; simp [Pc.bufs]))
  | _ => rfl

/-- A buffer that is valid after the step is about the same block as before. -/
theorem Change.key_of_valid {z z' : Fin m → ℕ} {k k' : ℕ} (hch : Change t z k t' z' k')
    (hv : (t'.buf b).valid = true) : (t'.buf b).dev = (t.buf b).dev ∧ (t'.buf b).blockno = (t.buf b).blockno := by
  cases hch with
  | quiet _ hb _ => exact (hb b).2
  | gain | lose | retire => exact t.set_key b
  | @recycle b' dev blockno _ _ =>
    rw [Data.recycle, Data.set_buf] at hv ⊢
    split
    · next he => rw [if_pos he] at hv; cases hv
    · exact ⟨rfl, rfl⟩

/-- The buffers that the stage of a process is about. -/
def Pc.minds (pc : Pc m) (b : Fin m) : Prop := b ∈ pc.bufs ∨ pc.waits = some b ∨ pc.takes = some b

theorem Got.congr {u : Data m} {k : Got m}
    (hkey : ∀ b ∈ k.bufs, (u.buf b).dev = (t.buf b).dev ∧ (u.buf b).blockno = (t.buf b).blockno)
    (hcom : k.commits = true → u.log.lh = t.log.lh ∧ g.installed = h.installed ∧ g.store = h.store) :
    (k.Stage c t h → k.Stage c u g) ∧ ∀ dev x, k.Wants c t dev x → k.Wants c u dev x := by
  cases k with
  | user dev x => exact ⟨id, fun _ _ => id⟩
  | logFrom tail b | insDst tail b =>
    obtain ⟨e1, e2, e3⟩ := hcom rfl
    obtain ⟨k1, k2⟩ := hkey b (by simp [Got.bufs])
    simp only [Got.Stage, Got.Wants, Logging, Installing, Logged, Data.About, e1, e2, e3, k1, k2]
    exact ⟨id, fun _ _ => id⟩
  | _ =>
    obtain ⟨e1, e2, e3⟩ := hcom rfl
    simp only [Got.Stage, Got.Wants, Logging, Installing, Logged, Erased, e1, e2, e3]
    exact ⟨id, fun _ _ => id⟩

theorem Ret.congr {k : Ret m}
    (hcom : k.commits = true → t'.log.lh = t.log.lh ∧ g.installed = h.installed ∧ g.store = h.store)
    (hst : k.Stage c t h) : k.Stage c t' g := by
  cases k with
  | user => exact hst
  | _ =>
    obtain ⟨e1, e2, e3⟩ := hcom rfl
    simpa only [Ret.Stage, Logging, Installing, Logged, Erased, e1, e2, e3] using hst

theorem Fresh.congr (hf : Fresh c t b)
    (hkey : (t'.buf b).dev = (t.buf b).dev ∧ (t'.buf b).blockno = (t.buf b).blockno) (hl : t'.log.lh = t.log.lh) :
    Fresh c t' b := by
  simpa only [Fresh, Home, hkey.1, hkey.2, hl] using hf

/-- The stage of a process does not depend on what the step of another changes. -/
theorem Stage.congr {pc : Pc m} (hst : Stage c t h pc)
    (hkey : ∀ b, pc.minds b → (t'.buf b).dev = (t.buf b).dev ∧ (t'.buf b).blockno = (t.buf b).blockno)
    (hcom : pc.commits = true →
      (t'.log.lh = t.log.lh ∧ g.installed = h.installed ∧ g.store = h.store) ∧ t'.disk = t.disk)
    (hlog : pc.inside = true → pc.log = true → t'.log.lh = t.log.lh)
    (hpin : ∀ b, pc.pinning = some b → h.pins b ≤ g.pins b) : Stage c t' g pc := by
  have hpos : ∀ b, pc.pinning = some b → 0 < h.pins b → 0 < g.pins b := fun b he hb => hb.trans_le (hpin b he)
  have hbufs : ∀ b ∈ pc.bufs, (t'.buf b).dev = (t.buf b).dev ∧ (t'.buf b).blockno = (t.buf b).blockno :=
    fun b hb => hkey b (.inl hb)
  cases pc with
  | bgetLock dev x k | bgetScan dev x k =>
    have hk := Got.congr (c := c) (k := k) hbufs fun he => (hcom he).1
    exact ⟨hk.1 hst.1, hk.2 _ _ hst.2⟩
  | bgetUnlock b k | bgetSleep b k | breadValid b k | breadDisk b k =>
    have hk := Got.congr (c := c) (k := k) hbufs fun he => (hcom he).1
    obtain ⟨k1, k2⟩ := hkey b (.inr (by first | exact .inl rfl | exact .inr rfl))
    exact ⟨hk.1 hst.1, hk.2 _ _ (by rw [k1, k2]; exact hst.2)⟩
  | brelseWake b k | brelseLock b k | brelseDrop b k | brelseUnlock k =>
    exact Ret.congr (k := k) (fun he => (hcom he).1) hst
  | bpinLock b log | bpinInc b log =>
    exact ⟨hst.1, hst.2.congr (hbufs b List.mem_cons_self) (hlog rfl hst.1)⟩
  | bpinUnlock b log =>
    exact ⟨hst.1, hst.2.1.congr (hbufs b List.mem_cons_self) (hlog rfl hst.1), hpos b rfl hst.2.2⟩
  | writeAdd b => exact ⟨hst.1.congr (hbufs b List.mem_cons_self) (hlog rfl rfl), hpos b rfl hst.2⟩
  | writeLock b | writeTest b =>
    obtain ⟨k1, k2⟩ := hbufs b List.mem_cons_self
    simpa only [Stage, Home, k1, k2] using hst
  | writeUnlock b =>
    obtain ⟨k1, k2⟩ := hbufs b List.mem_cons_self
    simpa only [Stage, Home, k1, k2, hlog rfl rfl] using hst
  | bunpinLock b k | bunpinDec b k =>
    obtain ⟨⟨e1, e2, e3⟩, e4⟩ := hcom rfl
    obtain ⟨k1, k2⟩ := hbufs b List.mem_cons_self
    simpa only [Stage, Installing, Logged, Data.About, e1, e2, e3, e4, k1, k2] using hst
  | bunpinUnlock b k =>
    obtain ⟨⟨e1, e2, e3⟩, -⟩ := hcom rfl
    simpa only [Stage, Installing, Logged, e1, e2, e3] using hst
  | endUnlock last =>
    intro hl
    obtain ⟨⟨-, e2, -⟩, -⟩ := hcom hl
    exact e2.trans (hst hl)
  | logCopy tail b a | insCopy tail b a =>
    obtain ⟨⟨e1, e2, e3⟩, -⟩ := hcom rfl
    obtain ⟨k1, k2⟩ := hbufs b (by simp [Pc.bufs])
    obtain ⟨k3, k4⟩ := hbufs a (by simp [Pc.bufs])
    simpa only [Stage, Logging, Installing, Logged, Data.About, e1, e2, e3, k1, k2, k3, k4] using hst
  | logRead tail b | logBwrite tail b a | insRead tail b | insBwrite tail a b | headFill again b
  | headBwrite again b =>
    obtain ⟨⟨e1, e2, e3⟩, -⟩ := hcom rfl
    obtain ⟨k1, k2⟩ := hbufs b (by simp [Pc.bufs])
    simpa only [Stage, Logging, Installing, Logged, Erased, Data.About, e1, e2, e3, k1, k2] using hst
  | commit | logLoop tail | insLoop tail | commitClear | endRelock | endClear =>
    obtain ⟨⟨e1, e2, e3⟩, -⟩ := hcom rfl
    simpa only [Stage, Logging, Installing, Logged, Erased, e1, e2, e3] using hst
  | _ => exact trivial

/-- A process outside operations that does not commit changes neither blocks nor the log. -/
theorem Act.idle (ha : Act c l t h t' g) (ht : Tidy l) (hc : l.pc.commits = false) (ho : l.inOp = false) :
    (t'.log.lh = t.log.lh ∧ g.installed = h.installed ∧ g.store = h.store) ∧ t'.disk = t.disk := by
  have hin := ht.inside
  rw [ho] at hin
  cases ha with
  | calm hcalm hst => exact ⟨⟨hcalm.lh, hst.installed, hst.store⟩, hcalm.disk⟩
  | read _ => exact ⟨⟨rfl, rfl, rfl⟩, rfl⟩
  | edit _ hop _ _ => rw [ho] at hop; cases hop
  | pin hl | add hl => rw [hl] at hin; exact absurd (hin rfl) nofun
  | copy hl | fill hl | install hl | unpin hl | clear hl => rw [hl] at hc; cases hc
  | write hw =>
    revert hw hc
    cases l.pc <;> simp [Pc.writes, Pc.commits]

/-- While nobody commits, the block numbers in the log change only with `log.lock` held. -/
theorem Act.lh_eq (ha : Act c l t h t' g) (hc : l.pc.commits = false) (hl : l.pc.log = false) :
    t'.log.lh = t.log.lh := by
  cases ha with
  | calm hcalm _ => exact hcalm.lh
  | add he => rw [he] at hl; cases hl
  | clear he => rw [he] at hc; cases hc
  | _ => rfl

/-- While nobody commits, no pin goes away. -/
theorem Act.pins_le (ha : Act c l t h t' g) (hc : l.pc.commits = false) (b : Fin m) : h.pins b ≤ g.pins b := by
  cases ha with
  | calm _ hst => rw [hst.pins]
  | @pin a _ _ =>
    dsimp only
    rw [update_apply]
    split
    · next he => rw [he]; exact Nat.le_succ _
    · exact Nat.le_refl _
  | unpin he => rw [he] at hc; cases hc
  | _ => exact Nat.le_refl _

/-- A buffer in use stays valid. -/
theorem Act.valid (ha : Act c l t h t' g) (hb : 0 < (t.buf b).refcnt) (hv : (t.buf b).valid = true) :
    (t'.buf b).valid = true := by
  have hset : ∀ (a : Fin m) (x : Buf), (x.valid = true ∨ x.valid = (t.buf a).valid) →
      ((t.set a x).buf b).valid = true := by
    intro a x hx
    rw [Data.set_buf]
    split
    · next he => subst he; rcases hx with hx | hx <;> simp [hx, hv]
    · exact hv
  cases ha with
  | calm hc _ =>
    rcases hc.valid b with he | ⟨h0, -⟩
    · rw [he]; exact hv
    · omega
  | read _ => exact hset _ _ (.inl rfl)
  | edit _ _ _ _ | copy _ | fill _ | install _ | pin _ | unpin _ => exact hset _ _ (.inr rfl)
  | write _ | add _ | clear _ => exact hv

end Frame

/-! ## A step of a process that follows the protocol -/

/-- All that is known when process `p` makes its next step. -/
structure Ready (c : Conf) (p : Fin n) (l : Local m) (r : Req m) (t : Data m) (h : Hist n m) : Prop where
  solid : Solid p l t h
  inv : Inv c t h
  knows : Knows c p l t h
  follows : Follows c l r t

section Step

variable {c : Conf} {p q : Fin n} {l l' : Local m} {r : Req m} {t : Data m} {h : Hist n m} {b : Fin m}

theorem Got.arrive {k : Got m} (h1 : k.Stage c t h) (h2 : k.Wants c t (t.buf b).dev (t.buf b).blockno) :
    Bio.Stage c t h (k.pc b) := by
  cases k with
  | user dev x => exact trivial
  | logTo tail | insLog tail => exact ⟨h1.1, h1.2, h2⟩
  | logFrom tail a | insDst tail a => exact ⟨h1.1, h1.2.1, h1.2.2, h2⟩
  | head again => exact ⟨h1, h2⟩

theorem Ret.arrive {k : Ret m} (h1 : k.Stage c t h) : Bio.Stage c t h k.pc := by
  cases k with
  | headNext again =>
    cases again with
    | true => exact h1
    | false => exact ⟨h1.1, Nat.zero_le _, h1.2.2⟩
  | _ => exact h1

variable (hy : Ready c p l r t h)

include hy

theorem Ready.tidy : Tidy l := by
  have := hy.inv.tidy p
  rwa [show h.pcs p = l from hy.solid.place] at this

theorem Ready.allowed : Allowed l r h := hy.knows.allowed hy.inv hy.solid hy.follows

theorem Ready.act : Act c l t h ((prog c p l).data r t) (record l r t h) :=
  Bio.act hy.follows hy.knows.stage

theorem Ready.change :
    Change t h.zeroed h.clock ((prog c p l).data r t) (record l r t h).zeroed (record l r t h).clock :=
  Bio.change hy.allowed hy.solid.fits hy.solid.counted hy.solid.place

/-- A buffer in use stays with its block. -/
theorem Ready.key (hb : 0 < (t.buf b).refcnt) :
    (((prog c p l).data r t).buf b).dev = (t.buf b).dev ∧
      (((prog c p l).data r t).buf b).blockno = (t.buf b).blockno := by
  obtain ⟨L, hL⟩ := hy.solid.ordered
  by_contra hne
  have := (hy.change.key hL (not_and_or.1 hne)).1
  omega

theorem Ready.not_committing (ho : l.inOp = true) : t.log.committing = false :=
  hy.inv.of_inOp (q := p) (by rw [show h.pcs p = l from hy.solid.place]; exact ho)

omit hy

theorem Solid.minds (hs : Solid p l t h) (hb : l.pc.minds b) : 0 < (t.buf b).refcnt := by
  rcases hb with hb | hb | hb
  · exact hs.held (hs.fits.held b hb)
  · exact hs.waits hb
  · exact hs.holds (.inr hb)

/-- Only with `log.lock` does a process come to pin a buffer. -/
theorem Ready.pinning (hy : Ready c p l r t h) (hb : ((prog c p l).target r t l).pc.pinning = some b) :
    l.pc.log = true := by
  have hst := hy.knows.stage
  have hok := hy.follows
  clear hy
  obtain ⟨held, unlogged, inOp, pc⟩ := l
  cases pc with
  | user =>
    cases r with
    | bwrite b => exact absurd hok id
    | _ => cases hb
  | bpinLock b log | bpinInc b log | bpinUnlock b log => exact hst.1
  | writeTest b | writeAdd b | writeUnlock b | beginTest | beginSleep | beginUnlock | endDec | endUnlock last
  | endClear => rfl
  | breadValid b k =>
    simp only [prog, Instr.target] at hb
    split at hb
    · cases k <;> cases hb
    · cases hb
  | breadDisk b k => cases k <;> cases hb
  | brelseWake b k =>
    simp only [prog] at hb
    split at hb <;> cases hb
  | brelseUnlock k =>
    cases k with
    | headNext again => cases again <;> cases hb
    | _ => cases hb
  | bunpinUnlock b k => cases k <;> cases hb
  | bgetScan dev x k =>
    simp only [prog, Instr.target] at hb
    split at hb
    · cases hb
    · split at hb <;> cases hb
  | commit | logLoop tail | insLoop tail =>
    simp only [prog, Instr.target] at hb
    split at hb <;> cases hb
  | _ => cases hb

/-- **What another process knows stays true.** -/
theorem Ready.stable (hy : Ready c p l r t h) (hq : q ≠ p) (hlock : ∀ k, held q l' k → ¬ held p l k)
    (hs : Solid q l' t h) (hk : Knows c q l' t h) :
    Knows c q l' ((prog c p l).data r t) (note c p l r t h) := by
  have hp : h.pcs p = l := hy.solid.place
  have hq' : h.pcs q = l' := hs.place
  have hact := hy.act
  have hlive : ∀ {b}, l'.holds b → l'.has b → 0 < (t.buf b).refcnt ∧ ¬ l.has b := fun {b} h1 h2 =>
    ⟨hs.holds h1, hlock (.buf b) h2⟩
  have hin : (h.pcs q).pc.inside = true → l.pc.commits = false := by
    intro hi
    have hop := (hy.inv.tidy q).inside hi
    cases hc : l.pc.commits with
    | false => rfl
    | true =>
      rw [← hp] at hc
      rw [hy.inv.of_commits hc q] at hop
      cases hop
  rw [hq'] at hin
  refine ⟨fun b hb => ?_, fun b k hl hv => ?_, fun b k hl => ?_, ?_, fun hl q' hne => ?_⟩
  · obtain ⟨hpos, hn⟩ := hlive (.inl hb) (.inl hb)
    obtain ⟨h1, h2⟩ := hk.holding b hb
    obtain ⟨e1, e2⟩ := hact.buffer hy.solid.fits hn (.inl hpos)
    obtain ⟨k1, k2⟩ := hy.key hpos
    refine ⟨e2.trans h1, ?_⟩
    rw [e1, k1, k2, h2]
    exact (hact.stored hy.solid hn (.inl hpos)).symm
  · obtain ⟨hpos, hn⟩ := hlive (b := b) (.inr (by rw [hl]; rfl)) (.inr (by rw [hl]; rfl))
    obtain ⟨e1, e2⟩ := hact.buffer hy.solid.fits hn (.inl hpos)
    obtain ⟨k1, k2⟩ := hy.key hpos
    rw [e1, k1, k2, hk.reading b k hl (e2.symm.trans hv)]
    exact (hact.stored hy.solid hn (.inl hpos)).symm
  · obtain ⟨hpos, hn⟩ := hlive (b := b) (.inr (by rw [hl]; rfl)) (.inr (by rw [hl]; rfl))
    exact (hact.buffer hy.solid.fits hn (.inl hpos)).2.trans (hk.missing b k hl)
  · refine hk.stage.congr (fun b hb => hy.key (hs.minds hb)) (fun hc => ?_) (fun hi hl => ?_) fun b hb => ?_
    · have hcq : (h.pcs q).pc.commits = true := by rw [hq']; exact hc
      refine hact.idle hy.tidy ?_ ?_
      · cases hcp : l.pc.commits with
        | false => rfl
        | true => exact absurd (hy.inv.one q p hcq (by rw [hp]; exact hcp)) hq
      · rw [← hp]
        exact hy.inv.of_commits hcq p
    · refine hact.lh_eq (hin hi) ?_
      have := hlock .log hl
      simpa [held] using this
    · refine hact.pins_le (hin ?_) b
      revert hb
      cases l'.pc <;> simp [Pc.pinning, Pc.inside]
  · rw [note_pcs]
    rcases eq_or_ne q' p with rfl | hqp
    · rw [update_self]
      rw [Option.eq_none_iff_forall_ne_some]
      intro b hb
      exact hlock .log hl (hy.pinning hb)
    · rw [update_of_ne hqp]
      exact hk.alone hl q' hne

end Step

end Xv6.Bio
