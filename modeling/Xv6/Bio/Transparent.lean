import Xv6.Bio.Contents

/-!
# The buffer cache is transparent under logging

In every run of processes that follow the protocol of the log, a buffer that a process has locked
holds what was last stored to its block, whatever the cache evicted in between
(`bread_transparent`).

The proof shares one induction with that of the structure of the cache, since `install_trans` may
call `bunpin` only because the block is pinned.
-/

namespace Xv6.Bio

open Function Lib Conc

variable {n m : ℕ}

section Step

variable {c : Conf} {p q : Fin n} {l l' : Local m} {r : Req m} {t t' : Data m} {h g : Hist n m} {b : Fin m}

/-! ## What the process itself knows next -/

/-- Storing to a block of the log leaves the copies made so far as they are. -/
theorem Logged.write {j : ℕ} {x : Buf} {y : Block} (hL : Logged c t h j) (hj : j ≤ t.log.lh.length)
    (hh : ∀ a ∈ t.log.lh, ¬ c.geom.Inside a) (hx : c.geom.Inside x.blockno)
    (hne : ∀ i < j, x.blockno ≠ c.geom.start + i + 1) : Logged c t (h.write x y) j := by
  intro i hi
  have h1 : ¬ (c.dev = x.dev ∧ c.geom.start + i + 1 = x.blockno) := fun he => hne i hi he.2.symm
  have h2 : ¬ (c.dev = x.dev ∧ t.log.lh.getD i 0 = x.blockno) := by
    rintro ⟨-, he⟩
    rw [getD_eq (hi.trans_le hj)] at he
    exact hh _ (List.getElem_mem _) (he ▸ hx)
  rw [Hist.write_store, Hist.write_store, if_neg h1, if_neg h2]
  exact hL i hi

/-- `write_log` copies one more block. -/
theorem Logging.copy {tail : ℕ} {dst src : Fin m} (hl : Logging c t h tail) (hlt : tail < t.log.lh.length)
    (hd : t.About dst c.dev (c.geom.start + tail + 1)) (hs : t.About src c.dev (t.log.lh.getD tail 0))
    (hsrc : Holding t h src) (hh : ∀ a ∈ t.log.lh, ¬ c.geom.Inside a) (hlen : t.log.lh.length ≤ min logsize (c.geom.size - 1)) :
    Logging c t (h.write (t.buf dst) (t.buf src).data) (tail + 1) := by
  have hin : c.geom.Inside (t.buf dst).blockno := by
    rw [hd.2]
    constructor <;> omega
  refine ⟨fun i hi => ?_, hlt, hl.2.2⟩
  rcases Nat.lt_succ_iff_lt_or_eq.1 hi with hi | rfl
  · refine hl.1.write hl.2.1 hh hin (fun i hi => ?_) i hi
    rw [hd.2]
    omega
  · have hne : t.log.lh.getD i 0 ≠ (t.buf dst).blockno := by
      intro he
      rw [getD_eq hlt] at he
      exact hh _ (List.getElem_mem _) (he ▸ hin)
    rw [Hist.write_store, Hist.write_store, if_pos ⟨hd.1.symm, hd.2.symm⟩, if_neg fun he => hne he.2, hsrc.2,
      hs.1, hs.2]

theorem Data.bwrite_disk (dev x : ℕ) : (t.bwrite b).disk dev x =
    if dev = (t.buf b).dev ∧ x = (t.buf b).blockno then (t.buf b).data else t.disk dev x := by
  simp only [Data.bwrite, update_apply]
  by_cases h1 : dev = (t.buf b).dev
  · subst h1
    by_cases h2 : x = (t.buf b).blockno <;> simp [h2]
  · simp [h1]

/-- **How far the call has come, after the step.** -/
theorem Ready.stage (hy : Ready c p l r t h) :
    Stage c ((prog c p l).data r t) (note c p l r t h) ((prog c p l).target r t l).pc := by
  have hst := hy.knows.stage
  have hok := hy.follows
  have hheld := hy.knows.holding
  have hbufs := hy.solid.fits.held
  have hkey : ∀ b ∈ l.pc.bufs, _ := fun b hb => hy.key (hy.solid.held (hbufs b hb))
  have hidle : l.inOp = true → h.installed = 0 := fun ho => hy.inv.idle (hy.not_committing ho)
  have hin := hy.tidy.inside
  have hhome := hy.inv.home
  have hshort := hy.inv.short
  clear hy
  obtain ⟨hs, unlogged, inOp, pc⟩ := l
  cases pc with
  | user =>
    cases r with
    | bread dev x => exact ⟨trivial, rfl, rfl⟩
    | logWrite b => exact hok.2.2
    | bpin b | bunpin b | bwrite b => exact absurd hok id
    | _ => exact trivial
  | bgetScan dev x k =>
    simp only [prog, Instr.data, Instr.target] at hkey ⊢
    split
    · next b hb =>
      have hk := Got.congr (c := c) (t := t) (u := t.gain b) (h := h) (g := h) (k := k)
        (fun a _ => t.set_key a) fun _ => ⟨rfl, rfl, rfl⟩
      refine ⟨hk.1 hst.1, hk.2 _ _ ?_⟩
      obtain ⟨k1, k2⟩ := t.cached_key hb
      rw [Data.gain, Data.set_self, k1, k2]
      exact hst.2
    · next hb =>
      rw [hb] at hkey
      split
      · next b hv =>
        rw [hv] at hkey
        have hk := Got.congr (c := c) (t := t) (u := t.recycle b dev x) (h := h) (g := h) (k := k)
          hkey fun _ => ⟨rfl, rfl, rfl⟩
        refine ⟨hk.1 hst.1, hk.2 _ _ ?_⟩
        rw [Data.recycle, Data.set_self]
        exact hst.2
      · exact trivial
  | breadValid b k =>
    simp only [prog, Instr.data, Instr.target]
    split
    · exact Got.arrive hst.1 hst.2
    · exact hst
  | breadDisk b k =>
    have hk := Got.congr (c := c) (t := t) (u := t.read b) (h := h) (g := h) (k := k)
      (fun a _ => t.set_key a) fun _ => ⟨rfl, rfl, rfl⟩
    have hself : ((t.read b).buf b).dev = (t.buf b).dev ∧ ((t.read b).buf b).blockno = (t.buf b).blockno :=
      t.set_key b
    have hw := hk.2 _ _ hst.2
    rw [← hself.1, ← hself.2] at hw
    exact Got.arrive (hk.1 hst.1) hw
  | brelseWake b k =>
    simp only [prog]
    split <;> exact hst
  | brelseDrop b k =>
    have hrec : ∀ {pc : Fin n → Local m}, Ret.Stage c t { record ⟨hs, unlogged, inOp, .brelseDrop b k⟩ r t h with pcs := pc } k := by
      intro pc
      simp only [record]
      split <;> exact hst
    refine Ret.congr (k := k) (fun _ => ⟨?_, rfl, rfl⟩) hrec
    simp only [prog, Instr.data, Data.drop]
    split <;> rfl
  | brelseUnlock k => exact Ret.arrive hst
  | bpinInc b log =>
    refine ⟨hst.1, hst.2.congr (t.set_key b) rfl, ?_⟩
    simp [note, record]
  | bpinUnlock b log =>
    obtain ⟨rfl, h1, h2⟩ := hst
    exact ⟨h1, h2⟩
  | bunpinDec b k =>
    obtain ⟨tail, lbuf, rfl, ⟨h1, h2, h3⟩, h4, -⟩ := hst
    exact ⟨tail, lbuf, rfl, h1, h4, rfl⟩
  | bunpinUnlock b k =>
    obtain ⟨tail, lbuf, rfl, h1⟩ := hst
    exact h1
  | beginTest =>
    simp only [prog, Instr.data, Instr.target]
    split <;> exact trivial
  | writeTest b =>
    simp only [prog, Instr.data, Instr.target]
    split
    · exact trivial
    · next hroom =>
      have hroom : t.log.lh.length < min logsize (c.geom.size - 1) := by omega
      split
      · next hm => exact ⟨hst, hm⟩
      · next hm => exact ⟨rfl, hst, hm, hroom⟩
  | writeAdd b => exact ⟨hst.1.1, by simp [prog, Instr.data, Data.setLog]⟩
  | endDec =>
    simp only [prog, Instr.data, Instr.target]
    split
    · exact trivial
    · split
      · exact fun _ => hidle (hin rfl)
      · rintro ⟨⟩
  | endUnlock last =>
    cases last with
    | true => exact hst rfl
    | false => exact trivial
  | commit =>
    simp only [prog, Instr.data, Instr.target]
    split
    · exact ⟨by rintro _ ⟨⟩, Nat.zero_le _, hst⟩
    · next h0 => exact ⟨List.length_eq_zero_iff.1 (Nat.eq_zero_of_not_pos h0), hst⟩
  | logLoop tail =>
    simp only [prog, Instr.data, Instr.target]
    split
    · next hlt => exact ⟨⟨hst, hlt⟩, rfl, rfl⟩
    · next hlt =>
      obtain rfl : tail = t.log.lh.length := by have := hst.2.1; omega
      exact ⟨hst, rfl, rfl⟩
  | logRead tail dst | insRead tail dst => exact ⟨hst, rfl, rfl⟩
  | logCopy tail dst src =>
    obtain ⟨h1, h2, h3, h4⟩ := hst
    have := h1.copy h2 h3 h4 (hheld src (hbufs src (by simp [Pc.bufs]))) hhome hshort
    refine ⟨this, ?_⟩
    obtain ⟨k1, k2⟩ := hkey dst (by simp [Pc.bufs])
    exact ⟨k1.trans h3.1, k2.trans h3.2⟩
  | logBwrite tail dst src => exact hst.1
  | headFill again b =>
    obtain ⟨h1, h2⟩ := hst
    obtain ⟨k1, k2⟩ := hkey b (by simp [Pc.bufs])
    refine ⟨?_, k1.trans h2.1, k2.trans h2.2⟩
    cases again with
    | true => exact h1
    | false =>
      refine ⟨h1.1.write (Nat.le_refl _) hhome ?_ fun i _ => ?_, h1.2⟩
      · rw [h2.2]
        exact ⟨Nat.le_refl _, Nat.lt_add_of_pos_right c.geom.size_pos⟩
      · rw [h2.2]
        omega
  | headBwrite again b => exact hst.1
  | insLoop tail =>
    simp only [prog, Instr.data, Instr.target]
    split
    · next hlt => exact ⟨⟨hst, hlt⟩, rfl, rfl⟩
    · next hlt => exact hst.2.2.trans (hst.2.1.antisymm (Nat.not_lt.1 hlt))
  | insCopy tail lbuf dbuf =>
    obtain ⟨h1, h2, h3, h4⟩ := hst
    obtain ⟨k1, k2⟩ := hkey dbuf (by simp [Pc.bufs])
    exact ⟨h1, h2, k1.trans h4.1, k2.trans h4.2⟩
  | insBwrite tail lbuf dbuf =>
    obtain ⟨h1, h2, h3⟩ := hst
    refine ⟨tail, lbuf, rfl, h1, h2, h3, ?_⟩
    have hd := (hheld dbuf (hbufs dbuf (by simp [Pc.bufs]))).2
    simp only [prog, Instr.data]
    rw [Data.bwrite_disk, if_pos ⟨h3.1.symm, h3.2.symm⟩, hd, h3.1, h3.2]
    rfl
  | commitClear => exact ⟨⟨rfl, rfl⟩, rfl, rfl⟩
  | endClear => rintro ⟨⟩
  | bgetLock _ _ _ | bgetUnlock _ _ | bgetSleep _ _ | brelseLock _ _ | bpinLock _ _ | bunpinLock _ _ | writeLock _
  | endRelock => exact hst
  | _ => exact trivial

/-- A buffer that the process has locked has what was last stored to its block. -/
theorem Act.held (ha : Act c l t h t' g) (hs : Solid p l t h) (hk : Knows c p l t h) (hb : b ∈ l.held) :
    (t'.buf b).data = g.store (t.buf b).dev (t.buf b).blockno := by
  obtain ⟨-, hd⟩ := hk.holding b hb
  have hbufs := hs.fits.held
  have hst := hk.stage
  have hwrite : ∀ a x, a ∈ l.held → ((t.store a x).buf b).data =
      (h.write (t.buf a) x).store (t.buf b).dev (t.buf b).blockno := by
    intro a x ha
    rw [Data.store_data, Hist.write_store]
    by_cases he : b = a
    · rw [if_pos he, if_pos (by rw [he]; exact ⟨rfl, rfl⟩)]
    · rw [if_neg he, if_neg, hd]
      rintro ⟨h1, h2⟩
      exact he (hs.unique (hs.held hb) (.inl (hs.held ha)) ⟨h1, h2⟩ (.refl t a))
  cases ha with
  | calm hc hst => rw [hc.data, hst.store, hd]
  | @read a k hl =>
    have hne : b ≠ a := by
      rintro rfl
      exact hs.fits.apart b (by rw [hl]; rfl) hb
    rw [Data.read, Data.set_of_ne _ hne, hd]
  | edit _ _ ha _ => exact hwrite _ _ ha
  | copy hl | fill hl => exact hwrite _ _ (hbufs _ (by rw [hl]; simp [Pc.bufs]))
  | @install tail lbuf dbuf hl =>
    rw [hl] at hst
    obtain ⟨⟨hL, -⟩, hlt, h3, h4⟩ := hst
    rw [Data.store_data]
    split
    · next he =>
      rw [he, (hk.holding lbuf (hbufs _ (by rw [hl]; simp [Pc.bufs]))).2, h3.1, h3.2, h4.1, h4.2]
      exact hL tail hlt
    · exact hd
  | write _ | add _ | clear _ => exact hd
  | pin _ | unpin _ =>
    exact (t.set_eq Buf.data (by rfl) b).trans hd

theorem Ready.holding (hy : Ready c p l r t h) (hb : b ∈ l.held) :
    Holding ((prog c p l).data r t) (note c p l r t h) b := by
  have hpos := hy.solid.held hb
  obtain ⟨k1, k2⟩ := hy.key hpos
  refine ⟨hy.act.valid hpos (hy.knows.holding b hb).1, ?_⟩
  rw [k1, k2]
  exact hy.act.held hy.solid hy.knows hb

/-! ## Operations and commits -/

/-- What a step does to `outstanding` and `committing`. -/
inductive Counts (l l' : Local m) (t t' : Data m) : Prop
  | same (h : l'.pc.commits = true → l.pc.commits = true)
      (h1 : t'.log.outstanding = t.log.outstanding := by rfl)
      (h2 : t'.log.committing = t.log.committing := by rfl) (h3 : l'.inOp = l.inOp := by rfl) : Counts l l' t t'
  | first : t.log.committing = false → t'.log.committing = false →
      t'.log.outstanding = t.log.outstanding + 1 → l.inOp = false → l'.inOp = true →
      l'.pc.commits = false → Counts l l' t t'
  | last : l.inOp = true → t.log.committing = false → t'.log.outstanding = t.log.outstanding - 1 →
      (t'.log.committing = true → t.log.outstanding - 1 = 0) → l'.inOp = false →
      l'.pc.commits = t'.log.committing → Counts l l' t t'
  | clear : l.pc = .endClear → t'.log.outstanding = t.log.outstanding → t'.log.committing = false →
      l'.inOp = l.inOp → l'.pc.commits = false → Counts l l' t t'

theorem Got.commits_pc (k : Got m) (b : Fin m) : (k.pc b).commits = k.commits := by
  cases k <;> rfl

theorem Ret.commits_pc (k : Ret m) : k.pc.commits = k.commits := by
  cases k with
  | headNext again => cases again <;> rfl
  | _ => rfl

theorem counts (hok : Follows c l r t) (ht : Tidy l) (hc : l.inOp = true → t.log.committing = false) :
    Counts l ((prog c p l).target r t l) t ((prog c p l).data r t) := by
  have hin := ht.inside
  have hout := ht.outside
  obtain ⟨held, unlogged, inOp, pc⟩ := l
  cases pc with
  | user =>
    cases r with
    | bpin b | bunpin b | bwrite b => exact absurd hok id
    | _ => exact .same (by rintro ⟨⟩)
  | bgetScan dev x k =>
    simp only [prog, Instr.data, Instr.target]
    split
    · exact .same id
    · split
      · exact .same id
      · exact .same (by rintro ⟨⟩)
  | breadValid b k =>
    simp only [prog, Instr.data, Instr.target]
    split
    · exact .same fun he => (k.commits_pc b).symm.trans he
    · exact .same id
  | breadDisk b k => exact .same fun he => (k.commits_pc b).symm.trans he
  | brelseWake b k =>
    simp only [prog]
    split <;> exact .same id
  | brelseDrop b k =>
    have hlog : (t.drop b).log = t.log := by
      unfold Data.drop
      dsimp only
      split <;> rfl
    exact .same id (congrArg Log.outstanding hlog) (congrArg Log.committing hlog)
  | brelseUnlock k => exact .same fun he => k.commits_pc.symm.trans he
  | bpinUnlock b log => cases log <;> exact .same (by rintro ⟨⟩)
  | bunpinUnlock b k => exact .same fun _ => rfl
  | beginTest =>
    simp only [prog, Instr.data, Instr.target]
    split
    · exact .same (by rintro ⟨⟩)
    · next hn =>
      have hf : t.log.committing = false := by
        rw [not_or] at hn
        simpa using hn.1
      exact .first hf hf rfl (hout rfl) rfl rfl
  | writeTest b =>
    simp only [prog, Instr.data, Instr.target]
    (repeat' split) <;> exact .same (by rintro ⟨⟩)
  | endDec =>
    have hop := hin rfl
    have hf := hc hop
    simp only [prog, Instr.data, Instr.target]
    split
    · next hn => rw [show t.log.committing = true from hn] at hf; cases hf
    · split
      · next hz => exact .last hop hf rfl (fun _ => hz) rfl rfl
      · exact .last hop hf rfl (fun he => absurd (hf.symm.trans he) Bool.false_ne_true) rfl hf.symm
  | endUnlock last => cases last <;> exact .same (by simp [prog, Instr.target, Pc.commits])
  | commit | logLoop tail | insLoop tail =>
    simp only [prog, Instr.data, Instr.target]
    split <;> exact .same fun _ => rfl
  | endClear => exact .clear rfl rfl rfl rfl rfl
  | bgetLock _ _ _ | bgetUnlock _ _ | bgetSleep _ _ | brelseLock _ _ => exact .same id
  | _ => exact .same (by simp [prog, Instr.target, Pc.commits])

theorem Ready.counts (hy : Ready c p l r t h) :
    Counts l ((prog c p l).target r t l) t ((prog c p l).data r t) :=
  Bio.counts hy.follows hy.tidy hy.not_committing

/-! ## The invariant after the step -/

/-- A changed buffer stays to be logged until `log_write` is done with it. -/
theorem unlogged_step (hok : Follows c l r t) (hb : b ∈ l.unlogged) :
    b ∈ ((prog c p l).target r t l).unlogged ∨ l.pc = .writeUnlock b := by
  obtain ⟨held, unlogged, inOp, pc⟩ := l
  cases pc with
  | user =>
    cases r with
    | edit a x => exact .inl (Finset.mem_insert_of_mem hb)
    | bpin b | bunpin b | bwrite b => exact absurd hok id
    | _ => exact .inl hb
  | writeUnlock a =>
    rcases eq_or_ne b a with rfl | hne
    · exact .inr rfl
    · exact .inl (Finset.mem_erase.2 ⟨hne, hb⟩)
  | bgetScan dev x k | breadValid a k | beginTest | writeTest a | endDec | commit | logLoop tail | insLoop tail =>
    simp only [prog, Instr.target]
    (repeat' split) <;> exact .inl hb
  | brelseWake a k =>
    simp only [prog]
    split <;> exact .inl hb
  | _ => exact .inl hb

/-- What is stored to a block changes only in a buffer that is still to be logged or written. -/
theorem stored_step (dev x : ℕ) : (record l r t h).store dev x = h.store dev x ∨
    Dirties ((prog c p l).target r t l) ((prog c p l).data r t) dev x := by
  have hw : ∀ a y, (h.write (t.buf a) y).store dev x = h.store dev x ∨ (t.store a y).About a dev x := by
    intro a y
    rw [Hist.write_store]
    split
    · next he =>
      right
      obtain ⟨k1, k2⟩ := t.set_key (b := a) (x := { t.buf a with data := y }) a
      exact ⟨k1.trans he.1.symm, k2.trans he.2.symm⟩
    · exact .inl rfl
  obtain ⟨held, unlogged, inOp, pc⟩ := l
  cases pc with
  | user =>
    cases r with
    | edit a y => exact (hw a y).imp_right fun hab => ⟨a, .inl (Finset.mem_insert_self ..), hab⟩
    | _ => exact .inl rfl
  | logCopy tail dst src => exact (hw dst _).imp_right fun hab => ⟨dst, .inr rfl, hab⟩
  | headFill again a => exact (hw a _).imp_right fun hab => ⟨a, .inr rfl, hab⟩
  | brelseDrop a k =>
    left
    simp only [record]
    split <;> rfl
  | bunpinDec a k => cases k <;> exact .inl rfl
  | _ => exact .inl rfl

/-- The disk changes only where a locked buffer is written. -/
theorem Act.disk (ha : Act c l t h t' g) (hs : Solid p l t h) (hk : Knows c p l t h) (dev x : ℕ) :
    t'.disk dev x = t.disk dev x ∨ t'.disk dev x = g.store dev x := by
  cases ha with
  | calm hc _ => exact .inl (by rw [hc.disk])
  | @write b hw =>
    have hb : b ∈ l.held := by
      refine hs.fits.held b ?_
      generalize l.pc = pc at hw ⊢
      cases pc <;> cases hw <;> simp [Pc.bufs]
    rw [Data.bwrite_disk]
    split
    · next he => right; rw [he.1, he.2, (hk.holding b hb).2]
    · exact .inl rfl
  | _ => exact .inl rfl

/-- The blocks still to be installed: none is added without its pin, and one is taken off when the
disk has it. -/
theorem Act.pending (ha : Act c l t h t' g) (hk : Knows c p l t h) {x : ℕ} (hx : x ∈ t.log.lh.drop h.installed) :
    x ∈ t'.log.lh.drop g.installed ∨ t'.disk c.dev x = g.store c.dev x := by
  have hst := hk.stage
  cases ha with
  | calm hc hs => left; rwa [hc.lh, hs.installed]
  | @unpin b tail lbuf hl =>
    rw [hl] at hst
    obtain ⟨tail', lbuf', he, ⟨-, -, hin⟩, hlt, -, hd⟩ := hst
    cases he
    rw [hin, List.drop_eq_getElem_cons hlt] at hx
    rcases List.mem_cons.1 hx with rfl | hx
    · right
      rw [getD_eq hlt] at hd
      exact hd
    · exact .inl hx
  | add _ =>
    left
    dsimp only [Data.setLog]
    rw [List.drop_append]
    exact List.mem_append_left _ hx
  | clear hl =>
    rw [hl] at hst
    rw [show h.installed = _ from hst, List.drop_length] at hx
    cases hx
  | _ => exact .inl hx

theorem Ready.dirties (hy : Ready c p l r t h) {dev x : ℕ} (hd : Dirties (h.pcs q) t dev x) :
    Dirties ((note c p l r t h).pcs q) ((prog c p l).data r t) dev x ∨
      (dev = c.dev ∧ x ∈ t.log.lh.drop h.installed) ∨
      ((prog c p l).data r t).disk dev x = (note c p l r t h).store dev x := by
  obtain ⟨b, hb, hab⟩ := hd
  have hpos : 0 < (t.buf b).refcnt := by
    refine (Nat.zero_le _).trans_lt (hy.solid.counted.holds (p := q) rfl (.inl ?_))
    rcases hb with hb | hb
    · exact (hy.inv.tidy q).held b hb
    · exact (hy.inv.tidy q).flush b hb
  obtain ⟨k1, k2⟩ := hy.key hpos
  have hab' : ((prog c p l).data r t).About b dev x := ⟨k1.trans hab.1, k2.trans hab.2⟩
  rw [note_pcs]
  rcases eq_or_ne q p with rfl | hq
  · rw [update_self]
    rw [show h.pcs q = l from hy.solid.place] at hb
    rcases hb with hb | hb
    · rcases unlogged_step (c := c) (p := q) hy.follows hb with hb | hl
      · exact .inl ⟨b, .inl hb, hab'⟩
      · -- `log_write` is done: the block is in the log
        have hst := hy.knows.stage
        rw [hl] at hst
        have h0 := hy.inv.idle (hy.not_committing (hy.tidy.inside (by rw [hl]; rfl)))
        right; left
        rw [h0, List.drop_zero]
        exact ⟨hab.1.symm.trans hst.1.1, hab.2 ▸ hst.2⟩
    · right; right
      have hh := (hy.knows.holding b (hy.tidy.flush b hb)).2
      rw [hab.1, hab.2] at hh
      revert hb
      obtain ⟨held, unlogged, inOp, pc⟩ := l
      cases pc with
      | logBwrite tail a src | headBwrite again a =>
        intro hb
        cases hb
        simp only [prog, Instr.data]
        rw [Data.bwrite_disk, if_pos ⟨hab.1.symm, hab.2.symm⟩, hh]
        rfl
      | _ => rintro ⟨⟩
  · rw [update_of_ne hq]
    exact .inl ⟨b, hb, hab'⟩

theorem Ready.fresh (hy : Ready c p l r t h) (dev x : ℕ) :
    ((prog c p l).data r t).disk dev x = (note c p l r t h).store dev x ∨
      (dev = c.dev ∧ x ∈ ((prog c p l).data r t).log.lh.drop (note c p l r t h).installed) ∨
      ∃ q, Dirties ((note c p l r t h).pcs q) ((prog c p l).data r t) dev x := by
  have hpend : dev = c.dev ∧ x ∈ t.log.lh.drop h.installed →
      ((prog c p l).data r t).disk dev x = (note c p l r t h).store dev x ∨
        (dev = c.dev ∧ x ∈ ((prog c p l).data r t).log.lh.drop (note c p l r t h).installed) := by
    rintro ⟨rfl, hx⟩
    exact (hy.act.pending hy.knows hx).symm.imp_right fun hx => ⟨rfl, hx⟩
  rcases hy.inv.fresh dev x with hd | hp | ⟨q, hq⟩
  · rcases stored_step (c := c) (p := p) (l := l) (r := r) (t := t) (h := h) dev x with hs | hs
    · rcases hy.act.disk hy.solid hy.knows dev x with he | he
      · exact .inl (he.trans (hd.trans hs.symm))
      · exact .inl he
    · refine .inr (.inr ⟨p, ?_⟩)
      rw [note_pcs, update_self]
      exact hs
  · exact (hpend hp).imp_right .inl
  · rcases hy.dirties hq with hq | hp | he
    · exact .inr (.inr ⟨q, hq⟩)
    · exact (hpend hp).imp_right .inl
    · exact .inl he

/-- Every block still to be installed has a pinned buffer with its contents. -/
theorem Act.pinned (ha : Act c l t h t' g) (hs : Solid p l t h) (hi : Inv c t h) (hk : Knows c p l t h)
    (hkey : ∀ b, 0 < (t.buf b).refcnt → (t'.buf b).dev = (t.buf b).dev ∧ (t'.buf b).blockno = (t.buf b).blockno)
    {x : ℕ} (hx : x ∈ t'.log.lh.drop g.installed) :
    ∃ b, t'.About b c.dev x ∧ 0 < g.pins b ∧ (t'.buf b).valid = true := by
  have hst := hk.stage
  have hvalid := fun b => ha.valid (b := b)
  -- a block that was pending already
  have hold : x ∈ t.log.lh.drop h.installed →
      ∃ b, t.About b c.dev x ∧ t'.About b c.dev x ∧ 0 < h.pins b ∧ (t'.buf b).valid = true := by
    intro hx
    obtain ⟨b, hab, hpin, hv⟩ := hi.pinned x hx
    obtain ⟨k1, k2⟩ := hkey b (hs.pins hpin)
    exact ⟨b, hab, ⟨k1.trans hab.1, k2.trans hab.2⟩, hpin, hvalid b (hs.pins hpin) hv⟩
  cases ha with
  | calm hc hst =>
    rw [hc.lh, hst.installed] at hx
    obtain ⟨b, -, hab, hpin, hv⟩ := hold hx
    exact ⟨b, hab, by rwa [hst.pins], hv⟩
  | @pin a log _ =>
    obtain ⟨b, -, hab, hpin, hv⟩ := hold hx
    refine ⟨b, hab, ?_, hv⟩
    dsimp only
    rw [update_apply]
    split
    · exact Nat.succ_pos _
    · exact hpin
  | @unpin a tail lbuf hl =>
    rw [hl] at hst
    obtain ⟨tail', lbuf', he, ⟨-, -, hin⟩, hlt, hab', -⟩ := hst
    cases he
    have hdrop := List.drop_eq_getElem_cons hlt
    obtain ⟨b, hab, hab'', hpin, hv⟩ := hold (by rw [hin, hdrop]; exact List.mem_cons_of_mem _ hx)
    have hne : b ≠ a := by
      rintro rfl
      have hd : (t.log.lh.drop tail).Nodup := hi.nodup.sublist (List.drop_sublist ..)
      rw [hdrop] at hd
      have hxe : x = t.log.lh[tail] := by rw [← hab.2, hab'.2, getD_eq hlt]
      exact (List.nodup_cons.1 hd).1 (hxe ▸ hx)
    exact ⟨b, hab'', by dsimp only; rwa [update_of_ne hne], hv⟩
  | @add a hl =>
    dsimp only [Data.setLog] at hx
    rw [List.drop_append] at hx
    rcases List.mem_append.1 hx with hx | hx
    · obtain ⟨b, -, hab, hpin, hv⟩ := hold hx
      exact ⟨b, hab, hpin, hv⟩
    · rw [hl] at hst
      have hb : a ∈ l.held := hs.fits.held a (by rw [hl]; exact List.mem_cons_self)
      obtain rfl : x = (t.buf a).blockno := List.mem_singleton.1 (List.mem_of_mem_drop hx)
      exact ⟨a, ⟨hst.1.1.1, rfl⟩, hst.2, (hk.holding a hb).1⟩
  | clear _ => simp [Data.setLog] at hx
  | _ =>
    obtain ⟨b, -, hab, hpin, hv⟩ := hold hx
    exact ⟨b, hab, hpin, hv⟩

/-- The pin of `log_write` is there until the block is in the log. -/
theorem Ready.pinning_next (hy : Ready c p l r t h) (hb : l.pc.pinning = some b) :
    ((prog c p l).target r t l).pc.pinning = some b ∨
      (((prog c p l).data r t).buf b).blockno ∈ ((prog c p l).data r t).log.lh.drop (record l r t h).installed := by
  have hst := hy.knows.stage
  have hin := hy.tidy.inside
  have hidle : l.inOp = true → h.installed = 0 := fun ho => hy.inv.idle (hy.not_committing ho)
  clear hy
  obtain ⟨held, unlogged, inOp, pc⟩ := l
  cases pc with
  | bpinUnlock a log =>
    cases hb
    obtain ⟨rfl, -⟩ := hst
    exact .inl rfl
  | writeAdd a =>
    cases hb
    right
    simp [prog, Instr.data, Data.setLog, record, hidle (hin rfl)]
  | _ => cases hb

theorem Pc.pinning_inside {pc : Pc m} (hb : pc.pinning = some b) : pc.inside = true := by
  cases pc <;> first | rfl | cases hb

/-- A pin is that of one block still to be installed, or `log_write` has just made it. -/
theorem Act.pins (ha : Act c l t h t' g) (hs : Solid p l t h) (hi : Inv c t h) (hk : Knows c p l t h)
    (hkey : ∀ b, 0 < (t.buf b).refcnt → (t'.buf b).dev = (t.buf b).dev ∧ (t'.buf b).blockno = (t.buf b).blockno)
    (hnext : l.pc.pinning = some b →
      l'.pc.pinning = some b ∨ (t'.buf b).blockno ∈ t'.log.lh.drop g.installed)
    (hnew : ∀ log, l.pc = .bpinInc b log → l'.pc.pinning = some b) (hb : 0 < g.pins b) :
    g.pins b = 1 ∧ (t'.buf b).dev = c.dev ∧ ((t'.buf b).blockno ∈ t'.log.lh.drop g.installed ∨
      ∃ q, (update h.pcs p l' q).pc.pinning = some b) := by
  have hst := hk.stage
  have hp : h.pcs p = l := hs.place
  -- a pin that was there already stays, if its block is still to be installed
  have hold : 0 < h.pins b →
      ((t.buf b).blockno ∈ t.log.lh.drop h.installed → (t.buf b).blockno ∈ t'.log.lh.drop g.installed) →
      h.pins b = 1 ∧ (t'.buf b).dev = c.dev ∧ ((t'.buf b).blockno ∈ t'.log.lh.drop g.installed ∨
        ∃ q, (update h.pcs p l' q).pc.pinning = some b) := by
    intro hpos hkeep
    obtain ⟨k1, k2⟩ := hkey b (hs.pins hpos)
    obtain ⟨h1, h2, h3 | ⟨q, hq⟩⟩ := hi.pins b hpos
    · exact ⟨h1, k1.trans h2, .inl (by rw [k2]; exact hkeep h3)⟩
    · refine ⟨h1, k1.trans h2, ?_⟩
      rcases eq_or_ne q p with rfl | hqp
      · rcases hnext (hp ▸ hq) with hl | hm
        · exact .inr ⟨q, by rwa [update_self]⟩
        · exact .inl hm
      · exact .inr ⟨q, by rwa [update_of_ne hqp]⟩
  cases ha with
  | calm hc hst =>
    rw [hst.pins] at hb ⊢
    exact hold hb (by rw [hc.lh, hst.installed]; exact id)
  | @pin a log hl =>
    dsimp only at hb ⊢
    rcases eq_or_ne b a with rfl | hne
    · rw [hl] at hst
      obtain ⟨rfl, ⟨hdev, -⟩, hnot, -⟩ := hst
      have h0 : h.pins b = 0 := by
        by_contra hpos
        obtain ⟨-, -, hm | ⟨q, hq⟩⟩ := hi.pins b (Nat.pos_of_ne_zero hpos)
        · exact hnot (List.mem_of_mem_drop hm)
        · rcases eq_or_ne q p with rfl | hqp
          · rw [hp, hl] at hq
            cases hq
          · rw [hk.alone (by rw [hl]; rfl) q hqp] at hq
            cases hq
      obtain ⟨k1, -⟩ := hkey b (hs.held (hs.fits.held b (by rw [hl]; exact List.mem_cons_self)))
      rw [update_self, h0]
      exact ⟨rfl, k1.trans hdev, .inr ⟨p, by rw [update_self]; exact hnew true hl⟩⟩
    · rw [update_of_ne hne] at hb ⊢
      exact hold hb id
  | @unpin a tail lbuf hl =>
    dsimp only at hb ⊢
    rcases eq_or_ne b a with rfl | hne
    · rw [update_self] at hb
      have := (hi.pins b (by omega)).1
      omega
    · rw [update_of_ne hne] at hb ⊢
      refine hold hb fun hm => ?_
      rw [hl] at hst
      obtain ⟨tail', lbuf', he, ⟨-, -, hin⟩, hlt, hab, -⟩ := hst
      cases he
      rw [hin, List.drop_eq_getElem_cons hlt] at hm
      refine (List.mem_cons.1 hm).resolve_left fun he => hne ?_
      have ha : a ∈ l.held := hs.fits.held a (by rw [hl]; exact List.mem_cons_self)
      refine hs.unique (hs.pins hb) (.inl (hs.held ha)) ⟨(hi.pins b hb).2.1, ?_⟩ hab
      rw [he, getD_eq hlt]
  | add _ =>
    refine hold hb fun hm => ?_
    dsimp only [Data.setLog]
    rw [List.drop_append]
    exact List.mem_append_left _ hm
  | clear hl =>
    rw [hl] at hst
    obtain ⟨-, -, hm | ⟨q, hq⟩⟩ := hi.pins b hb
    · rw [show h.installed = _ from hst, List.drop_length] at hm
      cases hm
    · have hop := (hi.tidy q).inside (Pc.pinning_inside hq)
      rw [hi.of_commits (p := p) (by rw [hp, hl]; rfl) q] at hop
      cases hop
  | _ => exact hold hb id

/-- A block that the disk does not have is in a valid buffer. -/
theorem Inv.stale (hi : Inv c t h) (hs : Solid p l t h) (hb : 0 < (t.buf b).refcnt)
    (hd : t.disk (t.buf b).dev (t.buf b).blockno ≠ h.store (t.buf b).dev (t.buf b).blockno) :
    (t.buf b).valid = true := by
  rcases hi.fresh (t.buf b).dev (t.buf b).blockno with he | ⟨h1, h2⟩ | ⟨q, a, ha, hab⟩
  · exact absurd he hd
  · obtain ⟨a, hab, hpin, hv⟩ := hi.pinned _ h2
    rw [hs.unique hb (.inl (hs.pins hpin)) ⟨h1, rfl⟩ hab]
    exact hv
  · have hheld : a ∈ (h.pcs q).held := by
      rcases ha with ha | ha
      · exact (hi.tidy q).held a ha
      · exact (hi.tidy q).flush a ha
    have hpos : 0 < (t.buf a).refcnt := (Nat.zero_le _).trans_lt (hs.counted.holds (p := q) rfl (.inl hheld))
    rw [hs.unique hb (.inl hpos) (.refl t b) hab]
    exact hi.valid q a hheld

/-- **`bread` returns what was last stored.** -/
theorem Ready.holding_next (hy : Ready c p l r t h) (hb : b ∈ ((prog c p l).target r t l).held) :
    Holding ((prog c p l).data r t) (note c p l r t h) b := by
  by_cases hold : b ∈ l.held
  · exact hy.holding hold
  have hread := hy.knows.reading
  have hmiss := hy.knows.missing
  have hstale := fun hpos => mt (hy.inv.stale hy.solid (b := b) hpos)
  have hpos : l.pc.takes = some b → 0 < (t.buf b).refcnt := fun ht => hy.solid.holds (.inr ht)
  have hok := hy.follows
  clear hy
  obtain ⟨held, unlogged, inOp, pc⟩ := l
  cases pc with
  | breadValid a k =>
    simp only [prog, Instr.target] at hb
    split at hb
    · next hv =>
      obtain rfl := (Finset.mem_insert.1 hb).resolve_right hold
      simp only [prog, Instr.data, hv, if_true]
      exact ⟨hv, hread b k rfl hv⟩
    · exact absurd hb hold
  | breadDisk a k =>
    obtain rfl := (Finset.mem_insert.1 hb).resolve_right hold
    have hd := not_not.1 (hstale (hpos rfl) (by rw [hmiss b k rfl]; decide))
    simp only [prog, Instr.data]
    refine ⟨?_, ?_⟩
    · rw [Data.read, Data.set_self]
    · rw [Data.read, Data.set_self]
      exact hd
  | user =>
    cases r with
    | bpin a | bunpin a | bwrite a => exact absurd hok id
    | _ => exact absurd hb hold
  | bgetScan dev x k | beginTest | writeTest a | endDec | commit | logLoop tail | insLoop tail =>
    simp only [prog, Instr.target] at hb
    (repeat' split at hb) <;> exact absurd hb hold
  | brelseWake a k =>
    simp only [prog] at hb
    split at hb
    · exact absurd (Finset.mem_of_mem_erase hb) hold
    · exact absurd hb hold
  | _ => exact absurd hb hold

theorem Act.lh (ha : Act c l t h t' g) : t'.log.lh = t.log.lh ∨
    (∃ b, l.pc = .writeAdd b ∧ t'.log.lh = t.log.lh ++ [(t.buf b).blockno]) ∨ t'.log.lh = [] := by
  cases ha with
  | calm hc _ => exact .inl hc.lh
  | @add b hl => exact .inr (.inl ⟨b, hl, rfl⟩)
  | clear _ => exact .inr (.inr rfl)
  | _ => exact .inl rfl

/-- What the log has after the step. -/
theorem Ready.log_step (hy : Ready c p l r t h) : ((prog c p l).data r t).log.lh.Nodup ∧
    (∀ x ∈ ((prog c p l).data r t).log.lh, ¬ c.geom.Inside x) ∧
    ((prog c p l).data r t).log.lh.length ≤ min logsize (c.geom.size - 1) := by
  have hst := hy.knows.stage
  rcases hy.act.lh with he | ⟨b, hl, he⟩ | he
  · rw [he]
    exact ⟨hy.inv.nodup, hy.inv.home, hy.inv.short⟩
  · rw [hl] at hst
    obtain ⟨⟨⟨-, hb⟩, hnot, hroom⟩, -⟩ := hst
    rw [he]
    refine ⟨List.nodup_append.2 ⟨hy.inv.nodup, List.nodup_singleton _, ?_⟩, fun x hx => ?_, ?_⟩
    · rintro x hx y hy rfl
      exact hnot (List.mem_singleton.1 hy ▸ hx)
    · rcases List.mem_append.1 hx with hx | hx
      · exact hy.inv.home x hx
      · rw [List.mem_singleton.1 hx]
        exact hb
    · rw [List.length_append, List.length_singleton]
      omega
  · rw [he]
    exact ⟨.nil, nofun, Nat.zero_le _⟩

theorem Act.installed (ha : Act c l t h t' g) :
    g.installed = h.installed ∨ g.installed = 0 ∨ l.pc.commits = true ∧ l.pc ≠ .endClear := by
  cases ha with
  | calm _ hs => exact .inl hs.installed
  | unpin hl => exact .inr (.inr (by rw [hl]; exact ⟨rfl, nofun⟩))
  | clear _ => exact .inr (.inl rfl)
  | _ => exact .inl rfl

variable (hy : Ready c p l r t h)

include hy

theorem Ready.ops : ((prog c p l).data r t).log.outstanding =
    (Finset.univ.filter fun q => ((note c p l r t h).pcs q).inOp = true).card := by
  have hcard := card_filter_change (s := Finset.univ) (a := p) (p := fun q => (h.pcs q).inOp = true)
    (q := fun q => ((note c p l r t h).pcs q).inOp = true) (Finset.mem_univ p)
    fun q _ hq => by rw [note_pcs, update_of_ne hq]
  rw [note_pcs, update_self, ← hy.inv.ops, show h.pcs p = l from hy.solid.place] at hcard
  rw [note_pcs]
  cases hy.counts with
  | same h4 h1 h2 h3 => rw [h3] at hcard; omega
  | first h1 h2 h3 h4 h5 h6 => simp only [h4, h5] at hcard; simp at hcard; omega
  | last h1 h2 h3 h4 h5 h6 => simp only [h1, h5] at hcard; simp at hcard; omega
  | clear h1 h2 h3 h4 h5 => rw [h4] at hcard; omega

/-- A process that commits did so before, or nobody did. -/
theorem Ready.commits_from (hq : ((note c p l r t h).pcs q).pc.commits = true) :
    ((h.pcs q).pc.commits = true ∧ ((prog c p l).data r t).log.committing = true) ∨
      q = p ∧ t.log.committing = false ∧ ((prog c p l).data r t).log.committing = true := by
  have hp : h.pcs p = l := hy.solid.place
  have hcount := hy.counts
  rw [note_pcs] at hq
  rcases eq_or_ne q p with rfl | hne
  · rw [update_self] at hq
    cases hcount with
    | same h4 h1 h2 h3 =>
      have hc : (h.pcs q).pc.commits = true := by rw [hp]; exact h4 hq
      exact .inl ⟨hc, h2.trans (hy.inv.commits q hc)⟩
    | first h1 h2 h3 h4 h5 h6 => rw [h6] at hq; cases hq
    | last h1 h2 h3 h4 h5 h6 => exact .inr ⟨rfl, h2, h6.symm.trans hq⟩
    | clear h1 h2 h3 h4 h5 => rw [h5] at hq; cases hq
  · rw [update_of_ne hne] at hq
    have hc := hy.inv.commits q hq
    cases hcount with
    | same h4 h1 h2 h3 => exact .inl ⟨hq, h2.trans hc⟩
    | first h1 h2 h3 h4 h5 h6 => rw [hc] at h1; cases h1
    | last h1 h2 h3 h4 h5 h6 => rw [hc] at h2; cases h2
    | clear h1 h2 h3 h4 h5 => exact absurd (hy.inv.one q p hq (by rw [hp, h1]; rfl)) hne

theorem Ready.quiet (hc : ((prog c p l).data r t).log.committing = true) :
    ((prog c p l).data r t).log.outstanding = 0 := by
  cases hy.counts with
  | same h4 h1 h2 h3 => rw [h1, hy.inv.quiet (h2.symm.trans hc)]
  | first h1 h2 h3 h4 h5 h6 => rw [hc] at h2; cases h2
  | last h1 h2 h3 h4 h5 h6 => rw [h3, h4 hc]
  | clear h1 h2 h3 h4 h5 => rw [hc] at h3; cases h3

theorem Ready.idle (hc : ((prog c p l).data r t).log.committing = false) :
    (note c p l r t h).installed = 0 := by
  have hst := hy.knows.stage
  have hp : h.pcs p = l := hy.solid.place
  have hcount := hy.counts
  rcases hy.act.installed with he | he | ⟨hcom, hne⟩
  · refine he.trans ?_
    cases hcount with
    | same h4 h1 h2 h3 => exact hy.inv.idle (h2.symm.trans hc)
    | first h1 h2 h3 h4 h5 h6 => exact hy.inv.idle h1
    | last h1 h2 h3 h4 h5 h6 => exact hy.inv.idle h2
    | clear h1 h2 h3 h4 h5 =>
      rw [h1] at hst
      exact hst.2
  · exact he
  · have htrue := hy.inv.commits p (by rw [hp]; exact hcom)
    cases hcount with
    | same h4 h1 h2 h3 => rw [← h2, hc] at htrue; cases htrue
    | first h1 h2 h3 h4 h5 h6 => rw [h1] at htrue; cases htrue
    | last h1 h2 h3 h4 h5 h6 => rw [h2] at htrue; cases htrue
    | clear h1 h2 h3 h4 h5 => exact absurd h1 hne

/-- **The invariant is kept.** -/
theorem Ready.inv_step :
    Inv c ((prog c p l).data r t) (note c p l r t h) := by
  have hkey : ∀ b, 0 < (t.buf b).refcnt → _ := fun b => hy.key
  obtain ⟨hnodup, hhome, hshort⟩ := hy.log_step
  refine ⟨fun q => ?_, hy.ops, hy.quiet, fun q hq => ?_, fun q q' hq hq' => ?_, hy.idle, fun q b hb => ?_,
    hnodup, hhome, hshort, hy.fresh, fun x => ?_, fun b => ?_⟩
  · rw [note_pcs]
    rcases eq_or_ne q p with rfl | hq
    · rw [update_self]
      exact hy.tidy.step hy.follows hy.solid.fits
    · rw [update_of_ne hq]
      exact hy.inv.tidy q
  · rcases hy.commits_from hq with ⟨-, he⟩ | ⟨-, -, he⟩ <;> exact he
  · rcases hy.commits_from hq with ⟨h1, -⟩ | ⟨h1, h2, -⟩ <;> rcases hy.commits_from hq' with ⟨h3, -⟩ | ⟨h3, h4, -⟩
    · exact hy.inv.one q q' h1 h3
    · rw [hy.inv.commits q h1] at h4; cases h4
    · rw [hy.inv.commits q' h3] at h2; cases h2
    · rw [h1, h3]
  · rw [note_pcs] at hb
    rcases eq_or_ne q p with rfl | hq
    · rw [update_self] at hb
      exact (hy.holding_next hb).1
    · rw [update_of_ne hq] at hb
      have hpos : 0 < (t.buf b).refcnt := (Nat.zero_le _).trans_lt (hy.solid.counted.holds (p := q) rfl (.inl hb))
      exact hy.act.valid hpos (hy.inv.valid q b hb)
  · exact hy.act.pinned hy.solid hy.inv hy.knows hkey
  · refine hy.act.pins hy.solid hy.inv hy.knows hkey hy.pinning_next fun log hl => ?_
    simp [prog, hl, Instr.target, Pc.pinning]

omit hy

/-- How a process comes to have the lock of a buffer that it does not hold yet. -/
theorem locks_step (hb : ((prog c p l).target r t l).pc.locks = some b) :
    (∃ k, l.pc = .bgetSleep b k ∧ ((prog c p l).target r t l).pc = .breadValid b k) ∨
      ∃ k, l.pc = .breadValid b k ∧ (t.buf b).valid = false ∧ ((prog c p l).target r t l).pc = .breadDisk b k := by
  obtain ⟨held, unlogged, inOp, pc⟩ := l
  cases pc with
  | bgetSleep a k =>
    cases hb
    exact .inl ⟨k, rfl, rfl⟩
  | breadValid a k =>
    by_cases hv : (t.buf a).valid = true
    · rw [prog, Instr.target] at hb
      simp only [hv, if_true] at hb
      rw [(k.locks a).1] at hb
      cases hb
    · simp only [prog, Instr.target, hv] at hb ⊢
      cases hb
      exact .inr ⟨k, rfl, by simpa using hv, rfl⟩
  | breadDisk a k =>
    rw [prog, Instr.target] at hb
    rw [(k.locks a).1] at hb
    cases hb
  | brelseUnlock k =>
    rw [prog, Instr.target] at hb
    rw [k.locks.1] at hb
    cases hb
  | bpinUnlock a log => cases log <;> cases hb
  | bunpinUnlock a k => cases k <;> cases hb
  | endUnlock last => cases last <;> cases hb
  | user =>
    cases r with
    | bwrite a =>
      simp only [prog, Instr.target] at hb
      split at hb <;> cases hb
    | _ => cases hb
  | bgetScan dev x k | beginTest | writeTest a | endDec | commit | logLoop tail | insLoop tail =>
    simp only [prog, Instr.target] at hb
    (repeat' split at hb) <;> cases hb
  | brelseWake a k =>
    simp only [prog] at hb
    split at hb <;> cases hb
  | _ => cases hb

/-- What the locks guard. -/
def Guards (k : Lock m) (t : Data m) (h : Hist n m) : Prop :=
  match k with
  | .bcache => True
  | .buf b => Guarded t h b
  | .log => ∀ q, (h.pcs q).pc.pinning = none

/-- **What the process itself knows next.** -/
theorem Ready.knows_step (hy : Ready c p l r t h) (hR : ∀ k l', prog c p l = .acquire k l' → Guards k t h) :
    Knows c p ((prog c p l).target r t l) ((prog c p l).data r t) (note c p l r t h) := by
  refine ⟨fun b => hy.holding_next, fun b k hl => ?_, fun b k hl => ?_, hy.stage, fun hl q hq => ?_⟩
  · rcases locks_step (b := b) (c := c) (p := p) (l := l) (r := r) (t := t) (by rw [hl]; rfl) with
      ⟨k', he, -⟩ | ⟨k', -, -, he⟩
    · have hg := hR (.buf b) { l with pc := .breadValid b k' } (by rw [prog, he])
      have hst : (note c p l r t h).store = h.store := by simp only [note, record, he]
      have hd : (prog c p l).data r t = t := by rw [prog, he]; rfl
      rw [hd, Guarded, hst]
      exact hg
    · rw [hl] at he
      cases he
  · rcases locks_step (b := b) (c := c) (p := p) (l := l) (r := r) (t := t) (by rw [hl]; rfl) with
      ⟨k', -, he⟩ | ⟨k', he, hv, -⟩
    · rw [hl] at he
      cases he
    · have hd : (prog c p l).data r t = t := by
        rw [prog, he]
        simp [Instr.data, hv]
      rw [hd]
      exact hv
  · rw [note_pcs, update_of_ne hq]
    have hd := disciplined (n := n) (m := m) c
    cases hi : prog c p l with
    | acquire k l₁ =>
      rw [hi] at hl
      rcases (hd.acquire hi .log).1 hl with hl | rfl
      · exact hy.knows.alone hl q hq
      · exact hR .log l₁ hi q
    | release k l₁ =>
      rw [hi] at hl
      exact hy.knows.alone (((hd.release hi).2 .log).1 hl).1 q hq
    | act f =>
      rw [hi] at hl
      exact hy.knows.alone ((hd.act hi r t .log).1 hl) q hq
    | halt =>
      rw [hi] at hl
      exact hy.knows.alone hl q hq

/-- What a lock guards survives the steps of those who do not hold it. -/
theorem Ready.guard (hy : Ready c p l r t h) {k : Lock m} (hn : ¬ held p l k) (hR : Guards k t h) :
    Guards k ((prog c p l).data r t) (note c p l r t h) := by
  cases k with
  | bcache => exact trivial
  | buf b =>
    intro hv
    obtain ⟨e1, e2⟩ := hy.act.buffer hy.solid.fits hn (.inr hv)
    obtain ⟨k1, k2⟩ := hy.change.key_of_valid hv
    rw [e2] at hv
    rw [e1, k1, k2, hR hv]
    exact (hy.act.stored hy.solid hn (.inr hv)).symm
  | log =>
    intro q
    rw [note_pcs]
    rcases eq_or_ne q p with rfl | hq
    · rw [update_self, Option.eq_none_iff_forall_ne_some]
      exact fun b hb => hn (hy.pinning hb)
    · rw [update_of_ne hq]
      exact hR q

theorem Stage.pinning_log {pc : Pc m} (hst : Stage c t h pc) (hb : pc.pinning = some b) : pc.log = true := by
  cases pc with
  | bpinUnlock a log => exact hst.1
  | writeAdd a => rfl
  | _ => cases hb

/-- A lock that is released guards what it should. -/
theorem Ready.release (hy : Ready c p l r t h) {k : Lock m} (hi : prog c p l = .release k l') :
    Guards k ((prog c p l).data r t) (note c p l r t h) := by
  have hd := (disciplined (n := n) (m := m) c).release hi
  cases k with
  | bcache => exact trivial
  | buf b =>
    rcases hd.1 with hb | hb
    · exact fun _ => (hy.holding hb).2
    · obtain ⟨held, unlogged, inOp, pc⟩ := l
      cases pc <;> cases hb <;> cases hi
  | log =>
    intro q
    rw [note_pcs]
    rcases eq_or_ne q p with rfl | hq
    · rw [update_self, Option.eq_none_iff_forall_ne_some]
      intro b hb
      have hlog := hy.stage.pinning_log hb
      rw [hi] at hlog
      exact ((hd.2 .log).1 hlog).2 rfl
    · rw [update_of_ne hq]
      exact hy.knows.alone hd.1 q hq

end Step

/-! ## Every run -/

/-- **The annotations for the contents.** -/
theorem contents (c : Conf) : Proof (prog (m := m) (n := n) c) (note c) held Solid
    (fun _ l r t _ => Follows c l r t) (Inv c) Guards (Knows c) := by
  refine .of_own (fun {p l r t h} htake hok hs hI hk => ?_) (fun {p l k l' r t h} hi hok hs hI hk => ?_)
    (fun hq hlock hok hs hs' hI hk hk' => Ready.stable ⟨hs, hI, hk, hok⟩ hq hlock hs' hk')
    fun hn hok hs hI hk hR => Ready.guard ⟨hs, hI, hk, hok⟩ hn hR
  · have hy : Ready c p l r t h := ⟨hs, hI, hk, hok⟩
    exact ⟨hy.inv_step, hy.knows_step fun k l' hi => (htake hi).2⟩
  · have hg := Ready.release (c := c) (r := r) ⟨hs, hI, hk, hok⟩ hi
    rwa [hi] at hg

/-- Every call follows the protocol. -/
def Lawful (c : Conf) (y : State (Fin n) (Lock m) (Data m) (Local m) × Hist n m) (a : Fin n × Req m) : Prop :=
  Follows c (y.1.pc a.1) a.2 y.1.sh

section Reach

variable {c : Conf} {disk : ℕ → ℕ → Block}
variable {s : State (Fin n) (Lock m) (Data m) (Local m)} {h : Hist n m}

theorem contents_boot : Sound held (Inv c) Guards (Knows c) (boot (n := n) (m := m) disk) (Hist.boot (n := n) disk) where
  locks := structured_boot.locks
  inv := by
    refine ⟨fun q => .user, ?_, by rintro ⟨⟩, by rintro _ ⟨⟩, by rintro _ _ ⟨⟩, fun _ => rfl, by rintro _ _ ⟨⟩,
      .nil, by rintro _ ⟨⟩, Nat.zero_le _, fun _ _ => .inl rfl, ?_, by rintro _ ⟨⟩⟩
    · simp [boot, start, Hist.boot, Local.idle]
    · intro x hx
      simp [boot, start] at hx
  free k _ := by
    cases k with
    | bcache => exact trivial
    | buf b => rintro ⟨⟩
    | log => exact fun _ => rfl
  knows q := ⟨by rintro _ ⟨⟩, by rintro _ _ ⟨⟩, by rintro _ _ ⟨⟩, trivial, by rintro ⟨⟩⟩

variable (hr : Reach (step (prog c) (note c)) (Lawful c) (boot disk, Hist.boot disk) (s, h))

include hr

/-- **All annotations hold along every run that follows the protocol.** -/
theorem contents_reach :
    Counted s.sh h ∧ (∀ q, Solid q (s.pc q) s.sh h) ∧ Sound held (Inv c) Guards (Knows c) s h := by
  have hsolid : ∀ {y : State (Fin n) (Lock m) (Data m) (Local m) × Hist n m},
      Reach (step (prog c) (note c)) (Lawful c) (boot disk, Hist.boot disk) y →
      Sound held (fun t h => Counted t h ∧ ∃ L, Ordered t h.zeroed h.clock L) (fun _ _ _ => True)
        (fun _ l _ _ => Fits l) y.1 y.2 → ∀ q, Solid q (y.1.pc q) y.1.sh y.2 :=
    fun hy hs q => ⟨congrFun (pcs_eq hy) q, hs.inv.1, hs.inv.2, hs.knows q⟩
  have hboth := hr.inv' (I := fun y => Sound held (fun t h => Counted t h ∧ ∃ L, Ordered t h.zeroed h.clock L)
      (fun _ _ _ => True) (fun _ l _ _ => Fits l) y.1 y.2 ∧ Sound held (Inv c) Guards (Knows c) y.1 y.2)
    ⟨structured_boot, contents_boot⟩ (by
      rintro y ⟨p, r⟩ y' hy ⟨h1, h2⟩ hg hstep
      obtain ⟨s', hs', rfl⟩ := Option.map_eq_some_iff.1 hstep
      have hready : Ready c p (y.1.pc p) r y.1.sh y.2 := ⟨hsolid hy h1 p, h2.inv, h2.knows p, hg⟩
      exact ⟨h1.step (disciplined c) (structured c) (fun q => congrFun (pcs_eq hy) q) hready.allowed (next_move hs'),
        h2.step (disciplined c) (contents c) (hsolid hy h1) hg (next_move hs')⟩)
  exact ⟨hboth.1.inv.1, hsolid hr hboth.1, hboth.2⟩

/-- `refcnt` stays far below the end of `uint`: a process counts at most twice for a buffer, and the
log once. -/
theorem refcnt_le (b : Fin m) : (s.sh.buf b).refcnt ≤ 2 * n + 1 := by
  obtain ⟨hc, -, hs⟩ := contents_reach hr
  have hpin : h.pins b ≤ 1 := by
    by_contra hlt
    exact hlt (hs.inv.pins b (by omega)).1.le
  have hcard : ∀ P : Fin n → Prop, [DecidablePred P] → (Finset.univ.filter P).card ≤ n := fun P _ =>
    (Finset.card_filter_le _ _).trans_eq (by simp)
  have h1 := hcard fun q => (h.pcs q).holds b
  have h2 := hcard fun q => (h.pcs q).pc.waits = some b
  rw [hc b]
  omega

/-- What the log holds at any time is a transaction that `commit` of `Xv6.Log.Commit` may be handed. -/
theorem log_ok (hu : ∀ x ∈ s.sh.log.lh, x < 2 ^ 32) :
    Log.Txn.Ok c.geom (s.sh.log.lh.map fun x => (x, h.store c.dev x)) := by
  obtain ⟨-, -, hs⟩ := contents_reach hr
  exact .of_blocks hs.inv.nodup hs.inv.short (fun x hx => ⟨hu x hx, hs.inv.home x hx⟩) _

omit hr

/-- **The buffer cache is transparent under logging.** In every run of processes that follow the
protocol, a locked buffer has what was last stored to its block, and `bread` returns it. Every
block in `log.lh` that `install_trans` has not done yet (all of them, unless a process commits) has
a buffer with exactly one pin, which no step takes for another block; no other buffer is pinned,
save by a `log_write` that is about to add its block; and when `commit` returns no pin is left. -/
theorem bread_transparent
    (hr : Reach (step (prog c) (note c)) (Lawful c) (boot disk, Hist.boot disk) (s, h)) :
    (∀ p, ∀ b ∈ (s.pc p).held, (s.sh.buf b).valid = true ∧
      (s.sh.buf b).data = h.store (s.sh.buf b).dev (s.sh.buf b).blockno) ∧
    (∀ p r y b dev x, Lawful c (s, h) (p, r) → step (prog c) (note c) (s, h) (p, r) = some y →
      (s.pc p).pc = .breadValid b (.user dev x) ∨ (s.pc p).pc = .breadDisk b (.user dev x) →
      b ∈ (y.1.pc p).held → y.1.sh.About b dev x ∧ (y.1.sh.buf b).data = h.store dev x) ∧
    (∀ x ∈ s.sh.log.lh.drop h.installed, ∃ b, s.sh.About b c.dev x ∧ h.pins b = 1 ∧
      ∀ a y, Lawful c (s, h) a → step (prog c) (note c) (s, h) a = some y → y.1.sh.About b c.dev x) ∧
    (s.sh.log.committing = false → h.installed = 0) ∧
    (∀ b, 0 < h.pins b → h.pins b = 1 ∧ (s.sh.buf b).dev = c.dev ∧
      ((s.sh.buf b).blockno ∈ s.sh.log.lh.drop h.installed ∨ ∃ q, (s.pc q).pc.pinning = some b)) ∧
    ∀ p, (s.pc p).pc = .endRelock ∨ (s.pc p).pc = .endClear → ∀ b, h.pins b = 0 := by
  obtain ⟨-, hsolid, hs⟩ := contents_reach hr
  have hpcs := pcs_eq hr
  have hready : ∀ p r, Lawful c (s, h) (p, r) → Ready c p (s.pc p) r s.sh h := fun p r hok =>
    ⟨hsolid p, hs.inv, hs.knows p, hok⟩
  refine ⟨fun p b hb => (hs.knows p).holding b hb, ?_, fun x hx => ?_, hs.inv.idle, fun b hb => ?_,
    fun p hp b => ?_⟩
  · intro p r y b dev x hok hstep hl hb
    obtain ⟨s', hs', rfl⟩ := Option.map_eq_some_iff.1 hstep
    have hmove := next_move hs'
    have hy := hready p r hok
    have hab : s.sh.About b dev x := by
      have hst := hy.knows.stage
      rcases hl with hl | hl <;> (rw [hl] at hst; exact hst.2)
    have hpos : 0 < (s.sh.buf b).refcnt := (hsolid p).holds (.inr (by rcases hl with hl | hl <;> (rw [hl]; rfl)))
    obtain ⟨k1, k2⟩ := hy.key hpos
    dsimp only at hb ⊢
    rw [hmove.pc_eq, update_self] at hb
    have hdata := (hy.holding_next hb).2
    have hstore : (note c p (s.pc p) r s.sh h).store = h.store := by
      rcases hl with hl | hl <;> simp only [note, record, hl]
    rw [hmove.sh_eq]
    rw [k1, k2, hab.1, hab.2, hstore] at hdata
    exact ⟨⟨k1.trans hab.1, k2.trans hab.2⟩, hdata⟩
  · obtain ⟨b, hab, hpin, -⟩ := hs.inv.pinned x hx
    refine ⟨b, hab, (hs.inv.pins b hpin).1, ?_⟩
    rintro ⟨p, r⟩ y hok hstep
    obtain ⟨s', hs', rfl⟩ := Option.map_eq_some_iff.1 hstep
    obtain ⟨k1, k2⟩ := (hready p r hok).key ((hsolid p).pins hpin)
    dsimp only
    rw [(next_move hs').sh_eq]
    exact ⟨k1.trans hab.1, k2.trans hab.2⟩
  · rw [← hpcs]
    exact hs.inv.pins b hb
  · have hst := (hs.knows p).stage
    obtain ⟨hnil, -⟩ : Erased s.sh h := by rcases hp with hp | hp <;> (rw [hp] at hst; exact hst)
    have hcom : (h.pcs p).pc.commits = true := by
      rw [hpcs]
      rcases hp with hp | hp <;> (rw [hp]; rfl)
    by_contra hpos
    obtain ⟨-, -, hm | ⟨q, hq⟩⟩ := hs.inv.pins b (Nat.pos_of_ne_zero hpos)
    · rw [hnil, List.drop_nil] at hm
      cases hm
    · have hop := (hs.inv.tidy q).inside (Pc.pinning_inside hq)
      rw [hs.inv.of_commits hcom q] at hop
      cases hop

end Reach

instance (c : Conf) (l : Local m) (r : Req m) (t : Data m) : Decidable (Follows c l r t) := by
  obtain ⟨held, unlogged, inOp, pc⟩ := l
  rcases pc <;> first | exact .isTrue trivial | (rcases r <;> dsimp only [Follows] <;> infer_instance)

instance (c : Conf) (y : State (Fin n) (Lock m) (Data m) (Local m) × Hist n m) (a : Fin n × Req m) :
    Decidable (Lawful c y a) := inferInstanceAs (Decidable (Follows _ _ _ _))

/-- With two buffers: an operation changes block 100 and logs it, and reads blocks 101 and 102, which
compete for the other buffer; then it asks for block 100 again. -/
def reread : List (Fin 1 × Req 2) :=
  List.replicate 4 (0, .beginOp) ++ List.replicate 7 (0, .bread 1 100) ++ [(0, .edit 0 fun _ => 7)] ++
  List.replicate 8 (0, .logWrite 0) ++ List.replicate 5 (0, .brelse 0) ++ List.replicate 7 (0, .bread 1 101) ++
  List.replicate 5 (0, .brelse 1) ++ List.replicate 7 (0, .bread 1 102) ++ List.replicate 5 (0, .bread 1 100)

/-- The buffer `bread` has chosen for the caller, and the block the caller asked for. -/
def Pc.asked : Pc m → Option (Fin m × ℕ × ℕ)
  | .breadValid b (.user dev x) => some (b, dev, x)
  | _ => none

/-- The disk still has the old contents, and `bread` returns the new ones. -/
theorem bread_transparent_reread :
    ∃ x y, Reach (step (prog tinyConf) (note tinyConf)) (Lawful tinyConf)
        (boot (n := 1) (m := 2) fun _ _ _ => 0, Hist.boot fun _ _ _ => 0) x ∧
      step (prog tinyConf) (note tinyConf) x (0, .beginOp) = some y ∧
      (x.1.sh.disk 1 100 ⟨0, by decide⟩ = 0 ∧ x.2.store 1 100 ⟨0, by decide⟩ = 7 ∧ (x.1.sh.buf 1).blockno = 102) ∧
      (y.1.sh.buf 0).data = x.2.store 1 100 := by
  have h1 : (run (fun x a => if Lawful tinyConf x a then step (prog tinyConf) (note tinyConf) x a else none)
      (boot (n := 1) (m := 2) fun _ _ _ => 0, Hist.boot fun _ _ _ => 0) reread).map
      (fun x => ((x.1.pc 0).pc.asked,
        (step (prog tinyConf) (note tinyConf) x (0, .beginOp)).map fun y => decide
        (Lawful tinyConf x (0, .beginOp) ∧ 0 ∈ (y.1.pc 0).held ∧ x.1.sh.disk 1 100 ⟨0, by decide⟩ = 0 ∧ x.2.store 1 100 ⟨0, by decide⟩ = 7 ∧
          (x.1.sh.buf 1).blockno = 102))) = some (some (0, 1, 100), some true) := by
    decide +kernel
  obtain ⟨x, hx, h2⟩ := Option.map_eq_some_iff.1 h1
  obtain ⟨hpc, h2⟩ := Prod.mk.inj h2
  obtain ⟨y, hy, hobs⟩ := Option.map_eq_some_iff.1 h2
  have hr := reach_of_run (G := Lawful tinyConf) hx .refl
  obtain ⟨hok, hheld, hdisk, hstore, h102⟩ := of_decide_eq_true hobs
  have hat : (x.1.pc 0).pc = .breadValid 0 (.user 1 100) := by
    unfold Pc.asked at hpc
    split at hpc
    · next he => cases hpc; exact he
    · cases hpc
  refine ⟨x, y, hr, hy, ⟨hdisk, hstore, h102⟩, ?_⟩
  exact ((bread_transparent hr).2.1 0 .beginOp y 0 1 100 hok hy (.inl hat) hheld).2

end Xv6.Bio
