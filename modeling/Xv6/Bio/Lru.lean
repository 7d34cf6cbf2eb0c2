import Xv6.Bio.Cache
import Xv6.Lib.Count

/-!
# The structure of the buffer cache

In every run the links are one circle through the head with every buffer in it once, no two
buffers in use are about one block, `refcnt` counts the holders, the waiters and the pins, a
buffer in use stays with its block, and the buffer that `bget` recycles is the one that was
released longest ago (`cache_structure`).

The list is kept in the order of release (`Ordered.sorted`), since a buffer moves exactly when
`brelse` brings its count to 0, and `bunpin` never does: its caller holds the buffer. Among the
buffers with one block number, which may be many as long as they are unused, the one in use is
the first in the list (`Ordered.first`), and that is the one `bget` finds.

* `Fits`: the buffers that a call goes on with are locked by its process.
* `Change`: what a step does to the links, the block numbers and the counts.
-/

namespace Xv6.Bio

open Function Lib Conc

variable {n m : ℕ}

/-- What the callers promise: they pin, unpin and log buffers that they hold, and an unpin undoes
a pin. -/
def Allowed (l : Local m) (r : Req m) (h : Hist n m) : Prop :=
  match l.pc with
  | .user =>
    match r with
    | .bpin b | .bunpin b | .logWrite b => b ∈ l.held
    | _ => True
  | .bunpinDec b _ => 0 < h.pins b
  | _ => True

/-! ## The buffers of a call -/

def Got.bufs : Got m → List (Fin m)
  | .logFrom _ dst => [dst]
  | .insDst _ lbuf => [lbuf]
  | _ => []

def Ret.bufs : Ret m → List (Fin m)
  | .logRel _ dst => [dst]
  | .insRel _ dbuf => [dbuf]
  | _ => []

/-- The buffers a call goes on with. -/
def Pc.bufs : Pc m → List (Fin m)
  | .bgetLock _ _ k | .bgetScan _ _ k | .bgetUnlock _ k | .bgetSleep _ k | .breadValid _ k
  | .breadDisk _ k => k.bufs
  | .brelseWake _ k | .brelseLock _ k | .brelseDrop _ k | .brelseUnlock k => k.bufs
  | .bpinLock b _ | .bpinInc b _ | .bpinUnlock b _ | .writeLock b | .writeTest b | .writeAdd b
  | .writeUnlock b | .headFill _ b | .headBwrite _ b | .logRead _ b | .insRead _ b => [b]
  | .bunpinLock b k | .bunpinDec b k | .bunpinUnlock b k => b :: (k.map Prod.snd).toList
  | .logCopy _ b b' | .logBwrite _ b b' | .insCopy _ b b' | .insBwrite _ b b' => [b, b']
  | _ => []

/-- The same, with the buffer that `brelse` is about to release. -/
def Pc.names : Pc m → List (Fin m)
  | .brelseWake b k => b :: k.bufs
  | pc => pc.bufs

/-- The buffers of a call are locked and different, and the one that it takes or gives back
is not among the locked ones. -/
structure Fits (l : Local m) : Prop where
  held : ∀ b ∈ l.pc.bufs, b ∈ l.held
  nodup : l.pc.names.Nodup
  apart : ∀ b, l.pc.takes = some b → b ∉ l.held
  
section Step

variable {c : Conf} {p : Fin n} {l : Local m} {r : Req m} {t : Data m} {h : Hist n m}

/-- `bread` returns. -/
theorem Fits.got {held : Finset (Fin m)} {b : Fin m} {k : Got m} (h1 : ∀ x ∈ k.bufs, x ∈ held)
    (hb : b ∉ held) : (∀ x ∈ (k.pc b).bufs, x ∈ insert b held) ∧ (k.pc b).names.Nodup ∧ (k.pc b).takes = none := by
  cases k with
  | logFrom tail dst | insDst tail dst =>
    have hd : dst ∈ held := h1 dst (by simp [Got.bufs])
    have hne : dst ≠ b := fun he => hb (he ▸ hd)
    simp [Got.pc, Pc.bufs, Pc.names, Pc.takes, hd, hne]
  | _ => simp [Got.pc, Pc.bufs, Pc.names, Pc.takes]

/-- `brelse` returns. -/
theorem Fits.ret (k : Ret m) : k.pc.bufs = [] ∧ k.pc.names.Nodup ∧ k.pc.takes = none := by
  cases k with
  | headNext again => cases again <;> exact ⟨rfl, .nil, rfl⟩
  | logRel tail dst | insRel tail dst => exact ⟨rfl, by simp [Ret.pc, Pc.names, Ret.bufs], rfl⟩
  | _ => exact ⟨rfl, .nil, rfl⟩

/-- **The buffers of a call stay with it.** -/
theorem Fits.step (hok : Allowed l r h) (hf : Fits l) (hfree : ∀ b k, l.pc = .bgetSleep b k → b ∉ l.held) :
    Fits ((prog c p l).target r t l) := by
  obtain ⟨held, unlogged, inOp, pc⟩ := l
  obtain ⟨h1, h2, h3⟩ := hf
  cases pc with
  | user =>
    cases r with
    | brelse b => exact ⟨nofun, by simp [prog, Instr.target, Pc.names, Ret.bufs], nofun⟩
    | bwrite b =>
      simp only [prog, Instr.target]
      split <;> exact ⟨nofun, .nil, nofun⟩
    | bpin b | bunpin b | logWrite b =>
      have hb : b ∈ held := hok
      exact ⟨by simpa [prog, Instr.target, Pc.bufs] using hb,
        by simp [prog, Instr.target, Pc.names, Pc.bufs], nofun⟩
    | _ => exact ⟨nofun, .nil, nofun⟩
  | bgetScan dev blockno k =>
    simp only [prog, Instr.target]
    split
    · exact ⟨h1, h2, nofun⟩
    · split
      · exact ⟨h1, h2, nofun⟩
      · exact ⟨nofun, .nil, nofun⟩
  | bgetSleep b k =>
    have hb := hfree b k rfl
    exact ⟨h1, h2, fun b' hb' => by cases hb'; exact hb⟩
  | breadValid b k =>
    obtain ⟨g1, g2, g3⟩ := Fits.got (k := k) h1 (h3 b rfl)
    simp only [prog, Instr.target]
    split
    · exact ⟨g1, g2, fun b' hb' => nomatch g3.symm.trans hb'⟩
    · exact ⟨h1, h2, h3⟩
  | breadDisk b k =>
    obtain ⟨g1, g2, g3⟩ := Fits.got (k := k) h1 (h3 b rfl)
    exact ⟨g1, g2, fun b' hb' => nomatch g3.symm.trans hb'⟩
  | brelseWake b k =>
    simp only [prog]
    split
    · obtain ⟨hb, hd⟩ := List.nodup_cons.1 h2
      refine ⟨fun x hx => Finset.mem_erase.2 ⟨?_, h1 x hx⟩, hd, fun b' hb' => ?_⟩
      · rintro rfl
        exact hb hx
      · cases hb'
        exact Finset.notMem_erase b held
    · exact ⟨h1, h2, h3⟩
  | brelseUnlock k =>
    obtain ⟨g1, g2, g3⟩ := Fits.ret k
    refine ⟨?_, g2, fun b' hb' => nomatch g3.symm.trans hb'⟩
    simp only [prog, Instr.target, g1]
    exact nofun
  | bpinUnlock b log =>
    cases log with
    | true => exact ⟨h1, h2, nofun⟩
    | false => exact ⟨nofun, .nil, nofun⟩
  | bunpinUnlock b k =>
    match k with
    | none => exact ⟨nofun, .nil, nofun⟩
    | some (tail, lbuf) =>
      refine ⟨fun x hx => h1 x ?_, (List.Perm.swap ..).nodup_iff.1 h2, nofun⟩
      cases List.mem_singleton.1 hx
      exact List.mem_cons_self
  | logBwrite tail b b' =>
    refine ⟨fun x hx => h1 x ?_, (List.Perm.swap ..).nodup_iff.1 h2, nofun⟩
    cases List.mem_singleton.1 hx
    exact List.mem_cons_self
  | headBwrite again b => exact ⟨nofun, h2, nofun⟩
  | insBwrite tail b b' =>
    refine ⟨fun x hx => h1 x ?_, (List.Perm.swap ..).nodup_iff.1 h2, nofun⟩
    exact (List.Perm.swap ..).mem_iff.1 hx
  | beginTest | endDec | commit | logLoop tail | insLoop tail =>
    simp only [prog, Instr.target]
    (repeat' split) <;> exact ⟨nofun, .nil, nofun⟩
  | writeTest b =>
    simp only [prog, Instr.target]
    split
    · exact ⟨nofun, .nil, nofun⟩
    · split <;> exact ⟨h1, h2, nofun⟩
  | endUnlock last => cases last <;> exact ⟨nofun, .nil, nofun⟩
  | writeUnlock b | commitClear => exact ⟨nofun, .nil, nofun⟩
  | brelseDrop b k => exact ⟨h1, h2, nofun⟩
  | _ => exact ⟨h1, h2, h3⟩

end Step

/-! ## Counting -/

namespace Data

variable (t : Data m) {b b' : Fin m}

@[simp] theorem set_self (b : Fin m) (x : Buf) : (t.set b x).buf b = x := update_self ..

theorem set_of_ne (h : b' ≠ b) (x : Buf) : (t.set b x).buf b' = t.buf b' := update_of_ne h ..

theorem set_buf (b b' : Fin m) (x : Buf) : (t.set b x).buf b' = if b' = b then x else t.buf b' :=
  update_apply ..

/-- What the new buffer has in common with the old one stays. -/
theorem set_eq {α : Type*} (f : Buf → α) {x : Buf} (h : f x = f (t.buf b)) (a : Fin m) :
    f ((t.set b x).buf a) = f (t.buf a) := by
  rw [set_buf]
  split
  · next he => rw [he]; exact h
  · rfl

theorem set_key {x : Buf} (a : Fin m) (h1 : x.dev = (t.buf b).dev := by rfl)
    (h2 : x.blockno = (t.buf b).blockno := by rfl) :
    ((t.set b x).buf a).dev = (t.buf a).dev ∧ ((t.set b x).buf a).blockno = (t.buf a).blockno :=
  ⟨t.set_eq Buf.dev h1 a, t.set_eq Buf.blockno h2 a⟩

theorem victim_refcnt (h : t.victim = some b) : (t.buf b).refcnt = 0 := by
  simpa using Links.scan_some h

theorem cached_key {dev blockno : ℕ} (h : t.cached dev blockno = some b) :
    (t.buf b).dev = dev ∧ (t.buf b).blockno = blockno := by
  simpa using Links.scan_some h

/-- What is done to `refcnt` in `brelse`. -/
theorem drop_buf (b : Fin m) : (t.drop b).buf = (t.lose b).buf := by
  unfold drop
  dsimp only
  split <;> rfl

theorem store_refcnt (b b' : Fin m) (x : Block) : ((t.store b x).buf b').refcnt = (t.buf b').refcnt :=
  t.set_eq Buf.refcnt (by rfl) b'

theorem read_refcnt (b b' : Fin m) : ((t.read b).buf b').refcnt = (t.buf b').refcnt :=
  t.set_eq Buf.refcnt (by rfl) b'

theorem gain_refcnt (b b' : Fin m) :
    ((t.gain b).buf b').refcnt = (t.buf b').refcnt + if b' = b then 1 else 0 := by
  rw [gain, set_buf]
  split
  · next h => rw [h]
  · rfl

theorem lose_refcnt (b b' : Fin m) :
    ((t.lose b).buf b').refcnt = (t.buf b').refcnt - if b' = b then 1 else 0 := by
  rw [lose, set_buf]
  split
  · next h => rw [h]
  · rfl

end Data

/-- `refcnt` counts the holders, the waiters and the pins. -/
def Counted (t : Data m) (h : Hist n m) : Prop :=
  ∀ b, (t.buf b).refcnt = (Finset.univ.filter fun q => (h.pcs q).holds b).card +
    (Finset.univ.filter fun q => (h.pcs q).pc.waits = some b).card + h.pins b

/-- What a process contributes to the count of `b`. -/
def Local.refs (l : Local m) (b : Fin m) : ℕ :=
  (if l.holds b then 1 else 0) + if l.pc.waits = some b then 1 else 0

/-- The history knows where the process is. -/
def At (p : Fin n) (l : Local m) (h : Hist n m) : Prop := h.pcs p = l

section Count

variable {c : Conf} {p : Fin n} {l : Local m} {r : Req m} {t : Data m} {h : Hist n m}

/-- A holder is counted, beside the pins. -/
theorem Counted.holds (hc : Counted t h) (hp : At p l h) {b : Fin m} (hb : l.holds b) :
    h.pins b < (t.buf b).refcnt := by
  have : 0 < (Finset.univ.filter fun q => (h.pcs q).holds b).card :=
    Finset.card_pos.2 ⟨p, by simp [show h.pcs p = l from hp, hb]⟩
  have := hc b
  omega

theorem Got.quiet (k : Got m) (b : Fin m) : (k.pc b).takes = none ∧ (k.pc b).waits = none := by
  cases k <;> exact ⟨rfl, rfl⟩

theorem Ret.quiet (k : Ret m) : k.pc.takes = none ∧ k.pc.waits = none := by
  cases k with
  | headNext again => cases again <;> exact ⟨rfl, rfl⟩
  | _ => exact ⟨rfl, rfl⟩

theorem refs_takes {l : Local m} {b b' : Fin m} (h1 : l.pc.takes = some b') (h2 : l.pc.waits = none)
    (hb : b' ∉ l.held) : l.refs b = (if b ∈ l.held then 1 else 0) + if b = b' then 1 else 0 := by
  simp only [Local.refs, Local.holds, h1, h2]
  rcases eq_or_ne b b' with rfl | hne
  · simp [hb]
  · simp [hne, hne.symm]

/-- The caller of `bread` becomes a holder. -/
theorem refs_got {held unlogged : Finset (Fin m)} {inOp : Bool} {k : Got m} {b b' : Fin m} (hb : b' ∉ held) :
    (⟨insert b' held, unlogged, inOp, k.pc b'⟩ : Local m).refs b =
      (if b ∈ held then 1 else 0) + if b = b' then 1 else 0 := by
  obtain ⟨g1, g2⟩ := k.quiet b'
  simp only [Local.refs, Local.holds, g1, g2, Finset.mem_insert]
  rcases eq_or_ne b b' with rfl | hne
  · simp [hb]
  · simp [hne]

/-- **Every reference is counted once.** -/
theorem balance (hok : Allowed l r h) (hf : Fits l) (hc : Counted t h) (hp : At p l h)
    (hfree : ∀ b k, l.pc = .bgetSleep b k → b ∉ l.held) (b : Fin m) :
    (((prog c p l).data r t).buf b).refcnt + l.refs b + h.pins b =
      (t.buf b).refcnt + ((prog c p l).target r t l).refs b + (record l r t h).pins b := by
  have hpos : l.holds b → h.pins b < (t.buf b).refcnt := hc.holds hp
  obtain ⟨h1, h2, h3⟩ := hf
  obtain ⟨held, unlogged, inOp, pc⟩ := l
  cases pc with
  | user =>
    cases r with
    | bwrite b' =>
      simp only [prog, Instr.data, Instr.target, record]
      split <;> rfl
    | edit b' x =>
      simp only [prog, Instr.data, Instr.target, record, Hist.write, Data.store_refcnt]
      rfl
    | _ => rfl
  | bgetScan dev blockno k =>
    cases hca : t.cached dev blockno with
    | some b' =>
      simp only [prog, Instr.data, Instr.target, record, hca, Data.gain_refcnt, Local.refs, Local.holds,
        Pc.takes, Pc.waits, Option.some.injEq]
      rcases eq_or_ne b b' with rfl | hne
      · simp; omega
      · simp [hne, hne.symm]
    | none =>
      cases hv : t.victim with
      | some b' =>
        have h0 := t.victim_refcnt hv
        simp only [prog, Instr.data, Instr.target, record, hca, hv, Data.recycle, Data.set_buf, Local.refs,
          Local.holds, Pc.takes, Pc.waits, Option.some.injEq]
        rcases eq_or_ne b b' with rfl | hne
        · simp [h0]; omega
        · simp [hne, hne.symm]
      | none => simp only [prog, Instr.data, Instr.target, record, hca, hv]; rfl
  | bgetSleep b' k =>
    have hb := hfree b' k rfl
    simp only [prog, Instr.data, Instr.target, record, Local.refs, Local.holds, Pc.takes, Pc.waits,
      Option.some.injEq]
    rcases eq_or_ne b b' with rfl | hne
    · simp only at hb; simp [hb]
    · simp [hne.symm]
  | breadValid b' k =>
    have hb : b' ∉ held := h3 b' rfl
    simp only [prog, Instr.data, Instr.target, record]
    split
    · rw [refs_got hb, refs_takes rfl rfl hb]
    · rfl
  | breadDisk b' k =>
    have hb : b' ∉ held := h3 b' rfl
    simp only [prog, Instr.data, Instr.target, record, Data.read_refcnt]
    rw [refs_got hb, refs_takes rfl rfl hb]
  | brelseWake b' k =>
    simp only [prog]
    split
    · next hb =>
      simp only [Instr.data, Instr.target, record, Local.refs, Local.holds, Pc.takes, Pc.waits,
        Finset.mem_erase, Option.some.injEq]
      rcases eq_or_ne b b' with rfl | hne
      · simp [hb]
      · simp [hne, hne.symm]
    · rfl
  | brelseDrop b' k =>
    have hb : b' ∉ held := h3 b' rfl
    have hpins : (record ⟨held, unlogged, inOp, .brelseDrop b' k⟩ r t h).pins = h.pins := by
      simp only [record]
      split <;> rfl
    rw [hpins]
    simp only [prog, Instr.data, Instr.target, Data.drop_buf, Data.lose_refcnt, Local.refs, Local.holds,
      Pc.takes, Pc.waits, Option.some.injEq]
    rcases eq_or_ne b b' with rfl | hne
    · have := hpos (.inr rfl)
      simp [hb]; omega
    · simp [hne, hne.symm]
  | brelseUnlock k =>
    obtain ⟨g1, g2⟩ := k.quiet
    simp only [prog, Instr.data, Instr.target, record, Local.refs, Local.holds, g1, g2]
    rfl
  | bpinInc b' log =>
    simp only [prog, Instr.data, Instr.target, record, Data.gain_refcnt, update_apply]
    have hrefs : (⟨held, unlogged, inOp, .bpinUnlock b' log⟩ : Local m).refs b =
        (⟨held, unlogged, inOp, .bpinInc b' log⟩ : Local m).refs b := rfl
    split
    · next hb => subst hb; omega
    · omega
  | bunpinDec b' k =>
    have hpin : 0 < h.pins b' := hok
    have hrec : (record ⟨held, unlogged, inOp, .bunpinDec b' k⟩ r t h).pins =
        update h.pins b' (h.pins b' - 1) := by
      cases k <;> rfl
    simp only [prog, Instr.data, Instr.target, hrec, Data.lose_refcnt, update_apply]
    have hrefs : (⟨held, unlogged, inOp, .bunpinUnlock b' k⟩ : Local m).refs b =
        (⟨held, unlogged, inOp, .bunpinDec b' k⟩ : Local m).refs b := rfl
    have := hc b
    split
    · next hb => subst hb; omega
    · omega
  | bpinUnlock b' log => cases log <;> rfl
  | bunpinUnlock b' k => cases k <;> rfl
  | beginTest | commit | logLoop tail | insLoop tail | writeTest b | endDec =>
    simp only [prog, Instr.data, Instr.target, record]
    (repeat' split) <;> rfl
  | endUnlock last => cases last <;> rfl
  | logCopy tail b' b'' | insCopy tail b' b'' | headFill again b' =>
    simp only [prog, Instr.data, Instr.target, record, Hist.write, Data.store_refcnt]
    rfl
  | _ => rfl

theorem note_pcs : (note c p l r t h).pcs = update h.pcs p ((prog c p l).target r t l) := rfl

/-- **`refcnt` goes on counting.** -/
theorem Counted.step (hok : Allowed l r h) (hf : Fits l) (hc : Counted t h) (hp : At p l h)
    (hfree : ∀ b k, l.pc = .bgetSleep b k → b ∉ l.held) :
    Counted ((prog c p l).data r t) (note c p l r t h) := by
  intro b
  have hb := balance (c := c) hok hf hc hp hfree b
  have hholds := card_filter_change (s := Finset.univ) (a := p) (p := fun q => (h.pcs q).holds b)
    (q := fun q => ((note c p l r t h).pcs q).holds b) (Finset.mem_univ p)
    (fun q _ hq => by simp [note_pcs, hq])
  have hwaits := card_filter_change (s := Finset.univ) (a := p) (p := fun q => (h.pcs q).pc.waits = some b)
    (q := fun q => ((note c p l r t h).pcs q).pc.waits = some b) (Finset.mem_univ p)
    (fun q _ hq => by simp [note_pcs, hq])
  have hself : (note c p l r t h).pcs p = (prog c p l).target r t l := by simp [note_pcs]
  rw [hself, show h.pcs p = l from hp] at hholds hwaits
  have := hc b
  unfold Local.refs at hb
  change _ = _ + _ + (record l r t h).pins b
  omega

end Count

/-! ## The order of the list -/

/-- What a step does to the links, the block numbers and the counts; `z` and `k` are the times of
release and the clock. -/
inductive Change (t : Data m) (z : Fin m → ℕ) (k : ℕ) : Data m → (Fin m → ℕ) → ℕ → Prop
  | quiet {t' : Data m} : t'.links = t.links →
      (∀ b, (t'.buf b).refcnt = (t.buf b).refcnt ∧ (t'.buf b).dev = (t.buf b).dev ∧
        (t'.buf b).blockno = (t.buf b).blockno) →
      (∀ b, (t'.buf b).valid = true → (t.buf b).valid = true ∨ 0 < (t.buf b).refcnt) → Change t z k t' z k
  | gain {b : Fin m} : (0 < (t.buf b).refcnt ∨ ∃ dev blockno, t.cached dev blockno = some b) →
      Change t z k (t.gain b) z k
  | recycle {b : Fin m} {dev blockno : ℕ} : t.cached dev blockno = none → t.victim = some b →
      Change t z k (t.recycle b dev blockno) z k
  | lose {b : Fin m} : 1 < (t.buf b).refcnt → Change t z k (t.lose b) z k
  | retire {b : Fin m} : (t.buf b).refcnt = 1 →
      Change t z k { t.lose b with links := (t.links.unlink b).push b } (update z b (k + 1)) (k + 1)

section Change

variable {c : Conf} {p : Fin n} {l : Local m} {r : Req m} {t : Data m} {h : Hist n m}

theorem Change.store (b : Fin m) (x : Block) {z : Fin m → ℕ} {k : ℕ} : Change t z k (t.store b x) z k := by
  refine .quiet rfl (fun b' => ⟨t.store_refcnt b b' x, t.set_key b'⟩) fun b' hv => .inl ?_
  exact (t.set_eq Buf.valid (by rfl) b').symm.trans hv

theorem Change.read {b : Fin m} (hb : 0 < (t.buf b).refcnt) {z : Fin m → ℕ} {k : ℕ} :
    Change t z k (t.read b) z k := by
  refine .quiet rfl (fun b' => ⟨t.read_refcnt b b', t.set_key b'⟩) fun b' => ?_
  rw [Data.read, Data.set_buf]
  split
  · next hb' => subst hb'; exact fun _ => .inr hb
  · exact .inl

/-- **What a step does to the cache.** -/
theorem change (hok : Allowed l r h) (hf : Fits l) (hc : Counted t h) (hp : At p l h) :
    Change t h.zeroed h.clock ((prog c p l).data r t) (record l r t h).zeroed (record l r t h).clock := by
  have hpos : ∀ b, l.holds b → h.pins b < (t.buf b).refcnt := fun b => hc.holds hp
  have hsame : Change t h.zeroed h.clock t h.zeroed h.clock :=
    .quiet rfl (fun _ => ⟨rfl, rfl, rfl⟩) fun _ => .inl
  obtain ⟨h1, h2, h3⟩ := hf
  obtain ⟨held, unlogged, inOp, pc⟩ := l
  cases pc with
  | user =>
    cases r with
    | bwrite b =>
      simp only [prog, Instr.data, record]
      split
      · exact hsame
      · exact .quiet rfl (fun _ => ⟨rfl, rfl, rfl⟩) fun _ => .inl
    | edit b x => exact .store b x
    | _ => exact hsame
  | bgetScan dev blockno k =>
    simp only [prog, Instr.data, record]
    split
    · next b hb => exact .gain (.inr ⟨dev, blockno, hb⟩)
    · next hn =>
      split
      · next b hb => exact .recycle hn hb
      · exact hsame
  | breadValid b k =>
    simp only [prog, Instr.data, record]
    split <;> exact hsame
  | brelseWake b k =>
    simp only [prog]
    split <;> exact hsame
  | breadDisk b k => exact .read ((Nat.zero_le _).trans_lt (hpos b (.inr rfl)))
  | brelseDrop b k =>
    have hb := hpos b (.inr rfl)
    simp only [prog, Instr.data, record, Data.drop, Data.lose_refcnt, if_true]
    split
    · next h1 =>
      rw [if_pos (by omega)]
      exact .retire (by omega)
    · next h1 =>
      rw [if_neg (by omega)]
      exact .lose (by omega)
  | bpinInc b log =>
    exact .gain (.inl ((Nat.zero_le _).trans_lt (hpos b (.inl (h1 b (by simp [Pc.bufs]))))))
  | bunpinDec b k =>
    have hb := hpos b (.inl (h1 b (by simp [Pc.bufs])))
    have hpin : 0 < h.pins b := hok
    cases k <;> exact .lose (by omega)
  | beginTest | commit | logLoop tail | insLoop tail | writeTest b | endDec =>
    simp only [prog, Instr.data, record]
    (repeat' split) <;> exact .quiet rfl (fun _ => ⟨rfl, rfl, rfl⟩) fun _ => .inl
  | logCopy tail b b' | insCopy tail b b' => exact .store _ _
  | headFill again b => exact .store _ _
  | _ => exact .quiet rfl (fun _ => ⟨rfl, rfl, rfl⟩) fun _ => .inl

end Change

/-- `a` was released after `b`, or neither ever was. -/
def Later (z : Fin m → ℕ) (a b : Fin m) : Prop := z b < z a ∨ z a = 0 ∧ z b = 0

/-- The links have the buffers in the order `L`: the last released first, and of the buffers with
one block number the one in use first. -/
structure Ordered (t : Data m) (z : Fin m → ℕ) (k : ℕ) (L : List (Fin m)) : Prop where
  nodup : L.Nodup
  all : ∀ b, b ∈ L
  circ : t.links.Circ L
  sorted : L.Pairwise (Later z)
  past : ∀ b, z b ≤ k
  first : ∀ b, 0 < (t.buf b).refcnt ∨ (t.buf b).valid = true →
    L.find? (fun a => (t.buf a).dev = (t.buf b).dev ∧ (t.buf a).blockno = (t.buf b).blockno) = some b

/-- The first element stays the first when fewer qualify. -/
theorem find?_of_imp {α : Type*} {p q : α → Bool} {L : List α} {a : α} (h : L.find? p = some a)
    (ha : q a = true) (hle : ∀ x, q x = true → p x = true) : L.find? q = some a := by
  obtain ⟨-, as, bs, rfl, has⟩ := List.find?_eq_some_iff_append.1 h
  refine List.find?_eq_some_iff_append.2 ⟨ha, as, bs, rfl, fun x hx => ?_⟩
  have := has x hx
  cases hq : q x with
  | false => rfl
  | true => rw [hle x hq] at this; exact this

section Ordered

variable {t t' : Data m} {z z' : Fin m → ℕ} {k k' : ℕ} {L : List (Fin m)}

variable (ho : Ordered t z k L)

include ho

theorem Ordered.length_le : L.length ≤ m := by
  have := ho.nodup.length_le_card
  simpa using this

theorem Ordered.cached_eq (dev blockno : ℕ) :
    t.cached dev blockno = L.find? fun b => (t.buf b).dev = dev ∧ (t.buf b).blockno = blockno :=
  ho.circ.scan _ ho.length_le

theorem Ordered.victim_eq :
    t.victim = L.reverse.find? fun b => (t.buf b).refcnt = 0 :=
  ho.circ.swap.scan _ (by rw [List.length_reverse]; exact ho.length_le)

/-- At most one buffer that is in use or valid is about a block. -/
theorem Ordered.unique {a b : Fin m}
    (ha : 0 < (t.buf a).refcnt ∨ (t.buf a).valid = true) (hb : 0 < (t.buf b).refcnt ∨ (t.buf b).valid = true)
    (hd : (t.buf a).dev = (t.buf b).dev) (hn : (t.buf a).blockno = (t.buf b).blockno) : a = b := by
  have h1 := ho.first a ha
  have h2 := ho.first b hb
  rw [hd, hn, h2] at h1
  exact (Option.some.inj h1).symm

/-- **The victim was released longest ago.** -/
theorem Ordered.victim_oldest {b : Fin m} (hv : t.victim = some b) {a : Fin m}
    (ha : (t.buf a).refcnt = 0) (hne : a ≠ b) : Later z a b := by
  rw [ho.victim_eq] at hv
  obtain ⟨-, as, bs, hL, has⟩ := List.find?_eq_some_iff_append.1 hv
  have hL' : L = bs.reverse ++ b :: as.reverse := by
    rw [← List.reverse_reverse L, hL]
    simp
  have hsort := ho.sorted
  have hmem := ho.all a
  rw [hL', List.pairwise_append] at hsort
  rw [hL'] at hmem
  rcases List.mem_append.1 hmem with h1 | h1
  · exact hsort.2.2 a h1 b (by simp)
  · rcases List.mem_cons.1 h1 with h2 | h2
    · exact absurd h2 hne
    · have := has a (List.mem_reverse.1 h2)
      simp [ha] at this

/-- The order of the list stays if the block numbers do and nothing new comes into use. -/
theorem Ordered.of_keys (hl : t'.links = t.links)
    (hkey : ∀ b, (t'.buf b).dev = (t.buf b).dev ∧ (t'.buf b).blockno = (t.buf b).blockno)
    (huse : ∀ b, 0 < (t'.buf b).refcnt ∨ (t'.buf b).valid = true →
      (0 < (t.buf b).refcnt ∨ (t.buf b).valid = true) ∨ ∃ dev blockno, t.cached dev blockno = some b) :
    Ordered t' z k L := by
  refine ⟨ho.nodup, ho.all, hl ▸ ho.circ, ho.sorted, ho.past, fun b hb => ?_⟩
  simp only [hkey]
  rcases huse b hb with h1 | ⟨dev, blockno, h1⟩
  · exact ho.first b h1
  · obtain ⟨rfl, rfl⟩ := t.cached_key h1
    rw [← ho.cached_eq]
    exact h1

/-- Moving an element to the front of the list. -/
theorem Ordered.retire {b : Fin m} (hb : 0 < (t.buf b).refcnt) :
    ∃ L', Ordered { t.lose b with links := (t.links.unlink b).push b } (update z b (k + 1)) (k + 1) L' := by
  obtain ⟨L₁, L₂, rfl⟩ := List.append_of_mem (ho.all b)
  have hd := ho.nodup
  have hperm : (L₁ ++ b :: L₂).Perm (b :: (L₁ ++ L₂)) := List.perm_middle
  obtain ⟨hnot, hd'⟩ := List.nodup_cons.1 (hperm.nodup_iff.1 hd)
  have hz : ∀ a ∈ L₁ ++ L₂, update z b (k + 1) a = z a := fun a ha =>
    update_of_ne (fun he : a = b => hnot (he ▸ ha)) _ _
  have hkey : ∀ a, (((t.lose b).buf a).dev = (t.buf a).dev ∧ ((t.lose b).buf a).blockno = (t.buf a).blockno) ∧
      ((t.lose b).buf a).valid = (t.buf a).valid :=
    fun a => ⟨t.set_key a, t.set_eq Buf.valid (by rfl) a⟩
  refine ⟨b :: (L₁ ++ L₂), hperm.nodup_iff.1 hd, fun a => hperm.mem_iff.1 (ho.all a),
    (ho.circ.unlink hd).push hd' hnot, ?_, fun a => ?_, fun a ha => ?_⟩
  · refine List.pairwise_cons.2 ⟨fun a ha => .inl ?_, ?_⟩
    · rw [hz a ha, update_self]
      exact Nat.lt_succ_of_le (ho.past a)
    · have hsub : (L₁ ++ L₂).Pairwise (Later z) :=
        ho.sorted.sublist (List.Sublist.append_left (List.sublist_cons_self b L₂) L₁)
      refine hsub.imp_of_mem fun {x y} hx hy hxy => ?_
      rw [Later, hz x hx, hz y hy]
      exact hxy
  · rw [update_apply]
    split
    · exact Nat.le_refl _
    · exact (ho.past a).trans (Nat.le_succ k)
  · dsimp only at ha ⊢
    simp only [hkey] at ha ⊢
    rcases eq_or_ne a b with rfl | hne
    · simp
    · -- a second buffer in use is about another block
      have halive : 0 < (t.buf a).refcnt ∨ (t.buf a).valid = true := by
        rcases ha with ha | ha
        · rw [Data.lose_refcnt] at ha; exact .inl (by omega)
        · exact .inr ha
      have hkb : ¬ ((t.buf b).dev = (t.buf a).dev ∧ (t.buf b).blockno = (t.buf a).blockno) := fun hk =>
        hne (ho.unique halive (.inl hb) hk.1.symm hk.2.symm)
      have := ho.first a halive
      rw [List.find?_append, List.find?_cons] at this
      rw [List.find?_cons, List.find?_append]
      simpa [hkb] using this

/-- `bget` takes a buffer for a block that is not cached. -/
theorem Ordered.recycle {b : Fin m} {dev blockno : ℕ}
    (hn : t.cached dev blockno = none) (hv : t.victim = some b) : Ordered (t.recycle b dev blockno) z k L := by
  have hother : ∀ a, ¬ ((t.buf a).dev = dev ∧ (t.buf a).blockno = blockno) := by
    intro a
    rw [ho.cached_eq, List.find?_eq_none] at hn
    simpa using hn a (ho.all a)
  refine ⟨ho.nodup, ho.all, ho.circ, ho.sorted, ho.past, fun a ha => ?_⟩
  rcases eq_or_ne a b with rfl | hne
  · -- it is now the only one with that block
    simp only [Data.recycle, Data.set_self]
    cases hf : L.find? fun x => ((t.recycle a dev blockno).buf x).dev = dev ∧
        ((t.recycle a dev blockno).buf x).blockno = blockno with
    | none =>
      rw [List.find?_eq_none] at hf
      have := hf a (ho.all a)
      simp [Data.recycle] at this
    | some x =>
      have hx := List.find?_some hf
      rcases eq_or_ne x a with rfl | hxa
      · exact hf
      · simp only [Data.recycle, Data.set_of_ne _ hxa, decide_eq_true_eq] at hx
        exact absurd hx (hother x)
  · have halive : 0 < (t.buf a).refcnt ∨ (t.buf a).valid = true := by
      simpa [Data.recycle, Data.set_of_ne _ hne] using ha
    refine find?_of_imp (ho.first a halive) (by simp) fun x hx => ?_
    rcases eq_or_ne x b with rfl | hxb
    · simp only [Data.recycle, Data.set_self, Data.set_of_ne _ hne, decide_eq_true_eq] at hx
      exact absurd ⟨hx.1.symm, hx.2.symm⟩ (hother a)
    · simpa [Data.recycle, Data.set_of_ne _ hne, Data.set_of_ne _ hxb] using hx

omit ho

/-- **The order is kept.** -/
theorem Change.ordered (hch : Change t z k t' z' k') (ho : Ordered t z k L) : ∃ L', Ordered t' z' k' L' := by
  cases hch with
  | quiet hl hb hv =>
    refine ⟨L, ho.of_keys hl (fun b => (hb b).2) fun b hu => .inl ?_⟩
    rcases hu with hu | hu
    · exact .inl ((hb b).1 ▸ hu)
    · exact (hv b hu).symm
  | @gain b hb =>
    refine ⟨L, ho.of_keys rfl (fun a => t.set_key a) fun a hu => ?_⟩
    rcases eq_or_ne a b with rfl | hne
    · exact hb.imp .inl id
    · rw [Data.gain, Data.set_of_ne _ hne] at hu
      exact .inl hu
  | recycle hn hv => exact ⟨L, ho.recycle hn hv⟩
  | @lose b hb =>
    refine ⟨L, ho.of_keys rfl (fun a => t.set_key a) fun a hu => .inl ?_⟩
    rcases eq_or_ne a b with rfl | hne
    · exact .inl (by omega)
    · rw [Data.lose, Data.set_of_ne _ hne] at hu
      exact hu
  | retire hb => exact ho.retire (by omega)

/-- A buffer in use stays with its block, and the one that changes its block was the oldest
unused one. -/
theorem Change.key (hch : Change t z k t' z' k') (ho : Ordered t z k L) {b : Fin m}
    (hne : (t'.buf b).dev ≠ (t.buf b).dev ∨ (t'.buf b).blockno ≠ (t.buf b).blockno) :
    (t.buf b).refcnt = 0 ∧ ∀ a, (t.buf a).refcnt = 0 → a ≠ b → Later z a b := by
  have hfix : ¬ ((t'.buf b).dev = (t.buf b).dev ∧ (t'.buf b).blockno = (t.buf b).blockno) := fun h =>
    hne.elim (absurd h.1) (absurd h.2)
  cases hch with
  | quiet _ hb _ => exact absurd (hb b).2 hfix
  | gain | lose | retire => exact (hfix (t.set_key b)).elim
  | @recycle b' dev blockno _ hv =>
    rcases eq_or_ne b b' with rfl | hbb
    · exact ⟨t.victim_refcnt hv, fun a ha hab => ho.victim_oldest hv ha hab⟩
    · rw [Data.recycle, Data.set_of_ne _ hbb] at hne
      simp at hne

end Ordered

/-! ## Every run -/

theorem Got.locks (k : Got m) (b : Fin m) :
    (k.pc b).locks = none ∧ (k.pc b).bcache = false ∧ (k.pc b).log = false := by
  cases k <;> exact ⟨rfl, rfl, rfl⟩

theorem Ret.locks (k : Ret m) : k.pc.locks = none ∧ k.pc.bcache = false ∧ k.pc.log = false := by
  cases k with
  | headNext again => cases again <;> exact ⟨rfl, rfl, rfl⟩
  | _ => exact ⟨rfl, rfl, rfl⟩

/-- The locks are taken and released where `held` says. -/
theorem disciplined (c : Conf) : Disciplined (prog (m := m) (n := n) c) held where
  acquire := by
    rintro p ⟨hs, unlogged, inOp, pc⟩ k l' hi k'
    cases pc <;> simp only [prog, Instr.acquire.injEq, reduceCtorEq] at hi
    case brelseWake => split at hi <;> cases hi
    all_goals
      obtain ⟨rfl, rfl⟩ := hi
      cases k' <;> simp [held, Local.has, Pc.locks, Pc.bcache, Pc.log, eq_comm]
  release := by
    rintro p ⟨hs, unlogged, inOp, pc⟩ k l' hi
    cases pc <;> simp only [prog, Instr.release.injEq, reduceCtorEq] at hi
    case brelseWake b k =>
      split at hi
      · next hb =>
        cases hi
        refine ⟨.inl hb, fun k' => ?_⟩
        cases k' <;> simp [held, Local.has, Pc.locks, Pc.bcache, Pc.log, and_comm]
      · cases hi
    case brelseUnlock k =>
      obtain ⟨rfl, rfl⟩ := hi
      obtain ⟨h1, h2, h3⟩ := k.locks
      refine ⟨rfl, fun k' => ?_⟩
      cases k' <;> simp [held, Local.has, h1, h2, h3] <;> simp [Pc.locks, Pc.log]
    case bpinUnlock b last | bunpinUnlock b last | endUnlock last =>
      obtain ⟨rfl, rfl⟩ := hi
      refine ⟨rfl, fun k' => ?_⟩
      cases k' <;> cases last <;> simp [held, Local.has, pinned, unpinned, Pc.locks, Pc.bcache, Pc.log]
    all_goals
      obtain ⟨rfl, rfl⟩ := hi
      refine ⟨rfl, fun k' => ?_⟩
      cases k' <;> simp [held, Local.has, Pc.locks, Pc.bcache, Pc.log]
  act := by
    rintro p ⟨hs, unlogged, inOp, pc⟩ f hi r t k
    cases pc <;> simp only [prog, Instr.act.injEq, reduceCtorEq] at hi
    case brelseWake => split at hi <;> cases hi
    all_goals subst hi
    case breadValid b g =>
      obtain ⟨h1, h2, h3⟩ := g.locks b
      dsimp only
      split
      · cases k <;> simp only [held, Local.has, h1, h2, h3] <;> simp [Pc.locks, Pc.bcache, Pc.log, or_comm, eq_comm]
      · cases k <;> simp [held, Local.has, Pc.locks, Pc.bcache, Pc.log]
    case breadDisk b g =>
      obtain ⟨h1, h2, h3⟩ := g.locks b
      cases k <;> simp only [held, Local.has, h1, h2, h3] <;> simp [Pc.locks, Pc.bcache, Pc.log, or_comm, eq_comm]
    all_goals
      dsimp only
      (repeat' split) <;> cases k <;> simp [held, Local.has, Pc.locks, Pc.bcache, Pc.log]

/-- **The annotations of the buffer cache.** -/
theorem structured (c : Conf) : Proof (prog (m := m) (n := n) c) (note c) held
    (fun p l _ h => At p l h) (fun _ l r _ h => Allowed l r h)
    (fun t h => Counted t h ∧ ∃ L, Ordered t h.zeroed h.clock L) (fun _ _ _ => True) (fun _ l _ _ => Fits l) := by
  refine .of_own (fun {p l r t h} htake hok hp hI hf => ?_) (fun _ _ _ _ _ => trivial)
    (fun _ _ _ _ _ _ _ hf => hf) fun _ _ _ _ _ _ => trivial
  have hfree : ∀ b k, l.pc = .bgetSleep b k → b ∉ l.held := by
    intro b k hl hb
    exact (htake (m := .buf b) (by rw [prog, hl])).1 (.inl hb)
  obtain ⟨L, hL⟩ := hI.2
  exact ⟨⟨hI.1.step hok hf hp hfree, (change hok hf hI.1 hp).ordered hL⟩, hf.step hok hfree⟩

/-- Every call keeps its promise. -/
def Proper (y : State (Fin n) (Lock m) (Data m) (Local m) × Hist n m) (a : Fin n × Req m) : Prop :=
  Allowed (y.1.pc a.1) a.2 y.2

/-- `push` one after another. -/
theorem circ_foldl {k : Links (Fin m)} {L l : List (Fin m)} (hk : k.Circ L) (hd : (l.reverse ++ L).Nodup) :
    (l.foldl (fun k b => k.push b) k).Circ (l.reverse ++ L) := by
  induction l generalizing k L with
  | nil => exact hk
  | cons b l ih =>
    rw [List.reverse_cons, List.append_assoc] at hd ⊢
    obtain ⟨hb, hL⟩ := List.nodup_cons.1 (List.nodup_append.1 hd).2.1
    exact ih (hk.push hL hb) hd

theorem binit_circ : (binit (m := m)).Circ (List.finRange m).reverse := by
  have := circ_foldl (m := m) (k := ⟨fun _ => none, fun _ => none⟩) (L := []) (l := List.finRange m)
    ⟨rfl, rfl⟩ (by simpa using List.nodup_finRange m)
  rwa [List.append_nil] at this

section Reach

variable {c : Conf} {disk : ℕ → ℕ → Block}
variable {G : State (Fin n) (Lock m) (Data m) (Local m) × Hist n m → Fin n × Req m → Prop}
variable {s : State (Fin n) (Lock m) (Data m) (Local m)} {h : Hist n m}

/-- The history knows where the processes are. -/
theorem pcs_eq (hr : Reach (step (prog c) (note c)) G (boot disk, Hist.boot disk) (s, h)) : h.pcs = s.pc := by
  refine hr.inv (I := fun y => y.2.pcs = y.1.pc) rfl ?_
  rintro ⟨s, h⟩ ⟨p, r⟩ y' heq - hstep
  obtain ⟨s', hs', rfl⟩ := Option.map_eq_some_iff.1 hstep
  have heq' : h.pcs = s.pc := heq
  change update h.pcs p _ = s'.pc
  rw [(next_move hs').pc_eq, heq']

theorem structured_boot :
    Sound held (fun t h => Counted t h ∧ ∃ L, Ordered t h.zeroed h.clock L) (fun _ _ _ => True)
      (fun _ l _ _ => Fits l) (boot (n := n) (m := m) disk) (Hist.boot (n := n) disk) where
  locks := LockInv.start fun p k => by
    cases k <;> simp [held, Local.idle, Local.has, Pc.locks, Pc.bcache, Pc.log]
  inv := by
    refine ⟨fun b => ?_, _, List.nodup_reverse.2 (List.nodup_finRange m), fun b => ?_, binit_circ, ?_, ?_, ?_⟩
    · simp [boot, start, Hist.boot, Local.idle, Local.holds, Pc.takes, Pc.waits]
    · simp
    · exact List.pairwise_of_forall fun _ _ => .inr ⟨rfl, rfl⟩
    · exact fun _ => Nat.le_refl _
    · intro b hb
      simp [boot, start] at hb
  free _ _ := trivial
  knows q := ⟨nofun, .nil, nofun⟩

theorem structured_reach (hr : Reach (step (prog c) (note c)) Proper (boot disk, Hist.boot disk) (s, h)) :
    Sound held (fun t h => Counted t h ∧ ∃ L, Ordered t h.zeroed h.clock L) (fun _ _ _ => True)
      (fun _ l _ _ => Fits l) s h :=
  (structured c).reach (disciplined c) (fun _ hy q => congrFun (pcs_eq hy) q) (fun _ _ _ _ hg => hg)
    structured_boot hr

/-- **The structure of the buffer cache.** In every run in which the callers keep their promises
the links are one circle through the head with every buffer in it once; no two buffers in use are
about one block; `refcnt` is the number of holders, waiters and pins; and a buffer changes its
block only when it is not in use and, of those not in use, was released longest ago. -/
theorem cache_structure (hr : Reach (step (prog c) (note c)) Proper (boot disk, Hist.boot disk) (s, h)) :
    (∃ L : List (Fin m), L.Nodup ∧ (∀ b, b ∈ L) ∧ s.sh.links.Circ L) ∧
    (∀ a b, 0 < (s.sh.buf a).refcnt → 0 < (s.sh.buf b).refcnt → (s.sh.buf a).dev = (s.sh.buf b).dev →
      (s.sh.buf a).blockno = (s.sh.buf b).blockno → a = b) ∧
    (∀ b, (s.sh.buf b).refcnt = (Finset.univ.filter fun p => (s.pc p).holds b).card +
      (Finset.univ.filter fun p => (s.pc p).pc.waits = some b).card + h.pins b) ∧
    ∀ x y, Proper (s, h) x → step (prog c) (note c) (s, h) x = some y → ∀ b,
      (y.1.sh.buf b).dev ≠ (s.sh.buf b).dev ∨ (y.1.sh.buf b).blockno ≠ (s.sh.buf b).blockno →
        (s.sh.buf b).refcnt = 0 ∧ ∀ a, (s.sh.buf a).refcnt = 0 → a ≠ b →
          h.zeroed b < h.zeroed a ∨ h.zeroed a = 0 ∧ h.zeroed b = 0 := by
  have hs := structured_reach hr
  obtain ⟨hc, L, hL⟩ := hs.inv
  refine ⟨⟨L, hL.nodup, hL.all, hL.circ⟩, fun a b ha hb => hL.unique (.inl ha) (.inl hb), fun b => ?_, ?_⟩
  · rw [← pcs_eq hr]
    exact hc b
  · rintro ⟨p, r⟩ y hok hstep b hb
    obtain ⟨s', hs', rfl⟩ := Option.map_eq_some_iff.1 hstep
    dsimp only at hb
    rw [(next_move hs').sh_eq] at hb
    exact (change hok (hs.knows p) hc (congrFun (pcs_eq hr) p)).key hL hb

end Reach

instance (l : Local m) (r : Req m) (h : Hist n m) : Decidable (Allowed l r h) := by
  unfold Allowed
  split
  · split <;> infer_instance
  · infer_instance
  · infer_instance

instance (y : State (Fin n) (Lock m) (Data m) (Local m) × Hist n m) (a : Fin n × Req m) :
    Decidable (Proper y a) := inferInstanceAs (Decidable (Allowed _ _ _))

/-- One process reads blocks 5 and 6 into a cache of two buffers, and then asks for block 7. -/
def evict : List (Fin 1 × Req 2) :=
  List.replicate 7 (0, .bread 1 5) ++ List.replicate 5 (0, .brelse 0) ++ List.replicate 7 (0, .bread 1 6) ++
  List.replicate 5 (0, .brelse 1) ++ List.replicate 2 (0, .bread 1 7)

def tinyConf : Conf := ⟨1, ⟨2, 30, by decide⟩⟩

/-- Block 5 makes room, since it was released first. -/
theorem cache_structure_evict :
    ∃ x y, Reach (step (prog tinyConf) (note tinyConf)) Proper
        (boot (n := 1) (m := 2) fun _ _ _ => 0, Hist.boot fun _ _ _ => 0) x ∧
      step (prog tinyConf) (note tinyConf) x (0, .beginOp) = some y ∧
      ((x.1.sh.buf 0).blockno = 5 ∧ (y.1.sh.buf 0).blockno = 7 ∧ (x.1.sh.buf 1).refcnt = 0) ∧
      (x.2.zeroed 0 < x.2.zeroed 1 ∨ x.2.zeroed 1 = 0 ∧ x.2.zeroed 0 = 0) := by
  have h1 : (run (fun x a => if Proper x a then step (prog tinyConf) (note tinyConf) x a else none)
      (boot (n := 1) (m := 2) fun _ _ _ => 0, Hist.boot fun _ _ _ => 0) evict).map
      (fun x => (step (prog tinyConf) (note tinyConf) x (0, .beginOp)).map fun y => decide
        (Proper x (0, .beginOp) ∧ (x.1.sh.buf 0).blockno = 5 ∧ (y.1.sh.buf 0).blockno = 7 ∧
          (x.1.sh.buf 1).refcnt = 0)) = some (some true) := by
    decide +kernel
  obtain ⟨x, hx, h2⟩ := Option.map_eq_some_iff.1 h1
  obtain ⟨y, hy, hobs⟩ := Option.map_eq_some_iff.1 h2
  have hr := reach_of_run (G := Proper) hx .refl
  obtain ⟨hok, h5, h7, h0⟩ := of_decide_eq_true hobs
  refine ⟨x, y, hr, hy, ⟨h5, h7, h0⟩, ?_⟩
  exact ((cache_structure hr).2.2.2 (0, .beginOp) y hok hy 0 (.inr (by rw [h5, h7]; decide))).2 1 h0 (by decide)

end Xv6.Bio
