import Xv6.Bio.Lru

/-!
# The protocol of the log

What the callers of the log promise (`Follows`): changes are made between `begin_op` and `end_op`,
to locked buffers of file-system blocks, and a changed buffer goes through `log_write` before
`brelse`. Reading needs no transaction.

* `Tidy`: the local part of the protocol.
* `Stage`: how far `log_write` or `commit` has come.
* `Act`: what a step does to contents, disk, log and pins.
-/

namespace Xv6.Bio

open Lib Conc

variable {n m : ℕ}

/-- A block of the file system, not of the log. -/
def Home (c : Conf) (x : Buf) : Prop := x.dev = c.dev ∧ ¬ c.geom.Inside x.blockno

instance (c : Conf) (x : Buf) : Decidable (Home c x) := inferInstanceAs (Decidable (_ ∧ _))

/-- The protocol: `begin_op`, then changes of locked buffers, each followed by `log_write` before
`brelse`, then `end_op`. Reading needs no transaction. -/
def Follows (c : Conf) (l : Local m) (r : Req m) (t : Data m) : Prop :=
  match l.pc with
  | .user =>
    match r with
    | .bread _ _ => True
    | .brelse b => b ∉ l.unlogged
    | .edit b _ | .logWrite b => l.inOp = true ∧ b ∈ l.held ∧ Home c (t.buf b)
    | .beginOp => l.inOp = false
    | .endOp => l.inOp = true ∧ l.unlogged = ∅
    | .bpin _ | .bunpin _ | .bwrite _ => False
  | _ => True

/-! ## Local states -/

def Got.commits : Got m → Bool
  | .user _ _ => false
  | _ => true

def Ret.commits : Ret m → Bool
  | .user => false
  | _ => true

/-- The process is in `commit`, or about to call it, or has just returned from it. -/
def Pc.commits : Pc m → Bool
  | .bgetLock _ _ k | .bgetScan _ _ k | .bgetUnlock _ k | .bgetSleep _ k | .breadValid _ k
  | .breadDisk _ k => k.commits
  | .brelseWake _ k | .brelseLock _ k | .brelseDrop _ k | .brelseUnlock k => k.commits
  | .bunpinLock _ _ | .bunpinDec _ _ | .bunpinUnlock _ _ => true
  | .endUnlock last => last
  | .commit | .logLoop _ | .logRead _ _ | .logCopy _ _ _ | .logBwrite _ _ _ | .headFill _ _
  | .headBwrite _ _ | .insLoop _ | .insRead _ _ | .insCopy _ _ _ | .insBwrite _ _ _ | .commitClear
  | .endRelock | .endClear => true
  | _ => false

/-- The process is inside an operation. -/
def Pc.inside : Pc m → Bool
  | .beginUnlock | .writeLock _ | .writeTest _ | .writeAdd _ | .writeUnlock _ | .bpinLock _ _
  | .bpinInc _ _ | .bpinUnlock _ _ | .endLock | .endDec => true
  | _ => false

/-- The process is outside operations. -/
def Pc.outside : Pc m → Bool
  | .beginLock | .beginTest | .beginSleep => true
  | pc => pc.commits

/-- The log block that `commit` has filled and not yet written. -/
def Pc.flushes : Pc m → Option (Fin m)
  | .logBwrite _ b _ | .headBwrite _ b => some b
  | _ => none

/-- The local part of the protocol. -/
structure Tidy (l : Local m) : Prop where
  held : ∀ b ∈ l.unlogged, b ∈ l.held
  flush : ∀ b, l.pc.flushes = some b → b ∈ l.held
  rel : ∀ b k, l.pc = .brelseWake b k → b ∉ l.unlogged
  op : l.unlogged ≠ ∅ → l.inOp = true
  inside : l.pc.inside = true → l.inOp = true
  outside : l.pc.outside = true → l.inOp = false
  ending : l.pc = .endLock ∨ l.pc = .endDec → l.unlogged = ∅

theorem Got.tidy (k : Got m) (b : Fin m) : (k.pc b).flushes = none ∧ (∀ b' k', k.pc b ≠ .brelseWake b' k') ∧
    (k.pc b).inside = false ∧ (k.pc b).outside = k.commits ∧ k.pc b ≠ .endLock ∧ k.pc b ≠ .endDec := by
  cases k <;> simp [Got.pc, Pc.flushes, Pc.inside, Pc.outside, Pc.commits, Got.commits]

section Step

variable {c : Conf} {p : Fin n} {l : Local m} {r : Req m} {t : Data m} {h : Hist n m}

theorem Tidy.unlogged_of_outside (ht : Tidy l) (ho : l.pc.outside = true) : l.unlogged = ∅ := by
  by_contra hne
  have := ht.op hne
  rw [ht.outside ho] at this
  cases this

theorem Tidy.user {held : Finset (Fin m)} : Tidy ⟨held, ∅, false, .user⟩ :=
  ⟨by simp, by rintro _ ⟨⟩, by rintro _ _ ⟨⟩, by simp, by rintro ⟨⟩, by rintro ⟨⟩, by simp⟩

/-- A step that changes only where the process is. -/
theorem Tidy.move (ht : Tidy l) {pc : Pc m} (r : ∀ b k, pc = .brelseWake b k → b ∉ l.unlogged := by rintro _ _ ⟨⟩)
    (i : pc.inside = true → l.inOp = true := by rintro ⟨⟩) (o : pc.outside = true → l.inOp = false := by rintro ⟨⟩)
    (e : pc = .endLock ∨ pc = .endDec → l.unlogged = ∅ := by rintro (h | h) <;> cases h) (hf : pc.flushes = none := by rfl) :
    Tidy { l with pc := pc } :=
  ⟨ht.held, fun _ hb => absurd (hf.symm.trans hb) nofun, r, ht.op, i, o, e⟩

/-- `bread` returns the buffer `b` locked. -/
theorem Tidy.got {k : Got m} {b : Fin m} (ht : Tidy l) (ho : k.commits = true → l.inOp = false) :
    Tidy { l with held := insert b l.held, pc := k.pc b } := by
  obtain ⟨g1, g2, g3, g4, g5, g6⟩ := k.tidy b
  refine ⟨fun b' hb' => Finset.mem_insert_of_mem (ht.held b' hb'), fun b' hb' => ?_, fun b' k' hk => ?_,
    ht.op, fun hi => ?_, fun h0 => ho (g4.symm.trans h0), fun he => ?_⟩
  · rw [g1] at hb'; cases hb'
  · exact absurd hk (g2 b' k')
  · rw [g3] at hi; cases hi
  · rcases he with he | he
    · exact absurd he g5
    · exact absurd he g6

theorem Tidy.step (hok : Follows c l r t) (hf : Fits l) (ht : Tidy l) : Tidy ((prog c p l).target r t l) := by
  have hempty := ht.unlogged_of_outside
  have hin := ht.inside
  have hout := ht.outside
  have hnot : l.pc.outside = true → ∀ b, b ∉ l.unlogged := fun ho b hb => by simp [hempty ho] at hb
  obtain ⟨held, unlogged, inOp, pc⟩ := l
  cases pc with
  | user =>
    cases r with
    | bread dev blockno => exact ht.move
    | brelse b => exact ht.move (r := fun b' k' hb => by cases hb; exact hok)
    | edit b x =>
      obtain ⟨h1, h2, -⟩ := hok
      refine ⟨fun b' hb' => ?_, ht.flush, by rintro _ _ ⟨⟩, fun _ => h1, by rintro ⟨⟩, by rintro ⟨⟩, by simp [prog, Instr.target]⟩
      rcases Finset.mem_insert.1 hb' with rfl | hb'
      · exact h2
      · exact ht.held b' hb'
    | logWrite b => exact ht.move (i := fun _ => hok.1)
    | beginOp => exact ht.move (o := fun _ => hok)
    | endOp => exact ht.move (i := fun _ => hok.1) (e := fun _ => hok.2)
    | bpin b | bunpin b | bwrite b => exact absurd hok id
  | bgetScan dev blockno k =>
    simp only [prog, Instr.target]
    split
    · exact ht.move (o := hout)
    · split
      · exact ht.move (o := hout)
      · exact ht.move
  | breadValid b k =>
    simp only [prog, Instr.target]
    split
    · exact ht.got hout
    · exact ht.move (o := hout)
  | breadDisk b k => exact ht.got hout
  | brelseWake b k =>
    simp only [prog]
    split
    · have hb := ht.rel b k rfl
      refine ⟨fun b' hb' => Finset.mem_erase.2 ⟨?_, ht.held b' hb'⟩, by rintro _ ⟨⟩, by rintro _ _ ⟨⟩, ht.op,
        by rintro ⟨⟩, hout, by simp [Instr.target]⟩
      rintro rfl
      exact hb hb'
    · exact ht
  | brelseUnlock k =>
    cases k with
    | headNext again => cases again <;> exact ht.move (o := hout)
    | logRel tail b | insRel tail b => exact ht.move (r := fun b' k' _ => hnot rfl b') (o := hout)
    | user => exact ht.move
    | _ => exact ht.move (o := hout)
  | bpinUnlock b log =>
    cases log with
    | true => exact ht.move (i := fun _ => hin rfl)
    | false => exact ht.move
  | bunpinUnlock b k =>
    cases k with
    | none => exact ht.move
    | some => exact ht.move (r := fun b' k' _ => hnot rfl b') (o := hout)
  | beginTest =>
    simp only [prog, Instr.target]
    split
    · exact ht.move (o := hout)
    · exact ⟨ht.held, by rintro _ ⟨⟩, by rintro _ _ ⟨⟩, fun _ => rfl, fun _ => rfl, by rintro ⟨⟩, by simp⟩
  | writeTest b =>
    simp only [prog, Instr.target]
    split
    · exact ht.move
    · split <;> exact ht.move (i := hin)
  | writeUnlock b =>
    refine ⟨fun b' hb' => ht.held b' (Finset.mem_of_mem_erase hb'), by rintro _ ⟨⟩, by rintro _ _ ⟨⟩,
      fun _ => hin rfl, by rintro ⟨⟩, by rintro ⟨⟩, ?_⟩
    simp [prog, Instr.target]
  | endDec =>
    have hun := ht.ending (.inr rfl)
    simp only at hun
    subst hun
    simp only [prog, Instr.target]
    split
    · exact Tidy.user.move
    · split
      · exact Tidy.user.move (o := fun _ => rfl)
      · exact Tidy.user.move
  | endUnlock last =>
    cases last with
    | true => exact ht.move (o := hout)
    | false => exact ht.move
  | logBwrite tail b b' | headBwrite again b' =>
    exact ht.move (r := fun x k' _ => hnot rfl x) (o := fun _ => hout rfl)
  | commit | logLoop tail | insLoop tail =>
    simp only [prog, Instr.target]
    split <;> exact ht.move (o := fun _ => hout rfl)
  | logCopy tail b b' | headFill again b =>
    refine ⟨ht.held, fun x hx => ?_, by rintro _ _ ⟨⟩, ht.op, by rintro ⟨⟩, fun _ => hout rfl,
      by simp [prog, Instr.target]⟩
    cases hx
    exact hf.held _ (by simp [Pc.bufs])
  | bgetLock _ _ _ | bgetUnlock _ _ | bgetSleep _ _ => exact ht.move (o := hout)
  | brelseLock _ _ | brelseDrop _ _ => exact ht.move (o := hout)
  | bunpinLock _ _ | bunpinDec _ _ | beginLock | beginSleep => exact ht.move (o := hout)
  | logRead _ _ | insRead _ _ | insCopy _ _ _ | insBwrite _ _ _ | commitClear | endRelock =>
    exact ht.move (o := fun _ => hout rfl)
  | bpinLock _ _ | bpinInc _ _ | writeLock _ | writeAdd _ => exact ht.move (i := hin)
  | endLock => exact ht.move (i := hin) (e := fun _ => ht.ending (.inl rfl))
  | beginUnlock | endClear => exact ht.move
  | panic _ _ => exact ht

end Step

/-! ## How far a call has come -/

/-- Buffer `b` is about block `blockno` of `dev`. -/
def Data.About (t : Data m) (b : Fin m) (dev blockno : ℕ) : Prop :=
  (t.buf b).dev = dev ∧ (t.buf b).blockno = blockno

section Stage

variable (c : Conf) (t : Data m) (h : Hist n m)

/-- The first `k` log blocks have what the home blocks have. -/
def Logged (k : ℕ) : Prop :=
  ∀ j < k, h.store c.dev (c.geom.start + j + 1) = h.store c.dev (t.log.lh.getD j 0)

/-- `write_log` has copied `tail` blocks. -/
def Logging (tail : ℕ) : Prop := Logged c t h tail ∧ tail ≤ t.log.lh.length ∧ h.installed = 0

/-- `install_trans` has installed `tail` blocks. -/
def Installing (tail : ℕ) : Prop :=
  Logged c t h t.log.lh.length ∧ tail ≤ t.log.lh.length ∧ h.installed = tail

/-- The transaction is erased. -/
def Erased : Prop := t.log.lh = [] ∧ h.installed = 0

def Got.Stage : Got m → Prop
  | .user _ _ => True
  | .logTo tail => Logging c t h tail ∧ tail < t.log.lh.length
  | .logFrom tail dst =>
    Logging c t h tail ∧ tail < t.log.lh.length ∧ t.About dst c.dev (c.geom.start + tail + 1)
  | .head again => if again then Erased t h else Logging c t h t.log.lh.length
  | .insLog tail => Installing c t h tail ∧ tail < t.log.lh.length
  | .insDst tail lbuf =>
    Installing c t h tail ∧ tail < t.log.lh.length ∧ t.About lbuf c.dev (c.geom.start + tail + 1)

/-- The block that `bread` was called for. -/
def Got.Wants (dev blockno : ℕ) : Got m → Prop
  | .user dev' blockno' => dev = dev' ∧ blockno = blockno'
  | .logTo tail | .insLog tail => dev = c.dev ∧ blockno = c.geom.start + tail + 1
  | .logFrom tail _ | .insDst tail _ => dev = c.dev ∧ blockno = t.log.lh.getD tail 0
  | .head _ => dev = c.dev ∧ blockno = c.geom.start

def Ret.Stage : Ret m → Prop
  | .user => True
  | .logRel tail _ | .logNext tail => Logging c t h (tail + 1)
  | .headNext again => if again then Erased t h else Logging c t h t.log.lh.length
  | .insRel tail _ | .insNext tail => Installing c t h (tail + 1)

/-- The block of `b` is not in the log yet, and there is room for it. -/
def Fresh (b : Fin m) : Prop :=
  Home c (t.buf b) ∧ (t.buf b).blockno ∉ t.log.lh ∧ t.log.lh.length < min logsize (c.geom.size - 1)

/-- What a process knows of the log where it is. -/
def Stage : Pc m → Prop
  | .bgetLock dev blockno k | .bgetScan dev blockno k => k.Stage c t h ∧ k.Wants c t dev blockno
  | .bgetUnlock b k | .bgetSleep b k | .breadValid b k | .breadDisk b k =>
    k.Stage c t h ∧ k.Wants c t (t.buf b).dev (t.buf b).blockno
  | .brelseWake _ k | .brelseLock _ k | .brelseDrop _ k | .brelseUnlock k => k.Stage c t h
  | .bpinLock b log | .bpinInc b log => log = true ∧ Fresh c t b
  | .bpinUnlock b log => log = true ∧ Fresh c t b ∧ 0 < h.pins b
  | .bunpinLock b k | .bunpinDec b k => ∃ tail lbuf, k = some (tail, lbuf) ∧ Installing c t h tail ∧
      tail < t.log.lh.length ∧ t.About b c.dev (t.log.lh.getD tail 0) ∧
      t.disk c.dev (t.log.lh.getD tail 0) = h.store c.dev (t.log.lh.getD tail 0)
  | .bunpinUnlock _ k => ∃ tail lbuf, k = some (tail, lbuf) ∧ Installing c t h (tail + 1)
  | .writeLock b | .writeTest b => Home c (t.buf b)
  | .writeAdd b => Fresh c t b ∧ 0 < h.pins b
  | .writeUnlock b => Home c (t.buf b) ∧ (t.buf b).blockno ∈ t.log.lh
  | .endUnlock last => last = true → h.installed = 0
  | .commit => h.installed = 0
  | .logLoop tail => Logging c t h tail
  | .logRead tail dst =>
    Logging c t h tail ∧ tail < t.log.lh.length ∧ t.About dst c.dev (c.geom.start + tail + 1)
  | .logCopy tail dst src => Logging c t h tail ∧ tail < t.log.lh.length ∧
      t.About dst c.dev (c.geom.start + tail + 1) ∧ t.About src c.dev (t.log.lh.getD tail 0)
  | .logBwrite tail dst _ => Logging c t h (tail + 1) ∧ t.About dst c.dev (c.geom.start + tail + 1)
  | .headFill again b | .headBwrite again b =>
    (if again then Erased t h else Logging c t h t.log.lh.length) ∧ t.About b c.dev c.geom.start
  | .insLoop tail => Installing c t h tail
  | .insRead tail lbuf =>
    Installing c t h tail ∧ tail < t.log.lh.length ∧ t.About lbuf c.dev (c.geom.start + tail + 1)
  | .insCopy tail lbuf dbuf => Installing c t h tail ∧ tail < t.log.lh.length ∧
      t.About lbuf c.dev (c.geom.start + tail + 1) ∧ t.About dbuf c.dev (t.log.lh.getD tail 0)
  | .insBwrite tail _ dbuf =>
    Installing c t h tail ∧ tail < t.log.lh.length ∧ t.About dbuf c.dev (t.log.lh.getD tail 0)
  | .commitClear => h.installed = t.log.lh.length
  | .endRelock | .endClear => Erased t h
  | _ => True

end Stage

/-! ## What a step does -/

/-- Nothing happens to disk, log and contents, except that an unused buffer may be recycled. -/
structure Calm (t t' : Data m) : Prop where
  disk : t'.disk = t.disk
  lh : t'.log.lh = t.log.lh
  data : ∀ b, (t'.buf b).data = (t.buf b).data
  valid : ∀ b, (t'.buf b).valid = (t.buf b).valid ∨ (t.buf b).refcnt = 0 ∧ (t'.buf b).valid = false

/-- Nothing happens to the pins, the stored contents and the count of installed blocks. -/
structure Still (h h' : Hist n m) : Prop where
  store : h'.store = h.store
  pins : h'.pins = h.pins
  installed : h'.installed = h.installed

/-- The buffer that the next step writes to the disk. -/
def Pc.writes : Pc m → Option (Fin m)
  | .logBwrite _ b _ | .headBwrite _ b | .insBwrite _ _ b => some b
  | _ => none

/-- What a step does to contents, disk, log and pins. -/
inductive Act (c : Conf) (l : Local m) (t : Data m) (h : Hist n m) : Data m → Hist n m → Prop
  | calm {t' : Data m} {h' : Hist n m} : Calm t t' → Still h h' → Act c l t h t' h'
  | read {b : Fin m} {k : Got m} : l.pc = .breadDisk b k → Act c l t h (t.read b) h
  | edit {b : Fin m} {x : Block} : l.pc = .user → l.inOp = true → b ∈ l.held → Home c (t.buf b) →
      Act c l t h (t.store b x) (h.write (t.buf b) x)
  | copy {tail : ℕ} {dst src : Fin m} : l.pc = .logCopy tail dst src →
      Act c l t h (t.store dst (t.buf src).data) (h.write (t.buf dst) (t.buf src).data)
  | fill {again : Bool} {b : Fin m} {x : Block} : l.pc = .headFill again b →
      Act c l t h (t.store b x) (h.write (t.buf b) x)
  | install {tail : ℕ} {lbuf dbuf : Fin m} : l.pc = .insCopy tail lbuf dbuf →
      Act c l t h (t.store dbuf (t.buf lbuf).data) h
  | write {b : Fin m} : l.pc.writes = some b → Act c l t h (t.bwrite b) h
  | pin {b : Fin m} {log : Bool} : l.pc = .bpinInc b log →
      Act c l t h (t.gain b) { h with pins := Function.update h.pins b (h.pins b + 1) }
  | unpin {b : Fin m} {tail : ℕ} {lbuf : Fin m} : l.pc = .bunpinDec b (some (tail, lbuf)) →
      Act c l t h (t.lose b)
        { h with pins := Function.update h.pins b (h.pins b - 1), installed := tail + 1 }
  | add {b : Fin m} : l.pc = .writeAdd b →
      Act c l t h (t.setLog { t.log with lh := t.log.lh ++ [(t.buf b).blockno] }) h
  | clear : l.pc = .commitClear → Act c l t h (t.setLog { t.log with lh := [] }) { h with installed := 0 }

theorem Calm.set {t : Data m} {b : Fin m} {x : Buf} (hd : x.data = (t.buf b).data)
    (hv : x.valid = (t.buf b).valid ∨ (t.buf b).refcnt = 0 ∧ x.valid = false) : Calm t (t.set b x) := by
  refine ⟨rfl, rfl, fun a => ?_, fun a => ?_⟩
  all_goals
    rw [Data.set_buf]
    split
  · next h => subst h; exact hd
  · rfl
  · next h => subst h; exact hv
  · exact .inl rfl

section Act

variable {c : Conf} {p : Fin n} {l : Local m} {r : Req m} {t : Data m} {h : Hist n m}

theorem act (hok : Follows c l r t) (hst : Stage c t h l.pc) :
    Act c l t h ((prog c p l).data r t) (record l r t h) := by
  have hsame : Act c l t h t h := .calm ⟨rfl, rfl, fun _ => rfl, fun _ => .inl rfl⟩ ⟨rfl, rfl, rfl⟩
  have hlog : ∀ x : Log, x.lh = t.log.lh → Act c l t h (t.setLog x) h := fun x hx =>
    .calm ⟨rfl, hx, fun _ => rfl, fun _ => .inl rfl⟩ ⟨rfl, rfl, rfl⟩
  obtain ⟨held, unlogged, inOp, pc⟩ := l
  cases pc with
  | user =>
    cases r with
    | edit b x => exact .edit rfl hok.1 hok.2.1 hok.2.2
    | bwrite b => exact absurd hok id
    | _ => exact hsame
  | bgetScan dev blockno k =>
    simp only [prog, Instr.data, record]
    split
    · exact .calm (.set rfl (.inl rfl)) ⟨rfl, rfl, rfl⟩
    · split
      · next b hb => exact .calm (.set rfl (.inr ⟨t.victim_refcnt hb, rfl⟩)) ⟨rfl, rfl, rfl⟩
      · exact hsame
  | breadValid b k =>
    simp only [prog, Instr.data, record]
    split <;> exact hsame
  | breadDisk b k => exact .read rfl
  | brelseWake b k =>
    simp only [prog]
    split <;> exact hsame
  | brelseDrop b k =>
    have hcalm : Calm t (t.drop b) := by
      have := Calm.set (t := t) (b := b) (x := { t.buf b with refcnt := (t.buf b).refcnt - 1 }) rfl (.inl rfl)
      simp only [Data.drop]
      split
      · exact ⟨rfl, rfl, this.data, this.valid⟩
      · exact this
    refine .calm hcalm ?_
    simp only [record]
    split <;> exact ⟨rfl, rfl, rfl⟩
  | bpinInc b log => exact .pin rfl
  | bunpinDec b k =>
    obtain ⟨tail, lbuf, rfl, -⟩ := hst
    exact .unpin rfl
  | beginTest =>
    simp only [prog, Instr.data, record]
    split
    · exact hsame
    · exact hlog _ rfl
  | commit | logLoop tail | insLoop tail =>
    simp only [prog, Instr.data, record]
    split <;> exact hsame
  | writeTest b =>
    simp only [prog, Instr.data, record]
    split
    · exact hsame
    · split <;> exact hsame
  | writeAdd b => exact .add rfl
  | endDec =>
    simp only [prog, Instr.data, record]
    split
    · exact hlog _ rfl
    · split
      · exact .calm ⟨rfl, rfl, fun _ => rfl, fun _ => .inl rfl⟩ ⟨rfl, rfl, rfl⟩
      · exact hlog _ rfl
  | logCopy tail dst src => exact .copy rfl
  | logBwrite tail dst src | headBwrite again dst | insBwrite tail lbuf dst => exact .write rfl
  | headFill again b => exact .fill rfl
  | insCopy tail lbuf dbuf => exact .install rfl
  | commitClear => exact .clear rfl
  | endClear => exact hlog _ rfl
  | _ => exact hsame

end Act

end Xv6.Bio
