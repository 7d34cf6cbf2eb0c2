import Xv6.Log.Group

/-!
# When the reserved log space suffices

`begin_op` reserves `MAXOPBLOCKS` blocks for each operation out of `LOGSIZE`. On the disk
that `mkfs` makes the log region has `LOGSIZE` blocks with the header among them, and
`log_write` refuses to go on once `log.size - 1` blocks are logged, also for a block that
is in the log already.

* `too_big_reachable`: three operations within their budget make `log_write` panic.
* `log_space_suffices`: the panic is not reached in a run in which each admission leaves
  the operations in progress enough room: the blocks logged, those the operations in
  progress may still add, and `MAXOPBLOCKS` for the new one are at most `log.size - 2`.
-/

namespace Xv6.Log

open Thread Lib

variable {n size : ℕ} {p q : Fin n} {sh sh' : Shared n}

/-- The blocks that the operation of `p` has logged so far. -/
def Hist.opWrote (h : Hist n) (p : Fin n) : List ℕ :=
  match h.cur p with
  | some o => h.wrote o
  | none => []

/-- The blocks that the operation of `p` may still add. -/
def Hist.left (h : Hist n) (p : Fin n) : ℕ :=
  if (h.cur p).isSome then maxopblocks - (h.opWrote p).length else 0

/-- The blocks that the operations in progress may still add. -/
def Hist.reserved (h : Hist n) : ℕ := ∑ p, h.left p

/-- Each operation logs at most `MAXOPBLOCKS` distinct blocks. -/
def withinBudget (s : State n Unit Unit (Shared n) Pc) (a : Fin n × Req) : Bool :=
  match (s.procs a.1).ctl, a.2 with
  | .run .inOp, .write b => decide (((s.sh.hist.opWrote a.1).insert b).length ≤ maxopblocks)
  | _, _ => true

/-- An admission leaves room for every operation in progress and the new one. -/
def leavesRoom (size : ℕ) (s : State n Unit Unit (Shared n) Pc) (a : Fin n × Req) : Bool :=
  match (s.procs a.1).ctl with
  | .run .beginTest =>
    s.sh.committing || decide (s.sh.lh.n + (s.sh.outstanding + 1) * maxopblocks > logsize) ||
      decide (s.sh.lh.n + s.sh.hist.reserved + maxopblocks + 2 ≤ size)
  | _ => true

/-! ## The panic is reachable -/

/-- Three operations start. The first two log ten blocks each and the third one nine; its
tenth `log_write` is one too many. -/
def threeOps : List (Fin 3 × Req) :=
  (List.finRange 3).flatMap (fun p => List.replicate 4 (p, .op)) ++
    (List.range 29).flatMap (fun k => List.replicate (k + 6) (Fin.ofNat 3 (k / 10), .write k)) ++
    List.replicate 4 (2, .write 29)

theorem too_big_reachable : ∃ s : State 3 Unit Unit (Shared 3) Pc,
    Reach (step (prog nlog)) (fun s a => withinBudget s a = true) initial s ∧
      s.panic = some "too big a transaction" :=
  exists_reach threeOps (by decide +kernel)

/-! ## Runs that leave room -/

/-- What is logged and what may still be logged stays below the point where `log_write` panics. -/
def Fits (size : ℕ) (sh : Shared n) : Prop := sh.lh.n + sh.hist.reserved + 2 ≤ size

theorem Hist.left_eq {h : Hist n} {o : ℕ} (hp : h.cur p = some o) :
    h.left p = maxopblocks - (h.wrote o).length := by
  simp [Hist.left, Hist.opWrote, hp]

theorem Hist.left_none {h : Hist n} (hp : h.cur p = none) : h.left p = 0 := by
  simp [Hist.left, hp]

/-- The sum changes only where an operation changes. -/
theorem reserved_of_ne {h h' : Hist n} (hne : ∀ q, q ≠ p → h'.left q = h.left q) :
    h'.reserved + h.left p = h.reserved + h'.left p := by
  unfold Hist.reserved
  rw [← Finset.add_sum_erase _ h'.left (Finset.mem_univ p), ← Finset.add_sum_erase _ h.left (Finset.mem_univ p)]
  have hrest : ∑ q ∈ Finset.univ.erase p, h'.left q = ∑ q ∈ Finset.univ.erase p, h.left q :=
    Finset.sum_congr rfl fun q hq => hne q (Finset.ne_of_mem_erase hq)
  omega

/-- Another process's operation is not affected. -/
theorem Change.opWrote (h : Change size p sh sh') (hq : q ≠ p) :
    sh'.hist.opWrote q = sh.hist.opWrote q ∧ sh'.hist.left q = sh.hist.left q := by
  cases h with
  | reserve | finish | last =>
    simp [Hist.left, Hist.opWrote, Shared.reserve, Shared.setCommitting, Shared.finish, Hist.finish, hq]
  | put hI hp hf hroom =>
    rename_i b i o
    have hne : ∀ o', sh.hist.cur q = some o' → o' ≠ o := by
      rintro o' ho' rfl
      exact hq (hI.current_inj q p o' ho' hp)
    cases hcq : sh.hist.cur q with
    | none => simp [Hist.left, Hist.opWrote, Shared.put, Hist.log, hp, hcq]
    | some o' => simp [Hist.left, Hist.opWrote, Shared.put, Hist.log, hp, hcq, hne o' hcq]
  | same | hand | clear | done => exact ⟨rfl, rfl⟩

theorem Fits.reserve (hI : GroupInv size sh) (hc : sh.committing = false) (hp : sh.hist.cur p = none)
    (hroom : sh.lh.n + sh.hist.reserved + maxopblocks + 2 ≤ size) : Fits size (sh.reserve p) := by
  have hch : Change size p sh (sh.reserve p) := .reserve hI hc hp
  have hsum := reserved_of_ne fun q hq => (hch.opWrote hq).2
  have hnew : (sh.reserve p).hist.left p ≤ maxopblocks := by
    rw [Hist.left_eq (o := sh.hist.nextOp) (by simp [Shared.reserve])]
    omega
  have hn : (sh.reserve p).lh.n = sh.lh.n := rfl
  unfold Fits
  omega

/-- A block new to the log was reserved by its operation, unless it is new to the operation
as well. -/
theorem Fits.put {b i o : ℕ} (hI : GroupInv size sh) (hp : sh.hist.cur p = some o)
    (hf : sh.lh.Found b i) (hroom : sh.lh.n < logsize ∧ sh.lh.n < size - 1)
    (hb : ((sh.hist.wrote o).insert b).length ≤ maxopblocks) (h : Fits size sh) :
    Fits size (sh.put p b i) := by
  have hch : Change size p sh (sh.put p b i) := .put hI hp hf hroom
  have hsum := reserved_of_ne fun q hq => (hch.opWrote hq).2
  have hnew : (sh.put p b i).hist.left p = maxopblocks - ((sh.hist.wrote o).insert b).length := by
    rw [Hist.left_eq (o := o) (by simp [Shared.put, Hist.log, hp])]
    simp [Shared.put, Hist.log, hp]
  rw [Hist.left_eq hp] at hsum
  have hlh : (sh.put p b i).lh = sh.lh.put b i := rfl
  unfold Fits at h ⊢
  by_cases hmem : b ∈ sh.hist.wrote o
  · -- logged before by this operation, so in the log: absorbed
    have hin : b ∈ sh.lh.blocks :=
      (hI.blocks (hI.not_handed (hI.not_committing hp)) b).2 ⟨o, Or.inr ⟨p, hp⟩, hmem⟩
    have hlt : i < sh.lh.n := by
      obtain ⟨j, hj, hjb⟩ := Header.mem_blocks.1 hin
      by_contra hi
      exact hf.before j (by omega) hjb
    have hlen : ((sh.hist.wrote o).insert b).length = (sh.hist.wrote o).length := by
      rw [List.insert_of_mem hmem]
    have hput := Header.put_of_lt hlt (hf.at_lt hlt)
    rw [hlh, hput]
    omega
  · have hlen : ((sh.hist.wrote o).insert b).length = (sh.hist.wrote o).length + 1 := by
      rw [List.insert_of_not_mem hmem, List.length_cons]
    have hle := Header.put_n_le (h := sh.lh) (b := b) (i := i)
    rw [hlh]
    omega

theorem Fits.finish (hch : Change size p sh sh') (hlh : sh'.lh.n ≤ sh.lh.n)
    (hp : sh'.hist.left p ≤ sh.hist.left p) (h : Fits size sh) : Fits size sh' := by
  have hsum := reserved_of_ne fun q hq => (hch.opWrote hq).2
  unfold Fits at h ⊢
  omega

/-- The block a process is about to log. -/
def Pc.logging : Pc → Option ℕ
  | .writeAcquire b | .writeTest b | .writeScan b _ | .writePut b _ => some b
  | _ => none

/-- A process knows that the log fits, so that it is not about to panic, and that the block it
is about to log is within the budget of its operation. -/
structure Within (size : ℕ) (p : Fin n) (l : Pc) (sh : Shared n) : Prop where
  fits : l.locked = true → Fits size sh
  notBig : l ≠ .tooBig
  budget : ∀ b, l.logging = some b → ((sh.hist.opWrote p).insert b).length ≤ maxopblocks

/-- The actions a run may take: `withinBudget` and `leavesRoom`, on the data. -/
structure Allowed (size : ℕ) (p : Fin n) (l : Pc) (x : Req) (sh : Shared n) : Prop where
  budget : ∀ b, l = .inOp → x = .write b → ((sh.hist.opWrote p).insert b).length ≤ maxopblocks
  room : l = .beginTest → sh.committing = false →
    ¬ sh.lh.n + (sh.outstanding + 1) * maxopblocks > logsize →
    sh.lh.n + sh.hist.reserved + maxopblocks + 2 ≤ size

section Act

variable {l : Pc} {f : Req → Shared n → Shared n × Pc} {x : Req}

theorem Fits.act (h : prog size p l = .act f) (hk : Knows size p l sh) (hok : Allowed size p l x sh)
    (hw : Within size p l sh) (hfit : Fits size sh) : Fits size (f x sh).1 := by
  have hch := act_change (x := x) h hk
  obtain ⟨hinv, hrole, hextra⟩ := hk
  cases l <;> cases h
  case idle | inOp => cases x <;> exact hfit
  case beginTest =>
    dsimp only at hch ⊢
    split_ifs with hc hs
    · exact hfit
    · exact hfit
    · have hc' : sh.committing = false := by simpa using hc
      exact .reserve (hinv rfl) hc' hrole.1 (hok.room rfl hc' hs)
  case writePut b i =>
    obtain ⟨⟨o, ho⟩, -⟩ := hrole
    have hb := hw.budget b rfl
    simp only [Hist.opWrote, ho] at hb
    exact hfit.put (hinv rfl) ho hextra.2 hextra.1 hb
  case endTest =>
    -- its operation is over
    have hleft : (sh.finish p).hist.left p = 0 := Hist.left_none (by simp [Shared.finish, Hist.finish])
    dsimp only at hch ⊢
    split_ifs at hch ⊢ with hc h0
    · exact hfit.finish hch le_rfl (le_of_eq_of_le hleft (Nat.zero_le _))
    · exact hfit.finish hch le_rfl (le_of_eq_of_le hleft (Nat.zero_le _))
    · exact hfit.finish hch le_rfl (le_of_eq_of_le hleft (Nat.zero_le _))
  case clear => exact hfit.finish hch (Nat.zero_le _) le_rfl
  case writeTest | writeScan =>
    dsimp only
    split_ifs <;> exact hfit
  all_goals exact hfit

theorem Within.act (hsize : size ≤ logsize + 1) (h : prog size p l = .act f) (hk : Knows size p l sh)
    (hok : Allowed size p l x sh) (hw : Within size p l sh) : Within size p (f x sh).2 (f x sh).1 := by
  refine ⟨fun hl => ?_, ?_, fun b hb => ?_⟩
  · rw [locked_act h] at hl
    exact Fits.act h hk hok hw (hw.fits hl)
  · have hfit := hw.fits
    cases l <;> simp only [prog, Instr.act.injEq, reduceCtorEq] at h <;> subst h
    case writeTest b =>
      have hle : sh.lh.n + sh.hist.reserved + 2 ≤ size := hfit rfl
      dsimp only
      split_ifs with hbig hout
      · omega
      · simp
      · simp
    case idle | inOp => cases x <;> simp
    case beginTest | endTest | commit | writeLog | installTrans | writeScan =>
      dsimp only
      split_ifs <;> simp
    all_goals simp
  · cases l <;> simp only [prog, Instr.act.injEq, reduceCtorEq] at h <;> subst h
    case inOp =>
      cases x with
      | write b' => cases hb; exact hok.budget b rfl rfl
      | _ => cases hb
    case idle => cases x <;> cases hb
    case writeTest b' =>
      have hbud := hw.budget
      dsimp only at hb ⊢
      split_ifs at hb ⊢
      · cases hb
      · cases hb
      · exact hbud b hb
    case writeScan b' i =>
      have hbud := hw.budget
      dsimp only at hb ⊢
      split_ifs at hb ⊢ <;> exact hbud b hb
    case beginTest | endTest | commit | writeLog | installTrans =>
      dsimp only at hb
      split_ifs at hb <;> cases hb
    all_goals cases hb

end Act

theorem Within.plain {sh : Shared n} {l : Pc} (hf : l.locked = true → Fits size sh) (hn : l ≠ .tooBig := by rintro ⟨⟩)
    (hb : l.logging = none := by rfl) : Within size p l sh :=
  ⟨hf, hn, fun _ h0 => absurd (hb.symm.trans h0) nofun⟩

/-- **The outline for runs that leave room.** -/
theorem spaceOutline (size : ℕ) (hsize : size ≤ logsize + 1) : Outline (prog (n := n) size) held () (Knows size) (Allowed size)
    (Fits size) (Within size) (fun _ l _ => l = .beginTest) where
  acquire {p l ℓ l' sh} h hw hI := by
    have hb := hw.budget
    cases l <;> cases h <;> exact ⟨fun _ => hI rfl, by simp, hb⟩
  release {p l ℓ l' sh} h hw := by
    cases l <;> cases h <;> refine ⟨fun _ => hw.fits rfl, ?_⟩
    case endRelease dc => cases dc <;> exact .plain (by rintro ⟨⟩)
    all_goals exact .plain (by rintro ⟨⟩)
  act h hk hok hw := hw.act hsize h hk hok
  stable {p l f x sh} h hk hok hw q hq := by
    refine ⟨fun l' hex hw' => ⟨fun hl => (hw'.fits hl).act h hk hok hw, hw'.notBig, fun b hb => ?_⟩,
      fun l' hl => hl⟩
    rw [((act_change h hk).opWrote hq).1]
    exact hw'.budget b hb
  unlocked h _ hk hok hw hI := hI.act h hk hok hw
  sleep {p l c k' l' sh} h hw := by
    cases l <;> cases h
    exact ⟨rfl, fun _ => ⟨rfl, hw.fits rfl⟩⟩
  back {p l' sh} hl hI := by
    subst hl
    exact .plain fun _ => hI ⟨rfl, rfl⟩
  wakeup {p l c l' sh} h hw := by
    cases l <;> cases h <;> exact .plain fun _ => hw.fits rfl
  killed {p l f sh} h := by cases l <;> simp [prog] at h
  kill {p l pid f sh} h hw b := by
    cases l <;> cases h
    exact .plain (by rintro ⟨⟩)

theorem allowed_of {s : State n Unit Unit (Shared n) Pc} {x : Req} {l : Pc}
    (hb : withinBudget s (p, x) = true) (hr : leavesRoom size s (p, x) = true)
    (hc : (s.procs p).ctl = .run l) : Allowed size p l x s.sh := by
  constructor
  · rintro b rfl rfl
    simpa [withinBudget, hc] using hb
  · rintro rfl hcom hadm
    simpa [leavesRoom, hc, hcom, hadm] using hr

/-- **The reserved space suffices** on the log that `mkfs` makes, in every run whose
operations keep to their budget and whose admissions leave room. -/
theorem log_space_suffices {s : State n Unit Unit (Shared n) Pc}
    (hr : Reach (step (prog nlog))
      (fun s a => withinBudget s a = true ∧ leavesRoom nlog s a = true) initial s) :
    s.panic ≠ some "too big a transaction" := by
  refine no_panic (fun s hs q l hc hi => ?_) rfl (by decide) hr
  have hw := ((spaceOutline nlog (by decide)).reach (disciplined nlog)
    (fun s hs q l hc => ?_) (fun s q x l f hg hc _ => allowed_of hg.1 hg.2 hc)
    (LockInv.start fun m => ?_) (OutlineInv.start ?_ fun q => ?_) hs).2.asserts q
  · rw [hc] at hw
    cases l <;> simp only [prog, Instr.panic.injEq, reduceCtorEq, String.reduceEq] at hi
    exact hw.notBig rfl
  · have hk := (reach_outline hs).2.asserts q
    rw [hc] at hk
    exact hk
  · simp [held, Pc.locked]
  · simp [Fits, Shared.init, Hist.reserved, Hist.left, nlog, logsize, maxopblocks]
  · exact .plain (by rintro ⟨⟩)

/-- One operation that logs two blocks, one of them twice, and its commit. -/
def oneOp : List (Fin 1 × Req) :=
  List.replicate 4 (0, .op) ++ List.replicate 6 (0, .write 40) ++ List.replicate 7 (0, .write 41) ++
    List.replicate 6 (0, .write 40) ++ List.replicate 20 (0, .done)

theorem log_space_suffices_oneOp : ∃ s : State 1 Unit Unit (Shared 1) Pc,
    Reach (step (prog nlog)) (fun s a => withinBudget s a = true ∧ leavesRoom nlog s a = true) initial s ∧
      s.sh.hist.commits.map Group.blocks = [[40, 41]] ∧ s.panic ≠ some "too big a transaction" := by
  obtain ⟨s, hr, hobs⟩ : ∃ s : State 1 Unit Unit (Shared 1) Pc, Reach (step (prog nlog))
      (fun s a => withinBudget s a = true ∧ leavesRoom nlog s a = true) initial s ∧
      s.sh.hist.commits.map Group.blocks = [[40, 41]] := exists_reach oneOp (by decide +kernel)
  exact ⟨s, hr, hobs, log_space_suffices hr⟩

end Xv6.Log
