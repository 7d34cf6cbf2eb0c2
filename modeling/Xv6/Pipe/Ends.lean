import Xv6.Pipe.Readers

/-!
# The two ends of a pipe

A pipe has one `struct file` for each end. `filedup` and `fileclose` of `kernel/file.c` count the
references to it under `ftable.lock`; the `fileclose` that drops the last one calls `pipeclose`. A
process calls `read`, `write`, `dup`, `fork` and `close` only on descriptors that it has, so it is
inside `piperead` or `pipewrite` only while it has a descriptor of that end.

The program is that of `Xv6.Pipe.prog`, called through descriptors. Three components of the data are
not in the source, and no step reads them: `owned`, how many references a process accounts for, in
its table or in a call it is in; `closer`, whose `fileclose` dropped the last reference to an end;
`last`, whose `pipeclose` closed the second end.

* `Accounts`: references are owned, an end without references has its closer, a closed end has no
  references, and the page is freed at most once and after both ends were closed.
* `outline`: every process keeps that.
-/

namespace Xv6.Pipe

open Function Thread Lib

/-- The spin-locks: `pi->lock` and `ftable.lock`. -/
inductive Key
  | pipe | ftable
  deriving DecidableEq

/-- `pi->readopen` and `pi->writeopen`; `true` is the write end, as in `pipeclose`. -/
def isOpen (pi : Pipe) (w : Bool) : Bool := if w then pi.writeopen else pi.readopen

/-- `pi->readopen == 0 && pi->writeopen == 0`. -/
def Shut (pi : Pipe) : Prop := pi.readopen = false ∧ pi.writeopen = false

instance (pi : Pipe) : Decidable pi.Shut := inferInstanceAs (Decidable (_ ∧ _))

/-- A pipe, the `ref` of its two files, and the descriptors that processes have of them. -/
structure Ends (n : ℕ) where
  pipe : Pipe
  ref : Bool → ℕ
  fds : Fin n → Bool → ℕ
  owned : Fin n → Bool → ℕ
  closer : Bool → Option (Fin n)
  last : Option (Fin n)

variable {n : ℕ}

namespace Ends

/-- Add `k` to the count of process `p` for the end `w`. -/
def bump (g : Fin n → Bool → ℕ) (p : Fin n) (w : Bool) (k : ℕ) : Fin n → Bool → ℕ :=
  update g p (update (g p) w (g p w + k))

/-- Take one away. -/
def lower (g : Fin n → Bool → ℕ) (p : Fin n) (w : Bool) : Fin n → Bool → ℕ :=
  update g p (update (g p) w (g p w - 1))

/-- `pipealloc` for process `p`: one descriptor of each end. -/
def new (p : Fin n) : Ends n where
  pipe := .new
  ref _ := 1
  fds := fun q _ => if q = p then 1 else 0
  owned := fun q _ => if q = p then 1 else 0
  closer _ := none
  last := none

/-- An action of `pipe.c` by process `p`. -/
def setPipe (p : Fin n) (pi : Pipe) (e : Ends n) : Ends n :=
  { e with pipe := pi, last := if pi.Shut ∧ ¬ e.pipe.Shut then some p else e.last }

/-- `myproc()->ofile[fd] = 0`. -/
def drop (p : Fin n) (w : Bool) (e : Ends n) : Ends n := { e with fds := lower e.fds p w }

/-- `f->ref++`. -/
def gain (p : Fin n) (w : Bool) (e : Ends n) : Ends n :=
  { e with ref := update e.ref w (e.ref w + 1), owned := bump e.owned p w 1 }

/-- The new descriptor is stored in the table of process `q`. -/
def install (p q : Fin n) (w : Bool) (e : Ends n) : Ends n :=
  { e with fds := bump e.fds q w 1, owned := bump (lower e.owned p w) q w 1 }

/-- `--f->ref`. -/
def lose (p : Fin n) (w : Bool) (e : Ends n) : Ends n :=
  { e with
    ref := update e.ref w (e.ref w - 1)
    owned := lower e.owned p w
    closer := if e.ref w - 1 = 0 then update e.closer w (some p) else e.closer }

end Ends

/-- What a process is asked to do: a call of `pipe.c`, or to duplicate a descriptor, for itself
(`dup`) or for a child (`fork`). -/
inductive FReq (n : ℕ)
  | pipe (r : Req)
  | dup (w : Bool) (q : Fin n)

/-- The outcome of a user copy, for `pipe.c`. -/
def FReq.toReq : FReq n → Req
  | .pipe r => r
  | .dup _ _ => .fault

/-- The local states: those of `pipe.c`, of `filedup` and of `fileclose`. -/
inductive FPc (n : ℕ)
  | pipe (l : Pc)
  | dupAcquire (w : Bool) (q : Fin n) | dupTest (w : Bool) (q : Fin n) | dupPanic
  | dupRelease (w : Bool) (q : Fin n) | dupInstall (w : Bool) (q : Fin n)
  | closeAcquire (w : Bool) | closeTest (w : Bool) | closePanic | closeRelease | closeLast (w : Bool)
  deriving DecidableEq

/-- An instruction of `pipe.c`, on the pipe of `Ends`. -/
def lift (p : Fin n) : Instr n Unit Chan Pipe Req Pc → Instr n Key Chan (Ends n) (FReq n) (FPc n)
  | .acquire (.mon _) l => .acquire (.mon .pipe) (.pipe l)
  | .acquire (.proc j) l => .acquire (.proc j) (.pipe l)
  | .release (.mon _) l => .release (.mon .pipe) (.pipe l)
  | .release (.proc j) l => .release (.proc j) (.pipe l)
  | .act f => .act fun r e => (e.setPipe p (f r.toReq e.pipe).1, .pipe (f r.toReq e.pipe).2)
  | .sleep c _ l => .sleep c .pipe (.pipe l)
  | .wakeup c l => .wakeup c (.pipe l)
  | .killed f => .killed fun b => .pipe (f b)
  | .kill pid f => .kill pid fun b => .pipe (f b)
  | .panic msg => .panic msg

/-- The program of process `p`. -/
def fileProg (p : Fin n) : FPc n → Instr n Key Chan (Ends n) (FReq n) (FPc n)
  | .pipe .idle => .act fun r e =>
    match r with
    | .pipe (.read k) => (e, .pipe (if 0 < e.fds p false then .readAcquire k else .idle))
    | .pipe (.write k) => (e, .pipe (if 0 < e.fds p true then .writeAcquire k else .idle))
    | .pipe (.close w) => if 0 < e.fds p w then (e.drop p w, .closeAcquire w) else (e, .pipe .idle)
    | .pipe (.kill pid) => (e, .pipe (.killing pid))
    | .dup w q => (e, if 0 < e.fds p w then .dupAcquire w q else .pipe .idle)
    | _ => (e, .pipe .idle)
  | .pipe l => lift p (prog p l)
  -- filedup
  | .dupAcquire w q => .acquire (.mon .ftable) (.dupTest w q)
  | .dupTest w q => .act fun _ e => if e.ref w < 1 then (e, .dupPanic) else (e.gain p w, .dupRelease w q)
  | .dupPanic => .panic "filedup"
  | .dupRelease w q => .release (.mon .ftable) (.dupInstall w q)
  | .dupInstall w q => .act fun _ e => (e.install p q w, .pipe .idle)
  -- fileclose
  | .closeAcquire w => .acquire (.mon .ftable) (.closeTest w)
  | .closeTest w => .act fun _ e =>
    if e.ref w < 1 then (e, .closePanic)
    else (e.lose p w, if 0 < (e.lose p w).ref w then .closeRelease else .closeLast w)
  | .closePanic => .panic "fileclose"
  | .closeRelease => .release (.mon .ftable) (.pipe .idle)
  | .closeLast w => .release (.mon .ftable) (.pipe (.closeAcquire w))

/-- Process `p` has made the pipe, all processes are idle. -/
def made (p : Fin n) : State n Key Chan (Ends n) (FPc n) := start (.pipe .idle) (.new p)

/-- The locks held at a local state. -/
def FPc.holds : FPc n → Option Key
  | .pipe l => if l.locked then some .pipe else none
  | .dupTest _ _ | .dupPanic | .dupRelease _ _ | .closeTest _ | .closePanic | .closeRelease | .closeLast _ =>
    some .ftable
  | .dupAcquire _ _ | .dupInstall _ _ | .closeAcquire _ => none

def fheld (l : FPc n) (m : Lock n Key) : Prop := ∃ k, m = .mon k ∧ l.holds = some k

theorem fheld_mon {l : FPc n} {k : Key} : fheld l (.mon k : Lock n Key) ↔ l.holds = some k := by
  simp [fheld]

/-- What `fileProg` does on a call of `pipe.c` in progress. -/
theorem fileProg_pipe {p : Fin n} {l : Pc} (h : l ≠ .idle) : fileProg p (.pipe l) = lift p (prog p l) := by
  cases l <;> first | rfl | exact absurd rfl h

section Act

variable {p : Fin n} {l : FPc n} {g : FReq n → Ends n → Ends n × FPc n}

/-- The actions of the program: those of `pipe.c`, the dispatcher, `filedup` and `fileclose`. -/
inductive Acts (p : Fin n) : FPc n → (FReq n → Ends n → Ends n × FPc n) → Prop
  | pipe {l : Pc} {f : Req → Pipe → Pipe × Pc} (h : prog p l = .act f) (hl : l ≠ .idle) :
      Acts p (.pipe l) fun r e => (e.setPipe p (f r.toReq e.pipe).1, .pipe (f r.toReq e.pipe).2)
  | idle {g : FReq n → Ends n → Ends n × FPc n} (h : fileProg p (.pipe .idle) = .act g) :
      Acts p (.pipe .idle) g
  | dupTest {w : Bool} {q : Fin n} : Acts p (.dupTest w q) fun _ e =>
      if e.ref w < 1 then (e, .dupPanic) else (e.gain p w, .dupRelease w q)
  | dupInstall {w : Bool} {q : Fin n} : Acts p (.dupInstall w q) fun _ e => (e.install p q w, .pipe .idle)
  | closeTest {w : Bool} : Acts p (.closeTest w) fun _ e =>
      if e.ref w < 1 then (e, .closePanic)
      else (e.lose p w, if 0 < (e.lose p w).ref w then .closeRelease else .closeLast w)

theorem acts (h : fileProg p l = .act g) : Acts p l g := by
  cases l with
  | pipe l =>
    rcases eq_or_ne l .idle with rfl | hl
    · exact .idle h
    · rw [fileProg_pipe hl] at h
      cases hf : prog p l <;> rw [hf] at h <;> simp only [lift, Instr.act.injEq, reduceCtorEq] at h
      case act f =>
        subst h
        exact .pipe hf hl
      case acquire ℓ l' | release ℓ l' => cases ℓ <;> cases h
  | dupTest w q => cases h; exact .dupTest
  | dupInstall w q => cases h; exact .dupInstall
  | closeTest w => cases h; exact .closeTest
  | _ => cases h

/-- What the dispatcher does. -/
theorem idle_act (h : fileProg p (.pipe .idle) = .act g) (r : FReq n) (e : Ends n) :
    (g r e = (e, .pipe .idle)) ∨ (∃ pid, g r e = (e, .pipe (.killing pid))) ∨
    (∃ k, 0 < e.fds p false ∧ g r e = (e, .pipe (.readAcquire k))) ∨
    (∃ k, 0 < e.fds p true ∧ g r e = (e, .pipe (.writeAcquire k))) ∨
    (∃ w, 0 < e.fds p w ∧ g r e = (e.drop p w, .closeAcquire w)) ∨
    (∃ w q, 0 < e.fds p w ∧ g r e = (e, .dupAcquire w q)) := by
  cases h
  cases r with
  | dup w q =>
    dsimp only
    split_ifs with hf
    · exact .inr (.inr (.inr (.inr (.inr ⟨w, q, hf, rfl⟩))))
    · exact .inl rfl
  | pipe r =>
    cases r with
    | read k =>
      dsimp only
      split_ifs with hf
      · exact .inr (.inr (.inl ⟨k, hf, rfl⟩))
      · exact .inl rfl
    | write k =>
      dsimp only
      split_ifs with hf
      · exact .inr (.inr (.inr (.inl ⟨k, hf, rfl⟩)))
      · exact .inl rfl
    | close w =>
      dsimp only
      split_ifs with hf
      · exact .inr (.inr (.inr (.inr (.inl ⟨w, hf, rfl⟩))))
      · exact .inl rfl
    | kill pid => exact .inr (.inl ⟨pid, rfl⟩)
    | copied ch => exact .inl rfl
    | fault => exact .inl rfl

theorem holds_act (h : fileProg p l = .act g) (r : FReq n) (e : Ends n) : (g r e).2.holds = l.holds := by
  cases acts h with
  | pipe hf hl => simp only [FPc.holds, locked_act hf]
  | idle h =>
    rcases idle_act h r e with he | ⟨_, he⟩ | ⟨_, -, he⟩ | ⟨_, -, he⟩ | ⟨_, -, he⟩ | ⟨_, _, -, he⟩ <;>
      rw [he] <;> rfl
  | dupTest | closeTest =>
    dsimp only
    split_ifs <;> rfl
  | dupInstall => rfl

end Act

theorem fdisciplined : Disciplined (fileProg (n := n)) fheld where
  acquire {p l ℓ l'} h m := by
    cases l with
    | pipe l => cases l <;> cases h <;> simp [fheld, FPc.holds, Pc.locked]
    | dupAcquire w q | closeAcquire w => cases h; simp [fheld, FPc.holds]
    | _ => cases h
  release {p l ℓ l'} h := by
    cases l with
    | pipe l => cases l <;> cases h <;> simp [fheld, FPc.holds, Pc.locked]
    | dupRelease w q | closeRelease | closeLast w => cases h; simp [fheld, FPc.holds, Pc.locked]
    | _ => cases h
  act {p l g} h r e m := by simp only [fheld, holds_act h]
  sleep {p l c k l'} h := by
    cases l with
    | pipe l => cases l <;> cases h <;> simp [fheld, NoProc, FPc.holds, Pc.locked]
    | _ => cases h
  wakeup {p l c l'} h := by
    cases l with
    | pipe l => cases l <;> cases h <;> simp [fheld, NoProc, FPc.holds, Pc.locked]
    | _ => cases h
  killed {p l f} h := by
    cases l with
    | pipe l =>
      cases l <;> cases h <;>
        refine ⟨by simp [fheld, NoProc], fun b m => ?_⟩ <;> cases b <;> simp [fheld, FPc.holds, Pc.locked]
    | _ => cases h
  kill {p l pid f} h := by
    cases l with
    | pipe l =>
      cases l <;> cases h
      simp [fheld, NoProc, FPc.holds, Pc.locked]
    | _ => cases h

/-- What `pipeclose` does to the end `w`. -/
def shutEnd (w : Bool) (pi : Pipe) : Pipe :=
  if w then { pi with writeopen := false } else { pi with readopen := false }

theorem shutEnd_eq (w : Bool) (pi : Pipe) : (shutEnd w pi).isOpen w = false ∧
    (shutEnd w pi).isOpen (!w) = pi.isOpen (!w) ∧ (shutEnd w pi).freed = pi.freed := by
  cases w <;> exact ⟨rfl, rfl, rfl⟩

theorem not_shut {pi : Pipe} {w : Bool} (h : pi.isOpen w = true) : ¬ pi.Shut := by
  rintro ⟨hr, hw⟩
  cases w
  · rw [isOpen, if_neg Bool.false_ne_true, hr] at h
    cases h
  · rw [isOpen, if_pos rfl, hw] at h
    cases h

/-! ## Who has a reference -/

/-- **The accounts.** -/
structure Accounts (e : Ends n) : Prop where
  refs : ∀ w, e.ref w = ∑ p, e.owned p w
  closer : ∀ w, e.ref w = 0 ↔ ∃ p, e.closer w = some p
  shut : ∀ w, e.pipe.isOpen w = false → e.ref w = 0
  last : e.pipe.Shut ↔ ∃ p, e.last = some p
  freed : e.pipe.freed ≤ 1
  freed_shut : e.pipe.freed = 1 → e.pipe.Shut

/-- The end that a process is reading or writing. -/
def Pc.inside : Pc → Option Bool
  | .writeAcquire _ | .writeLoop _ _ _ | .writeKilled _ _ _ | .writeTest _ _ _ | .writeFull _ _ _
  | .writeSleep _ _ | .writeCopy _ _ _ | .writeWakeup _ _ | .writeRelease _ => some true
  | .readAcquire _ | .readLoop _ | .readKilled _ | .readSleep _ | .readCopy _ _ | .readWakeup _
  | .readRelease _ => some false
  | _ => none

/-- The end of which a process uses a descriptor. -/
def FPc.uses : FPc n → Option Bool
  | .pipe l => l.inside
  | .dupAcquire w _ | .dupTest w _ => some w
  | _ => none

/-- References that a process accounts for outside its table. -/
def FPc.flight (w : Bool) : FPc n → ℕ
  | .dupRelease w' _ | .dupInstall w' _ | .closeAcquire w' | .closeTest w' => if w' = w then 1 else 0
  | _ => 0

/-- The end that a process is about to close. -/
def FPc.closing : FPc n → Option Bool
  | .closeLast w | .pipe (.closeAcquire w) | .pipe (.closeSet w) => some w
  | _ => none

/-- The process is on its way to `kfree`. -/
def FPc.Frees (pi : Pipe) : FPc n → Prop
  | .pipe (.closeWakeup _) | .pipe .closeTest => pi.Shut
  | .pipe .closeLast | .pipe .closeFree => True
  | _ => False

/-- The local states of `pipewrite` that have seen the read end open. -/
def FPc.sees : FPc n → Bool
  | .pipe l => l.seesOpen
  | _ => false

/-- The local states whose knowledge rests on `pi->lock`. -/
def FPc.guarded : FPc n → Bool
  | .pipe (.closeWakeup _) | .pipe .closeTest => true
  | l => l.sees

theorem guarded_of_sees {l : FPc n} (h : l.sees = true) : l.guarded = true := by
  cases l with
  | pipe l => cases l <;> first | rfl | exact h
  | _ => cases h

/-- Knowledge that rests on `pi->lock` is knowledge of its holder. -/
theorem holds_of_guarded {l : FPc n} (h : l.guarded = true) : l.holds = some .pipe := by
  cases l with
  | pipe l => cases l <;> first | rfl | cases h
  | _ => cases h

/-- **What process `p` knows.** -/
structure FKnows (p : Fin n) (l : FPc n) (e : Ends n) : Prop where
  owned : ∀ w, e.owned p w = e.fds p w + l.flight w
  uses : ∀ w, l.uses = some w → 0 < e.fds p w
  closing : ∀ w, l.closing = some w → e.closer w = some p ∧ e.pipe.isOpen w = true
  frees : (e.last = some p ∧ e.pipe.freed = 0) ↔ l.Frees e.pipe
  sees : l.sees = true → e.pipe.readopen = true
  fine : l ≠ .dupPanic ∧ l ≠ .closePanic

/-- The pipe as `fileclose` sees it is the same. -/
structure Same (pi pi' : Pipe) : Prop where
  readopen : pi'.readopen = pi.readopen
  writeopen : pi'.writeopen = pi.writeopen
  freed : pi'.freed = pi.freed

section Same

variable {p q : Fin n} {l : FPc n} {e : Ends n} {pi : Pipe}

theorem Same.isOpen (h : Same e.pipe pi) (w : Bool) : pi.isOpen w = e.pipe.isOpen w := by
  cases w
  · exact h.readopen
  · exact h.writeopen

theorem Same.shut (h : Same e.pipe pi) : pi.Shut ↔ e.pipe.Shut := by
  rw [Shut, Shut, h.readopen, h.writeopen]

theorem Same.setPipe (h : Same e.pipe pi) : e.setPipe p pi = { e with pipe := pi } := by
  have : ¬ (pi.Shut ∧ ¬ e.pipe.Shut) := fun hc => hc.2 (h.shut.1 hc.1)
  simp [Ends.setPipe, this]

theorem Same.frees (h : Same e.pipe pi) : l.Frees pi ↔ l.Frees e.pipe := by
  cases l with
  | pipe l => cases l <;> simp [FPc.Frees, h.shut]
  | _ => rfl

theorem Accounts.same (ha : Accounts e) (h : Same e.pipe pi) : Accounts { e with pipe := pi } where
  refs := ha.refs
  closer := ha.closer
  shut w hw := ha.shut w (h.isOpen w ▸ hw)
  last := h.shut.trans ha.last
  freed := h.freed ▸ ha.freed
  freed_shut hf := h.shut.2 (ha.freed_shut (h.freed ▸ hf))

theorem FKnows.same (hk : FKnows p l e) (h : Same e.pipe pi) : FKnows p l { e with pipe := pi } where
  owned := hk.owned
  uses := hk.uses
  closing w hw := ⟨(hk.closing w hw).1, (h.isOpen w).trans (hk.closing w hw).2⟩
  frees := by rw [h.frees, ← hk.frees, h.freed]
  sees hs := h.readopen.trans (hk.sees hs)
  fine := hk.fine

/-- All actions of `pipe.c` but two. -/
theorem act_same {l : Pc} {f : Req → Pipe → Pipe × Pc} (h : prog p l = .act f)
    (hset : ∀ w, l ≠ .closeSet w) (hfree : l ≠ .closeFree) (r : Req) (pi : Pipe) : Same pi (f r pi).1 := by
  cases l <;> cases h
  case closeSet w => exact absurd rfl (hset w)
  case closeFree => exact absurd rfl hfree
  case idle | writeCopy => cases r <;> exact ⟨rfl, rfl, rfl⟩
  case writeLoop | writeTest | readLoop =>
    dsimp only
    split_ifs <;> exact ⟨rfl, rfl, rfl⟩
  case readCopy =>
    dsimp only
    split_ifs
    · exact ⟨rfl, rfl, rfl⟩
    · cases r <;> exact ⟨rfl, rfl, rfl⟩
    · exact ⟨rfl, rfl, rfl⟩
  all_goals exact ⟨rfl, rfl, rfl⟩

end Same

/-! ## Every action keeps the accounts -/

section Count

variable (g : Fin n → Bool → ℕ) (p q : Fin n) (w v : Bool) (k : ℕ)

theorem bump_apply : Ends.bump g p w k q v = g q v + if q = p ∧ v = w then k else 0 := by
  unfold Ends.bump
  rcases eq_or_ne q p with rfl | hq
  · rcases eq_or_ne v w with rfl | hv
    · simp
    · simp [hv]
  · simp [hq]

theorem lower_apply : Ends.lower g p w q v = g q v - if q = p ∧ v = w then 1 else 0 := by
  unfold Ends.lower
  rcases eq_or_ne q p with rfl | hq
  · rcases eq_or_ne v w with rfl | hv
    · simp
    · simp [hv]
  · simp [hq]

theorem sum_bump : ∑ q, Ends.bump g p w k q v = ∑ q, g q v + if v = w then k else 0 := by
  simp only [bump_apply, Finset.sum_add_distrib]
  by_cases hv : v = w
  · simp [hv]
  · simp [hv]

theorem sum_lower (h : 0 < g p w) :
    ∑ q, Ends.lower g p w q v + (if v = w then 1 else 0) = ∑ q, g q v := by
  have hg : g = Ends.bump (Ends.lower g p w) p w 1 := by
    funext x y
    rw [bump_apply, lower_apply]
    by_cases hxy : x = p ∧ y = w
    · obtain ⟨rfl, rfl⟩ := hxy
      simp only [and_self, if_true]
      omega
    · simp [hxy]
  conv_rhs => rw [hg]
  rw [sum_bump]

end Count

section Accounts

variable {p q : Fin n} {w : Bool} {e : Ends n}

variable (ha : Accounts e)

include ha

/-- A reference that somebody accounts for is counted. -/
theorem Accounts.ref_pos (hp : 0 < e.owned p w) : 0 < e.ref w := by
  rw [ha.refs w]
  exact lt_of_lt_of_le hp
    (Finset.single_le_sum (f := fun x => e.owned x w) (fun _ _ => Nat.zero_le _) (Finset.mem_univ p))

theorem Accounts.drop : Accounts (e.drop p w) :=
  ⟨ha.refs, ha.closer, ha.shut, ha.last, ha.freed, ha.freed_shut⟩

theorem Accounts.gain (hw : 0 < e.ref w) : Accounts (e.gain p w) := by
  have href : ∀ v, (e.gain p w).ref v = e.ref v + if v = w then 1 else 0 := by
    intro v
    rcases eq_or_ne v w with rfl | hv
    · simp [Ends.gain]
    · simp [Ends.gain, hv]
  -- a counter that was positive stays positive
  have hzero : ∀ v, (e.gain p w).ref v = 0 ↔ e.ref v = 0 := by
    intro v
    rw [href v]
    rcases eq_or_ne v w with rfl | hv
    · simp only [if_true]
      omega
    · simp [hv]
  refine ⟨fun v => ?_, fun v => (hzero v).trans (ha.closer v), fun v hv => (hzero v).2 (ha.shut v hv),
    ha.last, ha.freed, ha.freed_shut⟩
  rw [href v, ha.refs v]
  exact (sum_bump _ _ _ _ _).symm

theorem Accounts.install (hp : 0 < e.owned p w) : Accounts (e.install p q w) := by
  refine ⟨fun v => ?_, ha.closer, ha.shut, ha.last, ha.freed, ha.freed_shut⟩
  have hs : ∑ x, (e.install p q w).owned x v = ∑ x, e.owned x v := by
    rw [← sum_lower e.owned p w v hp]
    exact sum_bump _ _ _ _ _
  rw [hs]
  exact ha.refs v

theorem Accounts.lose (hp : 0 < e.owned p w) : Accounts (e.lose p w) := by
  have hpos := ha.ref_pos hp
  have href : ∀ v, (e.lose p w).ref v + (if v = w then 1 else 0) = e.ref v := by
    intro v
    rcases eq_or_ne v w with rfl | hv
    · simp only [Ends.lose, update_self, if_true]
      omega
    · simp [Ends.lose, hv]
  refine ⟨fun v => ?_, fun v => ?_, fun v hv => ?_, ha.last, ha.freed, ha.freed_shut⟩
  · have h1 := href v
    have h2 := sum_lower e.owned p w v hp
    have h3 := ha.refs v
    change (e.lose p w).ref v = ∑ x, Ends.lower e.owned p w x v
    omega
  · rcases eq_or_ne v w with rfl | hv
    · -- the last reference to this end has just been dropped, or not
      by_cases h0 : e.ref v - 1 = 0
      · simp [Ends.lose, h0]
      · have hno : ¬ ∃ x, e.closer v = some x := fun hx => by
          have := (ha.closer v).2 hx
          omega
        simpa [Ends.lose, h0] using hno
    · have : (e.lose p w).closer v = e.closer v := by
        simp only [Ends.lose]
        split_ifs <;> simp [hv]
      rw [this, ← ha.closer v]
      simp [Ends.lose, hv]
  · have := ha.shut v hv
    have := href v
    omega

/-- `pi->readopen = 0` or `pi->writeopen = 0`, by the closer of that end. -/
theorem Accounts.close {pi : Pipe} (hopen : e.pipe.isOpen w = true)
    (hclose : pi.isOpen w = false) (hother : pi.isOpen (!w) = e.pipe.isOpen (!w))
    (hfreed : pi.freed = e.pipe.freed) (h0 : e.ref w = 0) : Accounts (e.setPipe p pi) := by
  have hns := not_shut hopen
  have hf0 : e.pipe.freed ≠ 1 := fun hf => hns (ha.freed_shut hf)
  refine ⟨ha.refs, ha.closer, fun v hv => ?_, ?_, hfreed ▸ ha.freed, fun hf => ?_⟩
  · rcases eq_or_ne v w with rfl | hvw
    · exact h0
    · have hv' : v = !w := by cases v <;> cases w <;> simp_all
      subst hv'
      exact ha.shut _ (hother.symm.trans hv)
  · change pi.Shut ↔ ∃ x, (if pi.Shut ∧ ¬ e.pipe.Shut then some p else e.last) = some x
    by_cases hs : pi.Shut
    · simp [hs, hns]
    · have hl : ¬ ∃ x, e.last = some x := fun hx => hns (ha.last.2 hx)
      simpa [hs] using hl
  · exact absurd (hfreed.symm.trans hf) hf0

/-- `kfree((char*)pi)`. -/
theorem Accounts.free {pi : Pipe} (hs : e.pipe.Shut)
    (hr : pi.readopen = e.pipe.readopen) (hw : pi.writeopen = e.pipe.writeopen) (hf : pi.freed = 1) :
    Accounts (e.setPipe p pi) := by
  have hshut : pi.Shut ↔ e.pipe.Shut := by rw [Shut, Shut, hr, hw]
  have hopen : ∀ v, pi.isOpen v = e.pipe.isOpen v := by
    intro v
    cases v
    · exact hr
    · exact hw
  refine ⟨ha.refs, ha.closer, fun v hv => ha.shut v ((hopen v).symm.trans hv), ?_, hf.le, fun _ => hshut.2 hs⟩
  change pi.Shut ↔ ∃ x, (if pi.Shut ∧ ¬ e.pipe.Shut then some p else e.last) = some x
  rw [if_neg fun hc => hc.2 hs, hshut]
  exact ha.last

end Accounts

/-! ## What the others know stays true -/

section Stable

variable {p q : Fin n} {w : Bool} {l : FPc n} {e : Ends n}

theorem FKnows.drop_other (hk : FKnows q l e) (hq : q ≠ p) : FKnows q l (e.drop p w) := by
  have hfds : ∀ v, (e.drop p w).fds q v = e.fds q v := fun v => by simp [Ends.drop, lower_apply, hq]
  exact ⟨fun v => by rw [hfds]; exact hk.owned v, fun v hv => by rw [hfds]; exact hk.uses v hv,
    hk.closing, hk.frees, hk.sees, hk.fine⟩

theorem FKnows.gain_other (hk : FKnows q l e) (hq : q ≠ p) : FKnows q l (e.gain p w) := by
  have hown : ∀ v, (e.gain p w).owned q v = e.owned q v := fun v => by simp [Ends.gain, bump_apply, hq]
  exact ⟨fun v => by rw [hown]; exact hk.owned v, hk.uses, hk.closing, hk.frees, hk.sees, hk.fine⟩

theorem FKnows.install_other {x : Fin n} (hk : FKnows q l e) (hq : q ≠ p) :
    FKnows q l (e.install p x w) := by
  have hfds : ∀ v, (e.install p x w).fds q v = e.fds q v + if q = x ∧ v = w then 1 else 0 := fun v =>
    bump_apply _ _ _ _ _ _
  have hown : ∀ v, (e.install p x w).owned q v = e.owned q v + if q = x ∧ v = w then 1 else 0 := by
    intro v
    simp only [Ends.install, bump_apply, lower_apply, hq, false_and, if_false, Nat.sub_zero]
  refine ⟨fun v => ?_, fun v hv => ?_, hk.closing, hk.frees, hk.sees, hk.fine⟩
  · rw [hfds, hown, hk.owned v]
    omega
  · rw [hfds]
    exact Nat.add_pos_left (hk.uses v hv) _

theorem FKnows.lose_other (ha : Accounts e) (hp : 0 < e.owned p w) (hk : FKnows q l e) (hq : q ≠ p) :
    FKnows q l (e.lose p w) := by
  have hown : ∀ v, (e.lose p w).owned q v = e.owned q v := fun v => by simp [Ends.lose, lower_apply, hq]
  refine ⟨fun v => by rw [hown]; exact hk.owned v, hk.uses, fun v hv => ?_, hk.frees, hk.sees, hk.fine⟩
  obtain ⟨hc, ho⟩ := hk.closing v hv
  refine ⟨?_, ho⟩
  -- an end that has its closer has no reference left to drop
  have hvw : v ≠ w := by
    rintro rfl
    have h0 := (ha.closer v).2 ⟨q, hc⟩
    have := ha.ref_pos hp
    omega
  simp only [Ends.lose]
  split_ifs
  · rw [update_of_ne hvw]
    exact hc
  · exact hc

theorem setPipe_last (pi : Pipe) : (e.setPipe p pi).last = some p ∨ (e.setPipe p pi).last = e.last := by
  simp only [Ends.setPipe]
  split_ifs
  · exact .inl rfl
  · exact .inr rfl

/-- While another process closes an end or frees the page. -/
theorem FKnows.setPipe_other {pi : Pipe} (hk : FKnows q l e) (hg : l.guarded = false)
    (hopen : ∀ v, l.closing = some v → pi.isOpen v = e.pipe.isOpen v)
    (hfrees : ((e.setPipe p pi).last = some q ∧ pi.freed = 0) ↔ (e.last = some q ∧ e.pipe.freed = 0)) :
    FKnows q l (e.setPipe p pi) := by
  refine ⟨hk.owned, hk.uses, fun v hv => ⟨(hk.closing v hv).1, (hopen v hv).trans (hk.closing v hv).2⟩,
    ?_, fun hs => ?_, hk.fine⟩
  · change ((e.setPipe p pi).last = some q ∧ pi.freed = 0) ↔ l.Frees pi
    rw [hfrees, hk.frees]
    -- the way to `kfree` depends on the pipe only where `pi->lock` is held
    cases l with
    | pipe l => cases l <;> first | exact Iff.rfl | cases hg
    | _ => exact Iff.rfl
  · rw [guarded_of_sees hs] at hg
    cases hg

/-- While another process frees the page. -/
theorem FKnows.free_other {pi : Pipe} (hk : FKnows q l e) (hq : q ≠ p) (hs : e.pipe.Shut)
    (hlast : e.last = some p) (hr : pi.readopen = e.pipe.readopen)
    (hw : pi.writeopen = e.pipe.writeopen) : FKnows q l (e.setPipe p pi) := by
  have hne : e.last ≠ some q := by
    rw [hlast]
    exact fun hx => hq (Option.some.inj hx).symm
  have hset : (e.setPipe p pi).last = e.last := if_neg fun hc => hc.2 hs
  have hfrees : l.Frees pi ↔ l.Frees e.pipe := by
    cases l with
    | pipe l => cases l <;> simp [FPc.Frees, Shut, hr, hw]
    | _ => rfl
  refine ⟨hk.owned, hk.uses, fun v hv => ⟨(hk.closing v hv).1, ?_⟩, ?_, fun h => hr.trans (hk.sees h),
    hk.fine⟩
  · have ho := (hk.closing v hv).2
    cases v
    · exact hr.trans ho
    · exact hw.trans ho
  · change (_ ∧ pi.freed = 0) ↔ l.Frees pi
    rw [hfrees, ← hk.frees, hset]
    exact iff_of_false (fun hx => hne hx.1) fun hx => hne hx.1

/-- **The actions of `p` keep what the others know.** -/
theorem FKnows.stable {g : FReq n → Ends n → Ends n × FPc n} {l' : FPc n} (h : fileProg p l = .act g)
    (ha : Accounts e) (hk : FKnows p l e) (hq : q ≠ p)
    (hex : l'.guarded = true → l.holds ≠ some .pipe) (hk' : FKnows q l' e) (r : FReq n) :
    FKnows q l' (g r e).1 := by
  cases acts h with
  | @pipe l f hf hl =>
    by_cases hset : ∃ w, l = .closeSet w
    · obtain ⟨w, rfl⟩ := hset
      obtain ⟨hc, ho⟩ := hk.closing w rfl
      have hg : l'.guarded = false := Bool.not_eq_true _ ▸ fun hg => hex hg rfl
      cases hf
      have hnone : e.last ≠ some q := fun hx => not_shut ho (ha.last.2 ⟨q, hx⟩)
      refine hk'.setPipe_other hg (fun v hv => ?_) ?_
      · have hvw : v ≠ w := by
          rintro rfl
          rw [(hk'.closing v hv).1] at hc
          exact hq (Option.some.inj hc)
        cases v <;> cases w <;> first | rfl | exact absurd rfl hvw
      · refine iff_of_false (fun hx => ?_) fun hx => hnone hx.1
        rcases setPipe_last _ with hl | hl <;> rw [hl] at hx
        · exact hq (Option.some.inj hx.1).symm
        · exact hnone hx.1
    · by_cases hfree : l = .closeFree
      · subst hfree
        have hp := hk.frees.2 trivial
        cases hf
        exact hk'.free_other hq (ha.last.2 ⟨p, hp.1⟩) hp.1 rfl rfl
      · have hs := act_same hf (fun w hw => hset ⟨w, hw⟩) hfree r.toReq e.pipe
        simp only [hs.setPipe]
        exact hk'.same hs
  | idle h =>
    rcases idle_act h r e with he | ⟨_, he⟩ | ⟨_, -, he⟩ | ⟨_, -, he⟩ | ⟨w, -, he⟩ | ⟨_, _, -, he⟩ <;>
      rw [he]
    case inr.inr.inr.inr.inl => exact hk'.drop_other hq
    all_goals exact hk'
  | @dupTest w x =>
    dsimp only
    split_ifs
    · exact hk'
    · exact hk'.gain_other hq
  | dupInstall => exact hk'.install_other hq
  | @closeTest w =>
    dsimp only
    split_ifs
    · exact hk'
    all_goals exact hk'.lose_other ha (by rw [hk.owned]; simp [FPc.flight]) hq

end Stable

/-! ## What a process knows itself -/

section Self

variable {p : Fin n} {w : Bool} {l : FPc n} {e : Ends n}

/-- Moving between local states that know the same. -/
theorem FKnows.move {l' : FPc n} (hk : FKnows p l e)
    (huses : ∀ w, l'.uses = some w → l.uses = some w := by first | exact fun _ => id | nofun)
    (hclosing : ∀ w, l'.closing = some w → l.closing = some w := by first | exact fun _ => id | nofun)
    (s : l'.sees = true → l.sees = true := by nofun)
    (hflight : ∀ w, l'.flight w = l.flight w := by exact fun _ => rfl)
    (hfrees : l'.Frees e.pipe ↔ l.Frees e.pipe := by exact .rfl)
    (hfine : l' ≠ .dupPanic ∧ l' ≠ .closePanic := by exact ⟨nofun, nofun⟩) : FKnows p l' e :=
  ⟨fun w => by rw [hflight]; exact hk.owned w, fun w hw => hk.uses w (huses w hw),
    fun w hw => hk.closing w (hclosing w hw), hk.frees.trans hfrees.symm, fun h => hk.sees (s h), hfine⟩

/-- Where an action of `pipe.c` leads, but for the two that close an end and free the page. -/
theorem act_next {l : Pc} {f : Req → Pipe → Pipe × Pc} (h : prog p l = .act f) (hl : l ≠ .idle)
    (hset : ∀ w, l ≠ .closeSet w) (hfree : l ≠ .closeFree) (r : Req) (pi : Pipe) :
    (∀ w, (f r pi).2.inside = some w → l.inside = some w) ∧
    (∀ w, (FPc.pipe (f r pi).2 : FPc n).closing ≠ some w) ∧
    ((FPc.pipe (f r pi).2 : FPc n).Frees pi ↔ (FPc.pipe l : FPc n).Frees pi) := by
  cases l <;> cases h
  case idle => exact absurd rfl hl
  case closeSet w => exact absurd rfl (hset w)
  case closeFree => exact absurd rfl hfree
  case writeCopy => cases r <;> exact ⟨fun _ => id, nofun, Iff.rfl⟩
  case writeLoop | writeTest | readLoop =>
    dsimp only
    split_ifs <;> exact ⟨fun _ => id, nofun, Iff.rfl⟩
  case readCopy =>
    dsimp only
    split_ifs
    · exact ⟨fun _ => id, nofun, Iff.rfl⟩
    · cases r <;> exact ⟨fun _ => id, nofun, Iff.rfl⟩
    · exact ⟨fun _ => id, nofun, Iff.rfl⟩
  case closeTest =>
    dsimp only
    split_ifs with hs
    · exact ⟨nofun, nofun, ⟨fun _ => hs, fun _ => trivial⟩⟩
    · exact ⟨nofun, nofun, ⟨nofun, fun h => hs h⟩⟩
  case ret => exact ⟨nofun, nofun, Iff.rfl⟩

/-- An action of `pipe.c` keeps the accounts and what its process knows. -/
theorem FKnows.pipe_act {l : Pc} {f : Req → Pipe → Pipe × Pc} (h : prog p l = .act f) (hl : l ≠ .idle)
    (ha : Accounts e) (hk : FKnows p (.pipe l) e) (r : Req) :
    Accounts (e.setPipe p (f r e.pipe).1) ∧ FKnows p (.pipe (f r e.pipe).2) (e.setPipe p (f r e.pipe).1) := by
  have hsees : (f r e.pipe).2.seesOpen = true → (f r e.pipe).1.readopen = true :=
    seesOpen_act h r e.pipe hk.sees
  by_cases hset : ∃ w, l = .closeSet w
  · obtain ⟨w, rfl⟩ := hset
    obtain ⟨hc, ho⟩ := hk.closing w rfl
    have hns := not_shut ho
    have hf0 : e.pipe.freed = 0 := by
      have h1 := ha.freed
      have h2 : e.pipe.freed ≠ 1 := fun hf => hns (ha.freed_shut hf)
      omega
    cases h
    obtain ⟨h1, h2, h3⟩ := shutEnd_eq w e.pipe
    refine ⟨ha.close ho h1 h2 h3 ((ha.closer w).2 ⟨p, hc⟩), hk.owned, nofun, nofun, ?_, nofun,
      ⟨nofun, nofun⟩⟩
    change ((e.setPipe p (shutEnd w e.pipe)).last = some p ∧ (shutEnd w e.pipe).freed = 0) ↔
      (shutEnd w e.pipe).Shut
    rw [h3, hf0]
    -- this call closed the second end, or the other end is still open
    by_cases hs : (shutEnd w e.pipe).Shut
    · have hlast : (e.setPipe p (shutEnd w e.pipe)).last = some p := if_pos ⟨hs, hns⟩
      exact iff_of_true ⟨hlast, rfl⟩ hs
    · have hlast : (e.setPipe p (shutEnd w e.pipe)).last = e.last := if_neg fun hc => hs hc.1
      rw [hlast]
      exact iff_of_false (fun hx => hns (ha.last.2 ⟨p, hx.1⟩)) hs
  · by_cases hfree : l = .closeFree
    · subst hfree
      have hp := hk.frees.2 trivial
      have hs := ha.last.2 ⟨p, hp.1⟩
      cases h
      refine ⟨ha.free hs rfl rfl (by simp [hp.2]), hk.owned, nofun, nofun, ?_, nofun, ⟨nofun, nofun⟩⟩
      exact iff_of_false (fun hx => by simp [Ends.setPipe] at hx) id
    · have hs := act_same h (fun w hw => hset ⟨w, hw⟩) hfree r e.pipe
      obtain ⟨h1, h2, h3⟩ := act_next h hl (fun w hw => hset ⟨w, hw⟩) hfree r e.pipe
      rw [hs.setPipe]
      have hk' := hk.same hs
      refine ⟨ha.same hs, hk'.owned, fun w hw => hk'.uses w (h1 w hw), fun w hw => absurd hw (h2 w), ?_,
        hsees, ⟨nofun, nofun⟩⟩
      rw [hk'.frees, hs.frees, hs.frees]
      exact h3.symm

/-- **The actions of `p` keep the accounts and what `p` knows.** -/
theorem FKnows.act {g : FReq n → Ends n → Ends n × FPc n} (h : fileProg p l = .act g) (ha : Accounts e)
    (hk : FKnows p l e) (r : FReq n) : Accounts (g r e).1 ∧ FKnows p (g r e).2 (g r e).1 := by
  cases acts h with
  | pipe hf hl => exact hk.pipe_act hf hl ha r.toReq
  | idle h =>
    have hmove : ∀ {l' : FPc n}, (∀ w, l'.flight w = 0) → l'.closing = none → ¬ l'.Frees e.pipe →
        l'.sees = false → (∀ w, l'.uses = some w → 0 < e.fds p w) → l' ≠ .dupPanic ∧ l' ≠ .closePanic →
        FKnows p l' e := by
      intro l' h1 h2 h3 h4 h5 h6
      refine ⟨fun w => by rw [h1]; exact hk.owned w, h5, fun w hw => ?_, hk.frees.trans ?_, fun hs => ?_, h6⟩
      · rw [h2] at hw
        cases hw
      · exact iff_of_false id h3
      · rw [h4] at hs
        cases hs
    rcases idle_act h r e with he | ⟨pid, he⟩ | ⟨k, hf, he⟩ | ⟨k, hf, he⟩ | ⟨w, hf, he⟩ | ⟨w, q, hf, he⟩ <;>
      rw [he]
    · exact ⟨ha, hk⟩
    · exact ⟨ha, hmove (fun _ => rfl) rfl id rfl nofun ⟨nofun, nofun⟩⟩
    · exact ⟨ha, hmove (fun _ => rfl) rfl id rfl (fun w hw => by cases hw; exact hf) ⟨nofun, nofun⟩⟩
    · exact ⟨ha, hmove (fun _ => rfl) rfl id rfl (fun w hw => by cases hw; exact hf) ⟨nofun, nofun⟩⟩
    · refine ⟨ha.drop, fun v => ?_, nofun, nofun, hk.frees.trans Iff.rfl, nofun, ⟨nofun, nofun⟩⟩
      have hown := hk.owned v
      simp only [Ends.drop, lower_apply, FPc.flight, true_and, Nat.add_zero] at hown ⊢
      rcases eq_or_ne v w with rfl | hv
      · simp only [if_true]
        omega
      · simp only [hv, hv.symm, if_false]
        omega
    · exact ⟨ha, hmove (fun _ => rfl) rfl id rfl (fun v hv => by cases hv; exact hf) ⟨nofun, nofun⟩⟩
  | @dupTest w q =>
    have hpos : 0 < e.ref w := ha.ref_pos (p := p) (by
      rw [hk.owned w]
      exact Nat.add_pos_left (hk.uses w rfl) _)
    dsimp only
    rw [if_neg (by omega)]
    refine ⟨ha.gain hpos, fun v => ?_, nofun, nofun, hk.frees.trans Iff.rfl, nofun, ⟨nofun, nofun⟩⟩
    have hown := hk.owned v
    simp only [Ends.gain, bump_apply, FPc.flight, true_and, Nat.add_zero] at hown ⊢
    rw [hown]
    rcases eq_or_ne v w with rfl | hv
    · simp
    · simp [hv, hv.symm]
  | @dupInstall w q =>
    have hpos : 0 < e.owned p w := by
      rw [hk.owned w]
      simp [FPc.flight]
    refine ⟨ha.install hpos, fun v => ?_, nofun, nofun, hk.frees.trans Iff.rfl, nofun, ⟨nofun, nofun⟩⟩
    have hown := hk.owned v
    simp only [Ends.install, bump_apply, lower_apply, FPc.flight, true_and, Nat.add_zero] at hown ⊢
    rw [hown]
    rcases eq_or_ne v w with rfl | hv
    · simp
    · simp [hv, hv.symm]
  | @closeTest w =>
    have hpos : 0 < e.owned p w := by
      rw [hk.owned w]
      simp [FPc.flight]
    have href := ha.ref_pos hpos
    dsimp only
    rw [if_neg (by omega)]
    have hown : ∀ v, (e.lose p w).owned p v = (e.lose p w).fds p v := by
      intro v
      have hown := hk.owned v
      simp only [Ends.lose, lower_apply, FPc.flight, true_and] at hown ⊢
      rw [hown]
      rcases eq_or_ne v w with rfl | hv
      · simp
      · simp [hv, hv.symm]
    refine ⟨ha.lose hpos, ?_⟩
    split_ifs with h0
    · exact ⟨hown, nofun, nofun, hk.frees.trans Iff.rfl, nofun, ⟨nofun, nofun⟩⟩
    · -- the last reference: this process closes the end
      refine ⟨hown, nofun, fun v hv => ?_, hk.frees.trans Iff.rfl, nofun, ⟨nofun, nofun⟩⟩
      cases hv
      have hz : e.ref w - 1 = 0 := by
        have : ¬ 0 < e.ref w - 1 := by simpa only [Ends.lose, update_self] using h0
        omega
      refine ⟨by simp [Ends.lose, hz], ?_⟩
      by_contra ho
      have := ha.shut w (by simpa [Ends.lose] using ho)
      omega

end Self

/-- What a process asleep in `piperead` or `pipewrite` knows. -/
def FAsleep (p : Fin n) (l : FPc n) (e : Ends n) : Prop :=
  Accounts e ∧ FKnows p l e ∧ l.guarded = false

/-- **The outline of the pipe with its descriptors.** -/
theorem foutline : Outline (fileProg (n := n)) fheld Key.pipe (fun _ _ _ => True) (fun _ _ _ _ => True)
    Accounts (fun p l e => Accounts e ∧ FKnows p l e) FAsleep where
  acquire {p l ℓ l' e} h hk _ := by
    refine ⟨hk.1, ?_⟩
    cases l with
    | pipe l =>
      cases l <;> cases h <;> exact hk.2.move
    | dupAcquire w q | closeAcquire w =>
      cases h; exact hk.2.move
    | _ => cases h
  release {p l ℓ l' e} h hk := by
    refine ⟨fun _ => hk.1, hk.1, ?_⟩
    cases l with
    | pipe l =>
      cases l <;> cases h <;> exact hk.2.move
    | dupRelease w q | closeRelease | closeLast w =>
      cases h; exact hk.2.move
    | _ => cases h
  act h _ _ hk := hk.2.act h hk.1 _
  stable {p l g r e} h _ _ hk q hq := by
    have ha := (hk.2.act h hk.1 r).1
    refine ⟨fun l' hex hk' => ⟨ha, hk.2.stable h hk.1 hq (fun hg hh => ?_) hk'.2 r⟩, fun l' hw => ?_⟩
    · exact hex (fheld_mon.2 (holds_of_guarded hg)) (fheld_mon.2 hh)
    · obtain ⟨-, hk', hg⟩ := hw
      exact ⟨ha, hk.2.stable h hk.1 hq (fun hg' => absurd (hg.symm.trans hg') nofun) hk' r, hg⟩
  unlocked h _ _ _ hk _ := (hk.2.act h hk.1 _).1
  sleep {p l c k' l' e} h hk := by
    cases l with
    | pipe l =>
      cases l <;> cases h <;> exact ⟨⟨hk.1, hk.2.move, rfl⟩, fun _ => ⟨rfl, hk.1⟩⟩
    | _ => cases h
  back hw _ := ⟨hw.1, hw.2.1⟩
  wakeup {p l c l' e} h hk := by
    refine ⟨hk.1, ?_⟩
    cases l with
    | pipe l =>
      cases l <;> cases h <;> exact hk.2.move
    | _ => cases h
  killed {p l f e} h hk b := by
    refine ⟨hk.1, ?_⟩
    cases l with
    | pipe l =>
      cases l <;> cases h
      · cases b <;> exact hk.2.move (s := fun _ => rfl)
      · cases b <;> exact hk.2.move
    | _ => cases h
  kill {p l pid f e} h hk b := by
    refine ⟨hk.1, ?_⟩
    cases l with
    | pipe l =>
      cases l <;> cases h
      exact hk.2.move
    | _ => cases h

end Xv6.Pipe
