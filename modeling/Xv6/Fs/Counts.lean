import Xv6.Console.Taken
import Xv6.Fs.Offset
import Xv6.Fs.Runs

/-!
# Reads and writes of a count that is not positive

The count is an `int` in `sys_read` and `sys_write`. The loops over pipes and the console, and that
of `filewrite`, stop at once if it is not positive. `readi` takes it for a `uint`, and only looks
whether the end of the range wraps around.

* `nonpositive_counts`: where nothing is transferred.
* `read_minus_one`: where a directory is read.
-/

namespace Xv6

open Thread Lib

/-- Only an action changes the shared data. -/
theorem Thread.step_sh {n : ℕ} {K C σ ι L : Type} [DecidableEq K] [DecidableEq C]
    {prog : Fin n → L → Instr n K C σ ι L} {s s' : State n K C σ L} {p : Fin n} {i : ι}
    (hact : ∀ l f, (s.procs p).ctl = .run l → prog p l = .act f → (f i s.sh).1 = s.sh)
    (hs : step prog s (p, i) = some s') : s'.sh = s.sh := by
  cases step_move hs with
  | act hc hi => exact hact _ _ hc hi
  | _ => rfl

namespace Pipe

/-- The count of the read or write that a process is in. -/
def count {n : ℕ} (_ : Fin n) (l : Pc) (r : Req) (_ : Pipe) (t : ℤ) : ℤ :=
  if l = .idle then
    match r with
    | .read n | .write n => n
    | _ => 1
  else t

/-- How far a call of count `t` gets. -/
def Pc.Within : Pc → ℤ → Prop
  | .idle | .killing _ => fun _ => True
  | .writeAcquire n | .readAcquire n | .readLoop n | .readKilled n | .readSleep n =>
    fun t => t ≤ 0 → n ≤ 0
  | .writeLoop i n _ | .readCopy i n => fun t => t ≤ 0 → i = 0 ∧ n ≤ 0
  | .writeWakeup i _ | .readWakeup i => fun t => t ≤ 0 → i = 0
  | .writeRelease v | .readRelease v | .ret v => fun t => t ≤ 0 → v ≤ 0
  | _ => fun t => 0 < t

theorem within {n : ℕ} : Tallied (prog (n := n)) count Pc.Within where
  act {p l f r pi t} hi ht := by
    by_cases hidle : l = .idle
    · subst hidle
      cases hi
      cases r <;> simp [Pc.Within, count]
    · unfold count
      rw [if_neg hidle]
      cases l <;> cases hi <;> dsimp only <;> (repeat' split) <;> grind [Pc.Within]
  next {p l l' t} hi ht := by
    cases l <;> simp only [prog, Instr.Next] at hi <;> grind [Pc.Within]

theorem unchanged_of_within {n : ℕ} {p : Fin n} {l : Pc} {f : Req → Pipe → Pipe × Pc}
    (hi : prog p l = .act f) {t : ℤ} (ht : t ≤ 0) (h : l.Within t) (r : Req) (pi : Pipe) :
    (f r pi).1 = pi := by
  cases l <;> cases hi <;> dsimp only <;> (repeat' split) <;> grind [Pc.Within]

end Pipe

namespace Console

@[inherit_doc Pipe.count]
def count {m : ℕ} (_ : Fin m) (l : Pc) (q : Req) (_ : Console) (t : ℤ) : ℤ :=
  if l = .idle then
    match q with
    | .read n => n
    | _ => 1
  else t

@[inherit_doc Pipe.Pc.Within]
def Pc.Within : Pc → ℤ → Prop
  | .idle | .killing _ => fun _ => True
  | .readAcquire n => fun t => t ≤ 0 → n ≤ 0
  | .readLoop n target => fun t => t ≤ 0 → n ≤ 0 ∧ target = n
  | .readRelease v | .ret v => fun t => t ≤ 0 → v ≤ 0
  | _ => fun t => 0 < t

theorem within {m : ℕ} : Tallied (prog (m := m)) count Pc.Within where
  act {p l f q c t} hi ht := by
    by_cases hidle : l = .idle
    · subst hidle
      cases hi
      cases q <;> simp [Pc.Within, count]
    · unfold count
      rw [if_neg hidle]
      cases l <;> cases hi <;> dsimp only <;> (repeat' split) <;> grind [Pc.Within]
  next {p l l' t} hi ht := by
    cases l <;> simp only [prog, Instr.Next] at hi <;> grind [Pc.Within]

theorem unchanged_of_within {m : ℕ} {p : Fin m} {l : Pc} {f : Req → Console → Console × Pc}
    (hi : prog p l = .act f) {t : ℤ} (ht : t ≤ 0) (h : l.Within t) (q : Req) (c : Console) :
    (f q c).1 = c := by
  cases l <;> cases hi <;> dsimp only <;> (repeat' split) <;> grind [Pc.Within]

/-- The loop of `consolewrite`: what it returns, and the characters given to `uartputc`; `src` has
those that can be read. -/
def writeFrom (src : ℕ → Option UInt8) (n : ℤ) : (fuel i : ℕ) → ℤ × List UInt8
  | 0, i => (i, [])
  | fuel + 1, i =>
    if i < n then
      match src i with
      | none => (i, [])
      | some c => ((writeFrom src n fuel (i + 1)).1, c :: (writeFrom src n fuel (i + 1)).2)
    else (i, [])

/-- `consolewrite`. -/
def consolewrite (src : ℕ → Option UInt8) (n : ℤ) : ℤ × List UInt8 := writeFrom src n n.toNat 0

end Console

namespace Fs

/-- `readi` reads nothing where the range is empty, lies at the end or wraps around. -/
theorem readi_nothing {s : State} {i : ℕ} (dst : ℕ → Bool) {off : ℕ} {n : ℤ} (hn : n ≤ 0)
    (hint : -2 ^ 31 ≤ n) (h : n = 0 ∨ -n ≤ off ∨ (s.itable i).d.size ≤ off) :
    readi i dst off (n % 2 ^ 32).toNat s = .ok (((0 : ℕ), []), s) := by
  obtain ⟨k, hk⟩ : ∃ k, k = (n % 2 ^ 32).toNat := ⟨_, rfl⟩
  unfold readi
  rw [Run.get_bind, ← hk, Run.ite_run]
  by_cases hout : off > (s.itable i).d.size ∨ (off + k) % 2 ^ 32 < off
  · rw [if_pos hout]
    rfl
  · have hzero : (if (off + k) % 2 ^ 32 > (s.itable i).d.size then (s.itable i).d.size - off
        else k) = 0 := by
      split_ifs <;> omega
    rw [if_neg hout, hzero]
    rfl

/-- `sys_read` leaves the file, its offset and the memory of the process alone. -/
def ReadsNothing (s : Sys) (p fd f : ℕ) (dst : ℕ → Bool) (n : ℤ) : Prop :=
  ∃ v ≤ 0, ∃ fs, ilock (s.ftable f).ip s.fs = .ok ((), fs) ∧
    readi (s.ftable f).ip dst (s.ftable f).off (n % 2 ^ 32).toNat fs = .ok ((v, []), fs) ∧
    ∀ r, sysRead p fd dst n r s = .ok (v, { s with fs := fs })

theorem readsNothing_iff {lost : ℕ → Prop} {s : Sys} {p fd f : ℕ} {n : ℤ} (hn : n ≤ 0)
    (hint : -2 ^ 31 ≤ n) (hf : argfd s p fd = some f) (ht : (s.ftable f).type = .inode)
    (hread : (s.ftable f).readable = true) (h : s.fs.Live lost (s.ftable f).ip) :
    (∀ dst, ReadsNothing s p fd f dst n) ↔
      n = 0 ∨ -n ≤ (s.ftable f).off ∨ (s.fs.dinode (s.ftable f).ip).size ≤ (s.ftable f).off := by
  obtain ⟨hw, hl⟩ := h.load
  constructor
  · intro hall
    obtain ⟨v, -, fs, hlock, hrun, -⟩ := hall fun _ => true
    obtain ⟨bytes, hbytes, hrun', -⟩ := sysRead_content n 0 hf ht hread h
    rw [h.ilock] at hlock
    obtain rfl := congrArg Prod.snd (Except.ok.inj hlock)
    rw [hrun] at hrun'
    obtain rfl : [] = bytes := congrArg (fun x => x.1.2) (Except.ok.inj hrun')
    -- an empty slice of a file
    have hlen := congrArg List.length hbytes
    unfold slice at hlen
    by_contra hc
    rw [if_pos (by omega), List.length_take, List.length_drop, State.length_content] at hlen
    simp only [List.length_nil] at hlen
    omega
  · intro hc dst
    have hsize : ((s.fs.load (s.ftable f).ip).itable (s.ftable f).ip).d.size =
        (s.fs.dinode (s.ftable f).ip).size := by
      rw [(hw.agree _ hl).1]
      rfl
    have hrun := readi_nothing (s := s.fs.load (s.ftable f).ip) (i := (s.ftable f).ip) dst hn hint
      (by rwa [hsize])
    refine ⟨(0 : ℕ), le_rfl, _, h.ilock, hrun, fun r => ?_⟩
    rw [sysRead_of_readi r hf ht hread h hrun nofun, Sys.advance_zero]

theorem sysWrite_nothing {s : Sys} {p fd f : ℕ} {n : ℤ} (hn : n ≤ 0) (hf : argfd s p fd = some f)
    (ht : (s.ftable f).type = .inode) (src : Src) (r : ℤ) :
    ∃ v ≤ 0, sysWrite p fd src n r s = .ok (v, s) := by
  unfold sysWrite
  rw [Run.get_bind, hf]
  dsimp only
  rw [Run.ite_run, ht]
  dsimp only
  rw [Run.ite_run]
  split_ifs
  · exact ⟨-1, by decide, rfl⟩
  · exact ⟨-1, by decide, rfl⟩
  · obtain rfl : n = 0 := by omega
    exact ⟨0, le_rfl, rfl⟩

end Fs

/-- **What a count that is not positive transfers.** A write of it changes nothing, and a read of it
takes nothing from a pipe or the console. From a file it takes nothing exactly when it is zero, or
as far from zero as the offset at most, or when the offset is at the end. -/
theorem nonpositive_counts {n : ℤ} (hn : n ≤ 0) (hint : -2 ^ 31 ≤ n) :
    (∀ {s₀ s : Fs.Sys}, Fs.Boot s₀ → Reach Fs.Sys.step (fun _ _ => True) s₀ s → ∀ {p fd f : ℕ},
      Fs.argfd s p fd = some f → (s.ftable f).type = .inode →
      (∀ src r, ∃ v ≤ 0, Fs.sysWrite p fd src n r s = .ok (v, s)) ∧
      ((s.ftable f).readable = true → ((∀ dst, Fs.ReadsNothing s p fd f dst n) ↔ n = 0 ∨
        -n ≤ (s.ftable f).off ∨ (s.fs.dinode (s.ftable f).ip).size ≤ (s.ftable f).off))) ∧
    (∀ (m : ℕ) (pi : Pipe) x, Reach (stepNoted Pipe.prog (tally Pipe.count)) (fun _ _ => True)
        (start .idle pi, fun _ => 1) x → ∀ p : Fin m, x.2 p = n →
      (∀ v, (x.1.procs p).ctl = .run (.ret v) → v ≤ 0) ∧
      ∀ r s', step Pipe.prog x.1 (p, r) = some s' → s'.sh = x.1.sh) ∧
    (∀ (m : ℕ) (c : Console) x, Reach (stepNoted Console.prog (tally Console.count))
        (fun _ _ => True) (start .idle c, fun _ => 1) x → ∀ p : Fin m, x.2 p = n →
      (∀ v, (x.1.procs p).ctl = .run (.ret v) → v ≤ 0) ∧
      ∀ q s', step Console.prog x.1 (p, q) = some s' → s'.sh = x.1.sh) ∧
    ∀ src, Console.consolewrite src n = (0, []) := by
  refine ⟨fun h₀ hr p fd f hf ht => ⟨Fs.sysWrite_nothing hn hf ht, fun hread => ?_⟩,
    fun m pi x hr p hp => ?_, fun m c x hr p hp => ?_, fun src => ?_⟩
  · exact Fs.readsNothing_iff hn hint hf ht hread ((h₀.reach_sane hr).ok.live_file ht)
  · have hin {l} := Pipe.within.reach Pipe.disciplined ()
      (fun m (h : Pipe.held .idle m) => nomatch h.2) trivial hr (p := p) (l := l)
    exact ⟨fun v hc => hin hc (by omega), fun r s' => step_sh fun l f hc hi =>
      Pipe.unchanged_of_within hi (by omega) (hin hc) r _⟩
  · have hin {l} := Console.within.reach Console.disciplined ()
      (fun m (h : Console.held .idle m) => nomatch h.2) trivial hr (p := p) (l := l)
    exact ⟨fun v hc => hin hc (by omega), fun q s' => step_sh fun l f hc hi =>
      Console.unchanged_of_within hi (by omega) (hin hc) q _⟩
  · rw [Console.consolewrite, Int.toNat_of_nonpos hn]
    rfl

/-- The root directory, just opened, and a count of -1. -/
theorem nonpositive_counts_minus_one : ∃ s, run Fs.Sys.step Fs.bootSys [(0, .open [47] 0)] = some s ∧
    (s.ftable 0).off = 0 ∧ ¬ ∀ dst, Fs.ReadsNothing s 0 0 0 dst (-1) := by
  obtain ⟨s, hs, hf, ht, hread, hoff, hsize⟩ :
      ∃ s, run Fs.Sys.step Fs.bootSys [(0, .open [47] 0)] = some s ∧ Fs.argfd s 0 0 = some 0 ∧
        (s.ftable 0).type = .inode ∧ (s.ftable 0).readable = true ∧ (s.ftable 0).off = 0 ∧
        0 < (s.fs.dinode (s.ftable 0).ip).size := exists_some (by decide +kernel)
  have hr : Reach Fs.Sys.step (fun _ _ => True) Fs.bootSys s :=
    reach_of_run (G := fun _ _ => True) (by simpa using hs) .refl
  refine ⟨s, hs, hoff, fun hall => ?_⟩
  have := (((nonpositive_counts (n := -1) (by decide) (by decide)).1 Fs.bootSys_boot hr hf ht).2
    hread).1 hall
  omega

/-- The root directory is opened, and `read(0, p, -1)` reads all of it. -/
theorem read_minus_one : (run Fs.Sys.step Fs.bootSys [(0, .open [47] 0),
    (0, .read 0 (fun _ => true) (-1) 0)]).map (fun s => (s.ftable 0).off) = some 1024 := by
  decide +kernel

end Xv6
