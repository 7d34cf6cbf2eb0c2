import Xv6.Fs.Array
import Xv6.Fs.Syscalls

/-!
# Reading and writing through a descriptor

`read` and `write` on an open file work at the offset of the file and move it. On the contents, as
an array of bytes, `read` takes a run of bytes from the offset on, and `write` overwrites one: the
rounds of `filewrite` together are one run.

* `sysRead_content`, `sysWrite_content`: the two calls.
-/

namespace Xv6.Fs

open Function Lib

variable {lost : ℕ → Prop} {N : ℕ} {T : Tree} {s : Sys} {p f ip : ℕ}

/-! ## The inode of an open file -/

/-- Inode `i` is in memory and in use, and the file system is well formed. -/
structure State.Live (lost : ℕ → Prop) (i : ℕ) (s : State) : Prop where
  wf : s.WfBut lost
  ref : 0 < (s.itable i).ref
  lt : i < s.sb.ninodes
  used : (s.dinode i).type ≠ .free

namespace State

variable {s s' : State} {i : ℕ}

theorem WfBut.live (h : s.WfBut lost) (hl : s.Locked i) : s.Live lost i :=
  ⟨h, hl.1, (h.agree i hl).2.2, (h.agree i hl).2.1⟩

/-- `ilock` loads it. -/
theorem Live.ilock (h : s.Live lost i) : Fs.ilock i s = .ok ((), s.load i) := by
  have hr := h.ref
  have hi := h.lt
  rcases ilock_run h.wf i with ⟨hrun, -⟩ | ⟨-, h0⟩ | ⟨-, hge⟩ | ⟨-, hf⟩
  · exact hrun
  · omega
  · omega
  · exact absurd hf h.used

theorem Live.load (h : s.Live lost i) : (s.load i).WfBut lost ∧ (s.load i).Locked i :=
  ⟨h.wf.load h.used h.lt, load_locked_self h.ref⟩

theorem Locked.iunlock (h : s.Locked i) : Fs.iunlock i s = .ok ((), s) := by
  have hr := h.1
  rcases iunlock_run s i with ⟨hrun, -⟩ | ⟨-, h0⟩
  · exact hrun
  · omega

end State

/-- The inode of an open file is in memory and in use. -/
theorem SysOk.live_file (h : SysOk N T s) (ht : (s.ftable f).type = .inode) :
    s.fs.Live (fun _ => False) (s.ftable f).ip := by
  have hpos := h.toBooks.holds_pos (.inl ht)
  have hlive := h.live _ hpos
  rw [← h.fs.tree] at hlive
  obtain ⟨hlt, htype⟩ := State.type_of_tree hlive
  refine ⟨h.fs.wf, ?_, hlt, ?_⟩
  · rw [h.fs.ref]
    omega
  · rwa [htype]

/-! ## The offset -/

namespace Sys

/-- The offset of file `f` moves by `t`. -/
def advance (s : Sys) (f t : ℕ) : Sys := s.putFile f { s.ftable f with off := (s.ftable f).off + t }

theorem advance_zero (s : Sys) (f : ℕ) : s.advance f 0 = s := by
  unfold advance putFile
  exact congrArg (fun t => ({ s with ftable := t } : Sys)) (update_eq_self f s.ftable)

theorem advance_self (s : Sys) (f t : ℕ) :
    (s.advance f t).ftable f = { s.ftable f with off := (s.ftable f).off + t } := putFile_self _

theorem advance_advance (s : Sys) (fs : State) (f t u : ℕ) :
    ({ s.advance f t with fs := fs } : Sys).advance f u =
      ({ s with fs := fs } : Sys).advance f (t + u) := by
  unfold advance putFile
  simp only [update_self, update_idem, Nat.add_assoc]

end Sys

/-- The end of a round: the offset moves by what `readi` or `writei` has done. -/
theorem advance_run {α : Type} (k : SysM α) (hl : s.fs.Locked ip) {t : ℕ}
    (ht : 0 < t → (s.ftable f).off + t < 2 ^ 32) :
    ((do
      if (t : ℤ) > 0 then setFile f fun fl => { fl with off := (fl.off + (t : ℤ).toNat) % 2 ^ 32 }
      onFs (iunlock ip)
      k) : SysM α) s = k (s.advance f t) := by
  have hunlock : ∀ u, onFs (iunlock ip) (s.advance f u) = .ok ((), s.advance f u) :=
    fun u => onFs_run hl.iunlock
  by_cases h0 : t = 0
  · subst h0
    have hu := hunlock 0
    rw [Sys.advance_zero] at hu ⊢
    exact Run.bind_of_ok hu
  · have hset : setFile f (fun fl => { fl with off := (fl.off + (t : ℤ).toNat) % 2 ^ 32 }) s =
        .ok ((), s.advance f t) := by
      rw [Int.toNat_natCast]
      unfold Sys.advance
      rw [← Nat.mod_eq_of_lt (ht (by omega))]
      rfl
    rw [if_pos (by omega), Run.bind_of_ok hset]
    exact Run.bind_of_ok (hunlock t)

/-! ## Reading -/

/-- `n` bytes of `a` from offset `off` on, as far as there are any. -/
def slice (a : List UInt8) (off n : ℕ) : List UInt8 :=
  if off + n < 2 ^ 32 then (a.drop off).take n else []

/-- Where there is something to read, the end of it is a 32-bit number. -/
theorem slice_lt {a : List UInt8} {off n : ℕ} (h : 0 < (slice a off n).length) :
    off + (slice a off n).length < 2 ^ 32 := by
  unfold slice at h ⊢
  split_ifs at h ⊢ with hn
  · have := List.length_take_le n (a.drop off)
    omega
  · exact absurd h (lt_irrefl 0)

theorem readi_slice {s : State} {i n : ℕ} (h : s.WfBut lost) (hl : s.Locked i) (off : ℕ)
    (hn : n < 2 ^ 32) : readi i (fun _ => true) off n s =
      .ok (((slice (s.content i) off n).length, slice (s.content i) off n), s) := by
  obtain ⟨hd, hf, hi⟩ := h.agree i hl
  have hsize := (h.noHoles i hi hf).1
  have hmax : maxfile * bsize < 2 ^ 32 := by decide
  unfold slice
  by_cases hoff : off ≤ (s.dinode i).size
  · split_ifs with hin
    · exact readi_content h hl hoff hin
    · exact readi_refuses h hl _ (by omega) hn fun hc => hin hc.2
  · have hnil : (s.content i).drop off = [] := by
      rw [List.drop_eq_nil_iff, State.length_content]
      omega
    rw [hnil, List.take_nil, ite_self]
    unfold readi
    rw [Run.get_bind, hd, if_pos (.inl (by omega))]
    rfl

/-- `read` returns what `readi` does, and moves the offset by it. -/
theorem sysRead_of_readi {fd : ℕ} {dst : ℕ → Bool} {n : ℤ} (r : ℤ) (hf : argfd s p fd = some f)
    (ht : (s.ftable f).type = .inode) (hread : (s.ftable f).readable = true)
    (h : s.fs.Live lost (s.ftable f).ip) {t : ℕ} {bytes : List UInt8}
    (hrun : readi (s.ftable f).ip dst (s.ftable f).off (n % 2 ^ 32).toNat
      (s.fs.load (s.ftable f).ip) = .ok (((t : ℤ), bytes), s.fs.load (s.ftable f).ip))
    (hlt : 0 < t → (s.ftable f).off + t < 2 ^ 32) :
    sysRead p fd dst n r s =
      .ok ((t : ℤ), ({ s with fs := s.fs.load (s.ftable f).ip } : Sys).advance f t) := by
  unfold sysRead
  rw [Run.get_bind, hf]
  dsimp only
  rw [if_neg (by rw [hread]; exact nofun), ht]
  dsimp only
  rw [Run.bind_of_ok (onFs_run h.ilock),
    Run.bind_of_ok (onFs_run (s := { s with fs := s.fs.load (s.ftable f).ip }) hrun)]
  exact advance_run (s := { s with fs := s.fs.load (s.ftable f).ip }) (pure (t : ℤ)) h.load.2 hlt

/-- **`read`** takes a run of the contents, and moves the offset past it. -/
theorem sysRead_content {fd : ℕ} (n r : ℤ) (hf : argfd s p fd = some f)
    (ht : (s.ftable f).type = .inode) (hread : (s.ftable f).readable = true)
    (h : s.fs.Live lost (s.ftable f).ip) :
    ∃ bytes, bytes = slice (s.fs.content (s.ftable f).ip) (s.ftable f).off (n % 2 ^ 32).toNat ∧
      readi (s.ftable f).ip (fun _ => true) (s.ftable f).off (n % 2 ^ 32).toNat
          (s.fs.load (s.ftable f).ip) =
        .ok (((bytes.length : ℤ), bytes), s.fs.load (s.ftable f).ip) ∧
      sysRead p fd (fun _ => true) n r s = .ok ((bytes.length : ℤ),
        ({ s with fs := s.fs.load (s.ftable f).ip } : Sys).advance f bytes.length) := by
  obtain ⟨hw, hl⟩ := h.load
  have hrun := readi_slice hw hl (s.ftable f).off (n := (n % 2 ^ 32).toNat) (by omega)
  exact ⟨_, rfl, hrun, sysRead_of_readi r hf ht hread h hrun slice_lt⟩

/-! ## Writing -/

/-- The state and the result after `write` has put `t` of the `n` bytes that `src` has from `i` on
to the offset of `f`. It stops early when the disk is full, or when the offset is beyond the end, or
when the next round would make the file too long. -/
structure Put (f : ℕ) (src : ℕ → UInt8) (n i : ℕ) (s : Sys) (t : ℕ) (fs' : State) : Prop where
  le : i + t ≤ n
  short : i + t < n → (∀ b < fs'.sb.size, fs'.used b = true) ∨
    ¬ ((s.ftable f).off ≤ (s.fs.dinode (s.ftable f).ip).size ∧
      (s.ftable f).off + t + min (n - (i + t)) writeMax ≤ maxfile * bsize)
  content : fs'.content (s.ftable f).ip = overwrite (s.fs.content (s.ftable f).ip) (s.ftable f).off
    ((List.range t).map fun k => src (i + k))

/-- Two rounds, one after the other. -/
theorem Put.trans {src : ℕ → UInt8} {n i t u : ℕ} {fs₁ fs' : State}
    (hoff : (s.ftable f).off ≤ (s.fs.dinode (s.ftable f).ip).size)
    (hsize : (s.ftable f).off + t ≤ (fs₁.dinode (s.ftable f).ip).size)
    (hc : fs₁.content (s.ftable f).ip = overwrite (s.fs.content (s.ftable f).ip) (s.ftable f).off
      ((List.range t).map fun k => src (i + k)))
    (h' : Put f src n (i + t) (({ s with fs := fs₁ } : Sys).advance f t) u fs') :
    Put f src n i s (t + u) fs' := by
  have hself := Sys.advance_self { s with fs := fs₁ } f t
  have hip : ((({ s with fs := fs₁ } : Sys).advance f t).ftable f).ip = (s.ftable f).ip := by rw [hself]
  have hoff' : ((({ s with fs := fs₁ } : Sys).advance f t).ftable f).off = (s.ftable f).off + t := by
    rw [hself]
  have hle := h'.le
  have hshort := h'.short
  have hcontent := h'.content
  rw [hip, hoff'] at hshort hcontent
  refine ⟨by omega, fun hlt => ?_, ?_⟩
  · refine (hshort (by omega)).imp_right fun hno hfits => hno ⟨hsize, ?_⟩
    have hrest : n - (i + t + u) = n - (i + (t + u)) := by omega
    rw [hrest]
    omega
  · have hle' : (s.ftable f).off ≤ (s.fs.content (s.ftable f).ip).length := by
      rwa [State.length_content]
    have hlen : ((List.range t).map fun k => src (i + k)).length = t := by simp
    rw [hcontent]
    show overwrite (fs₁.content (s.ftable f).ip) _ _ = _
    calc overwrite (fs₁.content (s.ftable f).ip) ((s.ftable f).off + t)
          ((List.range u).map fun k => src (i + t + k))
        = overwrite (s.fs.content (s.ftable f).ip) (s.ftable f).off
            ((List.range t).map (fun k => src (i + k)) ++
              (List.range u).map fun k => src (i + t + k)) := by
          rw [← overwrite_append hle', hlen, hc]
      _ = _ := by
          rw [List.range_add, List.map_append, List.map_map]
          simp only [comp_def, Nat.add_assoc]

/-- The loop of `filewrite` writes one run of bytes. -/
theorem filewriteFrom_content {src : ℕ → UInt8} {n : ℕ} : ∀ {fuel i : ℕ} {s : Sys}, i ≤ n →
    n - i ≤ fuel → s.fs.Live lost (s.ftable f).ip →
    ∃ t fs', filewriteFrom f (fun k => some (src k)) n fuel i s =
        .ok (if i + t = n then (n : ℤ) else -1, ({ s with fs := fs' } : Sys).advance f t) ∧
      Put f src n i s t fs' := by
  intro fuel
  have hstop : ∀ {i : ℕ} (s : Sys), i = n → ∃ t fs',
      (.ok (if i = n then (n : ℤ) else -1, s) : Except Stop (ℤ × Sys)) =
        .ok (if i + t = n then (n : ℤ) else -1, ({ s with fs := fs' } : Sys).advance f t) ∧
      Put f src n i s t fs' := by
    intro i s hi
    refine ⟨0, s.fs, ?_, by omega, fun h => absurd h (by omega), (overwrite_nil _ _).symm⟩
    rw [Sys.advance_zero]
    rfl
  induction fuel with
  | zero => exact fun hi hfuel _ => hstop _ (by omega)
  | succ fuel ih =>
    intro i s hi hfuel h
    unfold filewriteFrom
    by_cases hlt : i < n
    swap
    · rw [if_neg hlt]
      exact hstop _ (by omega)
    rw [if_pos hlt]
    dsimp only
    rw [Run.get_bind]
    obtain ⟨m, hm⟩ : ∃ m, m = min (n - i) writeMax := ⟨_, rfl⟩
    have hbound : maxfile * bsize < 2 ^ 32 := by decide
    have hpos : 0 < writeMax := by decide
    have hmlt : m < 2 ^ 32 := by
      have : writeMax < 2 ^ 32 := by decide
      omega
    obtain ⟨hw, hl⟩ := h.load
    rw [← hm, Run.bind_of_ok (onFs_run h.ilock)]
    by_cases hfits : (s.ftable f).off ≤ (s.fs.dinode (s.ftable f).ip).size ∧
        (s.ftable f).off + m < 2 ^ 32 ∧ (s.ftable f).off + m ≤ maxfile * bsize
    · obtain ⟨t, fs₁, hrun, ht, hshort, htouch, hw₁, hcontent, hsize⟩ :
          ∃ (t : ℕ) (fs₁ : State), writei _ (fun k => some (src (i + k))) (s.ftable f).off m _ =
            .ok ((t : ℤ), fs₁) ∧ _ := writei_content hw hl hfits.1 hfits.2.1 hfits.2.2
      have hl₁ := htouch.locked hl
      rw [Run.bind_of_ok (onFs_run (s := { s with fs := s.fs.load (s.ftable f).ip }) hrun),
        advance_run (s := { s with fs := fs₁ }) _ hl₁ (by dsimp only; omega)]
      by_cases htm : t = m
      · rw [if_neg (by rw [htm]; exact fun hne => hne rfl), ← htm]
        have hself := Sys.advance_self { s with fs := fs₁ } f t
        have hip : ((({ s with fs := fs₁ } : Sys).advance f t).ftable f).ip = (s.ftable f).ip := by
          rw [hself]
        obtain ⟨u, fs', hrun', hwrote⟩ := ih (i := i + t)
          (s := ({ s with fs := fs₁ } : Sys).advance f t) (by omega) (by omega)
          (by rw [hip]; exact hw₁.live hl₁)
        refine ⟨t + u, fs', ?_, hwrote.trans hfits.1 (by omega) hcontent⟩
        have hadv := Sys.advance_advance { s with fs := fs₁ } fs' f t u
        rw [hrun', hadv, Nat.add_assoc]
      · rw [if_pos (by omega)]
        refine ⟨t, fs₁, ?_, by omega, fun _ => .inl (hshort (by omega)).1, hcontent⟩
        rw [if_neg (by omega), if_neg (by omega)]
        rfl
    · have hrun := writei_refuses hw hl (fun k => some (src (i + k))) hmlt hfits
      rw [Run.bind_of_ok (onFs_run (s := { s with fs := s.fs.load (s.ftable f).ip }) hrun)]
      refine ⟨0, s.fs.load (s.ftable f).ip, ?_, by omega, fun _ => .inr ?_, (overwrite_nil _ _).symm⟩
      · have hun := onFs_run (s := { s with fs := s.fs.load (s.ftable f).ip }) hl.iunlock
        rw [if_neg (by decide), Run.bind_of_ok hun, if_pos (by omega), if_neg (by omega),
          if_neg (by omega), Sys.advance_zero]
        rfl
      · intro hc
        rw [Nat.add_zero, Nat.add_zero, ← hm] at hc
        exact hfits ⟨hc.1, by omega, hc.2⟩

/-- **`write`** overwrites a run of the contents, and moves the offset past it. -/
theorem sysWrite_content {fd : ℕ} (src : ℕ → UInt8) (n : ℕ) (r : ℤ) (hf : argfd s p fd = some f)
    (ht : (s.ftable f).type = .inode) (hwrite : (s.ftable f).writable = true)
    (h : s.fs.Live lost (s.ftable f).ip) :
    ∃ t fs', sysWrite p fd (fun k => some (src k)) n r s =
        .ok (if t = n then (n : ℤ) else -1, ({ s with fs := fs' } : Sys).advance f t) ∧
      Put f src n 0 s t fs' := by
  unfold sysWrite
  rw [Run.get_bind, hf]
  dsimp only
  rw [if_neg (by rw [hwrite]; exact nofun), ht]
  dsimp only
  rw [if_neg (by omega), Int.toNat_natCast]
  obtain ⟨t, fs', hrun, hwrote⟩ : ∃ t fs', filewriteFrom f (fun k => some (src k)) n n 0 s =
      .ok (if 0 + t = n then (n : ℤ) else -1, ({ s with fs := fs' } : Sys).advance f t) ∧ _ :=
    filewriteFrom_content (Nat.zero_le n) (by omega) h
  rw [Nat.zero_add] at hrun
  exact ⟨t, fs', hrun, hwrote⟩

end Xv6.Fs
