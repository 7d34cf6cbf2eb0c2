import Xv6.Pipe.Readers
import Xv6.Thread.History
import Xv6.Lib.Ring

/-!
# A pipe is a bounded queue

`pi->data` is a ring of `PIPESIZE` bytes between two counters that wrap past `2 ^ 32`. Since
`PIPESIZE` divides `2 ^ 32` the wrap goes unnoticed: the bytes written and not yet read are the
`nwrite - nread` ones from `data[nread % PIPESIZE]` on (`Pipe.rest`).

`Hist` is what a run did: the bytes stored, with the writer, its call and the index in its
buffer, and the bytes taken out. Processes run `pipewrite`, `piperead` and `pipeclose` in any
interleaving, a writer giving up `pi->lock` whenever the ring is full.

* `put_rest`, `get_rest`: one byte goes in at the end, one comes out at the front.
* `fifo_outline`: what each process knows of the queue and of its own part in the history.
* `bounded_fifo`: in every reachable state.
-/

namespace Xv6.Pipe

open Function Thread Lib

variable {n : ℕ}

/-! ## The ring -/

/-- `pi->nwrite - pi->nread`, on unsigned ints. -/
def used (pi : Pipe) : ℕ := (pi.nwrite - pi.nread).toNat

/-- The bytes in the pipe, from `data[nread % PIPESIZE]` on. -/
def rest (pi : Pipe) : List UInt8 := window pipesize pi.data pi.nread.toNat pi.used

variable {pi : Pipe}

theorem rest_eq_nil : pi.rest = [] ↔ pi.nread = pi.nwrite := queue_eq_nil

/-- A pipe that is not full has a free byte. -/
theorem used_lt (h : pi.used ≤ pipesize) (hf : ¬ pi.Full) : pi.used < pipesize := by
  unfold used Full pipesize at *
  have : (pi.nwrite - pi.nread).toNat ≠ 512 := fun he => hf (by bv_omega)
  omega

/-- **A byte goes in at the end.** -/
theorem put_rest (h : pi.used < pipesize) (ch : UInt8) :
    (pi.put ch).rest = pi.rest ++ [ch] ∧ (pi.put ch).used = pi.used + 1 := by
  have hu : (pi.put ch).used = pi.used + 1 := by
    unfold used put pipesize at *
    dsimp only
    bv_omega
  exact ⟨queue_store (by decide) pi.data h (by decide) ch, hu⟩

/-- **A byte comes out at the front.** -/
theorem get_rest (h : pi.nread ≠ pi.nwrite) :
    pi.rest = pi.get.1 :: pi.get.2.rest ∧ pi.used = pi.get.2.used + 1 := by
  refine ⟨queue_pop (by decide) pi.data h, ?_⟩
  unfold used get
  dsimp only
  bv_omega

/-! ## The history of a run -/

/-- A byte stored by `pipewrite`: the writer, which of its calls, the loop index, the byte. -/
structure Put (n : ℕ) where
  writer : Fin n
  call : ℕ
  i : ℕ
  ch : UInt8

/-- What happened so far. -/
structure Hist (n : ℕ) where
  /-- The bytes stored, oldest first. -/
  enq : List (Put n)
  /-- The bytes taken out, oldest first. -/
  deq : List UInt8
  /-- How many `pipewrite` calls each process made. -/
  calls : Fin n → ℕ
  /-- The byte count of the last `piperead` call of each process. -/
  asked : Fin n → ℤ

def Hist.empty : Hist n := ⟨[], [], fun _ => 0, fun _ => 0⟩

/-- The bytes that `p` stored. -/
def Hist.wrote (h : Hist n) (p : Fin n) : List (Put n) := h.enq.filter fun e => e.writer = p

/-- What an action of `p` at the local state `l` adds to the history. -/
def note (p : Fin n) (l : Pc) (r : Req) (pi : Pipe) (h : Hist n) : Hist n :=
  match l, r with
  | .idle, .write _ => { h with calls := update h.calls p (h.calls p + 1) }
  | .idle, .read m => { h with asked := update h.asked p m }
  | .writeCopy i _ _, .copied ch => { h with enq := h.enq ++ [⟨p, h.calls p, i, ch⟩] }
  | .readCopy i m, _ =>
    if i < m ∧ pi.nread ≠ pi.nwrite then { h with deq := h.deq ++ [pi.get.1] } else h
  | _, _ => h

/-- `b` follows `a` in the program order of a writer: the next index of the same call, or the
first index of a later call. -/
def Put.Next (a b : Put n) : Prop := b.call = a.call ∧ b.i = a.i + 1 ∨ a.call < b.call ∧ b.i = 0

/-- The bytes of one writer, in its program order, each call from index 0 on without a gap. -/
def Ordered (es : List (Put n)) : Prop := es.IsChain Put.Next ∧ ∀ e ∈ es.head?, e.i = 0

/-- All copies succeed: the byte at the writer's index is there, and no `copyout` fails. -/
def Copies (s : State n Unit Chan Pipe Pc) (a : Fin n × Req) : Bool :=
  match (s.procs a.1).ctl, a.2 with
  | .run (.writeCopy _ _ _), .copied _ => true
  | .run (.writeCopy _ _ _), _ => false
  | .run (.readCopy _ _), .fault => false
  | _, _ => true

theorem ordered_append {es : List (Put n)} {e : Put n} :
    Ordered (es ++ [e]) ↔ Ordered es ∧ (∀ d ∈ es.getLast?, d.Next e) ∧ (es = [] → e.i = 0) := by
  unfold Ordered
  rw [List.isChain_append]
  cases es with
  | nil => simp
  | cons d es => simp; tauto

/-- The next byte of `p` will be index `i` of its current call. -/
def Hist.Ready (h : Hist n) (p : Fin n) (i : ℕ) : Prop :=
  ∀ ch, Ordered (h.wrote p ++ [⟨p, h.calls p, i, ch⟩])

variable {h : Hist n} {p : Fin n}

theorem Hist.Ready.succ {i : ℕ} (hr : h.Ready p i) (ch ch' : UInt8) :
    Ordered (h.wrote p ++ [⟨p, h.calls p, i, ch⟩] ++ [⟨p, h.calls p, i + 1, ch'⟩]) := by
  rw [ordered_append]
  refine ⟨hr ch, ?_, by simp⟩
  simp [Put.Next]

theorem Hist.Ready.start {c : ℕ} (ho : Ordered (h.wrote p))
    (hl : ∀ e ∈ (h.wrote p).getLast?, e.call < c) (ch : UInt8) :
    Ordered (h.wrote p ++ [⟨p, c, 0, ch⟩]) :=
  ordered_append.2 ⟨ho, fun d hd => Or.inr ⟨hl d hd, rfl⟩, fun _ => rfl⟩

/-! ## What each process knows -/

/-- The index of the next byte, inside `pipewrite`. -/
def Pc.writing : Pc → Option ℕ
  | .writeAcquire _ => some 0
  | .writeLoop i _ _ | .writeKilled i _ _ | .writeTest i _ _ | .writeFull i _ _ | .writeSleep i _
  | .writeCopy i _ _ => some i
  | _ => none

/-- The argument `n`, inside `piperead`. -/
def Pc.reading : Pc → Option ℤ
  | .readAcquire m | .readLoop m | .readKilled m | .readSleep m | .readCopy _ m => some m
  | _ => none

/-- The part of the history that only `p` writes. -/
structure Own (p : Fin n) (l : Pc) (h : Hist n) : Prop where
  order : Ordered (h.wrote p)
  last : ∀ e ∈ (h.wrote p).getLast?, e.call ≤ h.calls p
  ready : ∀ i, l.writing = some i → h.Ready p i
  asked : ∀ m, l.reading = some m → h.asked p = m

/-- The bytes stored are those taken out and then those in the ring. -/
structure Queue (x : Pipe × Hist n) : Prop where
  fifo : x.2.enq.map Put.ch = x.2.deq ++ x.1.rest
  bound : x.1.used ≤ pipesize

/-- A read of no bytes found the pipe at its end. -/
def AtEnd (p : Fin n) (x : Pipe × Hist n) : Prop :=
  0 < x.2.asked p → x.1.nread = x.1.nwrite ∧ x.1.writeopen = false

/-- What a local state has seen of the pipe since it took `pi->lock`. -/
def Sees (p : Fin n) (l : Pc) (x : Pipe × Hist n) : Prop :=
  match l with
  | .writeCopy _ _ _ => ¬ x.1.Full
  | .readCopy i _ => i = 0 → x.1.Readable
  | .readWakeup i => i = 0 → AtEnd p x
  | .readRelease v => v = 0 → AtEnd p x
  | _ => True

def Knows (p : Fin n) (l : Pc) (x : Pipe × Hist n) : Prop :=
  Own p l x.2 ∧ (l.locked = true → Queue x ∧ Sees p l x)

/-- Asleep a process only knows its own part, and will have to look again. -/
def Waits (p : Fin n) (l : Pc) (x : Pipe × Hist n) : Prop := Own p l x.2 ∧ ∀ y, Sees p l y

/-- The copy that an action makes succeeds. -/
def Copied (l : Pc) (r : Req) : Prop :=
  match l with
  | .writeCopy _ _ _ => ∃ ch, r = .copied ch
  | .readCopy _ _ => r ≠ .fault
  | _ => True

variable {l : Pc}

theorem Own.congr {h' : Hist n} (ho : Own p l h) (hw : h'.wrote p = h.wrote p)
    (hc : h'.calls p = h.calls p) (ha : h'.asked p = h.asked p) : Own p l h' := by
  refine ⟨by rw [hw]; exact ho.order, by rw [hw, hc]; exact ho.last, fun i hi => ?_, fun m hm => ?_⟩
  · have := ho.ready i hi
    unfold Hist.Ready at *
    rwa [hw, hc]
  · rw [ha]; exact ho.asked m hm

/-- The process goes on, with the same index and the same request or without. -/
theorem Own.move {l' : Pc} (ho : Own p l h)
    (hw : l'.writing = none ∨ l'.writing = l.writing)
    (hr : l'.reading = none ∨ l'.reading = l.reading) : Own p l' h := by
  refine ⟨ho.order, ho.last, fun i hi => ?_, fun m hm => ?_⟩
  · rcases hw with hw | hw
    · rw [hw] at hi; cases hi
    · exact ho.ready i (hw ▸ hi)
  · rcases hr with hr | hr
    · rw [hr] at hm; cases hm
    · exact ho.asked m (hr ▸ hm)

section Act

variable {p q : Fin n} {l : Pc} {f : Req → Pipe → Pipe × Pc} {r : Req} {pi : Pipe} {h : Hist n}

/-- An action of `p` leaves the part of another process alone. -/
theorem own_note (hq : q ≠ p) {l' : Pc} (ho : Own q l' h) : Own q l' (note p l r pi h) := by
  unfold note
  split
  · exact ho.congr rfl (update_of_ne hq _ _) rfl
  · exact ho.congr rfl rfl (update_of_ne hq _ _)
  · refine ho.congr ?_ rfl rfl
    simp [Hist.wrote, List.filter_append, hq.symm]
  · split
    · exact ho.congr rfl rfl rfl
    · exact ho
  · exact ho

theorem own_act (hi : prog p l = .act f) (ho : Own p l h) : Own p (f r pi).2 (note p l r pi h) := by
  cases l <;> cases hi
  case idle =>
    cases r with
    | write m =>
      refine ⟨ho.order, fun e he => ?_, fun i hw => ?_, nofun⟩
      · simpa [note] using Nat.le_succ_of_le (ho.last e he)
      · cases hw
        intro ch
        refine Hist.Ready.start ho.order (fun e he => ?_) ch
        simpa [note] using Nat.lt_succ_of_le (ho.last e he)
    | read m => exact ⟨ho.order, ho.last, nofun, fun m' hm => by cases hm; simp [note]⟩
    | _ => exact ho.move (.inl rfl) (.inl rfl)
  case writeCopy i m dirty =>
    cases r with
    | copied ch =>
      have hw : (note p (.writeCopy i m dirty) (.copied ch) pi h).wrote p =
          h.wrote p ++ [⟨p, h.calls p, i, ch⟩] := by simp [note, Hist.wrote, List.filter_append]
      have hr : h.Ready p i := ho.ready i rfl
      refine ⟨by rw [hw]; exact hr ch, by rw [hw]; simp [note], fun j hj => ?_, nofun⟩
      cases hj
      intro ch'
      rw [hw]
      exact hr.succ ch ch'
    | _ => exact ho.move (.inl rfl) (.inl rfl)
  case readCopy i m =>
    have hn : Own p (.readCopy i m) (note p (.readCopy i m) r pi h) := by
      unfold note
      dsimp only
      split
      · exact ho.congr rfl rfl rfl
      · exact ho
    dsimp only
    split_ifs
    · exact hn.move (.inl rfl) (.inl rfl)
    · cases r <;> first | exact hn.move (.inl rfl) (.inl rfl) | exact hn.move (.inl rfl) (.inr rfl)
    · exact hn.move (.inl rfl) (.inl rfl)
  case writeLoop | writeTest | readLoop =>
    dsimp only
    split_ifs <;>
      first
        | exact ho.move (.inl rfl) (.inl rfl)
        | exact ho.move (.inr rfl) (.inl rfl)
        | exact ho.move (.inl rfl) (.inr rfl)
  case closeTest =>
    dsimp only
    split_ifs <;> exact ho.move (.inl rfl) (.inl rfl)
  all_goals exact ho.move (.inl rfl) (.inl rfl)

/-- With `pi->lock` held an action keeps the queue and what was seen of it. -/
theorem queue_act (hi : prog p l = .act f) (hl : l.locked = true) (hc : Copied l r) (ho : Own p l h)
    (hq : Queue (pi, h)) (hs : Sees p l (pi, h)) :
    Queue ((f r pi).1, note p l r pi h) ∧ Sees p (f r pi).2 ((f r pi).1, note p l r pi h) := by
  cases l <;> cases hi
  case writeLoop =>
    dsimp only
    split_ifs <;> exact ⟨hq, trivial⟩
  case writeTest =>
    dsimp only
    split_ifs with hf
    · exact ⟨hq, trivial⟩
    · exact ⟨hq, hf⟩
  case writeCopy i m dirty =>
    obtain ⟨ch, rfl⟩ := hc
    have hlt : pi.used < pipesize := used_lt hq.bound hs
    obtain ⟨hr, hu⟩ := put_rest hlt ch
    refine ⟨⟨?_, ?_⟩, trivial⟩
    · have := hq.fifo
      simp [note, hr, this]
    · change (pi.put ch).used ≤ pipesize
      omega
  case readLoop m =>
    dsimp only
    split_ifs with he
    · exact ⟨hq, trivial⟩
    · refine ⟨hq, fun _ => ?_⟩
      by_contra hn
      simp only [Readable, not_or, not_not, Bool.not_eq_false] at hn
      exact he hn
  case readCopy i m =>
    by_cases him : (i : ℤ) < m
    · by_cases he : pi.nread = pi.nwrite
      · -- nothing left: with no byte read the write end was seen closed
        simp only [him, he, if_true, note, ne_eq, not_true, and_false, if_false]
        refine ⟨hq, fun h0 _ => ⟨he, ?_⟩⟩
        exact (hs h0).resolve_left fun hne => hne he
      · obtain ⟨hr, hu⟩ := get_rest he
        have hq' : Queue (pi.get.2, { h with deq := h.deq ++ [pi.get.1] }) := by
          refine ⟨?_, ?_⟩
          · have := hq.fifo
            simp only at this
            simp [this, hr]
          · have := hq.bound
            simp only at this
            simp only
            omega
        simp only [him, he, if_true, if_false, note, ne_eq, not_false_eq_true, and_self]
        cases r <;> first | exact absurd rfl hc | exact ⟨hq', fun h0 => absurd h0 i.succ_ne_zero⟩
    · -- the whole request was served
      simp only [him, if_false, note, false_and]
      refine ⟨hq, fun h0 hpos => ?_⟩
      have : h.asked p = m := ho.asked m rfl
      simp only at hpos
      omega
  case closeSet w => cases w <;> exact ⟨⟨hq.fifo, hq.bound⟩, trivial⟩
  case closeTest =>
    dsimp only
    split_ifs <;> exact ⟨hq, trivial⟩
  all_goals cases hl

/-- Without `pi->lock` an action leaves the queue alone. -/
theorem queue_unlocked (hi : prog p l = .act f) (hl : l.locked = false) (hq : Queue (pi, h)) :
    Queue ((f r pi).1, note p l r pi h) := by
  cases l <;> cases hi
  case idle => cases r <;> exact ⟨hq.fifo, hq.bound⟩
  case ret | closeFree => exact ⟨hq.fifo, hq.bound⟩
  all_goals cases hl

/-- And what another process has seen of it. -/
theorem sees_unlocked (hi : prog p l = .act f) (hl : l.locked = false) (hqp : q ≠ p) {l' : Pc}
    (hs : Sees q l' (pi, h)) : Sees q l' ((f r pi).1, note p l r pi h) := by
  have ha : (note p l r pi h).asked q = h.asked q := by
    unfold note
    split
    · rfl
    · exact update_of_ne hqp _ _
    · rfl
    · split <;> rfl
    · rfl
  have hpi : (f r pi).1.nread = pi.nread ∧ (f r pi).1.nwrite = pi.nwrite ∧
      (f r pi).1.writeopen = pi.writeopen := by
    cases l <;> cases hi
    case idle => cases r <;> exact ⟨rfl, rfl, rfl⟩
    case ret | closeFree => exact ⟨rfl, rfl, rfl⟩
    all_goals cases hl
  unfold Sees AtEnd Full Readable at *
  cases l' <;> simp only [ha, hpi] <;> exact hs

end Act

theorem fifo_outline : Outline (noting prog (note (n := n))) held () (fun _ _ _ => True)
    (fun _ l r _ => Copied l r) Queue Knows Waits where
  acquire {p l ℓ l' x} h hk hI := by
    rw [noting, noting_eq_acquire] at h
    cases l <;> cases h
    case writeAcquire => exact ⟨hk.1.move (.inr rfl) (.inl rfl), fun _ => ⟨hI rfl, trivial⟩⟩
    case readAcquire => exact ⟨hk.1.move (.inl rfl) (.inr rfl), fun _ => ⟨hI rfl, trivial⟩⟩
    case closeAcquire => exact ⟨hk.1.move (.inl rfl) (.inl rfl), fun _ => ⟨hI rfl, trivial⟩⟩
  release {p l ℓ l' x} h hk := by
    rw [noting, noting_eq_release] at h
    cases l <;> cases h <;> exact ⟨fun _ => (hk.2 rfl).1, hk.1.move (.inl rfl) (.inl rfl), by rintro ⟨⟩⟩
  act {p l g r x} h _ hc hk := by
    obtain ⟨f, hf, rfl⟩ := noting_eq_act.1 h
    refine ⟨own_act hf hk.1, fun hl => ?_⟩
    rw [locked_act hf] at hl
    exact queue_act hf hl hc hk.1 (hk.2 hl).1 (hk.2 hl).2
  stable {p l g r x} h _ hc hk q hq := by
    obtain ⟨f, hf, rfl⟩ := noting_eq_act.1 h
    refine ⟨fun l' hex hk' => ⟨own_note hq hk'.1, fun hl' => ?_⟩, fun l' hw => ⟨own_note hq hw.1, hw.2⟩⟩
    have hl : l.locked = false := by simpa [held] using hex ⟨rfl, hl'⟩
    exact ⟨queue_unlocked hf hl (hk'.2 hl').1, sees_unlocked hf hl hq (hk'.2 hl').2⟩
  unlocked {p l g r x} h hn _ _ _ hI := by
    obtain ⟨f, hf, rfl⟩ := noting_eq_act.1 h
    exact queue_unlocked hf (by simpa [held] using hn) hI
  sleep {p l c k' l' x} h hk := by
    rw [noting, noting_eq_sleep] at h
    cases l <;> cases h
    case writeSleep =>
      exact ⟨⟨hk.1.move (.inr rfl) (.inl rfl), fun _ => trivial⟩, fun _ => ⟨rfl, (hk.2 rfl).1⟩⟩
    case readSleep =>
      exact ⟨⟨hk.1.move (.inl rfl) (.inr rfl), fun _ => trivial⟩, fun _ => ⟨rfl, (hk.2 rfl).1⟩⟩
  back hw hI := ⟨hw.1, fun hl => ⟨hI ⟨rfl, hl⟩, hw.2 _⟩⟩
  wakeup {p l c l' x} h hk := by
    rw [noting, noting_eq_wakeup] at h
    cases l <;> cases h
    case writeFull => exact ⟨hk.1.move (.inr rfl) (.inl rfl), fun _ => ⟨(hk.2 rfl).1, trivial⟩⟩
    case readWakeup i =>
      refine ⟨hk.1.move (.inl rfl) (.inl rfl), fun _ => ⟨(hk.2 rfl).1, fun h0 => ?_⟩⟩
      exact (hk.2 rfl).2 (by exact_mod_cast h0)
    all_goals exact ⟨hk.1.move (.inl rfl) (.inl rfl), fun _ => ⟨(hk.2 rfl).1, trivial⟩⟩
  killed {p l f x} h hk b := by
    rw [noting, noting_eq_killed] at h
    cases l <;> cases h
    case writeKilled =>
      cases b with
      | true => exact ⟨hk.1.move (.inl rfl) (.inl rfl), fun _ => ⟨(hk.2 rfl).1, trivial⟩⟩
      | false => exact ⟨hk.1.move (.inr rfl) (.inl rfl), fun _ => ⟨(hk.2 rfl).1, trivial⟩⟩
    case readKilled =>
      cases b with
      | true =>
        refine ⟨hk.1.move (.inl rfl) (.inl rfl), fun _ => ⟨(hk.2 rfl).1, fun h0 => ?_⟩⟩
        exact absurd h0 (by decide)
      | false => exact ⟨hk.1.move (.inl rfl) (.inr rfl), fun _ => ⟨(hk.2 rfl).1, trivial⟩⟩
  kill {p l pid f x} h hk b := by
    rw [noting, noting_eq_kill] at h
    cases l <;> cases h
    exact ⟨hk.1.move (.inl rfl) (.inl rfl), by rintro ⟨⟩⟩

/-! ## Whole runs -/

theorem copied_of_copies {s : State n Unit Chan Pipe Pc} {r : Req}
    (hc : Copies s (p, r) = true) (hl : (s.procs p).ctl = .run l) : Copied l r := by
  unfold Copies at hc
  rw [hl] at hc
  cases l with
  | writeCopy i m d => cases r <;> first | exact ⟨_, rfl⟩ | cases hc
  | readCopy i m => rintro rfl; cases hc
  | _ => trivial

theorem queue_new : Queue (new, (.empty : Hist n)) :=
  ⟨by rw [rest_eq_nil.2 rfl]; rfl, show Pipe.used new ≤ pipesize by decide⟩

theorem knows_idle (q : Fin n) : Knows q .idle (new, .empty) :=
  ⟨⟨⟨.nil, by simp [Hist.wrote, Hist.empty]⟩, by simp [Hist.wrote, Hist.empty], nofun, nofun⟩, nofun⟩

/-- **A pipe is a bounded queue.** In every state of every run whose copies succeed, the bytes
stored so far are the bytes taken out so far followed by the bytes in the ring, of which there
are at most `PIPESIZE`; the bytes of each writer stand in its program order; and a `piperead`
about to return 0 for a positive count has seen every byte taken out and the write end closed. -/
theorem bounded_fifo {s : State n Unit Chan Pipe Pc} {h : Hist n}
    (hr : Reach (stepNoted prog note) (fun x a => Copies x.1 a = true) (initial, .empty) (s, h)) :
    h.enq.map Put.ch = h.deq ++ s.sh.rest ∧
      (s.sh.nwrite - s.sh.nread).toNat ≤ pipesize ∧
      (∀ p, Ordered (h.wrote p)) ∧
      ∀ p, (s.procs p).ctl = .run (.readRelease 0) → 0 < h.asked p →
        h.enq.map Put.ch = h.deq ∧ s.sh.writeopen = false := by
  obtain ⟨hl, ho⟩ := fifo_outline.reach disciplined.noting (fun _ _ _ _ _ => trivial)
    (fun t q r l f hg hc _ => copied_of_copies hg hc) (LockInv.start fun m => by simp [held, Pc.locked])
    (OutlineInv.start queue_new knows_idle) (reach_noting hr)
  have hq : Queue (s.sh, h) := ho.always (fun q l x hh hk => (hk.2 hh.2).1) hl
  refine ⟨hq.fifo, hq.bound, fun p => ?_, fun p hp hpos => ?_⟩
  · exact (ho.asserts p).elim (fun _ hk => hk.1.order) fun _ hw => hw.1.order
  · have hk : Knows p (.readRelease 0) (s.sh, h) := by
      have := ho.asserts p
      simpa only [State.keeping, hp, Ctl.Asserts] using this
    obtain ⟨he, hw⟩ := (hk.2 rfl).2 rfl hpos
    refine ⟨?_, hw⟩
    rw [hq.fifo, rest_eq_nil.2 he, List.append_nil]

/-- One process writes two bytes and reads one back: the other is in the ring. -/
theorem bounded_fifo_two : ∃ (s : State 1 Unit Chan Pipe Pc) (h : Hist 1),
    h.enq.map Put.ch = [7, 9] ∧ h.deq = [7] ∧ s.sh.rest = [9] := by
  obtain ⟨⟨s, h⟩, hr, henq, hdeq⟩ : ∃ x : State 1 Unit Chan Pipe Pc × Hist 1,
      Reach (stepNoted prog note) (fun x a => Copies x.1 a = true) (initial, .empty) x ∧
      x.2.enq.map Put.ch = [7, 9] ∧ x.2.deq = [7] :=
    exists_reach ((0, .write 2) :: List.replicate 8 (0, .copied 7) ++ List.replicate 20 (0, .copied 9) ++
      (0, .read 1) :: List.replicate 12 (0, .copied 9)) (by decide +kernel)
  have hf := (bounded_fifo hr).1
  rw [henq, hdeq] at hf
  exact ⟨s, h, henq, hdeq, by simpa using hf.symm⟩

end Xv6.Pipe
