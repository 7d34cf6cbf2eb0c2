import Xv6.Lib.Ring
import Xv6.Thread.History

/-!
# `kernel/virtio_disk.c`

`virtio_disk_rw` and `virtio_disk_intr` as programs of the thread machine, and the device beside
them. Everything the driver does happens with `vdisk_lock` held; it is cut into steps where the
device may look (the entry of the `avail` ring, `avail->idx`, `used->idx`, the status byte) and
where it calls `wakeup` or `sleep`. The device takes no lock: an idle process may make a step of
the device at any time (`Req.consume`, `Req.finish`, `Req.append`, `Req.advance`).

* The device takes the entries of the `avail` ring in order. It finishes those it has taken in
  any order: it follows the chain of descriptors, moves the data and writes the status byte; then
  it stores the head of the chain in the `used` ring, and then increments `used->idx`.
* `bread` and `bwrite` call `virtio_disk_rw` with the sleep-lock of the buffer held
  (`Pc.bufLock`, `Pc.bufUnlock`); testing and setting `b->lock.locked` is one step, being done
  under the spin-lock of the sleep-lock.
* `avail->idx`, `used->idx` and `disk.used_idx` are 16 bits wide and wrap.
* What is transferred is not modelled, only which transfer the device was told to make.
-/

namespace Xv6.Virtio

open Function Thread Lib

/-- `NUM`. -/
def num : ℕ := 8

/-- The addresses that the driver passes to the device: an element of `disk.ops`, the data of a
buffer, a status byte in `disk.info`. -/
inductive Addr (β : Type)
  | null
  | op (i : ℕ)
  | data (b : β)
  | status (i : ℕ)

/-- `struct virtq_desc`. -/
structure Desc (β : Type) where
  addr : Addr β
  len : ℕ
  flags : BitVec 16
  next : ℕ

/-- `VRING_DESC_F_NEXT`. -/
def fNext : BitVec 16 := 1

/-- `VRING_DESC_F_WRITE`: the device writes. -/
def fWrite : BitVec 16 := 2

/-- `struct virtio_blk_req`. -/
structure BlkReq where
  type : BitVec 32
  reserved : BitVec 32
  sector : BitVec 64

/-- An element of `disk.info`. -/
structure Info (β : Type) where
  b : Option β
  status : UInt8

/-- `struct virtq_avail` and the part of `struct virtq_used` that the driver reads. -/
structure Vring where
  idx : BitVec 16
  ring : ℕ → ℕ

/-- The device: how far it has come in the `avail` ring, the requests it has taken, those whose
status it has written, and the one that it has stored in the `used` ring and not yet counted. -/
structure Device where
  last : BitVec 16
  taken : List ℕ
  finished : List ℕ
  writing : Option ℕ

/-- `struct disk`, the memory it shares with the device, and `b->disk` and `b->lock.locked` of the
buffers. -/
structure Disk (β : Type) where
  desc : ℕ → Desc β
  avail : Vring
  used : Vring
  free : ℕ → Bool
  usedIdx : BitVec 16
  info : ℕ → Info β
  ops : ℕ → BlkReq
  disk : β → Bool
  locked : β → Bool
  dev : Device

/-- The arguments of `virtio_disk_rw`; `sector` is its local variable. -/
structure Call (β : Type) where
  b : β
  write : Bool
  sector : BitVec 64

/-- `b->blockno * (BSIZE / 512)`: a product of 32 bits. -/
def sector (blockno : BitVec 32) : BitVec 64 := (blockno * 2).setWidth 64

variable {β : Type}

/-- `buf0->type`: `VIRTIO_BLK_T_OUT` or `VIRTIO_BLK_T_IN`. -/
def Call.type (c : Call β) : BitVec 32 := if c.write then 1 else 0

/-- The flags of the descriptor of the data. -/
def Call.flags (c : Call β) : BitVec 16 := (if c.write then 0 else fWrite) ||| fNext

namespace Disk

variable (t : Disk β)

/-- After `virtio_disk_init`. -/
def init : Disk β where
  desc _ := ⟨.null, 0, 0, 0⟩
  avail := ⟨0, fun _ => 0⟩
  used := ⟨0, fun _ => 0⟩
  free _ := true
  usedIdx := 0
  info _ := ⟨none, 0⟩
  ops _ := ⟨0, 0, 0⟩
  disk _ := false
  locked _ := false
  dev := ⟨0, [], [], none⟩

/-! ## The driver -/

/-- The descriptor that `alloc_desc` finds. -/
def allocDesc : Option ℕ := (List.range num).find? t.free

/-- `disk.free[i] = 0`. -/
def take (i : ℕ) : Disk β := { t with free := update t.free i false }

/-- `free_desc`. -/
def freeDesc (i : ℕ) : Except String (Disk β) :=
  if num ≤ i then .error "free_desc 1"
  else if t.free i = true then .error "free_desc 2"
  else .ok { t with desc := update t.desc i ⟨.null, 0, 0, 0⟩, free := update t.free i true }

/-- `virtio_disk_rw` formats the three descriptors and records the buffer. -/
def format [DecidableEq β] (c : Call β) (i₀ i₁ i₂ : ℕ) : Disk β :=
  { t with
    ops := update t.ops i₀ ⟨c.type, 0, c.sector⟩
    desc := update (update (update t.desc i₀ ⟨.op i₀, 16, fNext, i₁⟩)
      i₁ ⟨.data c.b, 1024, c.flags, i₂⟩) i₂ ⟨.status i₀, 1, fWrite, 0⟩
    info := update t.info i₀ ⟨some c.b, 0xff⟩
    disk := update t.disk c.b true }

/-- `disk.avail->ring[disk.avail->idx % NUM] = idx[0]`. -/
def setRing (i₀ : ℕ) : Disk β :=
  { t with avail := { t.avail with ring := update t.avail.ring (t.avail.idx.toNat % num) i₀ } }

/-- `disk.avail->idx += 1`. -/
def publish : Disk β := { t with avail := { t.avail with idx := t.avail.idx + 1 } }

/-- `disk.info[idx[0]].b = 0`. -/
def clear (i₀ : ℕ) : Disk β := { t with info := update t.info i₀ { t.info i₀ with b := none } }

/-- The entry of the `used` ring that `virtio_disk_intr` looks at. -/
def usedId : ℕ := t.used.ring (t.usedIdx.toNat % num)

/-- `b->disk = 0`. -/
def setDone [DecidableEq β] (b : β) : Disk β := { t with disk := update t.disk b false }

/-- `disk.used_idx += 1`. -/
def usedNext : Disk β := { t with usedIdx := t.usedIdx + 1 }

/-- `acquiresleep` and `releasesleep` on the buffer. -/
def setLocked [DecidableEq β] (b : β) (x : Bool) : Disk β := { t with locked := update t.locked b x }

/-! ## The device -/

/-- Take the next entry of the `avail` ring. -/
def consume : Disk β :=
  if t.dev.last = t.avail.idx then t
  else { t with dev := { t.dev with
    last := t.dev.last + 1
    taken := t.dev.taken ++ [t.avail.ring (t.dev.last.toNat % num)] } }

/-- Write the status byte that the last descriptor of the chain points to. -/
def setStatus (a : Addr β) : Disk β :=
  match a with
  | .status i => { t with info := update t.info i { t.info i with status := 0 } }
  | _ => t

/-- Carry out the request whose chain starts at `i`. -/
def finish (i : ℕ) : Disk β :=
  if i ∈ t.dev.taken then
    let t' := t.setStatus (t.desc (t.desc (t.desc i).next).next).addr
    { t' with dev := { t'.dev with taken := t'.dev.taken.erase i, finished := i :: t'.dev.finished } }
  else t

/-- Store the head of a finished chain in the `used` ring. -/
def append (i : ℕ) : Disk β :=
  if i ∈ t.dev.finished ∧ t.dev.writing = none then
    { t with
      used := { t.used with ring := update t.used.ring (t.used.idx.toNat % num) i }
      dev := { t.dev with finished := t.dev.finished.erase i, writing := some i } }
  else t

/-- Increment `used->idx`. -/
def advance : Disk β :=
  if t.dev.writing = none then t
  else { t with used := { t.used with idx := t.used.idx + 1 }, dev := { t.dev with writing := none } }

end Disk

/-- What the device was told to do: the request header, the address of the data and its flags. -/
structure Request (β : Type) where
  type : BitVec 32
  sector : BitVec 64
  data : Addr β
  flags : BitVec 16

/-- What the device reads from the chain that starts at `i`. -/
def Disk.request (t : Disk β) (i : ℕ) : Option (Request β) :=
  match (t.desc i).addr with
  | .op j => some ⟨(t.ops j).type, (t.ops j).sector, (t.desc (t.desc i).next).addr, (t.desc (t.desc i).next).flags⟩
  | _ => none

/-- What `virtio_disk_rw` wants the device to do. -/
def Call.request (c : Call β) : Request β := ⟨c.type, c.sector, .data c.b, c.flags⟩

/-! ## The program -/

/-- What is asked of a process, and the steps of the device. -/
inductive Req (β : Type)
  | rw (b : β) (write : Bool) (blockno : BitVec 32)
  | intr
  | kill (pid : ℕ)
  | consume
  | finish (i : ℕ)
  | append (i : ℕ)
  | advance

/-- The two kinds of addresses that processes sleep on: `&disk.free[0]` and a buffer. -/
inductive Chan (β : Type)
  | free
  | buf (b : β)
  deriving DecidableEq

/-- The local states of a process. -/
inductive Pc (β : Type)
  | idle
  | killing (pid : ℕ)
  | bufLock (c : Call β)
  | bufUnlock (c : Call β)
  | rwAcquire (c : Call β)
  | rwAlloc (c : Call β) (got : List ℕ)
  | rwUndo (c : Call β) (got : List ℕ)
  | rwUndoWake (c : Call β) (got : List ℕ)
  | rwWait (c : Call β)
  | rwFormat (c : Call β) (i₀ i₁ i₂ : ℕ)
  | rwRing (c : Call β) (i₀ i₁ i₂ : ℕ)
  | rwPublish (c : Call β) (i₀ i₁ i₂ : ℕ)
  | rwCheck (c : Call β) (i₀ : ℕ)
  | rwSleep (c : Call β) (i₀ : ℕ)
  | rwClear (c : Call β) (i₀ : ℕ)
  | rwFree (c : Call β) (i : ℕ)
  | rwFreeWake (c : Call β) (nxt : Option ℕ)
  | rwRelease (c : Call β)
  | intrAcquire
  | intrLoop
  | intrRead
  | intrWake (b : β)
  | intrNext
  | intrRelease
  | fault (msg : String)

variable [DecidableEq β] {n : ℕ}

/-- The program of every process. -/
def prog (_ : Fin n) : Pc β → Instr n Unit (Chan β) (Disk β) (Req β) (Pc β)
  | .idle => .act fun r t =>
    match r with
    | .rw b write blockno => (t, .bufLock ⟨b, write, sector blockno⟩)
    | .intr => (t, .intrAcquire)
    | .kill pid => (t, .killing pid)
    | .consume => (t.consume, .idle)
    | .finish i => (t.finish i, .idle)
    | .append i => (t.append i, .idle)
    | .advance => (t.advance, .idle)
  | .killing pid => .kill pid fun _ => .idle
  -- bread and bwrite
  | .bufLock c => .act fun _ t =>
    if t.locked c.b = true then (t, .bufLock c) else (t.setLocked c.b true, .rwAcquire c)
  | .bufUnlock c => .act fun _ t => (t.setLocked c.b false, .idle)
  -- virtio_disk_rw
  | .rwAcquire c => .acquire (.mon ()) (.rwAlloc c [])
  -- alloc3_desc
  | .rwAlloc c got => .act fun _ t =>
    match t.allocDesc with
    | some i =>
      match got with
      | [i₀, i₁] => (t.take i, .rwFormat c i₀ i₁ i)
      | _ => (t.take i, .rwAlloc c (got ++ [i]))
    | none => (t, .rwUndo c got)
  | .rwUndo c got => .act fun _ t =>
    match got with
    | [] => (t, .rwWait c)
    | i :: rest =>
      match t.freeDesc i with
      | .ok t' => (t', .rwUndoWake c rest)
      | .error msg => (t, .fault msg)
  | .rwUndoWake c got => .wakeup .free (.rwUndo c got)
  | .rwWait c => .sleep .free () (.rwAlloc c [])
  | .rwFormat c i₀ i₁ i₂ => .act fun _ t => (t.format c i₀ i₁ i₂, .rwRing c i₀ i₁ i₂)
  | .rwRing c i₀ i₁ i₂ => .act fun _ t => (t.setRing i₀, .rwPublish c i₀ i₁ i₂)
  | .rwPublish c i₀ _ _ => .act fun _ t => (t.publish, .rwCheck c i₀)
  | .rwCheck c i₀ => .act fun _ t =>
    if t.disk c.b = true then (t, .rwSleep c i₀) else (t, .rwClear c i₀)
  | .rwSleep c i₀ => .sleep (.buf c.b) () (.rwCheck c i₀)
  | .rwClear c i₀ => .act fun _ t => (t.clear i₀, .rwFree c i₀)
  -- free_chain
  | .rwFree c i => .act fun _ t =>
    match t.freeDesc i with
    | .ok t' =>
      (t', .rwFreeWake c (if (t.desc i).flags &&& fNext ≠ 0 then some (t.desc i).next else none))
    | .error msg => (t, .fault msg)
  | .rwFreeWake c nxt => .wakeup .free
    (match nxt with
      | some i => .rwFree c i
      | none => .rwRelease c)
  | .rwRelease c => .release (.mon ()) (.bufUnlock c)
  -- virtio_disk_intr
  | .intrAcquire => .acquire (.mon ()) .intrLoop
  | .intrLoop => .act fun _ t => if t.usedIdx ≠ t.used.idx then (t, .intrRead) else (t, .intrRelease)
  | .intrRead => .act fun _ t =>
    if (t.info t.usedId).status ≠ 0 then (t, .fault "virtio_disk_intr status")
    else
      match (t.info t.usedId).b with
      | some b => (t.setDone b, .intrWake b)
      | none => (t, .fault "kerneltrap")
  | .intrWake b => .wakeup (.buf b) .intrNext
  | .intrNext => .act fun _ t => (t.usedNext, .intrLoop)
  | .intrRelease => .release (.mon ()) .idle
  | .fault msg => .panic msg

/-- All processes idle, the driver initialised. -/
def initial : State n Unit (Chan β) (Disk β) (Pc β) := start .idle .init

omit [DecidableEq β] in
/-- The local states at which `vdisk_lock` is held. -/
def Pc.locked : Pc β → Bool
  | .idle | .killing _ | .bufLock _ | .bufUnlock _ | .rwAcquire _ | .intrAcquire => false
  | _ => true

omit [DecidableEq β] in
def held (l : Pc β) (m : Lock n Unit) : Prop := m = .mon () ∧ l.locked = true

section Act

variable {p : Fin n} {l : Pc β} {f : Req β → Disk β → Disk β × Pc β}

theorem locked_act (h : prog p l = .act f) (r : Req β) (t : Disk β) : (f r t).2.locked = l.locked := by
  cases l <;> cases h
  case idle => cases r <;> rfl
  case bufLock | rwCheck | intrLoop =>
    dsimp only
    split <;> rfl
  case rwAlloc =>
    dsimp only
    split
    · split <;> rfl
    · rfl
  case rwUndo | intrRead =>
    dsimp only
    split
    · rfl
    · split <;> rfl
  case rwFree =>
    dsimp only
    split <;> rfl
  all_goals rfl

end Act

theorem disciplined : Disciplined (prog (β := β) (n := n)) held :=
  .of_toggles fun p l => by
    cases hi : prog p l with
    | act f => exact locked_act hi
    | wakeup c l' =>
      cases l <;> cases hi
      case wakeup.rwFreeWake.refl c nxt => cases nxt <;> rfl
      all_goals rfl
    | _ => cases l <;> cases hi <;> simp [Instr.Toggles, Pc.locked]

end Xv6.Virtio
