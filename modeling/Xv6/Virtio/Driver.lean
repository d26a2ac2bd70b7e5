import Xv6.Base
import Xv6.Lib.Schedule

/-!
# The disk driver

`virtio_disk.c` after its initialisation, the memory that it shares with the device, and the device.
Processes, interrupt handlers and the work of the device are programs that run interleaved.

The device takes each entry of the available ring once, transfers the data of its chain, sets the status
byte to zero, and adds the head of the chain to the used ring.  Several entries may be in work at a time
and finish in any order.
-/

namespace Xv6.Virtio

open Function

abbrev NUM : ℕ := 8

abbrev VRING_DESC_F_NEXT : BitVec 16 := 1
abbrev VRING_DESC_F_WRITE : BitVec 16 := 2
abbrev VIRTIO_BLK_T_IN : BitVec 32 := 0
abbrev VIRTIO_BLK_T_OUT : BitVec 32 := 1

/-! ## Memory -/

/-- What the address in a descriptor points to. -/
inductive Addr where
  | null
  | op (i : ℕ)
  | data (b : ℕ)
  | status (i : ℕ)
  deriving DecidableEq

/-- `struct virtq_desc`. -/
structure VirtqDesc where
  addr : Addr
  len : ℕ
  flags : BitVec 16
  next : BitVec 16

/-- `struct virtio_blk_req`. -/
structure BlkReq where
  type : BitVec 32
  reserved : BitVec 32
  sector : BitVec 64

/-- `struct virtq_avail`. -/
structure VirtqAvail where
  idx : BitVec 16
  ring : ℕ → BitVec 16

/-- `struct virtq_used`. -/
structure VirtqUsed where
  idx : BitVec 16
  ring : ℕ → BitVec 32

/-- The driver's record of a request. -/
structure Info where
  b : Option ℕ
  status : Byte

/-- The fields of `struct buf` that matter here, with the owner of the sleep-lock. -/
structure Buf where
  blockno : BitVec 32
  data : Block
  disk : Bool
  lock : Option ℕ

/-- How far a request has come. -/
inductive Stage where
  | published
  | taken
  | moved
  | marked
  | used
  | processed
  deriving DecidableEq

/-- A request that has been published. -/
structure Request where
  head : ℕ
  buf : ℕ
  write : Bool
  stage : Stage
  /-- The call of `virtio_disk_rw` has stopped waiting. -/
  returned : Bool

/-- The channels of the driver. -/
inductive Chan where
  | free
  | buf (b : ℕ)
  deriving DecidableEq

/-- The rings, the driver's tables, the buffers and the device. -/
structure Disk where
  desc : ℕ → VirtqDesc
  avail : VirtqAvail
  used : VirtqUsed
  free : ℕ → Bool
  usedIdx : BitVec 16
  info : ℕ → Info
  ops : ℕ → BlkReq
  vdiskLock : Option ℕ
  buf : ℕ → Buf
  asleep : ℕ → Option Chan
  /-- The blocks of the disk, by their first sectors. -/
  platter : BitVec 64 → Block
  /-- The requests in the order of their publication. -/
  request : ℕ → Request
  published : ℕ
  /-- The requests in the order of their completion. -/
  completion : ℕ → ℕ
  completed : ℕ
  seen : ℕ

/-- The three descriptors of a request. -/
structure Chain where
  head : ℕ
  data : ℕ
  status : ℕ
  deriving DecidableEq

def Chain.list (c : Chain) : List ℕ := [c.head, c.data, c.status]

def hasNext (flags : BitVec 16) : Bool := flags &&& VRING_DESC_F_NEXT ≠ 0

def hasWrite (flags : BitVec 16) : Bool := flags &&& VRING_DESC_F_WRITE ≠ 0

/-- A request, as the device reads it. -/
structure Job where
  write : Bool
  sector : BitVec 64
  buf : ℕ
  status : ℕ

namespace Disk

variable (s : Disk)

def chain (head : ℕ) : Chain :=
  let data := (s.desc head).next.toNat
  ⟨head, data, (s.desc data).next.toNat⟩

def decode (head : ℕ) : Option Job :=
  let c := s.chain head
  let first := s.desc c.head
  let second := s.desc c.data
  let third := s.desc c.status
  match first.addr, second.addr, third.addr with
  | .op i, .data b, .status j =>
      if hasNext first.flags && hasNext second.flags && !hasNext third.flags &&
          !hasWrite first.flags && hasWrite third.flags && second.len == BSIZE then
        if (s.ops i).type == VIRTIO_BLK_T_OUT && !hasWrite second.flags then
          some ⟨true, (s.ops i).sector, b, j⟩
        else if (s.ops i).type == VIRTIO_BLK_T_IN && hasWrite second.flags then
          some ⟨false, (s.ops i).sector, b, j⟩
        else none
      else none
  | _, _, _ => none

def setDesc (i : ℕ) (d : VirtqDesc) : Disk := { s with desc := update s.desc i d }

def setInfo (i : ℕ) (x : Info) : Disk := { s with info := update s.info i x }

def setBuf (b : ℕ) (x : Buf) : Disk := { s with buf := update s.buf b x }

def setRequest (n : ℕ) (r : Request) : Disk :=
  { s with request := update s.request n r }

def setStage (n : ℕ) (stage : Stage) : Disk :=
  s.setRequest n { s.request n with stage := stage }

/-- The sector of the block in a buffer, computed in 32 bits. -/
def sector (b : ℕ) : BitVec 64 :=
  ((s.buf b).blockno * BitVec.ofNat 32 (BSIZE / 512)).setWidth 64

def format (c : Chain) (b : ℕ) (write : Bool) : Disk :=
  let req : BlkReq := ⟨if write then VIRTIO_BLK_T_OUT else VIRTIO_BLK_T_IN, 0, s.sector b⟩
  let s := { s with ops := update s.ops c.head req }
  let s := s.setDesc c.head ⟨.op c.head, 16, VRING_DESC_F_NEXT, BitVec.ofNat 16 c.data⟩
  let s := s.setDesc c.data ⟨.data b, BSIZE,
    (if write then 0 else VRING_DESC_F_WRITE) ||| VRING_DESC_F_NEXT, BitVec.ofNat 16 c.status⟩
  let s := s.setInfo c.head { s.info c.head with status := 0xff }
  let s := s.setDesc c.status ⟨.status c.head, 1, VRING_DESC_F_WRITE, 0⟩
  let s := s.setBuf b { s.buf b with disk := true }
  s.setInfo c.head { s.info c.head with b := some b }

def availSlot (head : ℕ) : Disk :=
  let slot := s.avail.idx.toNat % NUM
  { s with avail := ⟨s.avail.idx, update s.avail.ring slot (BitVec.ofNat 16 head)⟩ }

def availPublish (head b : ℕ) (write : Bool) : Disk :=
  { s.setRequest s.published ⟨head, b, write, .published, false⟩ with
    avail := ⟨s.avail.idx + 1, s.avail.ring⟩
    published := s.published + 1 }

def transfer (job : Job) : Disk :=
  if job.write then
    { s with platter := update s.platter job.sector (s.buf job.buf).data }
  else s.setBuf job.buf { s.buf job.buf with data := s.platter job.sector }

def complete (n head : ℕ) : Disk :=
  { s.setStage n .used with
    used :=
      ⟨s.used.idx + 1, update s.used.ring (s.used.idx.toNat % NUM) (BitVec.ofNat 32 head)⟩
    completion := update s.completion s.completed n
    completed := s.completed + 1 }

def diskDone (b : ℕ) : Disk :=
  let s := s.setBuf b { s.buf b with disk := false }
  { s.setStage (s.completion s.seen) .processed with seen := s.seen + 1 }

/-- The request is in flight: its call still waits. -/
def InFlight (n : ℕ) : Prop := n < s.published ∧ (s.request n).returned = false

/-- The device has not taken the request from the avail ring. -/
def Untaken (n : ℕ) : Prop := n < s.published ∧ (s.request n).stage = .published

instance (n : ℕ) : Decidable (s.Untaken n) := inferInstanceAs (Decidable (_ ∧ _))

end Disk

/-! ## Operations -/

/-- The atomic steps of the driver and the device. -/
inductive Op where
  | acquiresleep (b : ℕ)
  | releasesleep (b : ℕ)
  /-- The cache reuses a buffer that nobody has locked. -/
  | recycle (b : ℕ) (blockno : BitVec 32)
  | setData (b : ℕ) (data : Block)
  | acquire
  | release
  | sleep (c : Chan)
  | resume
  | wakeup (c : Chan)
  /-- The wakeup of one process in `kill`. -/
  | wakeProc (q : ℕ)
  | allocDesc
  | freeDesc (i : ℕ)
  | readDesc (i : ℕ)
  | format (c : Chain) (b : ℕ) (write : Bool)
  /-- `disk.avail->ring[disk.avail->idx % NUM] = idx[0]` -/
  | availSlot (head : ℕ)
  /-- `disk.avail->idx += 1` -/
  | availPublish (head b : ℕ) (write : Bool)
  | disk (b : ℕ)
  /-- `disk.info[idx[0]].b = 0` -/
  | clearInfo (head n : ℕ)
  | usedPending
  | usedId
  | checkStatus (id : ℕ)
  /-- `disk.info[id].b->disk = 0` -/
  | diskDone (id : ℕ)
  | usedAdvance
  /-- The device takes entry `n` of the avail ring. -/
  | take (n : ℕ)
  | transfer (n head : ℕ)
  | setStatus (n head : ℕ)
  | complete (n head : ℕ)
  /-- The end of what the model follows of a loop. -/
  | more

abbrev Op.Res : Op → Type
  | .allocDesc => Option ℕ
  | .readDesc _ => VirtqDesc
  | .availPublish .. => ℕ
  | .disk _ | .usedPending => Bool
  | .usedId | .diskDone _ | .take _ => ℕ
  | .more => Empty
  | _ => Unit

abbrev VSig : Sig := ⟨Op, Op.Res⟩

abbrev VProg := Prog VSig

/-- What the operations do.  With `fifo` the device takes the entries of the avail ring in the order
of the ring. -/
def exec (fifo : Bool) (p : ℕ) : Handler VSig Disk Panic
  | .acquiresleep b, s =>
      if (s.buf b).lock = none then .ok ((), s.setBuf b { s.buf b with lock := some p })
      else .error .blocked
  | .releasesleep b, s => .ok ((), s.setBuf b { s.buf b with lock := none })
  | .recycle b blockno, s =>
      if (s.buf b).lock = none then .ok ((), s.setBuf b { s.buf b with blockno := blockno })
      else .error .blocked
  | .setData b data, s => .ok ((), s.setBuf b { s.buf b with data := data })
  | .acquire, s =>
      if s.vdiskLock = none then .ok ((), { s with vdiskLock := some p }) else .error .blocked
  | .release, s => .ok ((), { s with vdiskLock := none })
  | .sleep c, s =>
      .ok ((), { s with vdiskLock := none, asleep := update s.asleep p (some c) })
  | .resume, s => if s.asleep p = none then .ok ((), s) else .error .blocked
  | .wakeup c, s =>
      .ok ((), { s with asleep := fun q => if s.asleep q = some c then none else s.asleep q })
  | .wakeProc q, s => .ok ((), { s with asleep := update s.asleep q none })
  | .allocDesc, s =>
      match (List.range NUM).find? s.free with
      | some i => .ok (some i, { s with free := update s.free i false })
      | none => .ok (none, s)
  | .freeDesc i, s =>
      if NUM ≤ i then .error (.panic .freeDesc1)
      else if s.free i then .error (.panic .freeDesc2)
      else .ok ((), { s.setDesc i ⟨.null, 0, 0, 0⟩ with free := update s.free i true })
  | .readDesc i, s => .ok (s.desc i, s)
  | .format c b write, s => .ok ((), s.format c b write)
  | .availSlot head, s => .ok ((), s.availSlot head)
  | .availPublish head b write, s => .ok (s.published, s.availPublish head b write)
  | .disk b, s => .ok ((s.buf b).disk, s)
  | .clearInfo head n, s =>
      .ok ((), (s.setInfo head { s.info head with b := none }).setRequest n
        { s.request n with returned := true })
  | .usedPending, s => .ok (decide (s.usedIdx ≠ s.used.idx), s)
  | .usedId, s => .ok ((s.used.ring (s.usedIdx.toNat % NUM)).toNat, s)
  | .checkStatus id, s =>
      if (s.info id).status ≠ 0 then .error (.panic .virtioDiskIntrStatus) else .ok ((), s)
  | .diskDone id, s =>
      match (s.info id).b with
      | none => .error (.panic .kerneltrap)
      | some b => .ok (b, s.diskDone b)
  | .usedAdvance, s => .ok ((), { s with usedIdx := s.usedIdx + 1 })
  | .take n, s =>
      if s.Untaken n ∧ (fifo = true → ∀ m < n, ¬ s.Untaken m) then
        .ok ((s.avail.ring (n % NUM)).toNat, s.setStage n .taken)
      else .error .blocked
  | .transfer n head, s =>
      match s.decode head with
      | none => .error (.panic .virtioChain)
      | some job => .ok ((), (s.transfer job).setStage n .moved)
  | .setStatus n head, s =>
      match s.decode head with
      | none => .error (.panic .virtioChain)
      | some job =>
          .ok ((), (s.setInfo job.status { s.info job.status with status := 0 }).setStage n .marked)
  | .complete n head, s => .ok ((), s.complete n head)
  | .more, _ => .error .blocked

/-! ## The functions -/

def atomic (o : Op) : VProg o.Res := Prog.perform (S := VSig) o

def more {α : Type} : VProg α := .op .more Empty.elim

def sleep (c : Chan) : VProg Unit := do
  atomic (.sleep c)
  atomic .resume
  atomic .acquire

def freeDesc (i : ℕ) : VProg Unit := do
  atomic (.freeDesc i)
  atomic (.wakeup .free)

def freeChain : (k i : ℕ) → VProg Unit
  | 0, _ => more
  | k + 1, i => do
      let d ← atomic (.readDesc i)
      freeDesc i
      if hasNext d.flags then freeChain k d.next.toNat else pure ()

def freeDescs : List ℕ → VProg Unit
  | [] => pure ()
  | d :: ds => do
      freeDesc d
      freeDescs ds

/-- Allocate `k` more descriptors; `idx` are those allocated before. -/
def allocDescs : (k : ℕ) → (idx : List ℕ) → VProg (Option (List ℕ))
  | 0, idx => pure (some idx)
  | k + 1, idx => do
      match ← atomic .allocDesc with
      | some i => allocDescs k (idx ++ [i])
      | none => do
          freeDescs idx
          pure none

def alloc3Desc : VProg (Option Chain) := do
  match ← allocDescs 3 [] with
  | some [head, data, status] => pure (some ⟨head, data, status⟩)
  | _ => pure none

/-- The loop that allocates the three descriptors, followed for `k` rounds. -/
def allocLoop : (k : ℕ) → VProg Chain
  | 0 => more
  | k + 1 => do
      match ← alloc3Desc with
      | some c => pure c
      | none => do
          sleep .free
          allocLoop k

def waitLoop (b : ℕ) : (k : ℕ) → VProg Unit
  | 0 => more
  | k + 1 => do
      if ← atomic (.disk b) then do
        sleep (.buf b)
        waitLoop b k
      else pure ()

def virtioDiskRw (k b : ℕ) (write : Bool) : VProg Unit := do
  atomic .acquire
  let c ← allocLoop k
  atomic (.format c b write)
  atomic (.availSlot c.head)
  let n ← atomic (.availPublish c.head b write)
  waitLoop b k
  atomic (.clearInfo c.head n)
  freeChain (NUM + 1) c.head
  atomic .release

def intrLoop : (k : ℕ) → VProg Unit
  | 0 => more
  | k + 1 => do
      if ← atomic .usedPending then do
        let id ← atomic .usedId
        atomic (.checkStatus id)
        let b ← atomic (.diskDone id)
        atomic (.wakeup (.buf b))
        atomic .usedAdvance
        intrLoop k
      else pure ()

def virtioDiskIntr (k : ℕ) : VProg Unit := do
  atomic .acquire
  intrLoop k
  atomic .release

/-- What the owner of a locked buffer does with it. -/
inductive Use where
  | modify (data : Block)
  | rw (write : Bool)

def useBuf (k b : ℕ) : List Use → VProg Unit
  | [] => pure ()
  | .modify data :: rest => do
      atomic (.setData b data)
      useBuf k b rest
  | .rw write :: rest => do
      virtioDiskRw k b write
      useBuf k b rest

/-- The use of a buffer between `acquiresleep` in `bget` and `releasesleep` in `brelse`. -/
def session (k b : ℕ) (uses : List Use) : VProg Unit := do
  atomic (.acquiresleep b)
  useBuf k b uses
  atomic (.releasesleep b)

/-- The work of the device for entry `n` of the avail ring. -/
def serve (n : ℕ) : VProg Unit := do
  let head ← atomic (.take n)
  atomic (.transfer n head)
  atomic (.setStatus n head)
  atomic (.complete n head)

/-! ## Runs -/

/-- The programs that can be started. -/
inductive Act where
  | session (k b : ℕ) (uses : List Use)
  | recycle (b : ℕ) (blockno : BitVec 32)
  | intr (k : ℕ)
  | wakeProc (q : ℕ)
  | serve (n : ℕ)

def Act.prog : Act → VProg Unit
  | .session k b uses => Virtio.session k b uses
  | .recycle b blockno => atomic (.recycle b blockno)
  | .intr k => virtioDiskIntr k
  | .wakeProc q => atomic (.wakeProc q)
  | .serve n => Virtio.serve n

def Start (_ : ℕ) (_ : Disk) (body : VProg Unit) : Prop := ∃ a : Act, body = a.prog

def boot (buf : ℕ → BitVec 32 × Block) (platter : BitVec 64 → Block) : Disk where
  desc := fun _ => ⟨.null, 0, 0, 0⟩
  avail := ⟨0, fun _ => 0⟩
  used := ⟨0, fun _ => 0⟩
  free := fun _ => true
  usedIdx := 0
  info := fun _ => ⟨none, 0⟩
  ops := fun _ => ⟨0, 0, 0⟩
  vdiskLock := none
  buf := fun b => ⟨(buf b).1, (buf b).2, false, none⟩
  asleep := fun _ => none
  platter := platter
  request := fun _ => ⟨0, 0, false, .processed, true⟩
  published := 0
  completion := fun _ => 0
  completed := 0
  seen := 0

/-- The states that the driver and the device can reach. -/
def Runs (fifo : Bool) (buf : ℕ → BitVec 32 × Block) (platter : BitVec 64 → Block) :
    Conf VSig Disk → Prop :=
  Conf.Reachable (exec fifo) Start ⟨boot buf platter, fun _ => none⟩

end Xv6.Virtio
