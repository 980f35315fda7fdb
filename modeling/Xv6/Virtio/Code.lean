import Xv6.Lib.Bytes
import Xv6.Param
import Xv6.Sleep.Device

/-!
# `virtio_disk.c`

Any number of processes call `virtio_disk_rw`, and `virtio_disk_intr` runs at any time. A request
takes three of the `NUM` descriptors. The driver tells the device the first of them in the avail
ring, and the device says in the used ring that it is done with it, in any order. The avail and used
counters are 16 bits wide and wrap; `used_idx` is kept modulo `NUM`.

The device is modelled as far as the queue goes: it fetches a request from the avail ring, finishes
some request that it has fetched and stores a status, and posts some request that it has finished.
What it reads and writes on the disk is not part of the model.

`reqs`, `taken`, `posted`, `seen` and `handled` are not in the source: they record the requests
published, how many of them the device has fetched, those that it has posted, how often `used_idx`
was incremented, and the ids that the interrupt handler has handled. A request's serial number is
its place in `reqs`.
-/

namespace Xv6.Virtio

open Sleep Function

/-- `NUM` -/
def NUM : Nat := 8

/-- `VRING_DESC_F_NEXT` -/
def DESC_F_NEXT : BitVec 16 := 1

/-- `VRING_DESC_F_WRITE` -/
def DESC_F_WRITE : BitVec 16 := 2

variable {B : Type}

/-- What the address in a descriptor is the address of. -/
inductive Addr (B : Type)
  | null
  /-- `&buf0`, on the caller's stack -/
  | outhdr (write : Bool) (sector : BitVec 64)
  /-- `b->data` -/
  | data (b : B)
  /-- `&disk.info[i].status` -/
  | status (i : Nat)

/-- `struct VRingDesc` -/
structure Desc (B : Type) where
  addr : Addr B
  len : Nat
  flags : BitVec 16
  next : Nat

def Desc.clearAddr (x : Desc B) : Desc B := { x with addr := .null }

/-- An entry of `disk.info`. -/
structure Info (B : Type) where
  b : Option B
  status : Byte

def Info.clear (x : Info B) : Info B := { x with b := none }

def Info.setStatus (x : Info B) (status : Byte) : Info B := { x with status := status }

/-- The arguments of `virtio_disk_rw`, and what it reads of its buffer. -/
structure Args (B : Type) where
  b : B
  blockno : BitVec 32
  write : Bool

/-- `b->blockno * (BSIZE / 512)` -/
def Args.sector (x : Args B) : BitVec 64 := (x.blockno * BitVec.ofNat 32 (BSIZE / 512)).setWidth 64

/-- A call that has its three descriptors. -/
structure Req (B : Type) extends Args B where
  i0 : Nat
  i1 : Nat
  i2 : Nat

def Req.idx (r : Req B) : List Nat := [r.i0, r.i1, r.i2]

/-- What a chain of descriptors asks the device to do. -/
structure Cmd (B : Type) where
  write : Bool
  sector : BitVec 64
  b : B
  /-- the device is to write `b->data` -/
  into : Bool
  /-- where the status goes -/
  status : Nat

def Req.cmd (r : Req B) : Cmd B where
  write := r.write
  sector := r.sector
  b := r.b
  into := !r.write
  status := r.i0

/-- A request that the device has fetched. -/
structure Job (B : Type) where
  serial : Nat
  head : Nat
  cmd : Option (Cmd B)

/-- The two rings, and the device. -/
structure Queue (B : Type) where
  /-- `avail[2...]` -/
  ring : Nat → Nat
  /-- `avail[1]` -/
  avail : BitVec 16
  /-- `used->elems[...].id` -/
  elems : Nat → Nat
  /-- `used->id` -/
  id : BitVec 16
  used_idx : BitVec 16
  /-- how far the device has looked in the avail ring -/
  last : BitVec 16
  fetched : List (Job B)
  finished : List (Job B)
  posted : List (Job B)
  reqs : List (Req B)
  taken : Nat
  seen : Nat
  handled : List Nat

/-- `disk`, the buffers' `disk` flags, and the device. -/
structure Disk (B : Type) extends Queue B where
  desc : Nat → Desc B
  /-- is a descriptor free? -/
  free : Nat → Bool
  info : Nat → Info B
  /-- `b->disk` -/
  disk : B → Bool

/-- The panics of the driver, and the use of a null pointer. -/
inductive Fault
  /-- "virtio_disk_intr 1" -/
  | intr1
  /-- "virtio_disk_intr 2" -/
  | intr2
  /-- "virtio_disk_intr status" -/
  | status
  /-- `disk.info[id].b` is null -/
  | null
  deriving DecidableEq, Repr

inductive Chan (B : Type)
  /-- `&disk.free[0]` -/
  | free
  /-- a buffer -/
  | buf (b : B)
  deriving DecidableEq

/-- Where a CPU is in the code of `virtio_disk.c`. -/
inductive Loc (B : Type)
  /-- outside; the last request that it made -/
  | idle (last : Option (Nat × Req B))
  /-- in `virtio_disk_rw`, at `alloc3_desc` -/
  | alloc (x : Args B)
  /-- in `alloc3_desc`, which has found no third descriptor: those to be freed -/
  | undo (x : Args B) (js : List Nat)
  | undoWake (x : Args B) (js : List Nat)
  /-- at the formatting of the descriptors -/
  | format (r : Req B)
  /-- at `disk.avail[2 + (disk.avail[1] % NUM)] = idx[0]` -/
  | avail (r : Req B)
  /-- at `disk.avail[1] = disk.avail[1] + 1` -/
  | publish (r : Req B)
  /-- at `b->disk == 1` -/
  | wait (r : Req B) (k : Nat)
  /-- at `disk.info[idx[0]].b = 0` -/
  | clear (r : Req B) (k : Nat)
  /-- in `free_chain` at `free_desc(i)`; the descriptors after `i` -/
  | chain (r : Req B) (k : Nat) (i : Nat) (left : List Nat)
  | chainWake (r : Req B) (k : Nat) (i : Nat) (left : List Nat)
  /-- at `disk.desc[i].flags & VRING_DESC_F_NEXT` -/
  | chainNext (r : Req B) (k : Nat) (i : Nat) (left : List Nat)
  /-- in `virtio_disk_intr`, at the `while` -/
  | intr
  /-- it has read `id` -/
  | intrGot (id : Nat)
  | intrWake (id : Nat)
  /-- at `disk.used_idx = (disk.used_idx + 1) % NUM` -/
  | intrNext
  | panic (f : Fault)

inductive Op (B : Type)
  | virtio_disk_rw (x : Args B)
  | virtio_disk_intr

namespace Disk

variable (d : Disk B)

/-- `alloc_desc` -/
def allocDesc : Option (Nat × Disk B) :=
  match (List.range NUM).find? fun i => d.free i with
  | some i => some (i, { d with free := update d.free i false })
  | none => none

/-- The first loop of `alloc3_desc`: as many descriptors as there are. -/
def allocDescs : Nat → Disk B → List Nat × Disk B
  | 0, d => ([], d)
  | n + 1, d =>
    match d.allocDesc with
    | some (i, d') => (i :: (allocDescs n d').1, (allocDescs n d').2)
    | none => ([], d)

/-- `disk.desc[i].addr = 0; disk.free[i] = 1` -/
def release (i : Nat) : Disk B :=
  { d with
    desc := update d.desc i (d.desc i).clearAddr
    free := update d.free i true }

/-- `free_desc` up to its `wakeup`. -/
def freeDesc (i : Nat) (next : Loc B) : Do (Disk B) (Chan B) (Loc B) :=
  if NUM ≤ i then .modify d (.panic .intr1)
  else if d.free i = true then .modify d (.panic .intr2)
  else .modify (d.release i) next

/-- What `virtio_disk_rw` does once `alloc3_desc` is through its loop. -/
def alloc3 (x : Args B) : Do (Disk B) (Chan B) (Loc B) :=
  match d.allocDescs 3 with
  | ([i0, i1, i2], d') => .modify d' (.format { x with i0, i1, i2 })
  | (js, d') => .modify d' (.undo x js)

/-- The three descriptors of a request. -/
def chainOf (r : Req B) : Desc B × Desc B × Desc B :=
  ({ addr := .outhdr r.write r.sector, len := 16, flags := DESC_F_NEXT, next := r.i1 },
    { addr := .data r.b, len := BSIZE, flags := (if r.write = true then 0 else DESC_F_WRITE) ||| DESC_F_NEXT, next := r.i2 },
    { addr := .status r.i0, len := 1, flags := DESC_F_WRITE, next := 0 })

/-- `format the three descriptors`, up to `disk.info[idx[0]].b = b` -/
def format [DecidableEq B] (r : Req B) : Disk B :=
  { d with
    desc := update (update (update d.desc r.i0 (chainOf r).1) r.i1 (chainOf r).2.1)
      r.i2 (chainOf r).2.2
    info := update d.info r.i0 { b := some r.b, status := 0 }
    disk := update d.disk r.b true }

def setRing (r : Req B) : Disk B := { d with ring := update d.ring (d.avail.toNat % NUM) r.i0 }

def publish (r : Req B) : Disk B := { d with avail := d.avail + 1, reqs := d.reqs ++ [r] }

/-- `disk.info[i].b = 0` -/
def clear (i : Nat) : Disk B := { d with info := update d.info i (d.info i).clear }

/-- `disk.info[id].b->disk = 0` -/
def handle [DecidableEq B] (b : B) (id : Nat) : Disk B :=
  { d with disk := update d.disk b false, handled := d.handled ++ [id] }

/-- `disk.used_idx = (disk.used_idx + 1) % NUM` -/
def advance : Disk B := { d with used_idx := BitVec.ofNat 16 ((d.used_idx.toNat + 1) % NUM), seen := d.seen + 1 }

/-- `disk.desc[i].flags & VRING_DESC_F_NEXT` -/
def hasNext (i : Nat) : Bool := (d.desc i).flags &&& DESC_F_NEXT != 0

end Disk

variable [DecidableEq B]

/-- `virtio_disk_rw` and `virtio_disk_intr`. -/
def code : Code Unit (Disk B) (Chan B) (Loc B) (Op B) where
  call
    | .virtio_disk_rw x, _ => some ((), .alloc x)
    | .virtio_disk_intr, _ => some ((), .intr)
  body _ l _ d :=
    match l with
    | .idle last => .leave (.idle last)
    | .alloc x => d.alloc3 x
    | .undo x [] => .sleep .free (.alloc x)
    | .undo x (j :: js) => d.freeDesc j (.undoWake x js)
    | .undoWake x js => .wakeup .free (.undo x js)
    | .format r => .modify (d.format r) (.avail r)
    | .avail r => .modify (d.setRing r) (.publish r)
    | .publish r => .modify (d.publish r) (.wait r d.reqs.length)
    | .wait r k => if d.disk r.b = true then .sleep (.buf r.b) (.wait r k) else .modify d (.clear r k)
    | .clear r k => .modify (d.clear r.i0) (.chain r k r.i0 [r.i1, r.i2])
    | .chain r k i left => d.freeDesc i (.chainWake r k i left)
    | .chainWake r k i left => .wakeup .free (.chainNext r k i left)
    | .chainNext r k i left =>
      if d.hasNext i = true then .modify d (.chain r k (d.desc i).next left.tail) else .leave (.idle (some (k, r)))
    | .intr =>
      if d.used_idx.toNat % NUM ≠ d.id.toNat % NUM then .modify d (.intrGot (d.elems d.used_idx.toNat)) else .leave (.idle none)
    | .intrGot id =>
      if (d.info id).status ≠ 0 then .modify d (.panic .status)
      else
        match (d.info id).b with
        | none => .modify d (.panic .null)
        | some b => .modify (d.handle b id) (.intrWake id)
    | .intrWake id =>
      match (d.info id).b with
      | none => .modify d (.panic .null)
      | some b => .wakeup (.buf b) .intrNext
    | .intrNext => .modify d.advance .intr
    | .panic f => .modify d (.panic f)

/-! ## The device -/

/-- What the device finds when it follows a chain. -/
def Disk.readChain (d : Disk B) (head : Nat) : Option (Cmd B) :=
  if d.hasNext head = true ∧ d.hasNext (d.desc head).next = true ∧
      d.hasNext (d.desc (d.desc head).next).next = false then
    match (d.desc head).addr, (d.desc (d.desc head).next).addr, (d.desc (d.desc (d.desc head).next).next).addr with
    | .outhdr write sector, .data b, .status i =>
      some { write, sector, b, into := (d.desc (d.desc head).next).flags &&& DESC_F_WRITE != 0, status := i }
    | _, _, _ => none
  else none

inductive DeviceAct
  /-- it takes the next request of the avail ring -/
  | fetch
  /-- it completes one of the requests that it has taken, with this status -/
  | finish (n : Nat) (status : Byte)
  /-- it posts one of the requests that it has completed -/
  | post (n : Nat)

namespace Disk

variable (d : Disk B)

def fetch : Disk B :=
  { d with
    last := d.last + 1
    taken := d.taken + 1
    fetched := d.fetched ++
      [{ serial := d.taken, head := d.ring (d.last.toNat % NUM), cmd := d.readChain (d.ring (d.last.toNat % NUM)) }] }

/-- The status goes where the request says. -/
def putStatus (job : Job B) (status : Byte) : Nat → Info B :=
  match job.cmd with
  | some cmd => update d.info cmd.status ((d.info cmd.status).setStatus status)
  | none => d.info

def finish (n : Nat) (job : Job B) (status : Byte) : Disk B :=
  { d with fetched := d.fetched.eraseIdx n, finished := d.finished ++ [job], info := d.putStatus job status }

def post (n : Nat) (job : Job B) : Disk B :=
  { d with
    finished := d.finished.eraseIdx n
    posted := d.posted ++ [job]
    elems := update d.elems (d.id.toNat % NUM) job.head
    id := d.id + 1 }

def device : DeviceAct → Option (Disk B)
  | .fetch => if d.last = d.avail then none else some d.fetch
  | .finish n status => d.fetched[n]?.map fun job => d.finish n job status
  | .post n => d.finished[n]?.map fun job => d.post n job

/-- After `virtio_disk_init`. -/
def init : Disk B where
  desc _ := { addr := .null, len := 0, flags := 0, next := 0 }
  ring _ := 0
  avail := 0
  elems _ := 0
  id := 0
  free i := decide (i < NUM)
  used_idx := 0
  info _ := { b := none, status := 0 }
  disk _ := false
  last := 0
  fetched := []
  finished := []
  posted := []
  reqs := []
  taken := 0
  seen := 0
  handled := []

end Disk

variable {N : Nat}

/-- The driver and the device. -/
def machine (s : System N Unit (Disk B) (Chan B) (Loc B)) (e : Event N (Op B) DeviceAct) :
    Option (Except SpinPanic (System N Unit (Disk B) (Chan B) (Loc B))) :=
  stepWith code (fun a data => ((data ()).device a).map fun d _ => d) s e

def init (pid : Fin N → Int) : System N Unit (Disk B) (Chan B) (Loc B) := boot pid (.idle none) fun _ => Disk.init

end Xv6.Virtio
