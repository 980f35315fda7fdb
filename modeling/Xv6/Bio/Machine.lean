import Mathlib.Data.Finset.Card
import Mathlib.Data.Fintype.Basic
import Xv6.Log.Code
import Xv6.Log.Ops

/-!
# `bio.c` and `log.c` together

Any number of processes share the buffer cache, the log and the disk. Each critical section is one
step: of `bcache.lock` in `bget`, `brelse`, `bpin` and `bunpin`, of `log.lock` in `begin_op`,
`log_write` and `end_op`, of a buffer's sleep lock in `acquiresleep` and `releasesleep`. So
`bread` takes three steps (find the buffer, lock it, fill it), `brelse` two (unlock it, give the
reference back), and `log_write` two (its tests run before it acquires `log.lock`). A process that
commits, or recovers at boot, runs the code of `Xv6.Log` one instruction at a time between the
steps of the others.

The kernel has one disk, and every caller passes `ROOTDEV`. The cache starts with buffers of
device 0, which therefore hold no block. A process names a buffer by its index, the log's code by
its block number.

`pins`, `trace` and a buffer's `dirty` flag are not in the source. They record what the processes
did, and no step depends on them.
-/

namespace Xv6.Bio

open Function
open Log (Instr LogState)

/-- `struct buf`. `lock` is the sleep lock: the process that holds it. -/
structure Buf (P : Type) where
  valid : Bool
  dev : Nat
  blockno : Nat
  lock : Option P
  refcnt : BitVec 32
  data : Block
  /-- its holder has changed the data and not logged it since -/
  dirty : Bool

namespace Buf

variable {P : Type} (x : Buf P)

/-- `refcnt++` -/
def ref : Buf P := { x with refcnt := x.refcnt + 1 }

/-- `refcnt--` -/
def unref : Buf P := { x with refcnt := x.refcnt - 1 }

/-- The buffer taken for another block. -/
def recycle (b : Nat) : Buf P := { x with dev := ROOTDEV, blockno := b, valid := false, refcnt := 1 }

def setLock (holder : Option P) : Buf P := { x with lock := holder }

def setData (data : Block) : Buf P := { x with data := data }

/-- The holder changes the data. -/
def modify (data : Block) : Buf P := { x with data := data, dirty := true }

/-- The holder has logged the data. -/
def logged : Buf P := { x with dirty := false }

/-- What `bread` makes of the buffer: it reads the disk if it has to. -/
def fill (disk : Disk) : Buf P :=
  if x.valid = true then x else { x with valid := true, data := disk x.blockno }

end Buf

/-- Where a process stands with the log. -/
inductive Mode
  | outside
  /-- in `begin_op`, about to acquire the lock and test -/
  | beginning
  /-- in `begin_op`, asleep on `&log` -/
  | asleep
  | inOp
  /-- in `commit` -/
  | committing
  /-- in `fsinit`, before any other process runs -/
  | booting
  deriving DecidableEq, Repr

/-- Where a process stands with a buffer. -/
inductive Stage
  | idle
  /-- in `bget`, past `bcache.lock`, waiting for the buffer's sleep lock -/
  | waiting (i : Fin NBUF)
  /-- in `bread`, about to look at `valid` -/
  | filling (i : Fin NBUF)
  /-- in `log_write`, past its tests -/
  | logging (i : Fin NBUF)
  /-- in `brelse`, the sleep lock released, about to acquire `bcache.lock` -/
  | dropping (i : Fin NBUF)
  deriving DecidableEq, Repr

structure Thread where
  mode : Mode
  stage : Stage
  /-- what is left of the log's code that the process runs -/
  code : List Instr

namespace Thread

variable (t : Thread)

def setMode (m : Mode) : Thread := { t with mode := m }

def setStage (st : Stage) : Thread := { t with stage := st }

def setCode (c : List Instr) : Thread := { t with code := c }

/-- `wakeup(&log)`, for one process. -/
def wakeup : Thread := if t.mode = .asleep then { t with mode := .beginning } else t

end Thread

/-- What an observer sees: the data that each `bread` returns and that each `log_write` logs. -/
inductive Event (P : Type)
  | bread (p : P) (b : Nat) (data : Block)
  | logWrite (p : P) (b : Nat) (data : Block)

inductive Panic
  | noBuffers
  | bwrite
  | brelse
  | log (e : Log.Panic)
  deriving DecidableEq, Repr

structure System (P : Type) where
  buf : Fin NBUF → Buf P
  /-- the list of buffers, the most recently used first -/
  order : List (Fin NBUF)
  disk : Disk
  log : LogState
  thread : P → Thread
  /-- `fsinit` has returned -/
  ready : Bool
  /-- the blocks that the log has pinned and not unpinned since -/
  pins : List Nat
  /-- the events so far, the last one first -/
  trace : List (Event P)

namespace System

variable {P : Type} [DecidableEq P] (s : System P) (p : P)

def setBuf (i : Fin NBUF) (b : Buf P) : System P := { s with buf := update s.buf i b }

def setOrder (order : List (Fin NBUF)) : System P := { s with order := order }

def setPins (pins : List Nat) : System P := { s with pins := pins }

def setReady : System P := { s with ready := true }

def observe (e : Event P) : System P := { s with trace := e :: s.trace }

def setThread (t : Thread) : System P := { s with thread := update s.thread p t }

def setMode (m : Mode) : System P := s.setThread p ((s.thread p).setMode m)

def setStage (st : Stage) : System P := s.setThread p ((s.thread p).setStage st)

def setCode (c : List Instr) : System P := s.setThread p ((s.thread p).setCode c)

/-- A loop head or a test leaves `c` to run before the rest. -/
def push (c : List Instr) : System P := s.setCode p (c ++ (s.thread p).code)

/-- `wakeup(&log)` -/
def wakeup : System P := { s with thread := fun q => (s.thread q).wakeup }

def setLog (l : LogState) : System P := { s with log := l }

/-- Set `log.lh`. -/
def setHead (lh : List Nat) : System P := s.setLog { s.log with lh := lh }

/-! ## `bio.c` -/

/-- The cached buffer of a block: `bget`'s first loop. -/
def lookup (b : Nat) : Option (Fin NBUF) :=
  s.order.find? fun i => (s.buf i).dev = ROOTDEV ∧ (s.buf i).blockno = b

/-- The least recently used buffer that nothing refers to: `bget`'s second loop. -/
def victim : Option (Fin NBUF) := s.order.reverse.find? fun i => (s.buf i).refcnt = 0

/-- `bget(ROOTDEV, b)`, up to `acquiresleep`. -/
def bget (b : Nat) : Except Panic (System P) :=
  match s.lookup b with
  | some i => .ok ((s.setBuf i (s.buf i).ref).setStage p (.waiting i))
  | none =>
    match s.victim with
    | some i => .ok ((s.setBuf i ((s.buf i).recycle b)).setStage p (.waiting i))
    | none => .error .noBuffers

/-- `acquiresleep`, when the lock is free. -/
def acquiresleep (i : Fin NBUF) : System P :=
  (s.setBuf i ((s.buf i).setLock (some p))).setStage p (.filling i)

/-- The rest of `bread`. -/
def fill (i : Fin NBUF) : System P :=
  ((s.setBuf i ((s.buf i).fill s.disk)).setStage p .idle).observe
    (.bread p (s.buf i).blockno ((s.buf i).fill s.disk).data)

def bwrite (i : Fin NBUF) : Except Panic (System P) :=
  if (s.buf i).lock = some p then
    .ok { s with disk := update s.disk (s.buf i).blockno (s.buf i).data }
  else .error .bwrite

/-- `brelse`, up to `releasesleep`. -/
def brelse (i : Fin NBUF) : Except Panic (System P) :=
  if (s.buf i).lock = some p then
    .ok ((s.setBuf i ((s.buf i).setLock none)).setStage p (.dropping i))
  else .error .brelse

/-- The rest of `brelse`: a buffer that nothing refers to moves to the front of the list. -/
def drop (i : Fin NBUF) : System P :=
  ((s.setBuf i (s.buf i).unref).setStage p .idle).setOrder
    (if (s.buf i).unref.refcnt = 0 then i :: s.order.erase i else s.order)

def bunpin (i : Fin NBUF) : System P :=
  (s.setBuf i (s.buf i).unref).setPins (s.pins.erase (s.buf i).blockno)

/-! ## `log.c` -/

/-- The tests of `log_write`. -/
def logCheck (i : Fin NBUF) : Except Panic (System P) :=
  match s.log.check with
  | .error e => .error (.log e)
  | .ok () => .ok (s.setStage p (.logging i))

/-- The critical section of `log_write`, with `bpin` of a block that is new in the log. -/
def logWrite (i : Fin NBUF) : System P :=
  (if (s.buf i).blockno ∈ s.log.lh then s.setBuf i (s.buf i).logged
    else (s.setBuf i (s.buf i).logged.ref).setPins (s.pins ++ [(s.buf i).blockno])).setHead
      (LogState.absorb s.log.lh (s.buf i).blockno)
    |>.setStage p .idle |>.observe (.logWrite p (s.buf i).blockno (s.buf i).data)

/-- The buffer of block `b` that the process has from `bread`. -/
def held (b : Nat) : Option (Fin NBUF) :=
  s.order.find? fun i => (s.buf i).dev = ROOTDEV ∧ (s.buf i).blockno = b ∧ (s.buf i).lock = some p

/-- One instruction of the log's code. It is stuck where it names a buffer that it has not read. -/
def exec : Instr → Option (Except Panic (System P))
  | .bread b => some (s.bget p b)
  | .brelse b => (s.held p b).map (s.brelse p)
  | .bwrite b => (s.held p b).map (s.bwrite p)
  | .bunpin b => (s.held p b).map fun i => .ok (s.bunpin i)
  | .memmove dst src =>
    match s.held p dst, s.held p src with
    | some i, some j => some (.ok (s.setBuf i ((s.buf i).setData (s.buf j).data)))
    | _, _ => none
  | .loadHead b => (s.held p b).map fun i => .ok (s.setHead (Log.headOf (s.buf i).data))
  | .storeHead b =>
    (s.held p b).map fun i => .ok (s.setBuf i ((s.buf i).setData (Log.putHead s.log.lh (s.buf i).data)))
  | .zeroHead => some (.ok (s.setHead []))
  | .writeLog tail => some (.ok (s.push p (Log.writeLogFrom s.log.start s.log.lh tail)))
  | .installTrans tail => some (.ok (s.push p (Log.installTransFrom s.log.start s.log.lh tail)))
  | .commit => some (.ok (s.push p (Log.commitFrom s.log.start s.log.lh)))

/-- The first critical section of `end_op`. -/
def endOp : Except Panic (System P) :=
  match s.log.endOp with
  | .error e => .error (.log e)
  | .ok (l, true) =>
    .ok ((s.setThread p { mode := .committing, stage := .idle, code := [.commit] }).setLog l)
  | .ok (l, false) => .ok ((s.wakeup.setMode p .outside).setLog l)

/-- The process runs file-system code of its own, and may use a buffer or call the log. -/
def Client : Prop :=
  ((s.thread p).mode = .outside ∧ s.ready = true ∨ (s.thread p).mode = .inOp) ∧ (s.thread p).stage = .idle

instance : Decidable (s.Client p) := inferInstanceAs (Decidable (_ ∧ _))

end System

/-! ## Steps -/

inductive Act (P : Type)
  /-- call `begin_op` -/
  | beginOp (p : P)
  /-- one turn of `begin_op`'s loop -/
  | tryBegin (p : P)
  /-- a sleeper is made runnable without `wakeup(&log)`, as by `kill` -/
  | kill (p : P)
  | endOp (p : P)
  /-- `end_op` after `commit`, or the return of `fsinit` -/
  | finish (p : P)
  | bread (p : P) (b : Nat)
  | acquiresleep (p : P)
  | fill (p : P)
  /-- change the data of a buffer that the process holds -/
  | modify (p : P) (i : Fin NBUF) (data : Block)
  | bwrite (p : P) (i : Fin NBUF)
  | logCheck (p : P) (i : Fin NBUF)
  | logWrite (p : P)
  | brelse (p : P) (i : Fin NBUF)
  | drop (p : P)
  /-- the next instruction of the log's code -/
  | instr (p : P)

variable {P : Type} [DecidableEq P]

def step (s : System P) : Act P → Option (Except Panic (System P))
  | .beginOp p =>
    if (s.thread p).mode = .outside ∧ s.Client p then some (.ok (s.setMode p .beginning)) else none
  | .tryBegin p =>
    if (s.thread p).mode = .beginning then
      if s.log.mustWait then some (.ok (s.setMode p .asleep))
      else some (.ok ((s.setMode p .inOp).setLog { s.log with outstanding := s.log.outstanding + 1 }))
    else none
  | .kill p => if (s.thread p).mode = .asleep then some (.ok (s.setMode p .beginning)) else none
  | .endOp p => if (s.thread p).mode = .inOp ∧ s.Client p then some (s.endOp p) else none
  | .finish p =>
    if (s.thread p).stage = .idle ∧ (s.thread p).code = [] then
      match (s.thread p).mode with
      | .committing => some (.ok ((s.wakeup.setMode p .outside).setLog { s.log with committing := false }))
      | .booting => some (.ok (s.setMode p .outside).setReady)
      | _ => none
    else none
  | .bread p b => if s.Client p then some (s.bget p b) else none
  | .acquiresleep p =>
    match (s.thread p).stage with
    | .waiting i => if (s.buf i).lock = none then some (.ok (s.acquiresleep p i)) else none
    | _ => none
  | .fill p =>
    match (s.thread p).stage with
    | .filling i => some (.ok (s.fill p i))
    | _ => none
  | .modify p i data =>
    if s.Client p ∧ (s.buf i).lock = some p then
      some (.ok (s.setBuf i ((s.buf i).modify data)))
    else none
  | .bwrite p i => if s.Client p then some (s.bwrite p i) else none
  | .logCheck p i =>
    if (s.thread p).mode = .inOp ∧ s.Client p ∧ (s.buf i).lock = some p then some (s.logCheck p i) else none
  | .logWrite p =>
    match (s.thread p).stage with
    | .logging i => some (.ok (s.logWrite p i))
    | _ => none
  | .brelse p i => if s.Client p then some (s.brelse p i) else none
  | .drop p =>
    match (s.thread p).stage with
    | .dropping i => some (.ok (s.drop p i))
    | _ => none
  | .instr p =>
    match (s.thread p).stage, (s.thread p).code with
    | .idle, i :: c => (s.setCode p c).exec p i
    | _, _ => none

/-- `fsinit`: `readsb`, then `initlog`. -/
def bootCode (start : Nat) : List Instr := [.bread 1, .brelse 1] ++ Log.recoverFromLog start

/-- The first process enters `fsinit`, on a disk whose super block has `logstart = start` and
`nlog = size`. `binit` has put each buffer at the front of the list. -/
def boot (p : P) (start : Nat) (size : Int) (disk : Disk) : System P where
  buf _ := { valid := false, dev := 0, blockno := 0, lock := none, refcnt := 0, data := fun _ => 0, dirty := false }
  order := (List.finRange NBUF).reverse
  disk := disk
  log := .init start size
  thread := update (fun _ => { mode := .outside, stage := .idle, code := [] }) p
    { mode := .booting, stage := .idle, code := bootCode start }
  ready := false
  pins := []
  trace := []

end Xv6.Bio
