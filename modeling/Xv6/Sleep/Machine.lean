import Xv6.Lib.Run
import Xv6.Proc.Spinlock

/-!
# `sleep` and `wakeup` under a spin lock

Any number of processes run code that is guarded by spin locks: it acquires a lock, looks at the
data that the lock guards, changes it, sleeps on a channel, wakes the sleepers of a channel, and
releases the lock. `Code` is such code, given by what it does next at each of its locations. The
machine runs it together with `sleep`, `wakeup`, `kill`, `sched` and `scheduler` of `proc.c`, one
acquire, one release or one `swtch` at a time. Every process that is not asleep has a CPU.

A lock is named by `m : M`, and a channel by a lock and `c : C`: a sleep lock's own address, or the
address of a field of the structure that holds the lock.
-/

namespace Xv6.Sleep

open Function

/-- What code that holds its spin lock does next, and where it goes on. -/
inductive Do (R C L : Type)
  /-- it changes the data -/
  | modify (r : R) (l : L)
  /-- `sleep(chan, lk)` -/
  | sleep (chan : C) (l : L)
  /-- `wakeup(chan)` -/
  | wakeup (chan : C) (l : L)
  /-- `release(lk)` -/
  | leave (l : L)

/-- What code reads of `myproc()`. -/
structure Self where
  pid : Int
  killed : Bool

/-- Code guarded by spin locks. -/
structure Code (M R C L O : Type) where
  /-- the caller, outside at some location, calls a function: its lock, and its first location -/
  call : O → L → Option (M × L)
  /-- what is next, by the location, the caller and the data -/
  body : M → L → Self → R → Do R C L

/-- Who holds a `p->lock`: the kernel thread of a process, or a CPU's `scheduler`. -/
inductive Holder (N : Nat)
  | proc (p : Fin N)
  | cpu
  deriving DecidableEq

/-- The part of `struct proc` that `sleep`, `wakeup` and `kill` use. -/
structure Proc (N : Nat) (M C : Type) where
  lock : Option (Holder N)
  state : ProcState
  /-- if non-zero, sleeping on chan -/
  chan : Option (M × C)
  killed : Bool
  pid : Int

/-- Where a kernel thread stands. -/
inductive At (N : Nat) (M C L : Type)
  /-- holds no lock -/
  | out (l : L)
  /-- about to acquire `lk` -/
  | enter (m : M) (l : L)
  /-- holds `lk` -/
  | body (m : M) (l : L)
  /-- in `sleep`, holds `lk`, about to acquire `p->lock` -/
  | sleep (m : M) (chan : C) (l : L)
  /-- in `sleep`, holds `p->lock` too, about to release `lk` -/
  | sleepBoth (m : M) (chan : C) (l : L)
  /-- in `sleep`, holds `p->lock`, about to store `chan` and `state` -/
  | sleepSelf (m : M) (chan : C) (l : L)
  /-- in `sched`, about to `swtch` to the scheduler -/
  | sched (m : M) (chan : C) (l : L)
  /-- its registers are in `p->context` -/
  | saved (m : M) (chan : C) (l : L)
  /-- back in `sleep` with `p->lock` held -/
  | awake (m : M) (l : L)
  /-- in `wakeup`, holds `lk`, about to acquire the lock of process `i` -/
  | wakeup (m : M) (chan : C) (i : Nat) (l : L)
  /-- in `wakeup`, holds the lock of process `i` too -/
  | waking (m : M) (chan : C) (i : Fin N) (l : L)
  /-- in `kill`, about to acquire the lock of process `i` -/
  | kill (pid : Int) (i : Nat) (l : L)
  /-- in `kill`, holds the lock of process `i` -/
  | killing (pid : Int) (i : Fin N) (l : L)

structure System (N : Nat) (M R C L : Type) where
  proc : Fin N → Proc N M C
  thread : Fin N → At N M C L
  lock : M → Option (Fin N)
  data : M → R

variable {N : Nat} {M R C L O : Type}

namespace Proc

variable (x : Proc N M C)

def setLock (h : Option (Holder N)) : Proc N M C := { x with lock := h }

/-- `p->chan = chan; p->state = SLEEPING;` -/
def doze (chan : M × C) : Proc N M C := { x with chan := some chan, state := .sleeping }

/-- `p->chan = 0` -/
def tidy : Proc N M C := { x with chan := none }

/-- `wakeup`'s test, and what it stores. -/
def wake [DecidableEq M] [DecidableEq C] (chan : M × C) : Proc N M C :=
  if x.state = .sleeping ∧ x.chan = some chan then { x with state := .runnable } else x

/-- What `kill` stores. -/
def slay : Proc N M C :=
  if x.state = .sleeping then { x with killed := true, state := .runnable } else { x with killed := true }

def self : Self := { pid := x.pid, killed := x.killed }

/-- `p->state = RUNNING` -/
def run : Proc N M C := { x with state := .running }

end Proc

namespace System

variable (s : System N M R C L)

def setProc (p : Fin N) (x : Proc N M C) : System N M R C L := { s with proc := update s.proc p x }

def setThread (p : Fin N) (t : At N M C L) : System N M R C L := { s with thread := update s.thread p t }

variable [DecidableEq M]

def setLock (m : M) (h : Option (Fin N)) : System N M R C L := { s with lock := update s.lock m h }

def setData (m : M) (r : R) : System N M R C L := { s with data := update s.data m r }

omit [DecidableEq M]

variable {s} {p q : Fin N} {x : Proc N M C} {t : At N M C L}

@[simp] theorem setProc_proc : (s.setProc p x).proc = update s.proc p x := rfl
@[simp] theorem setProc_thread : (s.setProc p x).thread = s.thread := rfl
@[simp] theorem setProc_lock : (s.setProc p x).lock = s.lock := rfl
@[simp] theorem setProc_data : (s.setProc p x).data = s.data := rfl
@[simp] theorem setThread_proc : (s.setThread p t).proc = s.proc := rfl
@[simp] theorem setThread_thread : (s.setThread p t).thread = update s.thread p t := rfl
@[simp] theorem setThread_lock : (s.setThread p t).lock = s.lock := rfl
@[simp] theorem setThread_data : (s.setThread p t).data = s.data := rfl

variable [DecidableEq M] {m : M} {h : Option (Fin N)} {r : R}

@[simp] theorem setLock_proc : (s.setLock m h).proc = s.proc := rfl
@[simp] theorem setLock_thread : (s.setLock m h).thread = s.thread := rfl
@[simp] theorem setLock_lock : (s.setLock m h).lock = update s.lock m h := rfl
@[simp] theorem setLock_data : (s.setLock m h).data = s.data := rfl
@[simp] theorem setData_proc : (s.setData m r).proc = s.proc := rfl
@[simp] theorem setData_thread : (s.setData m r).thread = s.thread := rfl
@[simp] theorem setData_lock : (s.setData m r).lock = s.lock := rfl
@[simp] theorem setData_data : (s.setData m r).data = update s.data m r := rfl

end System

/-- What happens next. -/
inductive Act (N : Nat) (O : Type)
  /-- process `p` calls a function of the guarded code -/
  | call (p : Fin N) (o : O)
  /-- process `p` calls `kill(pid)` -/
  | kill (p : Fin N) (pid : Int)
  /-- process `p` goes on -/
  | go (p : Fin N)
  /-- a scheduler acquires `p->lock` -/
  | look (p : Fin N)
  /-- a scheduler that holds `p->lock` runs `p` or releases it -/
  | dispatch (p : Fin N)

section

variable [DecidableEq M] [DecidableEq C] (code : Code M R C L O) (s : System N M R C L) (p : Fin N)

/-- The code under the lock takes a step. -/
def bodyStep (m : M) (l : L) : Option (Except SpinPanic (System N M R C L)) :=
  match code.body m l (s.proc p).self (s.data m) with
  | .modify r l' => some (.ok ((s.setData m r).setThread p (.body m l')))
  | .sleep chan l' => some (.ok (s.setThread p (.sleep m chan l')))
  | .wakeup chan l' => some (.ok (s.setThread p (.wakeup m chan 0 l')))
  | .leave l' => releasing (s.lock m) p ((s.setLock m none).setThread p (.out l'))

/-- `sched`: the scheduler goes on with `p->lock` held. -/
def schedStep (m : M) (chan : C) (l : L) : Option (Except SpinPanic (System N M R C L)) :=
  if (s.proc p).lock ≠ some (.proc p) then some (.error .schedLock)
  else if (s.proc p).state = .running then some (.error .schedRunning)
  else some (.ok ((s.setProc p ((s.proc p).setLock (some .cpu))).setThread p (.saved m chan l)))

/-- A kernel thread goes on. -/
def threadStep : At N M C L → Option (Except SpinPanic (System N M R C L))
  | .out _ => none
  | .enter m l => acquiring (s.lock m) p ((s.setLock m (some p)).setThread p (.body m l))
  | .body m l => bodyStep code s p m l
  | .sleep m chan l =>
    acquiring (s.proc p).lock (.proc p)
      ((s.setProc p ((s.proc p).setLock (some (.proc p)))).setThread p (.sleepBoth m chan l))
  | .sleepBoth m chan l => releasing (s.lock m) p ((s.setLock m none).setThread p (.sleepSelf m chan l))
  | .sleepSelf m chan l => some (.ok ((s.setProc p ((s.proc p).doze (m, chan))).setThread p (.sched m chan l)))
  | .sched m chan l => schedStep s p m chan l
  | .saved .. => none
  | .awake m l =>
    releasing (s.proc p).lock (.proc p) ((s.setProc p ((s.proc p).tidy.setLock none)).setThread p (.enter m l))
  | .wakeup m chan i l =>
    if h : i < N then
      acquiring (s.proc ⟨i, h⟩).lock (.proc p)
        ((s.setProc ⟨i, h⟩ ((s.proc ⟨i, h⟩).setLock (some (.proc p)))).setThread p (.waking m chan ⟨i, h⟩ l))
    else some (.ok (s.setThread p (.body m l)))
  | .waking m chan i l =>
    releasing (s.proc i).lock (.proc p)
      ((s.setProc i (((s.proc i).wake (m, chan)).setLock none)).setThread p (.wakeup m chan (i + 1) l))
  | .kill pid i l =>
    if h : i < N then
      acquiring (s.proc ⟨i, h⟩).lock (.proc p)
        ((s.setProc ⟨i, h⟩ ((s.proc ⟨i, h⟩).setLock (some (.proc p)))).setThread p (.killing pid ⟨i, h⟩ l))
    else some (.ok (s.setThread p (.out l)))
  | .killing pid i l =>
    if (s.proc i).pid = pid then
      releasing (s.proc i).lock (.proc p) ((s.setProc i ((s.proc i).slay.setLock none)).setThread p (.out l))
    else releasing (s.proc i).lock (.proc p) ((s.setProc i ((s.proc i).setLock none)).setThread p (.kill pid (i + 1) l))

def step : Act N O → Option (Except SpinPanic (System N M R C L))
  | .call p o =>
    match s.thread p with
    | .out l => (code.call o l).map fun c => .ok (s.setThread p (.enter c.1 c.2))
    | _ => none
  | .kill p pid =>
    match s.thread p with
    | .out l => some (.ok (s.setThread p (.kill pid 0 l)))
    | _ => none
  | .go p => threadStep code s p (s.thread p)
  | .look p => if (s.proc p).lock = none then some (.ok (s.setProc p ((s.proc p).setLock (some .cpu)))) else none
  | .dispatch p =>
    if (s.proc p).lock = some .cpu then
      if (s.proc p).state = .runnable then
        match s.thread p with
        | .saved m _ l => some (.ok ((s.setProc p ((s.proc p).run.setLock (some (.proc p)))).setThread p (.awake m l)))
        | _ => none
      else some (.ok (s.setProc p ((s.proc p).setLock none)))
    else none

end

/-- Every process runs, outside at `l`, and no lock is held. -/
def boot (pid : Fin N → Int) (l : L) (data : M → R) : System N M R C L where
  proc p := { lock := none, state := .running, chan := none, killed := false, pid := pid p }
  thread _ := .out l
  lock _ := none
  data := data

end Xv6.Sleep
