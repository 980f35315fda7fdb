import Xv6.Lib.Run
import Xv6.Proc.Spinlock
import Xv6.Proc.Tree

/-!
# The process table of `proc.c` on any number of CPUs

`proc[]` has `n + 1` slots. A CPU is in `scheduler`, or it runs on the kernel stack of a process.
What stands on a kernel stack is a place in `fork`, `exit`, `wait`, `kill`, `sleep` or `forkret`, or
in code that touches no `p->lock` (`user`); over it there may be a `yield` or a `wakeup`.

A step takes one `p->lock`, or gives one up, or does what `proc.c` does between two such points. The
reads of `pp->parent` that `reparent` and `wait` make without a lock are steps of their own. `swtch`
is a step: the stack is then no CPU's, and `p->context` says where it goes on.

A slot carries the numbers `birth` and `creator` of the process tree, which the code does not have,
and `history` records the calls of `exit` and what `wait` returned.
-/

namespace Xv6.Proc

open Function

/-- A slot of `proc[]`. -/
abbrev Slot (n : Nat) := Fin (n + 1)

/-- `userinit` is the first to call `allocproc`. -/
def initproc {n : Nat} : Slot n := 0

/-- What a process sleeps on: `wait` sleeps on the process itself, all others on something else. -/
inductive Chan (n : Nat)
  | proc (p : Slot n)
  | addr (a : Nat)
  deriving DecidableEq, Repr

/-- `struct proc` -/
structure Entry (n : Nat) (C : Type) where
  lock : Option C
  state : ProcState
  parent : Option (Slot n)
  chan : Option (Chan n)
  killed : Bool
  xstate : Int
  pid : BitVec 32
  birth : Nat
  creator : Nat

/-- A place in the code, with what it has in its local variables. -/
inductive Pc (n : Nat)
  | user
  -- `allocproc`, called by `fork`: the loop, the test of a slot that is in use, and `found`
  | alloc (i : Nat)
  | allocSkip (j : Slot n)
  | allocPid (j : Slot n)
  | allocPagetable (j : Slot n)
  | allocFail (j : Slot n)
  -- the rest of `fork`
  | forkCopy (j : Slot n)
  | forkParent (j : Slot n)
  | forkRun (j : Slot n)
  | forkRel (j : Slot n)
  -- `exit`
  | exit (status : Int)
  | exitInit (status : Int)
  | exitSelf (status : Int)
  | exitRead (status : Int)
  | exitParent (status : Int) (op : Slot n)
  | exitBoth (status : Int) (op : Slot n)
  | reparent (status : Int) (op : Slot n) (i : Nat)
  | reparentLock (status : Int) (op j : Slot n)
  | reparentSet (status : Int) (op j : Slot n)
  | exitWake (status : Int) (op : Slot n)
  | exitZombie (status : Int) (op : Slot n)
  | exitRel (op : Slot n)
  | exitSched
  | dead
  -- `wait`, of which `copy` says whether the address for the status is not 0
  | wait (copy : Bool)
  | scan (copy : Bool) (i : Nat) (havekids : Bool)
  | scanLock (copy : Bool) (j : Slot n)
  | scanLook (copy : Bool) (j : Slot n)
  | reaped (j : Slot n) (ret : BitVec 32)
  | waitRet (ret : BitVec 32)
  | waitSleep (copy : Bool)
  | waitSched (copy : Bool)
  | waitBack (copy : Bool)
  -- `sleep` on a lock that is not `p->lock`
  | sleep (a : Nat)
  | sleepSched
  | sleepBack
  | forkret
  | kill (pid : BitVec 32) (i : Nat)
  | killing (pid : BitVec 32) (j : Slot n)
  deriving DecidableEq, Repr

/-- What was called, or what an interrupt runs, on top of that place. -/
inductive Trap (n : Nat)
  | off
  | yield
  | yieldSched
  | yieldBack
  | wakeup (chan : Chan n) (i : Nat)
  | waking (chan : Chan n) (j : Slot n)
  deriving DecidableEq, Repr

/-- What is on a kernel stack. -/
structure Thread (n : Nat) where
  pc : Pc n
  trap : Trap n
  deriving DecidableEq, Repr

/-- Nothing is on top. -/
def Thread.base {n : Nat} (pc : Pc n) : Thread n := ⟨pc, .off⟩

/-- What a CPU runs: `scheduler` with its loop variable, or what is on a kernel stack. An interrupt
may come in while `scheduler` holds no lock. -/
inductive Run (n : Nat)
  | sched (i : Nat)
  | look (j : Slot n)
  | back (j : Slot n)
  | thread (p : Slot n)
  | irq (chan : Chan n) (i : Nat) (resume : Nat)
  | irqHold (chan : Chan n) (j : Slot n) (resume : Nat)
  deriving DecidableEq, Repr

/-- `struct cpu` -/
structure Cpu (n : Nat) where
  proc : Option (Slot n)
  run : Run n
  deriving DecidableEq, Repr

structure State (n : Nat) (C : Type) where
  proc : Slot n → Entry n C
  thread : Slot n → Thread n
  stack : Slot n → Option C
  cpu : C → Cpu n
  nextpid : BitVec 32
  births : Nat
  history : List Event

variable {n : Nat} {C : Type}

namespace Entry

def withLock (l : Option C) (e : Entry n C) : Entry n C := { e with lock := l }

/-- The body of `wakeup`, and of `wakeup1` with the process itself as the channel. -/
def wakeup (chan : Chan n) (e : Entry n C) : Entry n C :=
  if e.state = .sleeping ∧ e.chan = some chan then { e with state := .runnable } else e

/-- What `kill` does to the process it finds. -/
def kill (e : Entry n C) : Entry n C :=
  { e with killed := true, state := if e.state = .sleeping then .runnable else e.state }

/-- `freeproc` -/
def free (e : Entry n C) : Entry n C :=
  { e with pid := 0, parent := none, chan := none, killed := false, xstate := 0, state := .unused }

end Entry

/-- The slot that a loop over `proc[]` has come to. -/
def slot? (i : Nat) : Option (Slot n) := if h : i < n + 1 then some ⟨i, h⟩ else none

theorem slot?_some {i : Nat} {j : Slot n} (h : slot? i = some j) : j.val = i := by
  unfold slot? at h
  split at h
  next => cases h; rfl
  next => cases h

theorem slot?_none {i : Nat} (h : slot? (n := n) i = none) (j : Slot n) : j.val < i := by
  unfold slot? at h
  split at h
  next => cases h
  next hi => exact lt_of_lt_of_le j.isLt (Nat.le_of_not_lt hi)

namespace State

variable (s : State n C)

def setEntry (j : Slot n) (e : Entry n C) : State n C := { s with proc := update s.proc j e }

def setThread (p : Slot n) (t : Thread n) : State n C := { s with thread := update s.thread p t }

@[simp] theorem setThread_self (p : Slot n) (t : Thread n) : (s.setThread p t).thread p = t := update_self ..

theorem setThread_of_ne {p q : Slot n} (h : q ≠ p) (t : Thread n) : (s.setThread p t).thread q = s.thread q :=
  update_of_ne h ..

def setStack (p : Slot n) (c : Option C) : State n C := { s with stack := update s.stack p c }

def setCpu [DecidableEq C] (c : C) (x : Cpu n) : State n C := { s with cpu := update s.cpu c x }

def record (e : Event) : State n C := { s with history := e :: s.history }

/-- `p->pid = allocpid()` -/
def allocpid (j : Slot n) : State n C :=
  { s with proc := update s.proc j { s.proc j with pid := s.nextpid }, nextpid := s.nextpid + 1 }

/-- `np->state = RUNNABLE` in `fork`, with which the new process is there. -/
def start (p j : Slot n) : State n C :=
  { s with
    proc := update s.proc j
      { s.proc j with state := .runnable, birth := s.births, creator := (s.proc p).birth }
    births := s.births + 1 }

end State

/-- What the code on a kernel stack does next, and where it then is. -/
inductive Effect (n : Nat) (C : Type)
  | goto (t : Thread n)
  /-- take the lock of a slot and change the slot -/
  | acquire (j : Slot n) (f : Entry n C → Entry n C) (t : Thread n)
  /-- change a slot and give up its lock -/
  | release (j : Slot n) (f : Entry n C → Entry n C) (t : Thread n)
  | store (j : Slot n) (f : Entry n C → Entry n C) (t : Thread n)
  | wakeup1 (j : Slot n) (t : Thread n)
  | allocpid (j : Slot n) (t : Thread n)
  /-- set up the context of a new process, to start in `forkret` -/
  | context (j : Slot n) (t : Thread n)
  | start (j : Slot n) (t : Thread n)
  /-- `freeproc`, when `fork` fails -/
  | free (j : Slot n) (t : Thread n)
  /-- free a child, of which `wait` returns the pid -/
  | reap (j : Slot n) (t : Thread n)
  /-- `sched` -/
  | swtch (t : Thread n)
  | panic (e : SpinPanic)

/-- The code on the kernel stack of `p`, at a place outside `yield` and `wakeup`. In the steps that
allocate memory or copy to user space `ok` says whether that succeeds. -/
def Pc.next (s : State n C) (p : Slot n) (ok : Bool) : Pc n → Option (Effect n C)
  | .user => none
  | .alloc i =>
    match slot? i with
    | some j =>
      if (s.proc j).state = .unused then some (.acquire j id (.base (.allocPid j)))
      else some (.acquire j id (.base (.allocSkip j)))
    | none => some (.goto (.base .user))
  | .allocSkip j => some (.release j id (.base (.alloc (j.val + 1))))
  | .allocPid j =>
    if ok then some (.allocpid j (.base (.allocPagetable j))) else some (.allocpid j (.base (.allocFail j)))
  | .allocPagetable j =>
    if ok then some (.context j (.base (.forkCopy j))) else some (.free j (.base (.allocFail j)))
  | .allocFail j => some (.release j id (.base .user))
  | .forkCopy j => if ok then some (.goto (.base (.forkParent j))) else some (.free j (.base (.allocFail j)))
  | .forkParent j => some (.store j (fun e => { e with parent := some p }) (.base (.forkRun j)))
  | .forkRun j => some (.start j (.base (.forkRel j)))
  | .forkRel j => some (.release j id (.base .user))
  | .exit st => some (.acquire initproc (Entry.wakeup (.proc initproc)) (.base (.exitInit st)))
  | .exitInit st => some (.release initproc id (.base (.exitSelf st)))
  | .exitSelf st => some (.acquire p id (.base (.exitRead st)))
  | .exitRead st =>
    match (s.proc p).parent with
    | some op => some (.release p id (.base (.exitParent st op)))
    | none => none
  | .exitParent st op => some (.acquire op id (.base (.exitBoth st op)))
  | .exitBoth st op => some (.acquire p id (.base (.reparent st op 0)))
  | .reparent st op i =>
    match slot? i with
    | some j =>
      if (s.proc j).parent = some p then some (.goto (.base (.reparentLock st op j)))
      else some (.goto (.base (.reparent st op (i + 1))))
    | none => some (.goto (.base (.exitWake st op)))
  | .reparentLock st op j => some (.acquire j id (.base (.reparentSet st op j)))
  | .reparentSet st op j =>
    some (.release j (fun e => { e with parent := some initproc }) (.base (.reparent st op (j.val + 1))))
  | .exitWake st op => some (.wakeup1 op (.base (.exitZombie st op)))
  | .exitZombie st op => some (.store p (fun e => { e with xstate := st, state := .zombie }) (.base (.exitRel op)))
  | .exitRel op => some (.release op id (.base .exitSched))
  | .exitSched => some (.swtch (.base .dead))
  | .dead => some (.panic .zombieExit)
  | .wait copy => some (.acquire p id (.base (.scan copy 0 false)))
  | .scan copy i havekids =>
    match slot? i with
    | some j =>
      if (s.proc j).parent = some p then some (.goto (.base (.scanLock copy j)))
      else some (.goto (.base (.scan copy (i + 1) havekids)))
    | none =>
      if havekids = false ∨ (s.proc p).killed = true then some (.goto (.base (.waitRet (-1))))
      else some (.goto (.base (.waitSleep copy)))
  | .scanLock copy j => some (.acquire j id (.base (.scanLook copy j)))
  | .scanLook copy j =>
    if (s.proc j).state = .zombie then
      if copy = true ∧ ok = false then some (.goto (.base (.reaped j (-1))))
      else some (.reap j (.base (.reaped j (s.proc j).pid)))
    else some (.release j id (.base (.scan copy (j.val + 1) true)))
  | .reaped j ret => some (.release j id (.base (.waitRet ret)))
  | .waitRet _ => some (.release p id (.base .user))
  | .waitSleep copy =>
    some (.store p (fun e => { e with chan := some (.proc p), state := .sleeping }) (.base (.waitSched copy)))
  | .waitSched copy => some (.swtch (.base (.waitBack copy)))
  | .waitBack copy => some (.store p (fun e => { e with chan := none }) (.base (.scan copy 0 false)))
  | .sleep a => some (.acquire p (fun e => { e with chan := some (.addr a), state := .sleeping }) (.base .sleepSched))
  | .sleepSched => some (.swtch (.base .sleepBack))
  | .sleepBack => some (.release p (fun e => { e with chan := none }) (.base .user))
  | .forkret => some (.release p id (.base .user))
  | .kill pid i =>
    match slot? i with
    | some j => some (.acquire j id (.base (.killing pid j)))
    | none => some (.goto (.base .user))
  | .killing pid j =>
    if (s.proc j).pid = pid then some (.release j Entry.kill (.base .user))
    else some (.release j id (.base (.kill pid (j.val + 1))))

/-- `yield` and `wakeup`, on top of the place `pc`. -/
def Trap.next (p : Slot n) (pc : Pc n) : Trap n → Option (Effect n C)
  | .off => none
  | .yield => some (.acquire p (fun e => { e with state := .runnable }) ⟨pc, .yieldSched⟩)
  | .yieldSched => some (.swtch ⟨pc, .yieldBack⟩)
  | .yieldBack => some (.release p id ⟨pc, .off⟩)
  | .wakeup chan i =>
    match slot? i with
    | some j => some (.acquire j id ⟨pc, .waking chan j⟩)
    | none => some (.goto ⟨pc, .off⟩)
  | .waking chan j => some (.release j (Entry.wakeup chan) ⟨pc, .wakeup chan (j.val + 1)⟩)

def Thread.next (s : State n C) (p : Slot n) (ok : Bool) (t : Thread n) : Option (Effect n C) :=
  match t.trap with
  | .off => t.pc.next s p ok
  | trap => trap.next p t.pc

variable [DecidableEq C]

/-- `mycpu()->noff`: every `p->lock` that the CPU holds counts one `push_off`. -/
def State.noff (s : State n C) (c : C) : Nat := (List.finRange (n + 1)).countP fun j => (s.proc j).lock = some c

/-- `intr_get()`: interrupts come on again with the last `pop_off`. -/
def State.intr (s : State n C) (c : C) : Prop := s.noff c = 0

instance (s : State n C) (c : C) : Decidable (s.intr c) := inferInstanceAs (Decidable (_ = _))

/-- What CPU `c`, on the stack of `p`, does to the machine. -/
def Effect.exec (s : State n C) (c : C) (p : Slot n) : Effect n C → Option (Except SpinPanic (State n C))
  | .goto t => some (.ok (s.setThread p t))
  | .acquire j f t =>
    acquiring (s.proc j).lock c ((s.setEntry j ((f (s.proc j)).withLock (some c))).setThread p t)
  | .release j f t =>
    releasing (s.proc j).lock c ((s.setEntry j ((f (s.proc j)).withLock none)).setThread p t)
  | .store j f t => some (.ok ((s.setEntry j (f (s.proc j))).setThread p t))
  | .wakeup1 j t =>
    if (s.proc j).lock = some c then
      some (.ok ((s.setEntry j ((s.proc j).wakeup (.proc j))).setThread p t))
    else some (.error .wakeup1)
  | .allocpid j t => some (.ok ((s.allocpid j).setThread p t))
  | .context j t => some (.ok (((s.setThread j (.base .forkret)).setStack j none).setThread p t))
  | .start j t => some (.ok ((s.start p j).setThread p t))
  | .free j t => some (.ok ((s.setEntry j (s.proc j).free).setThread p t))
  | .reap j t =>
    some (.ok (((s.record (.wait (s.proc p).birth (s.proc j).creator (s.proc j).birth (s.proc j).pid (s.proc j).xstate)).setEntry
      j (s.proc j).free).setThread p t))
  | .swtch t =>
    if (s.proc p).lock ≠ some c then some (.error .schedLock)
    else if s.noff c ≠ 1 then some (.error .schedLocks)
    else if (s.proc p).state = .running then some (.error .schedRunning)
    else if s.intr c then some (.error .schedInterruptible)
    else some (.ok (((s.setThread p t).setStack p none).setCpu c ⟨(s.cpu c).proc, .back p⟩))
  | .panic e => some (.error e)

/-- `scheduler`, an interrupt that calls `wakeup` under it, or the code on a kernel stack. -/
def Run.step (s : State n C) (c : C) (ok : Bool) : Run n → Option (Except SpinPanic (State n C))
  | .sched i =>
    match slot? i with
    | some j =>
      acquiring (s.proc j).lock c
        ((s.setEntry j ((s.proc j).withLock (some c))).setCpu c ⟨(s.cpu c).proc, .look j⟩)
    | none => some (.ok (s.setCpu c ⟨(s.cpu c).proc, .sched 0⟩))
  | .look j =>
    if (s.proc j).state = .runnable then
      some (.ok (((s.setEntry j { s.proc j with state := .running }).setStack j (some c)).setCpu c ⟨some j, .thread j⟩))
    else
      releasing (s.proc j).lock c
        ((s.setEntry j ((s.proc j).withLock none)).setCpu c ⟨(s.cpu c).proc, .sched (j.val + 1)⟩)
  | .back j =>
    releasing (s.proc j).lock c ((s.setEntry j ((s.proc j).withLock none)).setCpu c ⟨none, .sched (j.val + 1)⟩)
  | .irq chan i resume =>
    match slot? i with
    | some j =>
      acquiring (s.proc j).lock c
        ((s.setEntry j ((s.proc j).withLock (some c))).setCpu c ⟨(s.cpu c).proc, .irqHold chan j resume⟩)
    | none => some (.ok (s.setCpu c ⟨(s.cpu c).proc, .sched resume⟩))
  | .irqHold chan j resume =>
    releasing (s.proc j).lock c
      ((s.setEntry j (((s.proc j).wakeup chan).withLock none)).setCpu c ⟨(s.cpu c).proc, .irq chan (j.val + 1) resume⟩)
  | .thread p =>
    match (s.thread p).next s p ok with
    | some e => e.exec s c p
    | none => none

/-- The locks that the code on the stack of `p` holds at a place. -/
def Pc.held (p : Slot n) : Pc n → List (Slot n)
  | .user | .alloc _ | .exit _ | .exitSelf _ | .exitParent .. | .wait _ | .sleep _ | .kill .. => []
  | .allocSkip j | .allocPid j | .allocPagetable j | .allocFail j | .forkCopy j | .forkParent j | .forkRun j
  | .forkRel j | .killing _ j => [j]
  | .exitInit _ => [initproc]
  | .exitRead _ | .exitSched | .dead | .scan .. | .scanLock .. | .waitRet _ | .waitSleep _ | .waitSched _
  | .waitBack _ | .sleepSched | .sleepBack | .forkret => [p]
  | .exitBoth _ op => [op]
  | .reparent _ op _ | .reparentLock _ op _ | .exitWake _ op | .exitZombie _ op | .exitRel op => [op, p]
  | .reparentSet _ op j => [j, op, p]
  | .scanLook _ j | .reaped j _ => [j, p]

/-- The calls of a process. -/
inductive Call
  | fork
  | exit (status : Int)
  | wait (copy : Bool)
  | kill (pid : BitVec 32)
  | sleep (a : Nat)
  deriving DecidableEq, Repr

def Call.entry : Call → Pc n
  | .fork => .alloc 0
  | .exit st => .exit st
  | .wait copy => .wait copy
  | .kill pid => .kill pid 0
  | .sleep a => .sleep a

inductive Act (n : Nat) (C : Type)
  /-- the process on CPU `c` makes a call -/
  | call (c : C) (k : Call)
  /-- a timer interrupt on CPU `c`, which makes the process yield -/
  | timer (c : C)
  /-- CPU `c` calls `wakeup`, in an interrupt or not -/
  | wakeup (c : C) (chan : Chan n)
  | go (c : C) (ok : Bool)
  deriving DecidableEq, Repr

/-- CPU `c` takes `k` steps, and memory does not run out. -/
def goes (c : C) (k : Nat) : List (Act n C) := List.replicate k (.go c true)

/-- `exit` of `initproc` panics; every other call starts at its first place. -/
def callStep (s : State n C) (p : Slot n) : Call → Option (Except SpinPanic (State n C))
  | .exit st =>
    if p = initproc then some (.error .initExiting)
    else some (.ok ((s.record (.exit (s.proc p).birth (s.proc p).pid st)).setThread p (.base (.exit st))))
  | k => some (.ok (s.setThread p (.base k.entry)))

/-- Interrupts are on where no spin lock is held. -/
def Thread.interruptible (p : Slot n) (t : Thread n) : Prop := t.trap = .off ∧ t.pc.held p = []

instance (p : Slot n) (t : Thread n) : Decidable (t.interruptible p) := inferInstanceAs (Decidable (_ ∧ _))

def step (s : State n C) : Act n C → Option (Except SpinPanic (State n C))
  | .call c k =>
    match (s.cpu c).run with
    | .thread p => if s.thread p = .base .user then callStep s p k else none
    | _ => none
  | .timer c =>
    match (s.cpu c).run with
    | .thread p =>
      if (s.thread p).interruptible p then some (.ok (s.setThread p ⟨(s.thread p).pc, .yield⟩)) else none
    | _ => none
  | .wakeup c chan =>
    match (s.cpu c).run with
    | .thread p =>
      if (s.thread p).interruptible p then some (.ok (s.setThread p ⟨(s.thread p).pc, .wakeup chan 0⟩)) else none
    | .sched i => some (.ok (s.setCpu c ⟨(s.cpu c).proc, .irq chan 0 i⟩))
    | _ => none
  | .go c ok => (s.cpu c).run.step s c ok

/-- A slot that was never used. -/
def Entry.empty : Entry n C :=
  { lock := none, state := .unused, parent := none, chan := none, killed := false, xstate := 0, pid := 0
    birth := 0, creator := 0 }

/-- After `userinit`: `initproc` is there and can run, and every CPU is about to enter the loop of
`scheduler`. -/
def boot (n : Nat) (C : Type) : State n C where
  proc p := if p = initproc then { Entry.empty with state := .runnable, pid := 1 } else Entry.empty
  thread p := if p = initproc then .base .forkret else .base .dead
  stack _ := none
  cpu _ := ⟨none, .sched 0⟩
  nextpid := 2
  births := 1
  history := []

end Xv6.Proc
