import Xv6.Lib.Update
import Xv6.User.Printf

/-!
# `primes.c`

A pipeline of processes, each of which makes the pipe to the next one and then forks it. `main`
writes numbers to the first pipe, `child1` passes the primes on, and each `childothers` prints the
first number it gets and passes on the others. The number of processes is not bounded, and they take
their steps in any order. `pipe` and `fork` succeed.

A pipe is what `pipe.c` makes of it: `pipewrite` puts bytes into it until it is full, and goes on
when there is room; `piperead` returns the bytes that there are, but no more than it was asked for,
and sleeps only if there are none. Where a process sleeps, it has no step. A descriptor is the end
of a pipe that it stands for, and an end is open as long as some process has it.
-/

namespace Xv6.Primes

open Function

/-! ## Numbers -/

/-- `int` -/
abbrev Word := BitVec 32

/-- The bytes of an `int` in memory. -/
def bytes (v : Word) : List Byte := [0, 1, 2, 3].map (Sector.putU32 (fun _ => 0) 0 v)

/-- The `int` that four bytes are. -/
def word (bs : List Byte) : Word := Sector.u32 (fun i => bs.getD i 0) 0

/-- What is in a variable of which the first bytes have been written. -/
def store (var bs : List Byte) : List Byte := bs ++ var.drop bs.length

/-- The loop of `is_prime`. -/
def noDivisor (n : Int) : Nat → Int → Bool
  | 0, _ => true
  | fuel + 1, i => if i < n then if n.tmod i = 0 then false else noDivisor n fuel (i + 1) else true

def isPrime (n : Int) : Bool := noDivisor n n.toNat 2

/-- `printf("prime %d\n", prime)` -/
def primeLine (prime : Word) : List Byte :=
  (Printf.printf (fun _ => []) ("prime %d\n".toList.map ascii) fun _ => prime.setWidth 64).getD []

/-! ## The system -/

def PIPESIZE : Nat := 512

inductive End
  | rd
  | wr
  deriving DecidableEq, Repr

/-- All bytes that have been put into a pipe, and `nread`; `nwrite` is the number of the former. -/
structure Pipe where
  sent : List Byte
  nread : Nat
  deriving DecidableEq, Repr

namespace Pipe

def fresh : Pipe := ⟨[], 0⟩

/-- What is in the pipe. -/
def buf (p : Pipe) : List Byte := p.sent.drop p.nread

def room (p : Pipe) : Nat := PIPESIZE - p.buf.length

def take (p : Pipe) (n : Nat) : Pipe := { p with nread := p.nread + (p.buf.take n).length }

def put (p : Pipe) (bs : List Byte) : Pipe := { p with sent := p.sent ++ bs }

end Pipe

/-- Where a process is. The arguments are its variables, as far as they matter there. -/
inductive Loc
  -- `main`
  | mainPipe (todo : List Word)
  | mainFork (todo : List Word)
  | mainCloseRead (todo : List Word)
  | mainFor (todo : List Word)
  | mainWrite (bs : List Byte) (todo : List Word)
  | mainFailed
  | mainError (msg : List Byte)
  | mainChild
  -- `child1`
  | child1Call
  | child1Pipe
  | child1Fork
  | child1CloseRead
  | child1Read (num : List Byte)
  | child1Got (num : List Byte) (ret : Nat)
  | child1Write (num bs : List Byte)
  | child1Child
  -- `childothers`
  | othersCall
  | othersFirst
  | othersGot (prime : List Byte) (ret : Nat)
  | othersNone
  | othersExit
  | othersPrint (prime : List Byte) (cs : List Byte)
  | othersPipe (prime : List Byte)
  | othersFork (prime : List Byte)
  | othersCloseRead (prime : List Byte)
  | othersRead (prime : List Byte)
  | othersMore (prime : List Byte) (ret : Nat)
  | othersWrite (prime bs : List Byte)
  | othersChildLeft
  | othersChildWrite
  -- the ends of all three: `close(leftfd)`, `close(pipright[1])`, `wait(0)`
  | finishLeft
  | finishWrite
  | finishWait
  | exited
  /-- exited without having forked -/
  | exitedAlone
  deriving DecidableEq, Repr

/-- The two descriptors that a function has in its variables: `parentfd` or `leftfd`, and the ends
of the pipe that it has made. -/
inductive Side
  | left
  | right
  deriving DecidableEq, Repr

/-- A system call, and where the process goes on. -/
inductive Act
  | goto (k : Loc)
  | pipe (k : Loc)
  | fork (child parent : Loc)
  /-- the call of `child1` or `childothers` with the read end of the pipe made last -/
  | call (k : Loc)
  | close (side : Side) (e : End) (k : Loc)
  | read (k : List Byte → Loc)
  /-- `write` of what is left of an `int` -/
  | write (bs : List Byte) (again : List Byte → Loc) (failed k : Loc)
  | putc (c : Byte) (k : Loc)
  /-- `wait(0)` and then `exit` -/
  | wait (k : Loc)
  | exit (k : Loc)
  | none

/-- An `int` variable that has not been assigned to. -/
def unset : List Byte := [0, 0, 0, 0]

/-- The program. -/
def code : Loc → Act
  | .mainPipe todo => .pipe (.mainFork todo)
  | .mainFork todo => .fork .mainChild (.mainCloseRead todo)
  | .mainCloseRead todo => .close .right .rd (.mainFor todo)
  | .mainFor [] => .close .right .wr .finishWait
  | .mainFor (i :: todo) => .goto (.mainWrite (bytes i) todo)
  | .mainWrite bs todo => .write bs (fun bs => .mainWrite bs todo) .mainFailed (.mainFor todo)
  | .mainFailed => .close .right .wr (.mainError ("main write failed\n".toList.map ascii))
  | .mainError (c :: msg) => .putc c (.mainError msg)
  | .mainError [] => .exit .exited
  | .mainChild => .close .right .wr .child1Call
  | .child1Call => .call .child1Pipe
  | .child1Pipe => .pipe .child1Fork
  | .child1Fork => .fork .child1Child .child1CloseRead
  | .child1CloseRead => .close .right .rd (.child1Read unset)
  | .child1Read num => .read fun bs => .child1Got (store num bs) bs.length
  | .child1Got num ret =>
    if ret ≤ 0 then .goto .finishLeft
    else if isPrime (word num).toInt = true then .goto (.child1Write num num)
    else .goto (.child1Read num)
  -- what this `write` returns is not looked at
  | .child1Write num bs => .write bs (fun bs => .child1Write num bs) (.child1Read num) (.child1Read num)
  | .child1Child => .close .right .wr .othersCall
  | .othersCall => .call .othersFirst
  | .othersFirst => .read fun bs => .othersGot (store unset bs) bs.length
  | .othersGot prime ret => if ret ≤ 0 then .goto .othersNone else .goto (.othersPrint prime (primeLine (word prime)))
  | .othersNone => .close .left .rd .othersExit
  | .othersExit => .exit .exitedAlone
  | .othersPrint prime (c :: cs) => .putc c (.othersPrint prime cs)
  | .othersPrint prime [] => .goto (.othersPipe prime)
  | .othersPipe prime => .pipe (.othersFork prime)
  | .othersFork prime => .fork .othersChildLeft (.othersCloseRead prime)
  | .othersCloseRead prime => .close .right .rd (.othersRead prime)
  | .othersRead prime => .read fun bs => .othersMore (store prime bs) bs.length
  | .othersMore prime ret => if ret ≤ 0 then .goto .finishLeft else .goto (.othersWrite prime prime)
  | .othersWrite prime bs => .write bs (fun bs => .othersWrite prime bs) .finishLeft (.othersRead prime)
  | .othersChildLeft => .close .left .rd .othersChildWrite
  | .othersChildWrite => .close .right .wr .othersCall
  | .finishLeft => .close .left .rd .finishWrite
  | .finishWrite => .close .right .wr .finishWait
  | .finishWait => .wait .exited
  | .exited => .none
  | .exitedAlone => .none

structure Thread where
  loc : Loc
  left : Nat
  right : Nat
  fds : Finset (Nat × End)
  child : Option Nat

namespace Thread

def goto (t : Thread) (k : Loc) : Thread := { t with loc := k }

def piped (t : Thread) (p : Nat) (k : Loc) : Thread :=
  { t with loc := k, right := p, fds := insert (p, .rd) (insert (p, .wr) t.fds) }

def parent (t : Thread) (child : Nat) (k : Loc) : Thread := { t with loc := k, child := some child }

def born (t : Thread) (k : Loc) : Thread := { t with loc := k, child := none }

def call (t : Thread) (k : Loc) : Thread := { t with loc := k, left := t.right }

def side (t : Thread) : Side → Nat
  | .left => t.left
  | .right => t.right

def close (t : Thread) (side : Side) (e : End) (k : Loc) : Thread := { t with loc := k, fds := t.fds.erase (t.side side, e) }

def exit (t : Thread) (k : Loc) : Thread := { t with loc := k, fds := ∅ }

end Thread

structure Sys where
  procs : Nat → Thread
  nproc : Nat
  pipes : Nat → Pipe
  npipe : Nat
  /-- what has been printed -/
  out : List Byte

namespace Sys

def setProc (s : Sys) (i : Nat) (t : Thread) : Sys := { s with procs := update s.procs i t }

def setPipe (s : Sys) (p : Nat) (x : Pipe) : Sys := { s with pipes := update s.pipes p x }

def newPipe (s : Sys) : Sys := { s with pipes := update s.pipes s.npipe .fresh, npipe := s.npipe + 1 }

def newProc (s : Sys) (t : Thread) : Sys := { s with procs := update s.procs s.nproc t, nproc := s.nproc + 1 }

def print (s : Sys) (c : Byte) : Sys := { s with out := s.out ++ [c] }

/-- Some process has that end of the pipe. -/
def Open (s : Sys) (p : Nat) (e : End) : Prop := ∃ i < s.nproc, (p, e) ∈ (s.procs i).fds

instance (s : Sys) (p : Nat) (e : End) : Decidable (s.Open p e) := inferInstanceAs (Decidable (∃ i < s.nproc, _))

/-- The child of a process that waits has exited, or there is none. -/
def Reaped (s : Sys) (t : Thread) : Prop :=
  match t.child with
  | none => True
  | some c => (s.procs c).loc = .exited ∨ (s.procs c).loc = .exitedAlone

instance (s : Sys) (t : Thread) : Decidable (s.Reaped t) := by
  unfold Reaped
  split <;> infer_instance

end Sys

/-- What a system call of process `i` does. It is `none` while the process sleeps. -/
def act (s : Sys) (i : Nat) (t : Thread) : Act → Option Sys
  | .goto k => some (s.setProc i (t.goto k))
  | .pipe k => some (s.newPipe.setProc i (t.piped s.npipe k))
  | .fork child parent => some ((s.setProc i (t.parent s.nproc parent)).newProc (t.born child))
  | .call k => some (s.setProc i (t.call k))
  | .close side e k => some (s.setProc i (t.close side e k))
  | .read k =>
    if (s.pipes t.left).buf = [] ∧ s.Open t.left .wr then none
    else some ((s.setPipe t.left ((s.pipes t.left).take 4)).setProc i (t.goto (k ((s.pipes t.left).buf.take 4))))
  | .write bs again failed k =>
    if (s.pipes t.right).room = 0 then
      if s.Open t.right .rd then none else some (s.setProc i (t.goto failed))
    else if bs.length ≤ (s.pipes t.right).room then
      some ((s.setPipe t.right ((s.pipes t.right).put bs)).setProc i (t.goto k))
    else
      some ((s.setPipe t.right ((s.pipes t.right).put (bs.take (s.pipes t.right).room))).setProc i
        (t.goto (again (bs.drop (s.pipes t.right).room))))
  | .putc c k => some ((s.print c).setProc i (t.goto k))
  | .wait k => if s.Reaped t then some (s.setProc i (t.exit k)) else none
  | .exit k => some (s.setProc i (t.exit k))
  | .none => none

/-- A step of process `i`. -/
def step (s : Sys) (i : Nat) : Option Sys := if i < s.nproc then act s i (s.procs i) (code (s.procs i).loc) else none

/-- `main` starts. -/
def init (todo : List Word) : Sys where
  procs := fun _ => { loc := .mainPipe todo, left := 0, right := 0, fds := ∅, child := none }
  nproc := 1
  pipes := fun _ => .fresh
  npipe := 0
  out := []

/-- The states that the system can come to, from the start on which `main` writes `todo`. -/
inductive Reaches (s : Sys) : List Nat → Sys → Prop
  | start : Reaches s [] s
  | next {is : List Nat} {t u : Sys} (i : Nat) (h : Reaches s is t) (hstep : step t i = some u) : Reaches s (is ++ [i]) u

end Xv6.Primes
