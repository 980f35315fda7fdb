import Xv6.Kernel.Image
import Xv6.Proc.Spinlock

/-!
# The processes, the open files and memory

The state on which the system calls work, one call at a time: memory, `proc[]`, `ftable` and what
hangs from them. A process points to its page table and its trapframe, which are pages of memory,
and to its open files. A file of type `FD_PIPE` points to the page of its pipe. Locks are left out,
since calls do not overlap.
-/

namespace Xv6.Kernel

open Prog Vm Function

abbrev Slot := Fin NPROC

abbrev Desc := Fin NOFILE

abbrev FileId := Fin NFILE

/-- What `struct proc` holds besides its lock, its kernel stack and its saved registers. The null
pointer of memory is 0, those to processes, files and inodes are `none`. -/
structure Proc where
  state : ProcState
  parent : Option Slot
  /-- what the process sleeps on; only `wait` sleeps here, on a process -/
  chan : Option Slot
  killed : Bool
  xstate : BitVec 32
  pid : BitVec 32
  sz : Nat
  pagetable : Nat
  trapframe : Nat
  ofile : Desc → Option FileId
  cwd : Option Nat
  name : List UInt8

namespace Proc

/-- `proc[]` is zero before the first call. -/
def zero : Proc where
  state := .unused
  parent := none
  chan := none
  killed := false
  xstate := 0
  pid := 0
  sz := 0
  pagetable := 0
  trapframe := 0
  ofile := fun _ => none
  cwd := none
  name := []

variable (q : Proc)

def setState (x : ProcState) : Proc := { q with state := x }
def setParent (x : Option Slot) : Proc := { q with parent := x }
def setChan (x : Option Slot) : Proc := { q with chan := x }
def setKilled : Proc := { q with killed := true }
def setXstate (x : BitVec 32) : Proc := { q with xstate := x }
def setPid (x : BitVec 32) : Proc := { q with pid := x }
def setSz (x : Nat) : Proc := { q with sz := x }
def setPagetable (x : Nat) : Proc := { q with pagetable := x }
def setTrapframe (x : Nat) : Proc := { q with trapframe := x }
def setOfile (fd : Desc) (x : Option FileId) : Proc := { q with ofile := update q.ofile fd x }
def setOfiles (x : Desc → Option FileId) : Proc := { q with ofile := x }
def setCwd (x : Option Nat) : Proc := { q with cwd := x }
def setName (x : List UInt8) : Proc := { q with name := x }

/-- The fields that `freeproc` clears. -/
def free : Proc :=
  { q with
    trapframe := 0, pagetable := 0, sz := 0, pid := 0, parent := none, name := [], chan := none, killed := false,
    xstate := 0, state := .unused }

end Proc

inductive FileType
  | nothing
  | pipe
  | inode
  | device
  deriving DecidableEq, Repr

/-- `struct file` without the fields of an inode's file that only `fileread` and `filewrite` use. -/
structure File where
  type : FileType
  ref : Nat
  readable : Bool
  writable : Bool
  /-- the page of the pipe -/
  pipe : Nat
  ip : Nat

namespace File

def zero : File := ⟨.nothing, 0, false, false, 0, 0⟩

variable (x : File)

def setRef (n : Nat) : File := { x with ref := n }

/-- `f->ref = 0; f->type = FD_NONE;` -/
def clear : File := { x with ref := 0, type := .nothing }

/-- The end of a pipe, in the assignments of `pipealloc`. -/
def setPipe (writable : Bool) (page : Nat) : File :=
  { x with type := .pipe, readable := !writable, writable := writable, pipe := page }

/-- The assignments of `sys_open`. -/
def setInode (device readable writable : Bool) (ip : Nat) : File :=
  { x with type := if device then .device else .inode, readable := readable, writable := writable, ip := ip }

end File

structure State where
  mem : Mem
  kernelPagetable : Nat
  proc : Slot → Proc
  initproc : Option Slot
  nextpid : BitVec 32
  file : FileId → File

namespace State

variable (s : State)

def setMem (m : Mem) : State := { s with mem := m }
def setKernelPagetable (root : Nat) : State := { s with kernelPagetable := root }
def setProc (p : Slot) (q : Proc) : State := { s with proc := update s.proc p q }
def setInitproc (p : Option Slot) : State := { s with initproc := p }
def setNextpid (pid : BitVec 32) : State := { s with nextpid := pid }
def setFile (f : FileId) (x : File) : State := { s with file := update s.file f x }

variable (p : Slot) (q q' : Proc) (m m' : Mem)

@[simp] theorem setProc_proc : (s.setProc p q).proc p = q := update_self ..

@[simp] theorem setProc_self : s.setProc p (s.proc p) = s := by
  unfold setProc
  rw [update_eq_self]

@[simp] theorem setProc_setProc : (s.setProc p q).setProc p q' = s.setProc p q' := by
  unfold setProc
  rw [update_idem]

@[simp] theorem setMem_proc : (s.setMem m).proc = s.proc := rfl

@[simp] theorem setMem_setMem : (s.setMem m).setMem m' = s.setMem m' := rfl

@[simp] theorem setProc_setMem : (s.setProc p q).setMem m = (s.setMem m).setProc p q := rfl

@[simp] theorem setNextpid_proc (x : BitVec 32) : (s.setNextpid x).proc = s.proc := rfl

@[simp] theorem setNextpid_setMem (x : BitVec 32) : (s.setNextpid x).setMem m = (s.setMem m).setNextpid x := rfl

variable {p} in
theorem setProc_of_ne {r : Slot} (h : r ≠ p) : (s.setProc p q).proc r = s.proc r := update_of_ne h ..

end State

abbrev Sys (α : Type) := Prog State Panic α

/-- A call that only touches memory. -/
def onMem {α : Type} (c : Call α) : Sys α := zoom State.mem (fun m s => s.setMem m) c

/-- Assignments to the fields of a process. -/
def assign (p : Slot) (g : Proc → Proc) : Sys Unit := change fun s => s.setProc p (g (s.proc p))

/-- Assignments to the fields of a file. -/
def assignFile (f : FileId) (g : File → File) : Sys Unit := change fun s => s.setFile f (g (s.file f))

/-! ## Registers of a trapframe

The words of `struct trapframe` that the kernel assigns to by name. -/

/-- saved user program counter -/
def TF_EPC : Nat := 3
def TF_SP : Nat := 6
def TF_A0 : Nat := 14
def TF_A1 : Nat := 15
/-- `sizeof(struct trapframe)` in words -/
def TF_WORDS : Nat := 36

/-- `p->trapframe->reg = w` -/
def setReg (p : Slot) (reg : Nat) (w : Nat) : Sys Unit := do
  let tf ← read fun s => (s.proc p).trapframe
  onMem (change fun m => m.setWord tf reg (BitVec.ofNat 64 w))

end Xv6.Kernel
