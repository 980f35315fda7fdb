import Xv6.Kernel.File

/-!
# The system calls that make, change and end processes

`proc.c`, `exec` with `sys_exec`, and `sbrk`. A call may find that `kalloc` fails; which of its
calls to `kalloc` do is given with it. `wait` either returns or goes to sleep: a process that was
woken goes on with a new scan, so that it calls `wait` again.

`step` runs one call of one process from start to end, and so a run is a list of calls.
-/

namespace Xv6.Kernel

open Prog Vm

/-! ## `proc.c` -/

def allocpid : Sys (BitVec 32) := do
  let pid ← read fun s => s.nextpid
  change fun s => s.setNextpid (pid + 1)
  return pid

section

variable (L : Layout)

/-- free a proc structure and the data hanging from it, including user pages. -/
def freeproc (p : Slot) : Sys Unit := do
  let q ← read fun s => s.proc p
  onlyIf (q.trapframe ≠ 0) (onMem (kfree L q.trapframe))
  onlyIf (q.pagetable ≠ 0) (onMem (procFreepagetable L q.pagetable q.sz))
  assign p Proc.free

/-- Look in the process table for an UNUSED proc. If found, initialize state required to run in the
kernel. -/
def allocproc : Sys (Option Slot) := do
  match ← read fun s => (List.finRange NPROC).find? fun p => (s.proc p).state = .unused with
  | none => return none
  | some p =>
    let pid ← allocpid
    assign p fun q => q.setPid pid
    let trapframe ← onMem kalloc
    assign p fun q => q.setTrapframe trapframe
    if trapframe = 0 then return none
    else
      let pagetable ← onMem (procPagetable L trapframe)
      assign p fun q => q.setPagetable pagetable
      if pagetable = 0 then
        freeproc L p
        return none
      else return some p

/-- `initcode`, and the name of the process that runs it -/
def initcode : List UInt8 :=
  [0x17, 0x05, 0x00, 0x00, 0x13, 0x05, 0x45, 0x02, 0x97, 0x05, 0x00, 0x00, 0x93, 0x85, 0x35, 0x02, 0x93, 0x08, 0x70,
    0x00, 0x73, 0x00, 0x00, 0x00, 0x93, 0x08, 0x20, 0x00, 0x73, 0x00, 0x00, 0x00, 0xef, 0xf0, 0x9f, 0xff, 0x2f, 0x69,
    0x6e, 0x69, 0x74, 0x00, 0x00, 0x24, 0x00, 0x00, 0x00, 0x00, 0x00, 0x00, 0x00, 0x00]

/-- prepare for the very first "return" from kernel to user. -/
def firstReturn (p : Slot) (root : Nat) : Sys Unit := do
  setReg p TF_EPC 0
  setReg p TF_SP PGSIZE
  assign p fun q => q.setName "initcode".toUTF8.toList
  assign p fun q => q.setCwd (some root)
  assign p fun q => q.setState .runnable

/-- Set up first user process. -/
def userinit (root : Nat) : Sys Unit := do
  match ← allocproc L with
  | none => stop .fault
  | some p =>
    change fun s => s.setInitproc (some p)
    let pagetable ← read fun s => (s.proc p).pagetable
    onMem (uvminit pagetable initcode)
    assign p fun q => q.setSz PGSIZE
    firstReturn p root

/-- Grow or shrink user memory by n bytes. The local `sz` is a `uint`. -/
def growproc (p : Slot) (n : BitVec 32) : Sys Int := do
  let q ← read fun s => s.proc p
  if 0 < n.toInt then
    let r ← onMem (uvmalloc L q.pagetable (q.sz % 2 ^ 32) ((q.sz % 2 ^ 32 + n.toNat) % 2 ^ 32))
    if r % 2 ^ 32 = 0 then return -1
    else
      assign p fun q => q.setSz (r % 2 ^ 32)
      return 0
  else if n.toInt < 0 then
    let r ← onMem (uvmdealloc L q.pagetable (q.sz % 2 ^ 32) ((q.sz % 2 ^ 32 + n.toNat) % 2 ^ 32))
    assign p fun q => q.setSz (r % 2 ^ 32)
    return 0
  else
    assign p fun q => q.setSz (q.sz % 2 ^ 32)
    return 0

def sysSbrk (p : Slot) (n : BitVec 32) : Sys Int := do
  let addr ← read fun s => (s.proc p).sz
  let r ← growproc L p n
  if r < 0 then return -1 else return (BitVec.ofNat 32 addr).toInt

/-- `*(np->trapframe) = *(p->trapframe); np->trapframe->a0 = 0;` -/
def childTrapframe (parent child : Nat → Word) : Nat → Word := fun i =>
  if i = TF_A0 then 0 else if i < TF_WORDS then parent i else child i

/-- increment reference counts on open file descriptors. -/
def dupFiles (p np : Slot) : Sys Unit :=
  each (fun fd => do
    match ← read fun s => (s.proc p).ofile fd with
    | none => return
    | some f =>
      filedup f
      assign np fun q => q.setOfile fd (some f)) (List.finRange NOFILE)

/-- `fork` after the memory has been copied. -/
def forkFinish (p np : Slot) : Sys Int := do
  let q ← read fun s => s.proc p
  let c ← read fun s => s.proc np
  assign np fun c => c.setSz q.sz
  assign np fun c => c.setParent (some p)
  onMem (change fun m => m.setPage c.trapframe (childTrapframe (m.word q.trapframe) (m.word c.trapframe)))
  dupFiles p np
  assign np fun c => c.setCwd q.cwd
  assign np fun c => c.setName q.name
  assign np fun c => c.setState .runnable
  return c.pid.toInt

/-- Create a new process, copying the parent. -/
def fork (p : Slot) : Sys Int := do
  match ← allocproc L with
  | none => return -1
  | some np =>
    let q ← read fun s => s.proc p
    let c ← read fun s => s.proc np
    let r ← onMem (uvmcopy L q.pagetable c.pagetable q.sz)
    if r < 0 then
      freeproc L np
      return -1
    else forkFinish p np

/-- Wake up p if it is sleeping in wait(); used by exit(). -/
def wakeup1 (p : Slot) : Sys Unit := do
  let q ← read fun s => s.proc p
  onlyIf (q.chan = some p ∧ q.state = .sleeping) (assign p fun q => q.setState .runnable)

/-- Pass p's abandoned children to init. -/
def reparent (p : Slot) : Sys Unit :=
  each (fun pp => do
    let q ← read fun s => s.proc pp
    let initproc ← read fun s => s.initproc
    onlyIf (q.parent = some p) (assign pp fun q => q.setParent initproc)) (List.finRange NPROC)

/-- Close all open files. -/
def closeFiles (p : Slot) : Sys Unit :=
  each (fun fd => do
    match ← read fun s => (s.proc p).ofile fd with
    | none => return
    | some f =>
      fileclose L f
      assign p fun q => q.setOfile fd none) (List.finRange NOFILE)

/-- `exit` after the files have been closed, with `initproc` and the parent. -/
def exitFinish (p initproc parent : Slot) (status : BitVec 32) : Sys Unit := do
  assign p fun q => q.setCwd none
  wakeup1 initproc
  reparent p
  wakeup1 parent
  assign p fun q => q.setXstate status
  assign p fun q => q.setState .zombie

/-- Exit the current process. -/
def exit (p : Slot) (status : BitVec 32) : Sys Unit := do
  let initproc ← read fun s => s.initproc
  if initproc = some p then stop .initExiting
  else
    closeFiles L p
    let parent ← read fun s => (s.proc p).parent
    match initproc, parent with
    | some initproc, some parent => exitFinish p initproc parent status
    | _, _ => stop .fault

/-- Store the exit status, unless the address for it is 0. -/
def copyStatus (pagetable addr : Nat) (xstate : BitVec 32) : Call Int :=
  if addr ≠ 0 then copyout pagetable addr (bytesLE 4 xstate.toNat) else return 0

/-- `wait` when it has found an exited child. -/
def reap (p np : Slot) (addr : Nat) : Sys Int := do
  let c ← read fun s => s.proc np
  let pagetable ← read fun s => (s.proc p).pagetable
  let r ← onMem (copyStatus pagetable addr c.xstate)
  if r < 0 then return -1
  else
    freeproc L np
    return c.pid.toInt

/-- Wait for a child process to exit and return its pid. Without a result the process sleeps. -/
def wait (p : Slot) (addr : Nat) : Sys (Option Int) := do
  assign p fun q => q.setChan none
  match ← read fun s => (List.finRange NPROC).find? fun np => (s.proc np).parent = some p ∧ (s.proc np).state = .zombie with
  | some np =>
    let r ← reap L p np addr
    return some r
  | none =>
    let kids ← read fun s => (List.finRange NPROC).find? fun np => (s.proc np).parent = some p
    let killed ← read fun s => (s.proc p).killed
    if kids = none ∨ killed = true then return some (-1)
    else
      assign p fun q => q.setChan (some p)
      assign p fun q => q.setState .sleeping
      return none

end

/-- Kill the process with the given pid. -/
def kill (pid : BitVec 32) : Sys Int := do
  match ← read fun s => (List.finRange NPROC).find? fun p => (s.proc p).pid = pid with
  | none => return -1
  | some p =>
    let q ← read fun s => s.proc p
    assign p Proc.setKilled
    onlyIf (q.state = .sleeping) (assign p fun q => q.setState .runnable)
    return 0

/-! ## `exec.c` and `sys_exec` -/

/-- `safestrcpy(p->name, last, sizeof(p->name))` of what follows the last slash -/
def baseName (path : List UInt8) : List UInt8 := (path.reverse.takeWhile (· ≠ 0x2f)).reverse.take 15

section

variable (L : Layout)

/-- Commit to the user image. -/
def commit (p : Slot) (path : List UInt8) (pagetable entry argc sz sp : Nat) : Sys Int := do
  let q ← read fun s => s.proc p
  setReg p TF_A1 sp
  assign p fun q => q.setName (baseName path)
  assign p fun q => q.setPagetable pagetable
  assign p fun q => q.setSz sz
  setReg p TF_EPC entry
  setReg p TF_SP sp
  onMem (procFreepagetable L q.pagetable q.sz)
  return argc

/-- `exec` after the file has been closed. -/
def execFinish (p : Slot) (path : List UInt8) (pagetable entry sz : Nat) (argv : List Nat) : Sys Int := do
  match ← onMem (buildImage L pagetable sz argv) with
  | .bad sz =>
    onMem (procFreepagetable L pagetable sz)
    return -1
  | .ready argc sz sp => commit L p path pagetable entry argc sz sp

section

variable {φ ε ι : Type} (F : Files φ ε ι)

/-- `bad:` with an inode -/
def execBad (ip : ι) : Prog (State × φ) (Panic ⊕ ε) Int := do
  second (F.iunlockput ip)
  second F.endOp
  return -1

/-- `exec` of a file with a good header. -/
def execImage (p : Slot) (path : List UInt8) (ip : ι) (elf : Elfhdr) (argv : List Nat) : Prog (State × φ) (Panic ⊕ ε) Int := do
  let trapframe ← first (read fun s => (s.proc p).trapframe)
  let pagetable ← first (onMem (procPagetable L trapframe))
  if pagetable = 0 then execBad F ip
  else
    let r ← zoom (fun t => (t.1.mem, t.2)) (fun u t => (t.1.setMem u.1, u.2))
      (loadProgram F ip L pagetable elf.phnum elf.phoff 0)
    if r.1 = false then
      first (onMem (procFreepagetable L pagetable r.2))
      execBad F ip
    else
      second (F.iunlockput ip)
      second F.endOp
      first (execFinish L p path pagetable elf.entry r.2 argv)

/-- `argv` has the pages of the argument strings. -/
def exec (p : Slot) (path : List UInt8) (argv : List Nat) : Prog (State × φ) (Panic ⊕ ε) Int := do
  second F.beginOp
  match ← second (F.namei path) with
  | none =>
    second F.endOp
    return -1
  | some ip =>
    second (F.ilock ip)
    let bytes ← second (F.readi ip 0 ELFSIZE)
    if bytes.length ≠ ELFSIZE then execBad F ip
    else if (Elfhdr.parse bytes).magic ≠ ELF_MAGIC then execBad F ip
    else execImage L F p path ip (Elfhdr.parse bytes) argv

end

/-- Fetch the uint64 at addr from the current process. -/
def fetchaddr (p : Slot) (addr : Nat) : Sys (Option Nat) := do
  let q ← read fun s => s.proc p
  if q.sz ≤ addr ∨ q.sz < (addr + 8) % 2 ^ 64 then return none
  else
    let bytes ← onMem (copyin q.pagetable addr 8)
    return bytes.map ofBytesLE

/-- Fetch the nul-terminated string at addr from the current process into a page. -/
def fetchstr (p : Slot) (addr page : Nat) : Sys Bool := do
  let q ← read fun s => s.proc p
  let r ← onMem (copyinstr q.pagetable addr PGSIZE)
  onMem (store page 0 r.1)
  return r.2

/-- The loop of `sys_exec`; `k` entries of `argv` are left. -/
def fetchArgs (p : Slot) (uargv : Nat) : Nat → Nat → List Nat → Sys (Bool × List Nat)
  | 0, _, argv => return (false, argv)
  | k + 1, i, argv => do
    match ← fetchaddr p ((uargv + 8 * i) % 2 ^ 64) with
    | none => return (false, argv)
    | some uarg =>
      if uarg = 0 then return (true, argv)
      else
        let page ← onMem kalloc
        if page = 0 then return (false, argv)
        else
          let ok ← fetchstr p uarg page
          if ok = true then fetchArgs p uargv k (i + 1) (argv ++ [page]) else return (false, argv ++ [page])

def freeArgs (argv : List Nat) : Sys Unit := each (fun page => onMem (kfree L page)) argv

def sysExec {φ ε ι : Type} (F : Files φ ε ι) (p : Slot) (path : List UInt8) (uargv : Nat) :
    Prog (State × φ) (Panic ⊕ ε) Int := do
  let args ← first (fetchArgs p uargv MAXARG 0 [])
  if args.1 = true then
    let ret ← exec L F p path args.2
    first (freeArgs L args.2)
    return ret
  else
    first (freeArgs L args.2)
    return -1

end

/-! ## Runs -/

/-- A call of a process, and a store of its own to user memory. `exec` comes with the bytes of the
file that `namei` finds. -/
inductive Op
  | fork
  | exec (path : List UInt8) (file : Option (List UInt8)) (uargv : Nat)
  | sbrk (n : BitVec 32)
  | exit (status : BitVec 32)
  | wait (addr : Nat)
  | kill (pid : BitVec 32)
  | pipe (fdarray : Nat)
  | close (fd : Desc)
  | dup (fd : Desc)
  | open (device readable writable : Bool) (ip : Nat)
  | store (va : Nat) (bytes : List UInt8)

/-- What a call does; its result goes to the user. -/
def Op.call (L : Layout) (p : Slot) : Op → Sys Unit
  | .fork => do let _ ← Kernel.fork L p
  | .exec path file uargv => do let _ ← alone (sysExec L (.ofBytes file) p path uargv)
  | .sbrk n => do let _ ← sysSbrk L p n
  | .exit status => Kernel.exit L p status
  | .wait addr => do let _ ← Kernel.wait L p addr
  | .kill pid => do let _ ← Kernel.kill pid
  | .pipe fdarray => do let _ ← sysPipe L p fdarray
  | .close fd => do let _ ← sysClose L p fd
  | .dup fd => do let _ ← sysDup p fd
  | .open device readable writable ip => do let _ ← sysOpen L p device readable writable ip
  | .store va bytes => do
    let pagetable ← read fun s => (s.proc p).pagetable
    let _ ← onMem (copyout pagetable va bytes)

/-- A process that can run makes a call, in which `kalloc` fails as `fails` says. -/
structure Action where
  proc : Slot
  op : Op
  fails : List Bool

def step (L : Layout) (s : State) (a : Action) : Option (Except Panic State) :=
  if (s.proc a.proc).state = .runnable then
    match a.op.call L a.proc (s.setMem (s.mem.setFails a.fails)) with
    | .ok _ s' => some (.ok s')
    | .stop e _ => some (.error e)
  else none

end Xv6.Kernel
