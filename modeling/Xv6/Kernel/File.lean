import Xv6.Kernel.State

/-!
# `file.c`, `pipe.c` and the descriptors of a process

The file table counts the references to its entries; a pipe has the two flags `readopen` and
`writeopen`, which stand in one word of its page. `iput` on the inode of a file changes nothing
here.
-/

namespace Xv6.Kernel

open Prog Vm

/-! ## `struct pipe` -/

/-- The word of a pipe's page with the flags `readopen`, at byte 544, and `writeopen`, at byte 548.
-/
def PIPE_OPEN : Nat := 68

def readopen (w : Word) : BitVec 32 := w.extractLsb' 0 32
def writeopen (w : Word) : BitVec 32 := w.extractLsb' 32 32

def setReadopen (w : Word) (x : BitVec 32) : Word := writeopen w ++ x
def setWriteopen (w : Word) (x : BitVec 32) : Word := x ++ readopen w

/-- `pi->readopen = 0` or `pi->writeopen = 0` -/
def closeEnd (writable : Bool) (w : Word) : Word := if writable then setWriteopen w 0 else setReadopen w 0

section

variable (L : Layout)

/-- The wakeups are left out, nobody sleeps on a pipe here. -/
def pipeclose (page : Nat) (writable : Bool) : Call Unit := do
  change fun m => m.setWord page PIPE_OPEN (closeEnd writable (m.word page PIPE_OPEN))
  let w ← read fun m => m.word page PIPE_OPEN
  if readopen w = 0 ∧ writeopen w = 0 then kfree L page else return

/-! ## `file.c` -/

/-- Allocate a file structure. -/
def filealloc : Sys (Option FileId) := do
  match ← read fun s => (List.finRange NFILE).find? fun f => (s.file f).ref = 0 with
  | none => return none
  | some f =>
    assignFile f fun x => x.setRef 1
    return some f

/-- Increment ref count for file f. -/
def filedup (f : FileId) : Sys Unit := do
  let x ← read fun s => s.file f
  if x.ref < 1 then stop .filedup else assignFile f fun x => x.setRef (x.ref + 1)

/-- Close file f.  (Decrement ref count, close when reaches 0.) -/
def fileclose (f : FileId) : Sys Unit := do
  let ff ← read fun s => s.file f
  if ff.ref < 1 then stop .fileclose
  else if 0 < ff.ref - 1 then assignFile f fun x => x.setRef (x.ref - 1)
  else
    assignFile f File.clear
    if ff.type = .pipe then onMem (pipeclose L ff.pipe ff.writable) else return

/-- `bad:` with two files -/
def closeBoth (rf wf : FileId) : Sys Unit := do
  fileclose L rf
  fileclose L wf

def pipealloc : Sys (Option (FileId × FileId)) := do
  match ← filealloc with
  | none => return none
  | some f0 =>
    match ← filealloc with
    | none =>
      fileclose L f0
      return none
    | some f1 =>
      let page ← onMem kalloc
      if page = 0 then
        closeBoth L f0 f1
        return none
      else
        onMem (change fun m => m.setWord page PIPE_OPEN (setWriteopen (setReadopen (m.word page PIPE_OPEN) 1) 1))
        assignFile f0 fun x => x.setPipe false page
        assignFile f1 fun x => x.setPipe true page
        return some (f0, f1)

end

/-! ## Descriptors -/

/-- Allocate a file descriptor for the given file. Takes over file reference from caller on success.
-/
def fdalloc (p : Slot) (f : FileId) : Sys (Option Desc) := do
  match ← read fun s => (List.finRange NOFILE).find? fun fd => (s.proc p).ofile fd = none with
  | none => return none
  | some fd =>
    assign p fun q => q.setOfile fd (some f)
    return some fd

def sysDup (p : Slot) (fd : Desc) : Sys Int := do
  match ← read fun s => (s.proc p).ofile fd with
  | none => return -1
  | some f =>
    match ← fdalloc p f with
    | none => return -1
    | some fd =>
      filedup f
      return fd.val

section

variable (L : Layout)

def sysClose (p : Slot) (fd : Desc) : Sys Int := do
  match ← read fun s => (s.proc p).ofile fd with
  | none => return -1
  | some f =>
    assign p fun q => q.setOfile fd none
    fileclose L f
    return 0

/-- `sys_open` from the point where the inode is found and locked. -/
def sysOpen (p : Slot) (device readable writable : Bool) (ip : Nat) : Sys Int := do
  match ← filealloc with
  | none => return -1
  | some f =>
    match ← fdalloc p f with
    | none =>
      fileclose L f
      return -1
    | some fd =>
      assignFile f fun x => x.setInode device readable writable ip
      return fd.val

/-- Store the two descriptors; the result is whether that worked. -/
def copyoutPair (pagetable fdarray : Nat) (fd0 fd1 : Desc) : Call Bool := do
  let r0 ← copyout pagetable fdarray (bytesLE 4 fd0.val)
  if r0 < 0 then return false
  else
    let r1 ← copyout pagetable ((fdarray + 4) % 2 ^ 64) (bytesLE 4 fd1.val)
    return decide (0 ≤ r1)

/-- `sys_pipe` after both descriptors have been found. -/
def pipeCopyout (p : Slot) (fdarray : Nat) (fd0 fd1 : Desc) (rf wf : FileId) : Sys Int := do
  let pagetable ← read fun s => (s.proc p).pagetable
  let ok ← onMem (copyoutPair pagetable fdarray fd0 fd1)
  if ok = false then
    assign p fun q => q.setOfile fd0 none
    assign p fun q => q.setOfile fd1 none
    closeBoth L rf wf
    return -1
  else return 0

def sysPipe (p : Slot) (fdarray : Nat) : Sys Int := do
  match ← pipealloc L with
  | none => return -1
  | some (rf, wf) =>
    match ← fdalloc p rf with
    | none =>
      closeBoth L rf wf
      return -1
    | some fd0 =>
      match ← fdalloc p wf with
      | none =>
        assign p fun q => q.setOfile fd0 none
        closeBoth L rf wf
        return -1
      | some fd1 => pipeCopyout L p fdarray fd0 fd1 rf wf

end

end Xv6.Kernel
