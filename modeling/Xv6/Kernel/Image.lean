import Xv6.Param
import Xv6.Vm.Code

/-!
# Building a user image

The page-table functions of `proc.c`, and `exec.c` up to the point where it commits. The calls of
the file system are what `Files` has: `exec` runs them on the file system's state, beside its own.
Every field of a header is what the bytes say, and every assignment to a narrower type truncates, as
in the source: `off` is an `int`, the offset and the size of a segment are `uint`s.
-/

namespace Xv6.Kernel

open Prog Vm

/-! ## `proc.c` -/

section

variable (L : Layout)

/-- Create a user page table for a given process, with no user memory, but with trampoline pages. -/
def procPagetable (trapframe : Nat) : Call Nat := do
  let pagetable ← uvmcreate
  if pagetable = 0 then return 0
  else
    let r ← mappages pagetable TRAMPOLINE PGSIZE L.trampoline (PTE_R ||| PTE_X)
    if r < 0 then
      uvmfree L pagetable 0
      return 0
    else
      let r ← mappages pagetable TRAPFRAME PGSIZE trapframe (PTE_R ||| PTE_W)
      if r < 0 then
        uvmunmap L pagetable TRAMPOLINE 1 false
        uvmfree L pagetable 0
        return 0
      else return pagetable

/-- Free a process's page table, and free the physical memory it refers to. -/
def procFreepagetable (pagetable sz : Nat) : Call Unit := do
  uvmunmap L pagetable TRAMPOLINE 1 false
  uvmunmap L pagetable TRAPFRAME 1 false
  uvmfree L pagetable sz

end

/-! ## Files and their headers -/

/-- What `exec` calls of the file system, whose state is a `φ` and whose inodes are named by `ι`. -/
structure Files (φ ε ι : Type) where
  beginOp : Prog φ ε Unit
  namei (path : List UInt8) : Prog φ ε (Option ι)
  ilock (ip : ι) : Prog φ ε Unit
  /-- what `readi` copies to a kernel address -/
  readi (ip : ι) (off n : Nat) : Prog φ ε (List UInt8)
  iunlockput (ip : ι) : Prog φ ε Unit
  endOp : Prog φ ε Unit

/-- What `readi` copies of a file with these bytes. -/
def readi (file : List UInt8) (off n : Nat) : List UInt8 :=
  if file.length < off ∨ (off + n) % 2 ^ 32 < off then [] else (file.drop off).take n

/-- A file system that finds the same file for every path and does nothing else. The inode is its
bytes. -/
def Files.ofBytes (file : Option (List UInt8)) : Files Unit Empty (List UInt8) where
  beginOp := pure ()
  namei _ := pure file
  ilock _ := pure ()
  readi ip off n := pure (Kernel.readi ip off n)
  iunlockput _ := pure ()
  endOp := pure ()

/-- A field of a header. -/
def field (bytes : List UInt8) (off n : Nat) : Nat := ofBytesLE ((bytes.drop off).take n)

/-- "\x7FELF" in little endian -/
def ELF_MAGIC : Nat := 0x464C457F
def ELF_PROG_LOAD : Nat := 1
/-- `sizeof(struct elfhdr)` -/
def ELFSIZE : Nat := 64
/-- `sizeof(struct proghdr)` -/
def PHSIZE : Nat := 56

/-- The fields of `struct elfhdr` that `exec` reads. -/
structure Elfhdr where
  magic : Nat
  entry : Nat
  phoff : Nat
  phnum : Nat

def Elfhdr.parse (bytes : List UInt8) : Elfhdr where
  magic := field bytes 0 4
  entry := field bytes 24 8
  phoff := field bytes 32 8
  phnum := field bytes 56 2

/-- The fields of `struct proghdr` that `exec` reads. -/
structure Proghdr where
  type : Nat
  off : Nat
  vaddr : Nat
  filesz : Nat
  memsz : Nat

def Proghdr.parse (bytes : List UInt8) : Proghdr where
  type := field bytes 0 4
  off := field bytes 8 8
  vaddr := field bytes 16 8
  filesz := field bytes 32 8
  memsz := field bytes 40 8

/-! ## `exec.c` -/

/-- A call that touches memory and the file system. -/
abbrev FileCall (φ ε α : Type) := Prog (Mem × φ) (Panic ⊕ ε) α

section

variable {φ ε ι : Type} (F : Files φ ε ι) (ip : ι)

/-- The loop of `loadseg`. -/
def loadLoop (pagetable va offset sz : Nat) : Nat → Nat → FileCall φ ε Int
  | 0, _ => return 0
  | k + 1, i => do
    let pa ← first (walkaddr pagetable (va + i))
    if pa = 0 then first (stop .loadsegExist)
    else
      let bytes ← second (F.readi ip ((offset + i) % 2 ^ 32) (min (sz - i) PGSIZE))
      first (store pa 0 bytes)
      if bytes.length ≠ min (sz - i) PGSIZE then return -1
      else loadLoop pagetable va offset sz k (i + PGSIZE)

/-- Load a program segment into `pagetable` at virtual address `va`. -/
def loadseg (pagetable va offset sz : Nat) : FileCall φ ε Int :=
  if va % PGSIZE ≠ 0 then first (stop .loadsegAligned)
  else loadLoop F ip pagetable va offset sz (pagesUpTo 0 sz) 0

variable (L : Layout)

/-- One program header. The result is whether to go on, and the size so far. -/
def loadSegment (pagetable : Nat) (ph : Proghdr) (sz : Nat) : FileCall φ ε (Bool × Nat) := do
  if ph.type ≠ ELF_PROG_LOAD then return (true, sz)
  else if ph.memsz < ph.filesz then return (false, sz)
  else if (ph.vaddr + ph.memsz) % 2 ^ 64 < ph.vaddr then return (false, sz)
  else
    let sz1 ← first (uvmalloc L pagetable sz ((ph.vaddr + ph.memsz) % 2 ^ 64))
    if sz1 = 0 then return (false, sz)
    else if ph.vaddr % PGSIZE ≠ 0 then return (false, sz1)
    else
      let r ← loadseg F ip pagetable ph.vaddr (ph.off % 2 ^ 32) (ph.filesz % 2 ^ 32)
      return (decide (0 ≤ r), sz1)

/-- The loop over the program headers. -/
def loadProgram (pagetable : Nat) : Nat → Nat → Nat → FileCall φ ε (Bool × Nat)
  | 0, _, sz => return (true, sz)
  | k + 1, off, sz => do
    let bytes ← second (F.readi ip (off % 2 ^ 32) PHSIZE)
    if bytes.length ≠ PHSIZE then return (false, sz)
    else
      let r ← loadSegment F ip L pagetable (Proghdr.parse bytes) sz
      if r.1 = true then loadProgram pagetable k (off + PHSIZE) r.2 else return r

end

/-- The string that starts a page, without its null. -/
def pageString (row : Nat → Word) : List UInt8 := (getBytes row 0 PGSIZE).takeWhile (· ≠ 0)

/-- `sp -= n; sp -= sp % 16;` on 64 bits -/
def pushed (sp n : Nat) : Nat := (sp + 2 ^ 64 - n) % 2 ^ 64 / 16 * 16

/-- Push the argument string of number `argc`; the result is the new stack pointer. -/
def pushArg (pagetable stackbase argc page sp : Nat) : Call (Option Nat) :=
  if MAXARG ≤ argc then return none
  else do
    let arg ← read fun m => pageString (m.word page)
    if pushed sp (arg.length + 1) < stackbase then return none
    else
      let r ← copyout pagetable (pushed sp (arg.length + 1)) (arg ++ [0])
      if r < 0 then return none
      else return some (pushed sp (arg.length + 1))

/-- The loop that pushes the argument strings; the result is the stack pointer and `ustack`. -/
def pushArgs (pagetable stackbase : Nat) : List Nat → Nat → List Nat → Call (Option (Nat × List Nat))
  | [], sp, ustack => return some (sp, ustack)
  | page :: argv, sp, ustack => do
    match ← pushArg pagetable stackbase ustack.length page sp with
    | none => return none
    | some sp => pushArgs pagetable stackbase argv sp (ustack ++ [sp])

/-- Push the array of argv[] pointers; the result is `argc` and the stack pointer. -/
def pushUstack (pagetable stackbase sp : Nat) (ustack : List Nat) : Call (Option (Nat × Nat)) :=
  if pushed sp ((ustack.length + 1) * 8) < stackbase then return none
  else do
    let r ← copyout pagetable (pushed sp ((ustack.length + 1) * 8)) ((ustack ++ [0]).flatMap (bytesLE 8))
    if r < 0 then return none
    else return some (ustack.length, pushed sp ((ustack.length + 1) * 8))

/-- The user stack: the arguments and the array of pointers to them. The result is `argc` and `sp`.
-/
def pushStack (pagetable sz : Nat) (argv : List Nat) : Call (Option (Nat × Nat)) := do
  match ← pushArgs pagetable (sz - PGSIZE) argv sz [] with
  | none => return none
  | some (sp, ustack) => pushUstack pagetable (sz - PGSIZE) sp ustack

/-- What `exec` has built in the new page table when it commits or gives up. -/
inductive Image
  /-- `goto bad` with this size -/
  | bad (sz : Nat)
  | ready (argc sz sp : Nat)

section

variable (L : Layout)

/-- `exec` from the end of the program, of size `sz`, to the commit. -/
def buildImage (pagetable sz : Nat) (argv : List Nat) : Call Image := do
  -- Allocate two pages at the next page boundary. Use the second as the user stack.
  let sz1 ← uvmalloc L pagetable (PGROUNDUP sz) ((PGROUNDUP sz + 2 * PGSIZE) % 2 ^ 64)
  if sz1 = 0 then return .bad (PGROUNDUP sz)
  else
    uvmclear pagetable (sz1 - 2 * PGSIZE)
    match ← pushStack pagetable sz1 argv with
    | none => return .bad sz1
    | some (argc, sp) => return .ready argc sz1 sp

end

end Xv6.Kernel
