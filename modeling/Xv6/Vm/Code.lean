import Xv6.Lib.Prog
import Xv6.Vm.Riscv

/-!
# `kalloc.c` and `vm.c`

Physical memory is 512 words to a page, and everything the two files keep is in it: the free list is
chained through the first words of the free pages, a page table is a tree of pages. A pointer is an
address, 0 the null pointer; a pointer to a page-table entry is the page and the index of the word.

`kalloc` fails when the free list is empty, and when the environment says so: `fails` holds its
answers to the coming calls. The kernel lock is left out, since one call runs at a time.
-/

namespace Xv6.Vm

open Prog Function

/-- What the linker decides. -/
structure Layout where
  /-- `end`, the first address after the kernel -/
  kend : Nat
  /-- the trampoline's page in the kernel's text -/
  trampoline : Nat
  kend_ge : KERNBASE ≤ kend
  kend_le : kend ≤ PHYSTOP
  trampoline_page : PageAddr trampoline
  trampoline_lt : trampoline < kend

/-- The panics of the modelled files; `fault` is the use of a null pointer, `depth` a page table of
more than three levels. -/
inductive Panic
  | kfree
  | walk
  | remap
  | uvmunmapAligned
  | uvmunmapWalk
  | uvmunmapNotMapped
  | uvmunmapNotLeaf
  | inituvm
  | freewalkLeaf
  | uvmcopyExist
  | uvmcopyPresent
  | uvmclear
  | loadsegAligned
  | loadsegExist
  | filedup
  | fileclose
  | initExiting
  | kvmmap
  | kalloc
  | fault
  | depth
  deriving DecidableEq, Repr

/-- Physical memory, `kmem.freelist`, and the environment's answers to `kalloc`. -/
structure Mem where
  word : Nat → Nat → Word
  freelist : Nat
  fails : List Bool

namespace Mem

variable (m : Mem)

def setWord (page i : Nat) (w : Word) : Mem := { m with word := Radix.set m.word page i w }

def setPage (page : Nat) (row : Nat → Word) : Mem := { m with word := update m.word page row }

def setFreelist (r : Nat) : Mem := { m with freelist := r }

def setFails (fails : List Bool) : Mem := { m with fails := fails }

variable {m}

@[simp] theorem setPage_self (page : Nat) (row : Nat → Word) : (m.setPage page row).word page = row :=
  update_self ..

theorem setPage_of_ne {page p : Nat} {row : Nat → Word} (h : p ≠ page) : (m.setPage page row).word p = m.word p :=
  update_of_ne h ..

end Mem

abbrev Call (α : Type) := Prog Mem Panic α

/-! ## Bytes of a page -/

def getByte (row : Nat → Word) (k : Nat) : UInt8 := ⟨(row (k / 8)).extractLsb' (8 * (k % 8)) 8⟩

def setByte (row : Nat → Word) (k : Nat) (b : UInt8) : Nat → Word :=
  update row (k / 8)
    (row (k / 8) &&& ~~~(0xFF#64 <<< (8 * (k % 8))) ||| b.toBitVec.setWidth 64 <<< (8 * (k % 8)))

/-- Store bytes in a page, from an offset on. -/
def setBytes (row : Nat → Word) (k : Nat) : List UInt8 → Nat → Word
  | [] => row
  | b :: bs => setBytes (setByte row k b) (k + 1) bs

def getBytes (row : Nat → Word) (k n : Nat) : List UInt8 := (List.range n).map fun i => getByte row (k + i)

/-- The bytes of a number, the lowest first. -/
def bytesLE : Nat → Nat → List UInt8
  | 0, _ => []
  | n + 1, x => UInt8.ofNat (x % 256) :: bytesLE n (x / 256)

def ofBytesLE : List UInt8 → Nat
  | [] => 0
  | b :: bs => b.toNat + 256 * ofBytesLE bs

/-- `memset(page, c, PGSIZE)` -/
def memset (page : Nat) (c : Word) : Call Unit := change fun m => m.setPage page fun _ => c * 0x0101010101010101

/-- `memmove(page + off, bytes, n)` within a page. -/
def store (page off : Nat) (bytes : List UInt8) : Call Unit := change fun m => m.setPage page (setBytes (m.word page) off bytes)

/-! ## `kalloc.c` -/

/-- Allocate one 4096-byte page of physical memory. -/
def kalloc : Call Nat := do
  let fail ← read fun m => m.fails.headD false
  change fun m => m.setFails m.fails.tail
  let r ← read fun m => m.freelist
  if fail = true ∨ r = 0 then return 0
  else
    change fun m => m.setFreelist (m.word r 0).toNat
    memset r 5
    return r

section

variable (L : Layout)

/-- Free the page of physical memory pointed at by `pa`. -/
def kfree (pa : Nat) : Call Unit := do
  if pa % PGSIZE ≠ 0 ∨ pa < L.kend ∨ PHYSTOP ≤ pa then stop .kfree
  else
    memset pa 1
    change fun m => (m.setWord pa 0 (BitVec.ofNat 64 m.freelist)).setFreelist pa

end

/-! ## `vm.c` -/

/-- A pointer to a page-table entry. -/
abbrev Pte := Nat × Nat

/-- there are 2^9 = 512 PTEs in a page table. -/
@[irreducible] def indices : List Nat := List.range 512

theorem mem_indices {i : Nat} : i ∈ indices ↔ i < 512 := by
  unfold indices
  exact List.mem_range

def getPte (pte : Pte) : Call Word := read fun m => m.word pte.1 pte.2

def setPte (pte : Pte) (w : Word) : Call Unit := change fun m => m.setWord pte.1 pte.2 w

/-- The loop of `walk`, from the page-table page at a level down. -/
def walkLevel (va : Nat) (alloc : Bool) : Nat → Nat → Call (Option Pte)
  | 0, pagetable => return some (pagetable, PX 0 va)
  | level + 1, pagetable => do
    let pte ← getPte (pagetable, PX (level + 1) va)
    if pte &&& PTE_V ≠ 0 then walkLevel va alloc level (PTE2PA pte)
    else if alloc = false then return none
    else
      let page ← kalloc
      if page = 0 then return none
      else
        memset page 0
        setPte (pagetable, PX (level + 1) va) (PA2PTE page ||| PTE_V)
        walkLevel va alloc level page

/-- Return the address of the PTE in page table `pagetable` that corresponds to virtual address
`va`. If `alloc`, create any required page-table pages. -/
def walk (pagetable va : Nat) (alloc : Bool) : Call (Option Pte) :=
  if MAXVA ≤ va then stop .walk else walkLevel va alloc 2 pagetable

/-- Look up a virtual address, return the physical address, or 0 if not mapped. -/
def walkaddr (pagetable va : Nat) : Call Nat := do
  if MAXVA ≤ va then return 0
  else
    match ← walk pagetable va false with
    | none => return 0
    | some pte =>
      let w ← getPte pte
      if w &&& PTE_V = 0 then return 0
      else if w &&& PTE_U = 0 then return 0
      else return PTE2PA w

/-- The loop of `mappages`: `n` pages after this one. -/
def mapLoop (pagetable : Nat) (perm : Word) : Nat → Nat → Nat → Call Int
  | n, a, pa => do
    match ← walk pagetable a true with
    | none => return -1
    | some pte =>
      let w ← getPte pte
      if w &&& PTE_V ≠ 0 then stop .remap
      else
        setPte pte (PA2PTE pa ||| perm ||| PTE_V)
        match n with
        | 0 => return 0
        | n + 1 => mapLoop pagetable perm n (a + PGSIZE) (pa + PGSIZE)

/-- Create PTEs for virtual addresses starting at `va` that refer to physical addresses starting at
`pa`. The loop ends at the last page, which it reaches modulo 2^64. -/
def mappages (pagetable va size pa : Nat) (perm : Word) : Call Int :=
  mapLoop pagetable perm
    ((PGROUNDDOWN ((va + size + 2 ^ 64 - 1) % 2 ^ 64) + 2 ^ 64 - PGROUNDDOWN va) % 2 ^ 64 / PGSIZE) (PGROUNDDOWN va) pa

/-- The number of turns of `for(a = lo; a < hi; a += PGSIZE)`. -/
def pagesUpTo (lo hi : Nat) : Nat := (hi - lo + PGSIZE - 1) / PGSIZE

/-- create an empty user page table. returns 0 if out of memory. -/
def uvmcreate : Call Nat := do
  let pagetable ← kalloc
  if pagetable = 0 then return 0
  else
    memset pagetable 0
    return pagetable

/-- Load the user initcode into address 0 of `pagetable`, for the very first process. -/
def uvminit (pagetable : Nat) (src : List UInt8) : Call Unit := do
  if PGSIZE ≤ src.length then stop .inituvm
  else
    let mem ← kalloc
    -- the page is used without a look at whether there is one
    if mem = 0 then stop .fault
    else
      memset mem 0
      let _ ← mappages pagetable 0 PGSIZE mem (PTE_W ||| PTE_R ||| PTE_X ||| PTE_U)
      store mem 0 src

/-- mark a PTE invalid for user access. -/
def uvmclear (pagetable va : Nat) : Call Unit := do
  match ← walk pagetable va false with
  | none => stop .uvmclear
  | some pte =>
    let w ← getPte pte
    setPte pte (w &&& ~~~PTE_U)

section

variable (L : Layout)

/-- The loop of `uvmunmap`. -/
def unmapLoop (pagetable : Nat) (doFree : Bool) : Nat → Nat → Call Unit
  | 0, _ => return
  | n + 1, a => do
    match ← walk pagetable a false with
    | none => stop .uvmunmapWalk
    | some pte =>
      let w ← getPte pte
      if w &&& PTE_V = 0 then stop .uvmunmapNotMapped
      else if PTE_FLAGS w = PTE_V then stop .uvmunmapNotLeaf
      else
        onlyIf (doFree = true) (kfree L (PTE2PA w))
        setPte pte 0
        unmapLoop pagetable doFree n (a + PGSIZE)

/-- Remove `npages` of mappings starting from `va`. Optionally free the physical memory. -/
def uvmunmap (pagetable va npages : Nat) (doFree : Bool) : Call Unit :=
  if va % PGSIZE ≠ 0 then stop .uvmunmapAligned
  else unmapLoop L pagetable doFree (pagesUpTo va ((va + npages * PGSIZE) % 2 ^ 64)) va

/-- Deallocate user pages to bring the process size from `oldsz` to `newsz`. -/
def uvmdealloc (pagetable oldsz newsz : Nat) : Call Nat := do
  if oldsz ≤ newsz then return oldsz
  else
    onlyIf (PGROUNDUP newsz < PGROUNDUP oldsz)
      (uvmunmap L pagetable (PGROUNDUP newsz) ((PGROUNDUP oldsz - PGROUNDUP newsz) / PGSIZE) true)
    return newsz

/-- A turn of `uvmalloc`: a zeroed page is mapped at `a`, or nothing is. -/
def allocPage (pagetable a : Nat) : Call Bool := do
  let mem ← kalloc
  if mem = 0 then return false
  else
    memset mem 0
    let r ← mappages pagetable a PGSIZE mem (PTE_W ||| PTE_X ||| PTE_R ||| PTE_U)
    if r ≠ 0 then
      kfree L mem
      return false
    else return true

/-- The loop of `uvmalloc`, whose `oldsz` is page aligned. -/
def allocLoop (pagetable oldsz newsz : Nat) : Nat → Nat → Call Nat
  | 0, _ => return newsz
  | n + 1, a => do
    let ok ← allocPage L pagetable a
    if ok = true then allocLoop pagetable oldsz newsz n (a + PGSIZE)
    else
      let _ ← uvmdealloc L pagetable a oldsz
      return 0

/-- Allocate PTEs and physical memory to grow process from `oldsz` to `newsz`. Returns new size or 0
on error. -/
def uvmalloc (pagetable oldsz newsz : Nat) : Call Nat :=
  if newsz < oldsz then return oldsz
  else allocLoop L pagetable (PGROUNDUP oldsz) newsz (pagesUpTo (PGROUNDUP oldsz) newsz) (PGROUNDUP oldsz)

/-- Recursively free page-table pages. The first argument bounds the levels below. -/
def freewalk : Nat → Nat → Call Unit
  | 0, _ => stop .depth
  | depth + 1, pagetable => do
    each (fun i => do
      let pte ← getPte (pagetable, i)
      if pte &&& PTE_V ≠ 0 ∧ pte &&& (PTE_R ||| PTE_W ||| PTE_X) = 0 then
        freewalk depth (PTE2PA pte)
        setPte (pagetable, i) 0
      else if pte &&& PTE_V ≠ 0 then stop .freewalkLeaf
      else return) indices
    kfree L pagetable

/-- Free user memory pages, then free page-table pages. -/
def uvmfree (pagetable sz : Nat) : Call Unit := do
  onlyIf (0 < sz) (uvmunmap L pagetable 0 (PGROUNDUP sz / PGSIZE) true)
  freewalk L 3 pagetable

/-- A turn of `uvmcopy`: a copy of the page that `old` maps at `i` is mapped there in `new`, or
nothing is. -/
def copyPage (old new i : Nat) : Call Bool := do
  match ← walk old i false with
  | none => stop .uvmcopyExist
  | some pte =>
    let w ← getPte pte
    if w &&& PTE_V = 0 then stop .uvmcopyPresent
    else
      let mem ← kalloc
      if mem = 0 then return false
      else
        change fun m => m.setPage mem (m.word (PTE2PA w))
        let r ← mappages new i PGSIZE mem (PTE_FLAGS w)
        if r ≠ 0 then
          kfree L mem
          return false
        else return true

/-- The loop of `uvmcopy`. -/
def copyLoop (old new : Nat) : Nat → Nat → Call Int
  | 0, _ => return 0
  | n + 1, i => do
    let ok ← copyPage L old new i
    if ok = true then copyLoop old new n (i + PGSIZE)
    else
      uvmunmap L new 0 (i / PGSIZE) true
      return -1

/-- Given a parent process's page table, copy its memory into a child's page table. -/
def uvmcopy (old new sz : Nat) : Call Int := copyLoop L old new (pagesUpTo 0 sz) 0

end

/-! ## Copying between user and kernel -/

/-- The loop of `copyout`. A turn copies at least one byte, so that `fuel` turns do for as many
bytes. -/
def copyoutLoop (pagetable : Nat) : Nat → Nat → List UInt8 → Call Int
  | 0, _, _ => return 0
  | fuel + 1, dstva, src =>
    if src = [] then return 0
    else do
      let pa0 ← walkaddr pagetable (PGROUNDDOWN dstva)
      if pa0 = 0 then return -1
      else
        store pa0 (dstva % PGSIZE) (src.take (PGSIZE - dstva % PGSIZE))
        copyoutLoop pagetable fuel (PGROUNDDOWN dstva + PGSIZE) (src.drop (PGSIZE - dstva % PGSIZE))

/-- Copy from kernel to user. -/
def copyout (pagetable dstva : Nat) (src : List UInt8) : Call Int := copyoutLoop pagetable src.length dstva src

def copyinLoop (pagetable : Nat) : Nat → Nat → Nat → Call (Option (List UInt8))
  | 0, _, _ => return some []
  | fuel + 1, srcva, len =>
    if len = 0 then return some []
    else do
      let pa0 ← walkaddr pagetable (PGROUNDDOWN srcva)
      if pa0 = 0 then return none
      else
        let chunk ← read fun m => getBytes (m.word pa0) (srcva % PGSIZE) (min (PGSIZE - srcva % PGSIZE) len)
        let rest ← copyinLoop pagetable fuel (PGROUNDDOWN srcva + PGSIZE) (len - (PGSIZE - srcva % PGSIZE))
        return rest.map (chunk ++ ·)

/-- Copy from user to kernel. -/
def copyin (pagetable srcva len : Nat) : Call (Option (List UInt8)) := copyinLoop pagetable len srcva len

/-- The bytes of a string that end at a zero byte, with it, and whether there is one. -/
def upToNull : List UInt8 → List UInt8 × Bool
  | [] => ([], false)
  | b :: bs => if b = 0 then ([b], true) else ((b :: (upToNull bs).1), (upToNull bs).2)

/-- What `copyinstr` stores at `dst`, and whether it found the end of the string. -/
def copyinstrLoop (pagetable : Nat) : Nat → Nat → Nat → Call (List UInt8 × Bool)
  | 0, _, _ => return ([], false)
  | fuel + 1, srcva, max =>
    if max = 0 then return ([], false)
    else do
      let pa0 ← walkaddr pagetable (PGROUNDDOWN srcva)
      if pa0 = 0 then return ([], false)
      else
        let chunk ← read fun m =>
          upToNull (getBytes (m.word pa0) (srcva % PGSIZE) (min (PGSIZE - srcva % PGSIZE) max))
        if chunk.2 = true then return chunk
        else
          let rest ← copyinstrLoop pagetable fuel (PGROUNDDOWN srcva + PGSIZE) (max - (PGSIZE - srcva % PGSIZE))
          return (chunk.1 ++ rest.1, rest.2)

/-- Copy a null-terminated string from user to kernel. -/
def copyinstr (pagetable srcva max : Nat) : Call (List UInt8 × Bool) := copyinstrLoop pagetable max srcva max

end Xv6.Vm
