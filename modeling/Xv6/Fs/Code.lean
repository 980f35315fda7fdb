import Xv6.Fs.Disk
import Xv6.Lib.Prog
import Xv6.Log.Ops

/-!
# `fs.c`

The file system's functions over the array of blocks that the buffer cache and the log provide: a
`bread` returns the block, a change to a buffer and the `log_write` after it store it. One process
runs at a time, from one system call's start to its end, so that a sleep lock is free or held by the
caller itself, and waiting for it is waiting for ever (`Stop.asleep`).

There is one device. An in-memory inode is named by its index in `icache`.
-/

namespace Xv6

open Function

namespace Log.LogState

/-- The log after `commit`, which has written the logged blocks home and emptied the header. -/
def committed (l : LogState) : LogState := { l with lh := [], committing := false }

end Log.LogState

namespace Fs

/-- The panics of `fs.c`, `file.c` and `sysfile.c`, and a wait that never ends. -/
inductive Stop
  | balloc
  | bfree
  | ialloc
  | iget
  | ilock
  | ilockNoType
  | iunlock
  | bmap
  | dirlookupNotDir
  | dirlookupRead
  | dirlinkRead
  | dirlink
  | fileclose
  | fileread
  | filewrite
  | shortFilewrite
  | createDots
  | createDirlink
  | log (e : Log.Panic)
  | asleep
  deriving DecidableEq, Repr

/-! ## The kernel's tables -/

/-- `struct inode`. `din` is the copy of the disk inode. -/
structure Inode where
  inum : Nat
  ref : Int
  /-- the sleep lock is held -/
  locked : Bool
  valid : Bool
  din : Dinode

/-- `struct file`'s `type`. -/
inductive FileType
  | none
  | inode
  | device
  deriving DecidableEq, Repr

/-- `struct file` -/
structure File where
  type : FileType
  ref : Int
  readable : Bool
  writable : Bool
  ip : Fin NINODE
  off : Nat
  major : BitVec 16

/-- The part of `struct proc` that the file system uses. -/
structure Proc where
  cwd : Fin NINODE
  ofile : Fin NOFILE → Option (Fin NFILE)

structure State (P : Type) where
  disk : Disk
  log : Log.LogState
  /-- the blocks that each operation has logged, of the operations that have ended, the last one first -/
  ops : List (List Nat)
  icache : Fin NINODE → Inode
  ftable : Fin NFILE → File
  proc : P → Option Proc

namespace Inode

variable (ip : Inode)

def setRef (ref : Int) : Inode := { ip with ref := ref }

def setLocked (locked : Bool) : Inode := { ip with locked := locked }

def setDin (din : Dinode) : Inode := { ip with din := din }

/-- The inode has been read from the disk. -/
def load (din : Dinode) : Inode := { ip with valid := true, din := din }

def invalidate : Inode := { ip with valid := false }

/-- A free entry taken for inode `inum`. -/
def recycle (inum : Nat) : Inode := { ip with inum := inum, ref := 1, valid := false }

end Inode

namespace State

variable {P : Type} (s : State P)

def setDisk (d : Disk) : State P := { s with disk := d }

def setLog (l : Log.LogState) : State P := { s with log := l }

/-- An operation ends. -/
def endOp (l : Log.LogState) (op : List Nat) : State P := { s with log := l, ops := op :: s.ops }

def setInode (k : Fin NINODE) (ip : Inode) : State P := { s with icache := update s.icache k ip }

def setFile (f : Fin NFILE) (x : File) : State P := { s with ftable := update s.ftable f x }

def setProc [DecidableEq P] (p : P) (x : Option Proc) : State P := { s with proc := update s.proc p x }

end State

/-- Kernel code. -/
abbrev Kern (P : Type) := Prog (State P) Stop

open Prog

section

variable {P : Type}

/-! ## Blocks -/

def bread (b : Nat) : Kern P Block := read fun s => s.disk b

/-- The buffer of block `b` is given its new content and `log_write`n. -/
def logWrite (b : Nat) (data : Block) : Kern P Unit := fun s =>
  match s.log.logWrite b with
  | .ok l => .ok () ((s.setDisk (update s.disk b data)).setLog l)
  | .error e => .stop (.log e) s

def beginOp : Kern P Unit := fun s =>
  if s.log.mustWait then .stop .asleep s
  else .ok () (s.setLog { s.log with outstanding := s.log.outstanding + 1 })

def endOp : Kern P Unit := fun s =>
  match s.log.endOp with
  | .ok (l, true) => .ok () (s.endOp l.committed l.lh)
  | .ok (l, false) => .ok () (s.setLog l)
  | .error e => .stop (.log e) s

/-- Zero a block. -/
def bzero (b : Nat) : Kern P Unit := logWrite b fun _ => 0

variable (sb : Super)

/-- The first free block: the two loops of `balloc` visit the blocks in order. -/
def firstFree (d : Disk) : Option Nat := (List.range sb.size).find? fun b => !used sb d b

/-- Allocate a zeroed disk block. -/
def balloc : Kern P Nat := do
  match ← read fun s => firstFree sb s.disk with
  | none => stop .balloc
  | some b =>
    let bp ← bread (sb.bblock b)
    logWrite (sb.bblock b) (bp.setBit (b % BPB))
    bzero b
    return b

/-- Free a disk block. -/
def bfree (b : Nat) : Kern P Unit := do
  let bp ← bread (sb.bblock b)
  if bp.bit (b % BPB) = false then stop .bfree
  else logWrite (sb.bblock b) (bp.clearBit (b % BPB))

/-! ## Inodes -/

/-- The entry of `icache` that holds inode `inum`. -/
def cached (icache : Fin NINODE → Inode) (inum : Nat) : Option (Fin NINODE) :=
  (List.finRange NINODE).find? fun k => (icache k).ref > 0 ∧ (icache k).inum = inum

/-- The first free entry of `icache`. -/
def empty (icache : Fin NINODE → Inode) : Option (Fin NINODE) :=
  (List.finRange NINODE).find? fun k => (icache k).ref = 0

/-- Find the inode with number `inum` and return the in-memory copy. -/
def iget (inum : Nat) : Kern P (Fin NINODE) := fun s =>
  match cached s.icache inum with
  | some k => .ok k (s.setInode k ((s.icache k).setRef ((s.icache k).ref + 1)))
  | none =>
    match empty s.icache with
    | some k => .ok k (s.setInode k ((s.icache k).recycle inum))
    | none => .stop .iget s

/-- Increment reference count for `ip`. -/
def idup (k : Fin NINODE) : Kern P (Fin NINODE) := do
  change fun s => s.setInode k ((s.icache k).setRef ((s.icache k).ref + 1))
  return k

/-- The first free inode. -/
def firstInode (d : Disk) : Option Nat := (List.range' 1 (sb.ninodes - 1)).find? fun i => (inode sb d i).type = 0

/-- Allocate an inode. Mark it as allocated by giving it type `type`. -/
def ialloc (type : BitVec 16) : Kern P (Fin NINODE) := do
  match ← read fun s => firstInode sb s.disk with
  | none => stop .ialloc
  | some i =>
    let bp ← bread (sb.iblock i)
    logWrite (sb.iblock i) ((Dinode.zero.setType type).encode bp (64 * (i % IPB)))
    iget i

/-- The in-memory copy of the disk inode. -/
def din (k : Fin NINODE) : Kern P Dinode := read fun s => (s.icache k).din

def setDin (k : Fin NINODE) (f : Dinode → Dinode) : Kern P Unit :=
  change fun s => s.setInode k ((s.icache k).setDin (f (s.icache k).din))

/-- Copy a modified in-memory inode to disk. -/
def iupdate (k : Fin NINODE) : Kern P Unit := do
  let ip ← read fun s => s.icache k
  let bp ← bread (sb.iblock ip.inum)
  logWrite (sb.iblock ip.inum) (ip.din.encode bp (64 * (ip.inum % IPB)))

/-- `acquiresleep(&ip->lock)` -/
def acquire (k : Fin NINODE) : Kern P Unit := do
  let ip ← read fun s => s.icache k
  if ip.locked = true then stop .asleep
  else change fun s => s.setInode k ((s.icache k).setLocked true)

def release (k : Fin NINODE) : Kern P Unit := change fun s => s.setInode k ((s.icache k).setLocked false)

/-- Lock the given inode. Reads the inode from disk if necessary. -/
def ilock (k : Fin NINODE) : Kern P Unit := do
  let ip ← read fun s => s.icache k
  if ip.ref < 1 then stop .ilock
  else
    acquire k
    onlyIf (ip.valid = false) do
      change fun s => s.setInode k ((s.icache k).load (inode sb s.disk (s.icache k).inum))
      let v ← din k
      onlyIf (v.type = 0) (stop .ilockNoType)

/-- Unlock the given inode. -/
def iunlock (k : Fin NINODE) : Kern P Unit := do
  let ip ← read fun s => s.icache k
  if ip.locked = false ∨ ip.ref < 1 then stop .iunlock
  else release k

/-! ## Inode content -/

/-- The `j`th word of an indirect block. -/
def word (b : Block) (j : Nat) : Nat := (b.u32 (4 * j)).toNat

/-- `ip->addrs[i]`, allocating a block if there is none. -/
def loadAddr (k : Fin NINODE) (i : Nat) : Kern P Nat := do
  let ip ← din k
  if ip.addr i = 0 then
    let a ← balloc sb
    setDin k (·.setAddr i a)
    return a
  else return ip.addr i

/-- Return the disk block address of the `bn`th block in inode `ip`, allocating one if there is
none. -/
def bmap (k : Fin NINODE) (bn : Nat) : Kern P Nat := do
  if bn < NDIRECT then loadAddr sb k bn
  else if bn - NDIRECT < NINDIRECT then
    let ind ← loadAddr sb k NDIRECT
    let a ← read fun s => word (s.disk ind) (bn - NDIRECT)
    if a = 0 then
      let a ← balloc sb
      let bp ← bread ind
      logWrite ind (bp.putU32 (4 * (bn - NDIRECT)) (BitVec.ofNat 32 a))
      return a
    else return a
  else stop .bmap

/-- Free `ip->addrs[i]` if there is one. -/
def truncAddr (k : Fin NINODE) (i : Nat) : Kern P Unit := do
  let ip ← din k
  onlyIf (ip.addr i ≠ 0) do
    bfree sb (ip.addr i)
    setDin k (·.setAddr i 0)

/-- Free the `j`th entry of an indirect block if there is one. -/
def truncEntry (ind j : Nat) : Kern P Unit := do
  let a ← read fun s => word (s.disk ind) j
  onlyIf (a ≠ 0) (bfree sb a)

/-- Truncate inode (discard contents). -/
def itrunc (k : Fin NINODE) : Kern P Unit := do
  each (truncAddr sb k) (List.range NDIRECT)
  let ip ← din k
  onlyIf (ip.addr NDIRECT ≠ 0) do
    each (truncEntry sb (ip.addr NDIRECT)) (List.range NINDIRECT)
    truncAddr sb k NDIRECT
  setDin k (·.setSize 0)
  iupdate sb k

/-- `iput` truncates and frees an inode that has no links and no other references. -/
def ifree (k : Fin NINODE) : Kern P Unit := do
  acquire k
  itrunc sb k
  setDin k (·.setType 0)
  iupdate sb k
  change fun s => s.setInode k (s.icache k).invalidate
  release k

/-- Drop a reference to an in-memory inode. If that was the last reference and the inode has no
links to it, free the inode (and its content) on disk. -/
def iput (k : Fin NINODE) : Kern P Unit := do
  let ip ← read fun s => s.icache k
  onlyIf (ip.ref = 1 ∧ ip.valid = true ∧ ip.din.nlink = 0) (ifree sb k)
  change fun s => s.setInode k ((s.icache k).setRef ((s.icache k).ref - 1))

def iunlockput (k : Fin NINODE) : Kern P Unit := do
  iunlock k
  iput sb k

/-- How much of a block a turn of `readi`'s or `writei`'s loop moves: `min(n - tot, BSIZE -
off%BSIZE)` -/
def chunk (off left : Nat) : Nat := min left (BSIZE - off % BSIZE)

/-- `memmove` of `m` bytes. -/
def memmove (dst : Sector) (o : Nat) (src : Sector) (o' m : Nat) : Sector :=
  fun i => if o ≤ i ∧ i < o + m then src (o' + (i - o)) else dst i

/-- `readi`'s loop. `dst` says which bytes of the destination are mapped. -/
def readLoop (k : Fin NINODE) (dst : Nat → Bool) : Nat → Nat → Nat → Nat → Sector → Kern P (Nat × Sector)
  | 0, _, tot, _, buf => return (tot, buf)
  | fuel + 1, off, tot, left, buf => do
    if left = 0 then return (tot, buf)
    else
      let a ← bmap sb k (off / BSIZE)
      let bp ← bread a
      if (List.range (chunk off left)).all fun j => dst (tot + j) then
        readLoop k dst fuel (off + chunk off left) (tot + chunk off left) (left - chunk off left)
          (memmove buf tot bp (off % BSIZE) (chunk off left))
      else return (tot, buf)

/-- Read data from inode: the number of bytes read, and the bytes. -/
def readi (k : Fin NINODE) (dst : Nat → Bool) (off n : Nat) : Kern P (Nat × Sector) := do
  let size ← read fun s => (s.icache k).din.size.toNat
  if off > size ∨ (off + n) % 2 ^ 32 < off then return (0, fun _ => 0)
  else if off + n > size then readLoop sb k dst (size - off) off 0 (size - off) fun _ => 0
  else readLoop sb k dst n off 0 n fun _ => 0

/-- How many of the `m` bytes from `tot` on `either_copyin` copies before it finds one that is not
mapped. -/
def copied (src : Nat → Option Byte) (tot m : Nat) : Nat :=
  ((List.range m).takeWhile fun j => (src (tot + j)).isSome).length

/-- The block after `either_copyin`. -/
def copyin (bp : Block) (o : Nat) (src : Nat → Option Byte) (tot m : Nat) : Block :=
  memmove bp o (fun i => (src i).getD 0) tot (copied src tot m)

/-- `writei`'s loop. `src` has the bytes of the source, as far as they are mapped. Returns `off`. -/
def writeLoop (k : Fin NINODE) (src : Nat → Option Byte) : Nat → Nat → Nat → Nat → Kern P Nat
  | 0, off, _, _ => return off
  | fuel + 1, off, tot, left => do
    if left = 0 then return off
    else
      let a ← bmap sb k (off / BSIZE)
      let bp ← bread a
      if copied src tot (chunk off left) = chunk off left then
        logWrite a (copyin bp (off % BSIZE) src tot (chunk off left))
        writeLoop k src fuel (off + chunk off left) (tot + chunk off left) (left - chunk off left)
      else
        -- the buffer keeps what was copied, and is not logged
        change fun s => s.setDisk (update s.disk a (copyin bp (off % BSIZE) src tot (chunk off left)))
        return off

/-- Write data to inode. `none` is -1. -/
def writei (k : Fin NINODE) (src : Nat → Option Byte) (off n : Nat) : Kern P (Option Nat) := do
  let size ← read fun s => (s.icache k).din.size.toNat
  if off > size ∨ (off + n) % 2 ^ 32 < off then return none
  else if (off + n) % 2 ^ 32 > MAXFILE * BSIZE then return none
  else
    let off' ← writeLoop sb k src n off 0 n
    onlyIf (n > 0) do
      onlyIf (off' > size) (setDin k (·.setSize off'))
      iupdate sb k
    return some n

/-! ## Directories -/

def strncmp : Nat → Sector → Sector → Int
  | 0, _, _ => 0
  | n + 1, p, q =>
    if p 0 ≠ 0 ∧ p 0 = q 0 then strncmp n (fun i => p (i + 1)) fun i => q (i + 1)
    else (p 0).toNat - (q 0).toNat

def namecmp (s t : Sector) : Int := strncmp DIRSIZ s t

/-- A name in a buffer. What comes after its null byte is not looked at. -/
def cstr (name : List Byte) : Sector := fun i => name.getD i 0

/-- `struct dirent`: `inum`, then the name padded with null bytes. -/
def dirent (inum : Nat) (name : List Byte) : Sector :=
  Sector.putU16 (fun i => cstr (name.take DIRSIZ) (i - 2)) 0 (BitVec.ofNat 16 inum)

def direntInum (de : Sector) : Nat := (de.u16 0).toNat

def direntName (de : Sector) : Sector := fun i => de (i + 2)

/-- The entries of a directory of that size, a last incomplete one included. -/
def slots (size : Nat) : List Nat := List.range ((size + 15) / 16)

/-- `dirlookup`'s loop: the inode number and the offset of the entry. -/
def dirlookupLoop (k : Fin NINODE) (name : List Byte) : List Nat → Kern P (Option (Nat × Nat))
  | [] => return none
  | j :: js => do
    let r ← readi sb k (fun _ => true) (16 * j) 16
    if r.1 ≠ 16 then stop .dirlookupRead
    else if direntInum r.2 = 0 then dirlookupLoop k name js
    else if namecmp (cstr name) (direntName r.2) = 0 then return some (direntInum r.2, 16 * j)
    else dirlookupLoop k name js

/-- Look for a directory entry in a directory: its inode and its offset. -/
def dirlookup (k : Fin NINODE) (name : List Byte) : Kern P (Option (Fin NINODE × Nat)) := do
  let dp ← din k
  if dp.type ≠ T_DIR then stop .dirlookupNotDir
  else
    match ← dirlookupLoop sb k name (slots dp.size.toNat) with
    | none => return none
    | some (inum, off) =>
      let ip ← iget inum
      return some (ip, off)

/-- The loop of `dirlink` over the entries: the first empty one, else the end. -/
def emptyLoop (k : Fin NINODE) (last : Nat) : List Nat → Kern P Nat
  | [] => return last
  | j :: js => do
    let r ← readi sb k (fun _ => true) (16 * j) 16
    if r.1 ≠ 16 then stop .dirlinkRead
    else if direntInum r.2 = 0 then return 16 * j
    else emptyLoop k last js

/-- Write a new directory entry (name, inum) into the directory `dp`. `false` is -1. -/
def dirlink (k : Fin NINODE) (name : List Byte) (inum : Nat) : Kern P Bool := do
  match ← dirlookup sb k name with
  | some (ip, _) =>
    iput sb ip
    return false
  | none =>
    let size ← read fun s => (s.icache k).din.size.toNat
    let off ← emptyLoop sb k (16 * ((size + 15) / 16)) (slots size)
    let r ← writei sb k (fun i => some (dirent inum name i)) off 16
    if r ≠ some 16 then stop .dirlink
    else return true

/-! ## Paths -/

/-- The byte `'/'`. -/
def slash : Byte := 47

/-- Copy the next path element from path into name. -/
def skipelem (path : List Byte) : Option (List Byte × List Byte) :=
  match path.dropWhile (· = slash) with
  | [] => none
  | c :: cs =>
    some (((c :: cs).takeWhile (· ≠ slash)).take DIRSIZ, ((c :: cs).dropWhile (· ≠ slash)).dropWhile (· = slash))

/-- What the calls of `skipelem` in `namex`'s loop return, one after the other. -/
def elems : Nat → List Byte → List (List Byte)
  | 0, _ => []
  | fuel + 1, path =>
    match skipelem path with
    | none => []
    | some (name, rest) => name :: elems fuel rest

/-- `namex`'s loop over the path elements. -/
def namexLoop (nameiparent : Bool) : Fin NINODE → List (List Byte) → Kern P (Option (Fin NINODE × List Byte))
  | k, [] => do
    if nameiparent = true then
      iput sb k
      return none
    else return some (k, [])
  | k, name :: rest => do
    ilock sb k
    let ip ← din k
    if ip.type ≠ T_DIR then
      iunlockput sb k
      return none
    else if nameiparent = true ∧ rest = [] then
      -- stop one level early
      iunlock k
      return some (k, name)
    else
      match ← dirlookup sb k name with
      | none =>
        iunlockput sb k
        return none
      | some (next, _) =>
        iunlockput sb k
        namexLoop nameiparent next rest

/-- Look up and return the inode for a path name, or the parent's and the final path element. -/
def namex (cwd : Fin NINODE) (path : List Byte) (nameiparent : Bool) : Kern P (Option (Fin NINODE × List Byte)) := do
  let k ← (if path.head? = some slash then iget ROOTINO else idup cwd)
  namexLoop sb nameiparent k (elems path.length path)

def namei (cwd : Fin NINODE) (path : List Byte) : Kern P (Option (Fin NINODE)) := do
  let r ← namex sb cwd path false
  return r.map (·.1)

def nameiparent (cwd : Fin NINODE) (path : List Byte) : Kern P (Option (Fin NINODE × List Byte)) := namex sb cwd path true

end

end Fs

end Xv6
