import Xv6.Fs.Code

/-!
# `file.c` and `sysfile.c`

System calls of the file system, each as one program. A call's arguments are what the user passes:
descriptors, addresses, and the user's memory, of which any part may not be mapped. A path is
fetched with `argstr`. Pipes and `exec` are left out, and a device's own answer to a read or a write
is an argument.
-/

namespace Xv6.Fs

open Prog

/-! ## User memory -/

/-- A process's memory: the byte at an address, if the page is mapped for the user. -/
abbrev Mem := BitVec 64 → Option Byte

/-- Copy a null-terminated string from user to kernel. -/
def copyinstr (mem : Mem) : Nat → BitVec 64 → Option (List Byte)
  | 0, _ => none
  | max + 1, a =>
    match mem a with
    | none => none
    | some c => if c = 0 then some [] else (copyinstr mem max (a + 1)).map (c :: ·)

def argstr (mem : Mem) (a : BitVec 64) : Option (List Byte) := copyinstr mem MAXPATH a

/-- The bytes from an address on. -/
def Mem.bytes (mem : Mem) (a : BitVec 64) (i : Nat) : Option Byte := mem (a + BitVec.ofNat 64 i)

/-! ## `fcntl.h` -/

def O_RDONLY : BitVec 32 := 0x000
def O_WRONLY : BitVec 32 := 0x001
def O_RDWR : BitVec 32 := 0x002
def O_CREATE : BitVec 32 := 0x200
def O_TRUNC : BitVec 32 := 0x400

namespace File

variable (f : File)

def setRef (ref : Int) : File := { f with ref := ref }

def setOff (off : Nat) : File := { f with off := off }

/-- What `fileclose` leaves of a file with no reference. -/
def clear : File := { f with ref := 0, type := .none }

/-- What `sys_open` stores. -/
def opened (ip : Fin NINODE) (v : Dinode) (omode : BitVec 32) : File :=
  { type := if v.type = T_DEVICE then .device else .inode
    ref := f.ref
    readable := omode &&& O_WRONLY = 0
    writable := omode &&& O_WRONLY ≠ 0 ∨ omode &&& O_RDWR ≠ 0
    ip := ip
    off := if v.type = T_DEVICE then f.off else 0
    major := if v.type = T_DEVICE then v.major else f.major }

end File

namespace Proc

variable (pr : Proc)

def setFd (fd : Fin NOFILE) (f : Option (Fin NFILE)) : Proc := { pr with ofile := Function.update pr.ofile fd f }

/-- Fetch a file descriptor argument. -/
def argfd (fd : Int) : Option (Fin NOFILE × Fin NFILE) :=
  if h : 0 ≤ fd ∧ fd < NOFILE then
    (pr.ofile ⟨fd.toNat, by omega⟩).map fun f => (⟨fd.toNat, by omega⟩, f)
  else none

end Proc

section

variable {P : Type} (sb : Super)

/-! ## `file.c` -/

/-- Allocate a file structure. -/
def filealloc : Kern P (Option (Fin NFILE)) := do
  match ← read fun s => (List.finRange NFILE).find? fun f => (s.ftable f).ref = 0 with
  | none => return none
  | some f =>
    change fun s => s.setFile f ((s.ftable f).setRef 1)
    return some f

/-- Close file `f`. -/
def fileclose (f : Fin NFILE) : Kern P Unit := do
  let ff ← read fun s => s.ftable f
  if ff.ref < 1 then stop .fileclose
  else if ff.ref - 1 > 0 then change fun s => s.setFile f (ff.setRef (ff.ref - 1))
  else
    change fun s => s.setFile f ff.clear
    onlyIf (ff.type = .inode ∨ ff.type = .device) do
      beginOp
      iput sb ff.ip
      endOp

/-- What `devsw` and the device do for a file: -1 without a driver. -/
def device (major : BitVec 16) (driver : Option Int) : Int :=
  if major.toInt < 0 ∨ major.toInt ≥ NDEV then -1 else driver.getD (-1)

/-- Read from file `f`. Returns what the call does and the bytes that came from an inode. -/
def fileread (f : Fin NFILE) (dst : Nat → Bool) (n : Nat) (driver : Option Int) : Kern P (Int × Sector) := do
  let x ← read fun s => s.ftable f
  if x.readable = false then return (-1, fun _ => 0)
  else
    match x.type with
    | .device => return (device x.major driver, fun _ => 0)
    | .inode =>
      ilock sb x.ip
      let r ← readi sb x.ip dst x.off n
      onlyIf (r.1 > 0) (change fun s => s.setFile f (x.setOff ((x.off + r.1) % 2 ^ 32)))
      iunlock x.ip
      return (r.1, r.2)
    | .none => stop .fileread

/-- `filewrite` writes a few blocks at a time. -/
def maxWrite : Nat := ((MAXOPBLOCKS - 1 - 1 - 2) / 2) * BSIZE

/-- One turn of `filewrite`'s loop. -/
def writeOp (f : Fin NFILE) (src : Nat → Option Byte) (n1 : Nat) : Kern P (Option Nat) := do
  let x ← read fun s => s.ftable f
  beginOp
  ilock sb x.ip
  let r ← writei sb x.ip src x.off n1
  onlyIf (r.getD 0 > 0) (change fun s => s.setFile f (x.setOff ((x.off + r.getD 0) % 2 ^ 32)))
  iunlock x.ip
  endOp
  return r

/-- `filewrite`'s loop. Returns `i`. -/
def filewriteLoop (f : Fin NFILE) (src : Nat → Option Byte) (n : Nat) : Nat → Nat → Kern P Nat
  | 0, i => return i
  | fuel + 1, i => do
    if i < n then
      match ← writeOp sb f (fun j => src (i + j)) (min (n - i) maxWrite) with
      | none => return i
      | some r =>
        if r ≠ min (n - i) maxWrite then stop .shortFilewrite
        else filewriteLoop f src n fuel (i + r)
    else return i

/-- Write to file `f`. -/
def filewrite (f : Fin NFILE) (src : Nat → Option Byte) (n : Int) (driver : Option Int) : Kern P Int := do
  let x ← read fun s => s.ftable f
  if x.writable = false then return -1
  else
    match x.type with
    | .device => return device x.major driver
    | .inode =>
      let i ← filewriteLoop sb f src n.toNat n.toNat 0
      if (i : Int) = n then return n else return -1
    | .none => stop .filewrite

/-! ## `sysfile.c` -/

variable [DecidableEq P]

/-- The running process. -/
def myproc (p : P) : Kern P Proc := fun s =>
  match s.proc p with
  | some pr => .ok pr s
  | none => .stop .asleep s

/-- Allocate a file descriptor for the given file. -/
def fdalloc (p : P) (f : Fin NFILE) : Kern P (Option (Fin NOFILE)) := do
  let pr ← myproc p
  match (List.finRange NOFILE).find? fun fd => pr.ofile fd = none with
  | none => return none
  | some fd =>
    change fun s => s.setProc p (some (pr.setFd fd (some f)))
    return some fd

def sysWrite (p : P) (mem : Mem) (fd : Int) (a : BitVec 64) (n : BitVec 32) (driver : Option Int) : Kern P Int := do
  let pr ← myproc p
  match pr.argfd fd with
  | none => return -1
  | some (_, f) => filewrite sb f (mem.bytes a) n.toInt driver

/-- The end of a call that fails. -/
def fail : Kern P Int := do
  endOp
  return -1

/-- The names "." and "..". -/
def dot : List Byte := [46]

@[inherit_doc dot]
def dotdot : List Byte := [46, 46]

/-- Create . and .. entries. -/
def createDots (k : Fin NINODE) (inum parent : Nat) : Kern P Unit := do
  let linked ← dirlink sb k dot inum
  if linked = false then stop .createDots
  else
    let linked ← dirlink sb k dotdot parent
    onlyIf (linked = false) (stop .createDots)

/-- Create an inode and an entry for it, or open an existing file. The inode is returned locked. -/
def create (cwd : Fin NINODE) (path : List Byte) (type major minor : BitVec 16) : Kern P (Option (Fin NINODE)) := do
  match ← nameiparent sb cwd path with
  | none => return none
  | some (dp, name) =>
    ilock sb dp
    match ← dirlookup sb dp name with
    | some (k, _) =>
      iunlockput sb dp
      ilock sb k
      let ip ← din k
      if type = T_FILE ∧ (ip.type = T_FILE ∨ ip.type = T_DEVICE) then return some k
      else
        iunlockput sb k
        return none
    | none =>
      let k ← ialloc sb type
      ilock sb k
      setDin k fun v => { v with major := major, minor := minor, nlink := 1 }
      iupdate sb k
      let inum ← read fun s => (s.icache k).inum
      let parent ← read fun s => (s.icache dp).inum
      onlyIf (type = T_DIR) do
        setDin dp fun v => v.setNlink (v.nlink + 1)
        iupdate sb dp
        createDots sb k inum parent
      let linked ← dirlink sb dp name inum
      if linked = false then stop .createDirlink
      else
        iunlockput sb dp
        return some k

/-- `sys_open`, once it has the inode, locked. -/
def openInode (p : P) (k : Fin NINODE) (omode : BitVec 32) : Kern P Int := do
  let ip ← din k
  if ip.type = T_DEVICE ∧ (ip.major.toInt < 0 ∨ ip.major.toInt ≥ NDEV) then
    iunlockput sb k
    fail
  else
    match ← filealloc with
    | none =>
      iunlockput sb k
      fail
    | some f =>
      match ← fdalloc p f with
      | none =>
        fileclose sb f
        iunlockput sb k
        fail
      | some fd =>
        change fun s => s.setFile f ((s.ftable f).opened k ip omode)
        onlyIf (omode &&& O_TRUNC ≠ 0 ∧ ip.type = T_FILE) (itrunc sb k)
        iunlock k
        endOp
        return fd.val

def sysOpen (p : P) (mem : Mem) (path : BitVec 64) (omode : BitVec 32) : Kern P Int := do
  let pr ← myproc p
  match argstr mem path with
  | none => return -1
  | some path =>
    beginOp
    if omode &&& O_CREATE ≠ 0 then
      match ← create sb pr.cwd path T_FILE 0 0 with
      | none => fail
      | some k => openInode sb p k omode
    else
      match ← namei sb pr.cwd path with
      | none => fail
      | some k =>
        ilock sb k
        let ip ← din k
        if ip.type = T_DIR ∧ omode ≠ O_RDONLY then
          iunlockput sb k
          fail
        else openInode sb p k omode

end

end Xv6.Fs
