import Mathlib.Data.Nat.Basic

/-!
# The kernel's constants

`kernel/param.h`, `kernel/fs.h`, `kernel/stat.h`, `kernel/fcntl.h` and the layout part of
`mkfs/mkfs.c`, under the source's names.
-/

namespace Xv6

/-! ## `param.h` -/

/-- maximum number of processes -/
def NPROC : Nat := 64
/-- open files per process -/
def NOFILE : Nat := 16
/-- open files per system -/
def NFILE : Nat := 100
/-- maximum number of active i-nodes -/
def NINODE : Nat := 50
/-- maximum major device number -/
def NDEV : Nat := 10
/-- device number of file system root disk -/
def ROOTDEV : Nat := 1
/-- max exec arguments -/
def MAXARG : Nat := 32
/-- max # of blocks any FS op writes -/
def MAXOPBLOCKS : Nat := 10
/-- max data blocks in on-disk log -/
def LOGSIZE : Nat := MAXOPBLOCKS * 3
/-- size of disk block cache -/
def NBUF : Nat := MAXOPBLOCKS * 3
/-- size of file system in blocks -/
def FSSIZE : Nat := 1000
/-- maximum file path name -/
def MAXPATH : Nat := 128

/-! ## `fs.h` -/

/-- root i-number -/
def ROOTINO : Nat := 1
/-- block size -/
def BSIZE : Nat := 1024
def NDIRECT : Nat := 12
def NINDIRECT : Nat := BSIZE / 4
def MAXFILE : Nat := NDIRECT + NINDIRECT
/-- Inodes per block: a `struct dinode` is 64 bytes. -/
def IPB : Nat := BSIZE / 64
/-- Bitmap bits per block -/
def BPB : Nat := BSIZE * 8
def DIRSIZ : Nat := 14

end Xv6
