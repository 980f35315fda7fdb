import Xv6.Lib.Bytes
import Xv6.Lib.Code
import Xv6.Param

/-!
# `log.c`: the header block and the code of a commit

The log's own functions as code over buffers: `write_log`, `write_head`, `install_trans`,
`read_head`, `commit` and `recover_from_log`. A buffer is named by its block number, since
`bread` returns the one buffer of that block; the device is always the log's.

The code is run by two machines. `Log.Image` below is the kernel's view of the disk while one of
these functions runs alone: what `bread` returns for a block (the cached copy, else the disk's)
and what the disk holds. `Xv6.Bio` runs the same code as the work of one process among others,
over the real buffer table.
-/

namespace Xv6

open Function

/-- A disk block's content: `BSIZE` bytes, the offsets from `BSIZE` on being unused. -/
abbrev Block := Sector

/-- The blocks of the disk. -/
abbrev Disk := Nat → Block

namespace Log

/-! ## The header block -/

/-- `struct logheader`'s `n`, as the signed integer it is. -/
def headN (b : Block) : Int := (b.u32 0).toInt

/-- `struct logheader`'s `block[i]`. -/
def headBlock (b : Block) (i : Nat) : Nat := (b.u32 (4 * (i + 1))).toNat

/-- The block numbers that `read_head` copies from a header block: none when `n` is not positive. -/
def headOf (b : Block) : List Nat := (List.range (headN b).toNat).map (headBlock b)

/-- `write_head`'s loop over the block numbers from index `i` on. -/
def putBlocks : Nat → List Nat → Block → Block
  | _, [], b => b
  | i, k :: ks, b => putBlocks (i + 1) ks (b.putU32 (4 * (i + 1)) (BitVec.ofNat 32 k))

/-- What `write_head` stores in the header's buffer: `n`, then `n` block numbers. The bytes after
them keep what they were. -/
def putHead (lh : List Nat) (b : Block) : Block :=
  putBlocks 0 lh (b.putU32 0 (BitVec.ofNat 32 lh.length))

/-! ## The code -/

/-- The steps that `log.c`'s functions are made of. Each names the blocks whose buffers it uses. -/
inductive Instr
  /-- `bread(log.dev, b)` -/
  | bread (b : Nat)
  /-- `brelse` of the buffer of `b` -/
  | brelse (b : Nat)
  /-- `bwrite` of the buffer of `b` -/
  | bwrite (b : Nat)
  /-- `bunpin` of the buffer of `b` -/
  | bunpin (b : Nat)
  /-- `memmove(dst->data, src->data, BSIZE)` -/
  | memmove (dst src : Nat)
  /-- copy the header in the buffer of `b` to `log.lh` -/
  | loadHead (b : Nat)
  /-- copy `log.lh` to the header in the buffer of `b` -/
  | storeHead (b : Nat)
  /-- `log.lh.n = 0` -/
  | zeroHead
  /-- the head of `write_log`'s loop -/
  | writeLog (tail : Nat)
  /-- the head of `install_trans`'s loop -/
  | installTrans (tail : Nat)
  /-- the test of `commit` -/
  | commit
  deriving DecidableEq, Repr

open Instr

/-- `read_head` -/
def readHead (start : Nat) : List Instr := [bread start, loadHead start, brelse start]

/-- `write_head` -/
def writeHead (start : Nat) : List Instr :=
  [bread start, storeHead start, bwrite start, brelse start]

/-- The body of `write_log`'s loop: `dst` is the log block, `src` the cache block. -/
def writeLogBody (dst src : Nat) : List Instr :=
  [bread dst, bread src, memmove dst src, bwrite dst, brelse src, brelse dst]

/-- The body of `install_trans`'s loop. It unpins the home block's buffer on every path that comes
here, recovery's as well. -/
def installBody (lbuf dbuf : Nat) : List Instr :=
  [bread lbuf, bread dbuf, memmove dbuf lbuf, bwrite dbuf, bunpin dbuf, brelse lbuf, brelse dbuf]

/-- What a loop head leaves to run, reading `log.lh` as it is now. -/
def writeLogFrom (start : Nat) (lh : List Nat) (tail : Nat) : List Instr :=
  if tail < lh.length then
    writeLogBody (start + tail + 1) (lh.getD tail 0) ++ [writeLog (tail + 1)]
  else []

@[inherit_doc writeLogFrom]
def installTransFrom (start : Nat) (lh : List Nat) (tail : Nat) : List Instr :=
  if tail < lh.length then
    installBody (start + tail + 1) (lh.getD tail 0) ++ [installTrans (tail + 1)]
  else []

/-- `commit`'s work when there is something to commit. -/
def commitFrom (start : Nat) (lh : List Nat) : List Instr :=
  if 0 < lh.length then
    [writeLog 0] ++ writeHead start ++ [installTrans 0, zeroHead] ++ writeHead start
  else []

/-- `recover_from_log` -/
def recoverFromLog (start : Nat) : List Instr :=
  readHead start ++ [installTrans 0, zeroHead] ++ writeHead start

/-! ## Run alone -/

/-- The kernel's view of the disk while one of the functions runs alone. -/
structure Image where
  /-- `log.lh.block[0 .. log.lh.n)` -/
  lh : List Nat
  /-- what `bread` returns for a block: the cached copy if there is one, else the disk's content -/
  cache : Disk
  disk : Disk
  /-- the block writes issued so far, the last one first -/
  writes : List (Nat × Block)

/-- One instruction run alone, with the log at block `start`. -/
def exec (start : Nat) : Instr → Image → Image × List Instr
  | bread _, m => (m, [])
  | brelse _, m => (m, [])
  | bunpin _, m => (m, [])
  | bwrite b, m =>
    ({ m with disk := update m.disk b (m.cache b), writes := (b, m.cache b) :: m.writes }, [])
  | memmove dst src, m => ({ m with cache := update m.cache dst (m.cache src) }, [])
  | loadHead b, m => ({ m with lh := headOf (m.cache b) }, [])
  | storeHead b, m => ({ m with cache := update m.cache b (putHead m.lh (m.cache b)) }, [])
  | zeroHead, m => ({ m with lh := [] }, [])
  | writeLog tail, m => (m, writeLogFrom start m.lh tail)
  | installTrans tail, m => (m, installTransFrom start m.lh tail)
  | commit, m => (m, commitFrom start m.lh)

/-- The machine just booted: nothing is cached, so `bread` returns what the disk holds. -/
def boot (d : Disk) : Image := { lh := [], cache := d, disk := d, writes := [] }

/-- The disks that boots whose `recover_from_log` was cut short can leave. -/
inductive Reboots (start : Nat) : Disk → Disk → Prop
  | none (d : Disk) : Reboots start d d
  | again {d d' : Disk} {m : Image} {c : List Instr} : Reboots start d d' →
    Runs (exec start) (boot d') (recoverFromLog start) m c → Reboots start d m.disk

/-! ## Laws of the header -/

theorem putBlocks_u32_below : ∀ (ks : List Nat) (i off : Nat) (b : Block), off + 4 ≤ 4 * (i + 1) →
    (putBlocks i ks b).u32 off = b.u32 off
  | [], _, _, _, _ => rfl
  | k :: ks, i, off, b, h => by
    rw [putBlocks, putBlocks_u32_below ks (i + 1) off _ (by omega),
      Sector.u32_putU32_of_disjoint _ _ (by omega)]

theorem putBlocks_u32 : ∀ (ks : List Nat) (i : Nat) (b : Block) (j : Nat) (h : j < ks.length),
    (putBlocks i ks b).u32 (4 * (i + j + 1)) = BitVec.ofNat 32 ks[j]
  | k :: ks, i, b, 0, _ => by
    rw [putBlocks, putBlocks_u32_below _ _ _ _ (by omega)]
    simp
  | k :: ks, i, b, j + 1, h => by
    have hj : j < ks.length := by simpa using h
    have := putBlocks_u32 ks (i + 1) (b.putU32 (4 * (i + 1)) (BitVec.ofNat 32 k)) j hj
    rw [show i + 1 + j + 1 = i + (j + 1) + 1 by omega] at this
    simpa [putBlocks] using this

/-- The header of an empty transaction. -/
theorem headN_putHead_nil (b : Block) : headN (putHead [] b) = 0 := by
  simp [headN, putHead, putBlocks]

theorem headN_putHead {lh : List Nat} (b : Block) (hlen : lh.length < 2 ^ 31) :
    headN (putHead lh b) = lh.length := by
  have hnat : (BitVec.ofNat 32 lh.length).toNat = lh.length := by
    rw [BitVec.toNat_ofNat]
    omega
  rw [headN, putHead, putBlocks_u32_below _ _ _ _ (by omega), Sector.u32_putU32,
    BitVec.toInt_eq_toNat_of_lt (by omega), hnat]

/-- `read_head` reads back what `write_head` wrote. -/
theorem headOf_putHead {lh : List Nat} (b : Block) (hlen : lh.length < 2 ^ 31)
    (hlt : ∀ k ∈ lh, k < 2 ^ 32) : headOf (putHead lh b) = lh := by
  apply List.ext_getElem
  · simp [headOf, headN_putHead b hlen]
  · intro i h1 h2
    have hk : lh[i] < 2 ^ 32 := hlt _ (List.getElem_mem h2)
    have hu := putBlocks_u32 lh 0 (b.putU32 0 (BitVec.ofNat 32 lh.length)) i h2
    simp only [zero_add] at hu
    simp only [headOf, List.getElem_map, List.getElem_range, headBlock, putHead, hu,
      BitVec.toNat_ofNat]
    omega

theorem headOf_eq_nil {b : Block} (h : headN b ≤ 0) : headOf b = [] := by
  simp [headOf, Int.toNat_of_nonpos h]

end Log

end Xv6
