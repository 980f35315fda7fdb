import Xv6.Log.Code

/-!
# The disk's layout

`struct superblock`, `struct dinode` and the free bitmap, as `fs.h` lays them out. `inode` and
`used` read an inode and a bitmap bit from the blocks that `IBLOCK` and `BBLOCK` name; `putInode`
and `markUsed` store one. Each store is seen by its own reader at its own index, and by no other
reader, because the regions are disjoint (`Super`).
-/

namespace Xv6.Fs

open Function Sector

/-- `struct superblock` without `magic`, for a disk whose regions follow one another: the log, the
inode blocks, the free bitmap, the data blocks. -/
structure Super where
  /-- Size of file system image (blocks) -/
  size : Nat
  /-- Number of data blocks -/
  nblocks : Nat
  /-- Number of inodes. -/
  ninodes : Nat
  /-- Number of log blocks -/
  nlog : Nat
  /-- Block number of first log block -/
  logstart : Nat
  /-- Block number of first inode block -/
  inodestart : Nat
  /-- Block number of first free map block -/
  bmapstart : Nat
  log_end : logstart + nlog ≤ inodestart
  inodes_end : inodestart + ninodes / IPB < bmapstart
  bitmap_end : bmapstart + size / BPB + nblocks < size
  /-- block numbers are `int`s in `balloc` -/
  size_lt : size < 2 ^ 31
  /-- inode numbers are `ushort`s in directories -/
  ninodes_le : ninodes ≤ 2 ^ 16

variable {a : Nat}

namespace Super

variable (sb : Super)

/-- The first data block. -/
def datastart : Nat := sb.size - sb.nblocks

/-- `IBLOCK(i, sb)`: block containing inode `i` -/
def iblock (i : Nat) : Nat := i / IPB + sb.inodestart

/-- `BBLOCK(b, sb)`: block of free map containing bit for block `b` -/
def bblock (b : Nat) : Nat := b / BPB + sb.bmapstart

variable {sb} {i b : Nat}

theorem iblock_lt (hi : i < sb.ninodes) : sb.iblock i < sb.bmapstart := by
  have := Nat.div_le_div_right (c := IPB) (le_of_lt hi)
  have := sb.inodes_end
  unfold iblock
  omega

theorem bmapstart_le_bblock : sb.bmapstart ≤ sb.bblock b := Nat.le_add_left _ _

theorem bblock_lt (hb : b < sb.size) : sb.bblock b < sb.datastart := by
  have := Nat.div_le_div_right (c := BPB) (le_of_lt hb)
  have := sb.bitmap_end
  unfold bblock datastart
  omega

theorem bmapstart_lt : sb.bmapstart < sb.datastart := by
  have := sb.bitmap_end
  have := Nat.zero_le (sb.size / BPB)
  unfold datastart
  omega

theorem iblock_ne_bblock (hi : i < sb.ninodes) : sb.iblock i ≠ sb.bblock b := by
  have := iblock_lt hi
  have : sb.bmapstart ≤ sb.bblock b := bmapstart_le_bblock
  omega

theorem iblock_ne_data (hi : i < sb.ninodes) (hb : sb.datastart ≤ b) : sb.iblock i ≠ b := by
  have := iblock_lt hi
  have : sb.bmapstart < sb.datastart := bmapstart_lt
  omega

theorem bblock_ne_data (ha : a < sb.size) (hb : sb.datastart ≤ b) : sb.bblock a ≠ b := by
  have := bblock_lt ha
  omega

end Super

/-! ## Inodes -/

/-- `struct dinode`, and the part of `struct inode` that is a copy of it. -/
@[ext] structure Dinode where
  type : BitVec 16
  major : BitVec 16
  minor : BitVec 16
  nlink : BitVec 16
  size : BitVec 32
  addrs : Fin (NDIRECT + 1) → BitVec 32

def T_DIR : BitVec 16 := 1
def T_FILE : BitVec 16 := 2
def T_DEVICE : BitVec 16 := 3

namespace Dinode

/-- What `memset(dip, 0, sizeof(*dip))` leaves. -/
def zero : Dinode := { type := 0, major := 0, minor := 0, nlink := 0, size := 0, addrs := fun _ => 0 }

/-- `addrs[k]` -/
def addr (v : Dinode) (k : Nat) : Nat := if h : k < NDIRECT + 1 then (v.addrs ⟨k, h⟩).toNat else 0

/-- `addrs[k] = a` -/
def setAddr (v : Dinode) (k a : Nat) : Dinode :=
  { v with addrs := fun j => if j.val = k then BitVec.ofNat 32 a else v.addrs j }

def setSize (v : Dinode) (n : Nat) : Dinode := { v with size := BitVec.ofNat 32 n }

def setType (v : Dinode) (t : BitVec 16) : Dinode := { v with type := t }

def setNlink (v : Dinode) (n : BitVec 16) : Dinode := { v with nlink := n }

theorem addr_setAddr {v : Dinode} {k : Nat} (hk : k < NDIRECT + 1) (ha : a < 2 ^ 32) :
    (v.setAddr k a).addr = update v.addr k a := by
  funext j
  by_cases hj : j = k
  · subst hj
    simpa [addr, setAddr, hk, BitVec.toNat_ofNat] using ha
  · rw [update_of_ne hj]
    simp [addr, setAddr, hj]

/-- The inode stored at a byte offset of its block. -/
def decode (b : Block) (off : Nat) : Dinode where
  type := b.u16 off
  major := b.u16 (off + 2)
  minor := b.u16 (off + 4)
  nlink := b.u16 (off + 6)
  size := b.u32 (off + 8)
  addrs k := b.u32 (off + 12 + 4 * k)

/-- `iupdate`'s stores: the scalar fields, then the array. -/
def encode (v : Dinode) (b : Block) (off : Nat) : Block :=
  (((((b.putU16 off v.type).putU16 (off + 2) v.major).putU16 (off + 4) v.minor).putU16 (off + 6) v.nlink).putU32
    (off + 8) v.size).putU32s (off + 12) (List.ofFn v.addrs)

variable {off : Nat}

theorem decode_congr {b b' : Block} (h : ∀ i, i < 64 → b (off + i) = b' (off + i)) :
    decode b off = decode b' off := by
  have h16 : ∀ k, k < 63 → b.u16 (off + k) = b'.u16 (off + k) := fun k hk =>
    u16_congr (h k (by omega)) (h (k + 1) (by omega))
  have h32 : ∀ k, k < 61 → b.u32 (off + k) = b'.u32 (off + k) := fun k hk =>
    u32_congr fun i hi => by rw [add_assoc]; exact h (k + i) (by omega)
  ext1
  · exact h16 0 (by omega)
  · exact h16 2 (by omega)
  · exact h16 4 (by omega)
  · exact h16 6 (by omega)
  · exact h32 8 (by omega)
  · funext k
    have hk : k.val < 13 := k.isLt
    have := h32 (12 + 4 * k) (by omega)
    rwa [← add_assoc] at this

theorem encode_byte {v : Dinode} {b : Block} {i : Nat} (h : i < off ∨ off + 64 ≤ i) :
    encode v b off i = b i := by
  unfold encode
  rw [putU32s_byte (by rw [List.length_ofFn]; unfold NDIRECT; omega), putU32_byte _ _ (by omega),
    putU16_byte _ _ (by omega), putU16_byte _ _ (by omega), putU16_byte _ _ (by omega),
    putU16_byte _ _ (by omega)]

theorem decode_encode (v : Dinode) (b : Block) (off : Nat) : decode (encode v b off) off = v := by
  have hlen : (List.ofFn v.addrs).length = NDIRECT + 1 := List.length_ofFn
  -- the array does not reach the scalar fields
  have hbyte : ∀ c : Block, ∀ i, i < 12 → c.putU32s (off + 12) (List.ofFn v.addrs) (off + i) = c (off + i) :=
    fun c i hi => putU32s_byte (by omega)
  have h16 : ∀ c : Block, ∀ k, k < 11 → (c.putU32s (off + 12) (List.ofFn v.addrs)).u16 (off + k) = c.u16 (off + k) :=
    fun c k hk => u16_congr (hbyte c k (by omega)) (hbyte c (k + 1) (by omega))
  have h32 : ∀ c : Block, (c.putU32s (off + 12) (List.ofFn v.addrs)).u32 (off + 8) = c.u32 (off + 8) := fun c =>
    u32_congr fun i hi => by
      have := hbyte c (8 + i) (by omega)
      rwa [← add_assoc] at this
  ext1
  · show (encode v b off).u16 off = _
    unfold encode
    refine (h16 _ 0 (by omega)).trans ?_
    show u16 _ off = _
    rw [u16_putU32_of_disjoint _ _ (by omega),
      u16_putU16_of_disjoint _ _ (by omega), u16_putU16_of_disjoint _ _ (by omega),
      u16_putU16_of_disjoint _ _ (by omega), u16_putU16]
  · show (encode v b off).u16 (off + 2) = _
    unfold encode
    rw [h16 _ 2 (by omega), u16_putU32_of_disjoint _ _ (by omega), u16_putU16_of_disjoint _ _ (by omega),
      u16_putU16_of_disjoint _ _ (by omega), u16_putU16]
  · show (encode v b off).u16 (off + 4) = _
    unfold encode
    rw [h16 _ 4 (by omega), u16_putU32_of_disjoint _ _ (by omega), u16_putU16_of_disjoint _ _ (by omega),
      u16_putU16]
  · show (encode v b off).u16 (off + 6) = _
    unfold encode
    rw [h16 _ 6 (by omega), u16_putU32_of_disjoint _ _ (by omega), u16_putU16]
  · show (encode v b off).u32 (off + 8) = _
    unfold encode
    rw [h32, u32_putU32]
  · funext k
    show (encode v b off).u32 (off + 12 + 4 * k) = _
    unfold encode
    rw [u32_putU32s (by rw [hlen]; exact k.isLt), List.getElem_ofFn]

theorem decode_encode_of_ne {v : Dinode} {b : Block} {off' : Nat}
    (h : off' + 64 ≤ off ∨ off + 64 ≤ off') : decode (encode v b off) off' = decode b off' :=
  decode_congr fun _ hi => encode_byte (by omega)

end Dinode

section

variable (sb : Super) (d : Disk)

/-- The inode `i` on the disk. -/
def inode (i : Nat) : Dinode := .decode (d (sb.iblock i)) (64 * (i % IPB))

/-- The disk with inode `i` replaced. -/
def putInode (i : Nat) (v : Dinode) : Disk :=
  update d (sb.iblock i) (v.encode (d (sb.iblock i)) (64 * (i % IPB)))

/-- The bitmap bit of block `b`. -/
def used (b : Nat) : Bool := (d (sb.bblock b)).bit (b % BPB)

def markUsed (b : Nat) : Disk := update d (sb.bblock b) ((d (sb.bblock b)).setBit (b % BPB))

end

section

variable {sb : Super} {d : Disk}

theorem inode_putInode (i : Nat) (v : Dinode) : inode sb (putInode sb d i v) = update (inode sb d) i v := by
  funext j
  unfold inode putInode
  by_cases hblock : sb.iblock j = sb.iblock i
  · rw [hblock, update_self]
    by_cases hj : j = i
    · rw [hj, update_self, Dinode.decode_encode]
    · -- another inode of the same block
      have hoff : j % IPB ≠ i % IPB := fun e => by
        have : j / IPB = i / IPB := Nat.add_right_cancel hblock
        exact hj (by rw [← Nat.div_add_mod j IPB, ← Nat.div_add_mod i IPB, this, e])
      rw [update_of_ne hj, Dinode.decode_encode_of_ne (by omega), hblock]
  · rw [update_of_ne hblock, update_of_ne (by rintro rfl; exact hblock rfl)]

theorem bblock_eq_iff {b : Nat} (hblock : sb.bblock a = sb.bblock b) :
    a % BPB = b % BPB ↔ a = b := by
  have : a / BPB = b / BPB := Nat.add_right_cancel hblock
  refine ⟨fun e => ?_, fun e => by rw [e]⟩
  rw [← Nat.div_add_mod a BPB, ← Nat.div_add_mod b BPB, this, e]

variable {x : Block}

theorem used_update {b : Nat} {v : Bool}
    (hx : x.bit = update (d (sb.bblock b)).bit (b % BPB) v) :
    used sb (update d (sb.bblock b) x) = update (used sb d) b v := by
  funext a
  unfold used
  by_cases hblock : sb.bblock a = sb.bblock b
  · rw [hblock, update_self, hx]
    by_cases ha : a = b
    · rw [ha, update_self, update_self]
    · rw [update_of_ne ha, update_of_ne (fun e => ha ((bblock_eq_iff hblock).mp e)), hblock]
  · rw [update_of_ne hblock, update_of_ne (by rintro rfl; exact hblock rfl)]

theorem used_markUsed (b : Nat) : used sb (markUsed sb d b) = update (used sb d) b true :=
  used_update (bit_setBit _ _)

/-! ## Readers of the other regions -/

theorem inode_update {i b : Nat} (h : sb.iblock i ≠ b) :
    inode sb (update d b x) i = inode sb d i := by
  unfold inode
  rw [update_of_ne h]

theorem used_update_of_ne {b : Nat} (h : sb.bblock a ≠ b) :
    used sb (update d b x) a = used sb d a := by
  unfold used
  rw [update_of_ne h]

variable {i b : Nat} {v : Dinode}

theorem inode_markUsed (hi : i < sb.ninodes) : inode sb (markUsed sb d b) i = inode sb d i :=
  inode_update (Super.iblock_ne_bblock hi)

theorem inode_data (hi : i < sb.ninodes) (hb : sb.datastart ≤ b) :
    inode sb (update d b x) i = inode sb d i :=
  inode_update (Super.iblock_ne_data hi hb)

theorem used_putInode (hi : i < sb.ninodes) : used sb (putInode sb d i v) b = used sb d b :=
  used_update_of_ne (Super.iblock_ne_bblock hi).symm

theorem used_data (ha : a < sb.size) (hb : sb.datastart ≤ b) :
    used sb (update d b x) a = used sb d a :=
  used_update_of_ne (Super.bblock_ne_data ha hb)

theorem putInode_data (hi : i < sb.ninodes) (hb : sb.datastart ≤ b) : putInode sb d i v b = d b :=
  update_of_ne (Super.iblock_ne_data hi hb).symm _ _

theorem markUsed_data (ha : a < sb.size) (hb : sb.datastart ≤ b) : markUsed sb d a b = d b :=
  update_of_ne (Super.bblock_ne_data ha hb).symm _ _

end

end Xv6.Fs
