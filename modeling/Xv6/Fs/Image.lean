import Xv6.Fs.View

/-!
# The smallest disk

The disk that `mkfs` makes when it is given no files: its layout, the root directory with "." and
"..", and a bitmap that marks what is in front of the first free block. The root directory's size
has been rounded up to a block.
-/

namespace Xv6.Fs

open Function

/-- The super block that `mkfs` writes. -/
def mkfsSuper : Super where
  size := FSSIZE
  nblocks := 954
  ninodes := 200
  nlog := LOGSIZE
  logstart := 2
  inodestart := 32
  bmapstart := 45
  log_end := by decide
  inodes_end := by decide
  bitmap_end := by decide
  size_lt := by decide
  ninodes_le := by decide

/-- `mkfs`'s `nmeta`, the block of the root directory. -/
def nmeta : Nat := 46

def rootInode : Dinode where
  type := T_DIR
  major := 0
  minor := 0
  nlink := 1
  size := BitVec.ofNat 32 BSIZE
  addrs := fun j => if j.val = 0 then BitVec.ofNat 32 nmeta else 0

/-- The bits of the blocks up to `nmeta`. -/
def imageBitmap : Block := fun i => if i < 5 then 0xff else if i = 5 then 0x7f else 0

/-- "." and ".." -/
def imageRoot : Block :=
  fun i => if i < 16 then dirent ROOTINO [46] i else if i < 32 then dirent ROOTINO [46, 46] (i - 16) else 0

def image : Disk :=
  putInode mkfsSuper (fun b => if b = 45 then imageBitmap else if b = nmeta then imageRoot else fun _ => 0) ROOTINO rootInode

theorem decode_zero (off : Nat) : Dinode.decode (fun _ => 0) off = .zero := by
  have h16 : (0#8 ++ 0#8 : BitVec 16) = 0 := by decide
  have h32 : ((0#8 ++ 0#8 : BitVec 16) ++ (0#8 ++ 0#8 : BitVec 16) : BitVec 32) = 0 := by decide
  ext1
  · exact h16
  · exact h16
  · exact h16
  · exact h16
  · exact h32
  · funext k
    exact h32

theorem inode_image {i : Nat} (hi : i < mkfsSuper.ninodes) : inode mkfsSuper image i = if i = ROOTINO then rootInode else .zero := by
  unfold image
  rw [inode_putInode]
  by_cases h : i = ROOTINO
  · rw [h, update_self, if_pos rfl]
  · rw [update_of_ne h, if_neg h]
    have hblock : mkfsSuper.iblock i < 45 := Super.iblock_lt hi
    unfold inode
    simp only [show mkfsSuper.iblock i ≠ 45 by omega, show mkfsSuper.iblock i ≠ nmeta by unfold nmeta; omega, if_false]
    exact decode_zero _

theorem used_image {b : Nat} (hb : b < mkfsSuper.size) : used mkfsSuper image b = decide (b ≤ nmeta) := by
  unfold image
  rw [used_putInode (by decide)]
  revert b
  decide +kernel

theorem addr_rootInode (k : Nat) : rootInode.addr k = if k = 0 then nmeta else 0 := by
  unfold Dinode.addr rootInode
  by_cases hk : k = 0
  · subst hk
    decide
  · rw [if_neg hk]
    split
    next => simp only [hk, if_false]; rfl
    next => rfl

theorem pos_image (p : Nat × Nat) : pos mkfsSuper (inode mkfsSuper image) image p = if p = (ROOTINO, 0) then nmeta else 0 := by
  obtain ⟨i, l⟩ := p
  unfold pos
  by_cases hi : i < mkfsSuper.ninodes
  · rw [inode_image hi]
    by_cases hroot : i = ROOTINO
    · subst hroot
      rw [if_pos rfl, if_pos ⟨hi, by decide⟩]
      unfold addrAt
      rw [addr_rootInode, addr_rootInode]
      simp only [Prod.mk.injEq, true_and]
      by_cases hl : l ≤ NDIRECT
      · rw [if_pos hl]
      · rw [if_neg hl, if_neg, if_neg (by omega)]
        intro e
        exact e.2 rfl
    · rw [if_neg hroot, if_neg (fun e => e.2 rfl), if_neg fun e => hroot (congrArg Prod.fst e)]
  · rw [if_neg fun e => hi e.1, if_neg]
    intro e
    obtain rfl : i = ROOTINO := congrArg Prod.fst e
    exact hi (by decide)

theorem rep_image : Rep mkfsSuper (inode mkfsSuper image) image := by
  have hpos := pos_image
  refine ⟨⟨fun p hp => ?_, fun p q hp hq => ?_, fun b hb hb' => ?_, fun b hb => ?_⟩, fun i hi ht bn hbn => ?_, fun i hi _ => ?_⟩
  · rw [hpos] at hp ⊢
    split at hp
    next h => rw [if_pos h]; decide
    next => exact absurd rfl hp
  · rw [hpos] at hp hq
    rw [hpos] at hq
    by_cases hp' : p = (ROOTINO, 0)
    · rw [if_pos hp'] at hq
      by_cases hq' : q = (ROOTINO, 0)
      · rw [hp', hq']
      · rw [if_neg hq'] at hq
        exact absurd hq (by decide)
    · rw [if_neg hp'] at hp
      exact absurd rfl hp
  · have hb46 : nmeta ≤ b := hb
    rw [used_image hb', decide_eq_true_iff]
    constructor
    · intro hle
      refine ⟨(ROOTINO, 0), ?_⟩
      rw [hpos, if_pos rfl]
      omega
    · rintro ⟨p, hp⟩
      rw [hpos] at hp
      split at hp <;> omega
  · have hlt : b < nmeta := hb
    have hsize : nmeta < mkfsSuper.size := by decide
    rw [used_image (by omega), decide_eq_true_iff]
    omega
  · rw [inode_image hi] at ht hbn
    by_cases hroot : i = ROOTINO
    · rw [if_pos hroot] at hbn
      have hsize : rootInode.size.toNat = BSIZE := by decide
      obtain rfl : bn = 0 := by
        rw [hsize] at hbn
        unfold BSIZE at hbn
        omega
      rw [hpos, if_pos (by rw [hroot]; rfl)]
      decide
    · rw [if_neg hroot] at ht
      exact absurd rfl ht
  · rw [inode_image hi]
    split <;> decide

/-- The bytes of the root directory. -/
def rootContent : List Byte := (List.range BSIZE).map imageRoot

theorem content_image : content mkfsSuper (inode mkfsSuper image) image ROOTINO = rootContent := by
  have hino : inode mkfsSuper image ROOTINO = rootInode := (inode_image (by decide)).trans (if_pos rfl)
  have hsize : rootInode.size.toNat = BSIZE := by decide
  have hblock : image nmeta = imageRoot := by
    unfold image putInode
    rw [update_of_ne (by decide)]
    rfl
  unfold content rootContent
  rw [hino, hsize]
  apply List.map_congr_left
  intro o ho
  have ho : o < BSIZE := List.mem_range.mp ho
  unfold byteAt
  rw [Nat.div_eq_of_lt ho, Nat.mod_eq_of_lt ho, pos_image, if_pos (by decide), hblock]

theorem ninode_pos : 0 < NINODE := by decide

/-- The first entry of `icache`. -/
def slot0 : Fin NINODE := ⟨0, ninode_pos⟩

/-- A process `p` at the root directory, which is in the cache and locked or not, with a log of
`size` blocks. -/
def mounted {P : Type} [DecidableEq P] (p : P) (size outstanding : Int) (root : Fin NINODE) : State P where
  disk := image
  log := { start := 2, size := size, outstanding := outstanding, committing := false, lh := [] }
  ops := []
  icache := fun k => if k = root then { inum := ROOTINO, ref := 1, locked := false, valid := true, din := rootInode }
    else { inum := 0, ref := 0, locked := false, valid := false, din := .zero }
  ftable := fun _ => { type := .none, ref := 0, readable := false, writable := false, ip := root, off := 0, major := 0 }
  proc := fun q => if q = p then some { cwd := root, ofile := fun _ => none } else none

theorem loaded_mounted {P : Type} [DecidableEq P] (p : P) (size outstanding : Int) (root : Fin NINODE) :
    Loaded mkfsSuper root (mounted p size outstanding root) := by
  have hroot : (mounted p size outstanding root).icache root =
      { inum := ROOTINO, ref := 1, locked := false, valid := true, din := rootInode } := if_pos rfl
  have hino : inode mkfsSuper image ROOTINO = rootInode := (inode_image (by decide)).trans (if_pos rfl)
  have hself : update (inode mkfsSuper image) ROOTINO rootInode = inode mkfsSuper image :=
    update_eq_self_iff.mpr hino.symm
  refine ⟨?_, ?_, ?_⟩
  · unfold table
    rw [hroot, show (mounted p size outstanding root).disk = image from rfl, hself]
    exact rep_image
  · rw [hroot]
    decide
  · rw [hroot]
    decide

end Xv6.Fs
