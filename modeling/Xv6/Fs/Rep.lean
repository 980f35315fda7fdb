import Xv6.Fs.Code
import Xv6.Lib.Own
import Xv6.Lib.Update

/-!
# The representation of inodes and the bitmap

`pos` lists the blocks of an inode by place: places 0 to 11 are the direct addresses, place 12 is
the indirect block, the places after it are the entries of the indirect block. `Rep` says that the
bitmap and the places agree and that a file has no hole below its size. It speaks of a table of
inodes `ino`, which while an inode is being changed is the one in memory.
-/

namespace Xv6.Fs

open Function

/-- The address at a place of an inode. -/
def addrAt (v : Dinode) (d : Disk) (k : Nat) : Nat :=
  if k ≤ NDIRECT then v.addr k
  else if k ≤ NDIRECT + NINDIRECT ∧ v.addr NDIRECT ≠ 0 then word (d (v.addr NDIRECT)) (k - (NDIRECT + 1))
  else 0

/-- The place of the `bn`th block of a file. -/
def placeOf (bn : Nat) : Nat := if bn < NDIRECT then bn else bn + 1

/-- The block that an allocated inode has at a place. -/
def pos (sb : Super) (ino : Nat → Dinode) (d : Disk) (p : Nat × Nat) : Nat :=
  if p.1 < sb.ninodes ∧ (ino p.1).type ≠ 0 then addrAt (ino p.1) d p.2 else 0

structure Rep (sb : Super) (ino : Nat → Dinode) (d : Disk) : Prop where
  owned : Owned (pos sb ino d) sb.datastart sb.size (used sb d)
  holes : ∀ i, i < sb.ninodes → (ino i).type ≠ 0 → ∀ bn, bn * BSIZE < (ino i).size.toNat → pos sb ino d (i, placeOf bn) ≠ 0
  size_le : ∀ i, i < sb.ninodes → (ino i).type ≠ 0 → (ino i).size.toNat ≤ MAXFILE * BSIZE

theorem Super.datastart_pos (sb : Super) : 0 < sb.datastart := by
  have := sb.bmapstart_lt
  omega

variable {b j k : Nat} {ino' : Nat → Dinode}

theorem Super.lt_word (sb : Super) (hb : b < sb.size) : b < 2 ^ 32 := by
  have := sb.size_lt
  omega

theorem Super.datastart_le (sb : Super) : sb.datastart ≤ sb.size := Nat.sub_le _ _

section

variable {sb : Super} {ino : Nat → Dinode} {d d' : Disk} {i : Nat} {v : Dinode}

/-! ## Places -/

theorem pos_eq (hi : i < sb.ninodes) (ht : (ino i).type ≠ 0) :
    pos sb ino d (i, k) = addrAt (ino i) d k :=
  if_pos ⟨hi, ht⟩

theorem addrAt_le (hk : k ≤ NDIRECT) : addrAt v d k = v.addr k := if_pos hk

theorem addrAt_entry (hj : j < NINDIRECT) (hind : v.addr NDIRECT ≠ 0) :
    addrAt v d (NDIRECT + 1 + j) = word (d (v.addr NDIRECT)) j := by
  unfold addrAt
  rw [if_neg (by omega), if_pos ⟨by omega, hind⟩, Nat.add_sub_cancel_left]

theorem word_zero (j : Nat) : word (fun _ => 0) j = 0 := by
  show ((0#8 ++ 0#8 : BitVec 16) ++ (0#8 ++ 0#8 : BitVec 16) : BitVec 32).toNat = 0
  decide

/-- An inode's places depend on its addresses and its indirect block. -/
theorem addrAt_congr {w : Dinode} (hv : w.addr = v.addr) (hd : v.addr NDIRECT ≠ 0 → d' (v.addr NDIRECT) = d (v.addr NDIRECT)) :
    addrAt w d' = addrAt v d := by
  funext k
  unfold addrAt
  rw [hv]
  split
  next => rfl
  next =>
    split
    next h => rw [hd h.2]
    next => rfl

/-- Inode numbers from `ninodes` on do not matter. -/
theorem pos_ino (h : ∀ j, j < sb.ninodes → ino' j = ino j) : pos sb ino' d = pos sb ino d := by
  funext p
  unfold pos
  by_cases hp : p.1 < sb.ninodes
  · rw [h p.1 hp]
  · rw [if_neg (fun e => hp e.1), if_neg (fun e => hp e.1)]

/-- The indirect blocks of the allocated inodes other than `i` are the same. -/
def SameIndirect (sb : Super) (ino : Nat → Dinode) (i : Nat) (d d' : Disk) : Prop :=
  ∀ j, j < sb.ninodes → j ≠ i → (ino j).type ≠ 0 → (ino j).addr NDIRECT ≠ 0 →
    d' ((ino j).addr NDIRECT) = d ((ino j).addr NDIRECT)

/-- One inode changes. -/
theorem pos_update (hd : SameIndirect sb ino i d d') (p : Nat × Nat) :
    pos sb (update ino i v) d' p =
      if p.1 = i then (if i < sb.ninodes ∧ v.type ≠ 0 then addrAt v d' p.2 else 0) else pos sb ino d p := by
  obtain ⟨j, k⟩ := p
  unfold pos
  by_cases hj : j = i
  · simp only [hj, update_self, if_true]
  · simp only [hj, if_false, update_of_ne, ne_eq, not_false_eq_true]
    split
    next h => rw [addrAt_congr rfl (hd j h.1 hj h.2)]
    next => rfl

/-- An inode is given a block, as a direct one or as its indirect block. -/
theorem pos_setAddr (hi : i < sb.ninodes) (ht : (ino i).type ≠ 0) (hk : k ≤ NDIRECT)
    (hb : b < 2 ^ 32) (hzero : (ino i).addr k = 0) (hnew : d' b = fun _ => 0)
    (hsame : SameIndirect sb ino i d d')
    (hown : (ino i).addr NDIRECT ≠ 0 → d' ((ino i).addr NDIRECT) = d ((ino i).addr NDIRECT)) :
    pos sb (update ino i ((ino i).setAddr k b)) d' = update (pos sb ino d) (i, k) b := by
  have haddr : ((ino i).setAddr k b).addr = update (ino i).addr k b := Dinode.addr_setAddr (by omega) hb
  funext p
  obtain ⟨j, l⟩ := p
  rw [pos_update hsame]
  by_cases hj : j = i
  · subst hj
    rw [if_pos rfl, if_pos ⟨hi, ht⟩]
    by_cases hl : l = k
    · rw [hl, update_self, addrAt_le hk, haddr, update_self]
    · rw [update_of_ne (by rintro e; exact hl (congrArg Prod.snd e)), pos_eq hi ht]
      by_cases hl' : l ≤ NDIRECT
      · rw [addrAt_le hl', addrAt_le hl', haddr, update_of_ne hl]
      · unfold addrAt
        rw [if_neg hl', if_neg hl', haddr]
        by_cases hind : k = NDIRECT
        · -- a new indirect block has no entry
          rw [← hind, update_self, hzero, hnew]
          simp only [ne_eq, not_true_eq_false, and_false, if_false]
          split
          next => exact word_zero _
          next => rfl
        · rw [update_of_ne (Ne.symm hind)]
          split
          next h => rw [hown h.2]
          next => rfl
  · rw [if_neg hj, update_of_ne (by rintro e; exact hj (congrArg Prod.fst e))]

/-- An entry of an indirect block is set. -/
theorem pos_setEntry (hi : i < sb.ninodes) (ht : (ino i).type ≠ 0) (hj : j < NINDIRECT)
    (hb : b < 2 ^ 32) (hind : (ino i).addr NDIRECT ≠ 0)
    (hd : d' ((ino i).addr NDIRECT) = (d ((ino i).addr NDIRECT)).putU32 (4 * j) (BitVec.ofNat 32 b))
    (hsame : SameIndirect sb ino i d d') :
    pos sb ino d' = update (pos sb ino d) (i, NDIRECT + 1 + j) b := by
  funext p
  obtain ⟨l, k⟩ := p
  have hupd := pos_update (v := ino i) hsame (l, k)
  rw [update_eq_self] at hupd
  rw [hupd]
  by_cases hl : l = i
  · subst hl
    rw [if_pos rfl, if_pos ⟨hi, ht⟩]
    by_cases hk : k = NDIRECT + 1 + j
    · rw [hk, update_self, addrAt_entry hj hind, hd]
      unfold word
      rw [Sector.u32_putU32, BitVec.toNat_ofNat, Nat.mod_eq_of_lt hb]
    · rw [update_of_ne (by rintro e; exact hk (congrArg Prod.snd e)), pos_eq hi ht]
      unfold addrAt
      split
      next => rfl
      next hk' =>
        split
        next h =>
          rw [hd]
          unfold word
          rw [Sector.u32_putU32_of_disjoint _ _ (by omega)]
        next => rfl
  · rw [if_neg hl, update_of_ne (by rintro e; exact hl (congrArg Prod.fst e))]

end

/-! ## A new block -/

section

variable {sb : Super} {d : Disk} {i : Nat}

/-- `balloc`: the bitmap bit, then the zeroed block. -/
def allocated (sb : Super) (d : Disk) (b : Nat) : Disk := update (markUsed sb d b) b fun _ => 0

theorem allocated_self : allocated sb d b b = fun _ => 0 := update_self ..

theorem allocated_of_ne {a : Nat} (hb : b < sb.size) (ha : sb.datastart ≤ a) (hab : a ≠ b) :
    allocated sb d b a = d a := by
  unfold allocated
  rw [update_of_ne hab, markUsed_data hb ha]

theorem used_allocated (hb : sb.datastart ≤ b) (a : Nat) (ha : a < sb.size) :
    used sb (allocated sb d b) a = update (used sb d) b true a := by
  unfold allocated
  rw [used_data ha hb, used_markUsed]

theorem inode_allocated (hb : sb.datastart ≤ b) (hi : i < sb.ninodes) :
    inode sb (allocated sb d b) i = inode sb d i := by
  unfold allocated
  rw [inode_data hi hb, inode_markUsed hi]

end

/-! ## What keeps the representation -/

namespace Rep

variable {sb : Super} {ino : Nat → Dinode} {d d' : Disk} {i : Nat} {v : Dinode}

/-- The indirect block of an inode is in the data area, and it is no other place's. -/
theorem indirect_area (h : Rep sb ino d) (hi : i < sb.ninodes) (ht : (ino i).type ≠ 0) (hind : (ino i).addr NDIRECT ≠ 0) :
    pos sb ino d (i, NDIRECT) = (ino i).addr NDIRECT ∧ sb.datastart ≤ (ino i).addr NDIRECT ∧ (ino i).addr NDIRECT < sb.size := by
  have hpos : pos sb ino d (i, NDIRECT) = (ino i).addr NDIRECT := by rw [pos_eq hi ht, addrAt_le le_rfl]
  have := h.owned.area (i, NDIRECT) (by rw [hpos]; exact hind)
  rw [hpos] at this
  exact ⟨hpos, this⟩

/-- Only the blocks of the data area matter, and of an inode its addresses and its size. -/
theorem congr (h : Rep sb ino d) (hd : ∀ b, sb.datastart ≤ b → d' b = d b)
    (hu : ∀ b, b < sb.size → used sb d' b = used sb d b)
    (hino : ∀ j, j < sb.ninodes → ((ino' j).type = 0 ↔ (ino j).type = 0) ∧
      (ino' j).addr = (ino j).addr ∧ (ino' j).size = (ino j).size) :
    Rep sb ino' d' := by
  have hpos : pos sb ino' d' = pos sb ino d := by
    funext p
    obtain ⟨j, k⟩ := p
    by_cases hj : j < sb.ninodes
    · obtain ⟨htype, haddr, -⟩ := hino j hj
      by_cases ht : (ino j).type = 0
      · rw [pos, pos, if_neg (fun e => e.2 (htype.mpr ht)), if_neg (fun e => e.2 ht)]
      · rw [pos_eq hj (fun e => ht (htype.mp e)), pos_eq hj ht,
          addrAt_congr haddr fun hind => hd _ (h.indirect_area hj ht hind).2.1]
    · rw [pos, pos, if_neg (fun e => hj e.1), if_neg (fun e => hj e.1)]
  refine ⟨h.owned.congr hpos sb.datastart_le hu, fun j hj ht bn hbn => ?_, fun j hj ht => ?_⟩
  · obtain ⟨htype, -, hsize⟩ := hino j hj
    rw [hpos]
    rw [hsize] at hbn
    exact h.holes j hj (fun e => ht (htype.mpr e)) bn hbn
  · obtain ⟨htype, -, hsize⟩ := hino j hj
    rw [hsize]
    exact h.size_le j hj fun e => ht (htype.mpr e)

/-- Blocks that are nobody's indirect block do not matter. -/
theorem write (h : Rep sb ino d) {x : Block} (hb : sb.datastart ≤ b)
    (hfile : ∀ j, j < sb.ninodes → (ino j).type ≠ 0 → (ino j).addr NDIRECT ≠ b) :
    Rep sb ino (update d b x) := by
  have hpos : pos sb ino (update d b x) = pos sb ino d := by
    funext p
    obtain ⟨j, k⟩ := p
    by_cases hj : j < sb.ninodes ∧ (ino j).type ≠ 0
    · rw [pos_eq hj.1 hj.2, pos_eq hj.1 hj.2, addrAt_congr rfl fun _ => update_of_ne (hfile j hj.1 hj.2) _ _]
    · rw [pos, pos, if_neg hj, if_neg hj]
  refine ⟨h.owned.congr hpos sb.datastart_le fun c hc => used_data hc hb, fun j hj ht bn hbn => ?_, h.size_le⟩
  rw [hpos]
  exact h.holes j hj ht bn hbn

variable {p : Nat × Nat}

/-- A place that is not the indirect block's is nobody's indirect block. -/
theorem not_indirect (h : Rep sb ino d) (hp : pos sb ino d p ≠ 0) (hk : p.2 ≠ NDIRECT) (j : Nat)
    (hj : j < sb.ninodes) (ht : (ino j).type ≠ 0) : (ino j).addr NDIRECT ≠ pos sb ino d p := by
  intro e
  have hind : (ino j).addr NDIRECT ≠ 0 := by rw [e]; exact hp
  have hpos := (h.indirect_area hj ht hind).1
  have := h.owned.inj p (j, NDIRECT) hp (hpos.trans e)
  rw [← this] at hk
  exact hk rfl

section

variable (h : Rep sb ino d) (hb : b < sb.size) (hfree : used sb d b = false)
include h hb hfree

/-- A free block is in the data area, and it is nobody's. -/
theorem free :
    sb.datastart ≤ b ∧ ∀ p, pos sb ino d p ≠ b := h.owned.free hb hfree

/-- The blocks that somebody owns are as before. -/
theorem allocated_owned (hp : pos sb ino d p ≠ 0) :
    allocated sb d b (pos sb ino d p) = d (pos sb ino d p) :=
  allocated_of_ne hb (h.owned.area p hp).1 ((h.free hb hfree).2 p)

theorem sameIndirect_allocated (i : Nat) : SameIndirect sb ino i d (allocated sb d b) := by
  intro j hj _ ht hind
  have hpos := (h.indirect_area hj ht hind).1
  rw [← hpos]
  exact h.allocated_owned hb hfree (by rw [hpos]; exact hind)

/-- A new block for an empty place. -/
theorem attach {d' : Disk} (hp : pos sb ino d p = 0)
    (hpos : pos sb ino' d' = update (pos sb ino d) p b)
    (hused : ∀ a, a < sb.size → used sb d' a = update (used sb d) b true a)
    (hino : ∀ j, (ino' j).type = (ino j).type ∧ (ino' j).size = (ino j).size) : Rep sb ino' d' := by
  have howned := h.owned.attach sb.datastart_pos hp hb hfree
  refine ⟨howned.congr hpos sb.datastart_le hused, fun j hj ht bn hbn => ?_, fun j hj ht => ?_⟩
  · rw [(hino j).1] at ht
    rw [(hino j).2] at hbn
    have hold := h.holes j hj ht bn hbn
    have hne : (j, placeOf bn) ≠ p := by
      rintro rfl
      exact hold hp
    rw [hpos, update_of_ne hne]
    exact hold
  · rw [(hino j).1] at ht
    rw [(hino j).2]
    exact h.size_le j hj ht

end

/-- `ip->addrs[k] = balloc()` -/
theorem setAddr (h : Rep sb ino d) (hi : i < sb.ninodes) (ht : (ino i).type ≠ 0)
    (hk : k ≤ NDIRECT) (hb : b < sb.size) (hfree : used sb d b = false)
    (hzero : (ino i).addr k = 0) :
    Rep sb (update ino i ((ino i).setAddr k b)) (allocated sb d b) ∧
      pos sb (update ino i ((ino i).setAddr k b)) (allocated sb d b) = update (pos sb ino d) (i, k) b := by
  have hpos := pos_setAddr hi ht hk (sb.lt_word hb) hzero allocated_self (h.sameIndirect_allocated hb hfree i) fun hind => by
    have hind' := (h.indirect_area hi ht hind).1
    rw [← hind']
    exact h.allocated_owned hb hfree (by rw [hind']; exact hind)
  refine ⟨h.attach hb hfree ?_ hpos (used_allocated (h.free hb hfree).1) ?_, hpos⟩
  · rw [pos_eq hi ht, addrAt_le hk]
    exact hzero
  · exact forall_update (C := fun j (w : Dinode) => w.type = (ino j).type ∧ w.size = (ino j).size) ⟨rfl, rfl⟩
      fun _ _ => ⟨rfl, rfl⟩

/-- An entry of the indirect block is given a new block. -/
theorem setEntry (h : Rep sb ino d) (hi : i < sb.ninodes) (ht : (ino i).type ≠ 0)
    (hj : j < NINDIRECT) (hb : b < sb.size) (hfree : used sb d b = false)
    (hind : (ino i).addr NDIRECT ≠ 0) (hzero : word (d ((ino i).addr NDIRECT)) j = 0) :
    Rep sb ino (update (allocated sb d b) ((ino i).addr NDIRECT)
        ((d ((ino i).addr NDIRECT)).putU32 (4 * j) (BitVec.ofNat 32 b))) ∧
      pos sb ino (update (allocated sb d b) ((ino i).addr NDIRECT)
        ((d ((ino i).addr NDIRECT)).putU32 (4 * j) (BitVec.ofNat 32 b))) =
        update (pos sb ino d) (i, NDIRECT + 1 + j) b := by
  obtain ⟨hplace, harea, -⟩ := h.indirect_area hi ht hind
  have hsame : SameIndirect sb ino i d (update (allocated sb d b) ((ino i).addr NDIRECT)
      ((d ((ino i).addr NDIRECT)).putU32 (4 * j) (BitVec.ofNat 32 b))) := by
    intro l hl hli htl hindl
    have hpl := (h.indirect_area hl htl hindl).1
    have hne : (ino l).addr NDIRECT ≠ (ino i).addr NDIRECT := fun e => by
      have := h.owned.inj (i, NDIRECT) (l, NDIRECT) (by rw [hplace]; exact hind) (by rw [hpl, hplace, e])
      exact hli (congrArg Prod.fst this)
    rw [update_of_ne hne]
    exact h.sameIndirect_allocated hb hfree i l hl hli htl hindl
  have hpos := pos_setEntry hi ht hj (sb.lt_word hb) hind (update_self ..) hsame
  refine ⟨h.attach hb hfree ?_ hpos (fun a ha => ?_) fun _ => ⟨rfl, rfl⟩, hpos⟩
  · rw [pos_eq hi ht, addrAt_entry hj hind]
    exact hzero
  · rw [used_data ha harea, used_allocated (h.free hb hfree).1 a ha]

/-- The file grows over blocks that it has. -/
theorem grow (h : Rep sb ino d) {n : Nat} (hn : n ≤ MAXFILE * BSIZE)
    (hblocks : i < sb.ninodes → (ino i).type ≠ 0 → ∀ bn, bn * BSIZE < n → pos sb ino d (i, placeOf bn) ≠ 0) :
    Rep sb (update ino i ((ino i).setSize n)) d := by
  have hmax : MAXFILE * BSIZE < 2 ^ 32 := by decide
  have hsize : ((ino i).setSize n).size.toNat = n := by
    show (BitVec.ofNat 32 n).toNat = n
    rw [BitVec.toNat_ofNat, Nat.mod_eq_of_lt (by omega)]
  have hpos : pos sb (update ino i ((ino i).setSize n)) d = pos sb ino d := by
    funext p
    rw [pos_update fun _ _ _ _ _ => rfl]
    split
    next hp => rw [pos, hp]; rfl
    next => rfl
  refine ⟨by rw [hpos]; exact h.owned, ?_, ?_⟩
  · rw [hpos]
    refine forall_update (C := fun j (w : Dinode) => j < sb.ninodes → w.type ≠ 0 → ∀ bn, bn * BSIZE < w.size.toNat →
      pos sb ino d (j, placeOf bn) ≠ 0) ?_ fun j _ => h.holes j
    rw [hsize]
    exact hblocks
  · refine forall_update (C := fun j (w : Dinode) => j < sb.ninodes → w.type ≠ 0 → w.size.toNat ≤ MAXFILE * BSIZE) ?_
      fun j _ => h.size_le j
    rw [hsize]
    exact fun _ _ => hn

end Rep

end Xv6.Fs
