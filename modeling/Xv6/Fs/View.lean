import Xv6.Fs.Content

/-!
# What a disk is for: files

An allocated inode is a file, whose content is a list of bytes. `view` reads the files off the
blocks: byte `o` of a file is byte `o % BSIZE` of the block at the place of file block `o / BSIZE`.
Under `Rep` no two places have a block in common, and so a change to one block changes one file
(`byteAt_write`), and what a file looks like depends on its own blocks only (`view_congr`).
-/

namespace Xv6.Fs

open Function List

/-- A file, as the calls of the file system see it. -/
@[ext] structure FileView where
  type : BitVec 16
  major : BitVec 16
  minor : BitVec 16
  nlink : BitVec 16
  content : List Byte

/-- The size of file `i`. -/
def fileSize (F : Nat → Option FileView) (i : Nat) : Nat := ((F i).map fun v => v.content.length).getD 0

/-- The bytes `bs` are put at `off`. -/
def overwrite (c : List Byte) (off : Nat) (bs : List Byte) : List Byte := c.take off ++ bs ++ c.drop (off + bs.length)

def FileView.write (v : FileView) (off : Nat) (bs : List Byte) : FileView := { v with content := overwrite v.content off bs }

section

variable (sb : Super) (ino : Nat → Dinode) (d : Disk)

/-- Byte `o` of file `i`. -/
def byteAt (i o : Nat) : Byte := d (pos sb ino d (i, placeOf (o / BSIZE))) (o % BSIZE)

def content (i : Nat) : List Byte := (range (ino i).size.toNat).map (byteAt sb ino d i)

/-- The files. -/
def view (i : Nat) : Option FileView :=
  if i < sb.ninodes ∧ (ino i).type ≠ 0 then
    some { type := (ino i).type, major := (ino i).major, minor := (ino i).minor, nlink := (ino i).nlink, content := content sb ino d i }
  else none

/-- The files on a disk. -/
def files : Nat → Option FileView := view sb (inode sb d) d

end

/-! ## Lists of bytes -/

section

variable {c bs : List Byte} {off : Nat}

theorem length_overwrite (h : off ≤ c.length) : (overwrite c off bs).length = max c.length (off + bs.length) := by
  unfold overwrite
  rw [length_append, length_append, length_take, length_drop]
  omega

theorem getElem?_overwrite (h : off ≤ c.length) (o : Nat) :
    (overwrite c off bs)[o]? = if off ≤ o ∧ o < off + bs.length then bs[o - off]? else (c)[o]? := by
  have htake : (c.take off).length = off := by
    rw [length_take]
    omega
  unfold overwrite
  by_cases hlt : o < off
  · rw [if_neg (by omega), append_assoc, getElem?_append_left (by omega), getElem?_take_of_lt hlt]
  · by_cases hin : o < off + bs.length
    · rw [if_pos ⟨by omega, hin⟩, append_assoc, getElem?_append_right (by omega), htake, getElem?_append_left (by omega)]
    · have hlen : (c.take off ++ bs).length = off + bs.length := by
        rw [length_append, htake]
      rw [if_neg (by omega), getElem?_append_right (by omega), hlen, getElem?_drop]
      congr 1
      omega

/-- Bytes that follow each other. -/
theorem overwrite_overwrite (h : off ≤ c.length) (bs' : List Byte) :
    overwrite (overwrite c off bs) (off + bs.length) bs' = overwrite c off (bs ++ bs') := by
  have hlen : (c.take off ++ bs).length = off + bs.length := by
    rw [length_append, length_take]
    omega
  have hdrop : (c.take off ++ bs ++ c.drop (off + bs.length)).drop (off + bs.length + bs'.length) =
    c.drop (off + bs.length + bs'.length) := by
    rw [drop_append, drop_eq_nil_of_le (by omega), nil_append, drop_drop, hlen]
    congr 1
    omega
  unfold overwrite
  rw [take_left' hlen, hdrop, length_append, add_assoc off]
  simp only [append_assoc]

theorem overwrite_nil (c : List Byte) (off : Nat) : overwrite c off [] = c := by
  unfold overwrite
  rw [append_nil, length_nil, add_zero, take_append_drop]

end

section

variable {sb : Super} {ino : Nat → Dinode} {d : Disk} {i : Nat}

theorem placeOf_ne_indirect (bn : Nat) : placeOf bn ≠ NDIRECT := by
  unfold placeOf
  split <;> omega

theorem placeOf_inj {bn bn' : Nat} (h : placeOf bn = placeOf bn') : bn = bn' := by
  unfold placeOf at h
  split at h <;> split at h <;> omega

theorem length_content : (content sb ino d i).length = (ino i).size.toNat := by
  unfold content
  rw [length_map, length_range]

theorem getElem?_content (o : Nat) :
    (content sb ino d i)[o]? = if o < (ino i).size.toNat then some (byteAt sb ino d i o) else none := by
  unfold content
  rw [getElem?_map]
  split
  next h => rw [getElem?_range h]; rfl
  next h => rw [getElem?_eq_none (by rw [length_range]; omega)]; rfl

theorem view_eq (hi : i < sb.ninodes) (ht : (ino i).type ≠ 0) : view sb ino d i =
    some { type := (ino i).type, major := (ino i).major, minor := (ino i).minor,
           nlink := (ino i).nlink, content := content sb ino d i } :=
  if_pos ⟨hi, ht⟩

theorem view_none (h : i < sb.ninodes → (ino i).type = 0) : view sb ino d i = none :=
  if_neg fun e => e.2 (h e.1)

variable {ino' : Nat → Dinode} {d' : Disk}

/-- Inode numbers from `ninodes` on do not matter. -/
theorem byteAt_ino (h : ∀ j, j < sb.ninodes → ino' j = ino j) :
    byteAt sb ino' d = byteAt sb ino d := by
  funext i o
  unfold byteAt
  rw [pos_ino h]

theorem view_ino (h : ∀ j, j < sb.ninodes → ino' j = ino j) : view sb ino' d = view sb ino d := by
  funext i
  unfold view content
  rw [byteAt_ino h]
  by_cases hi : i < sb.ninodes
  · rw [h i hi]
  · rw [if_neg (fun e => hi e.1), if_neg (fun e => hi e.1)]

/-- A file depends on its bytes below its size. -/
theorem content_congr (hsize : (ino' i).size = (ino i).size)
    (hbytes : ∀ o, o < (ino i).size.toNat → byteAt sb ino' d' i o = byteAt sb ino d i o) :
    content sb ino' d' i = content sb ino d i := by
  unfold content
  rw [hsize]
  apply map_congr_left
  intro o ho
  exact hbytes o (mem_range.mp ho)

theorem view_congr (hino : ino' i = ino i)
    (hbytes : i < sb.ninodes → (ino i).type ≠ 0 → ∀ o, o < (ino i).size.toNat → byteAt sb ino' d' i o = byteAt sb ino d i o) :
    view sb ino' d' i = view sb ino d i := by
  unfold view
  rw [hino]
  split
  next h => rw [content_congr (congrArg Dinode.size hino) (hbytes h.1 h.2)]
  next => rfl

namespace Rep

variable (h : Rep sb ino d)
include h

/-- Every block of a file below its size is there. -/
theorem mapped (hi : i < sb.ninodes) (ht : (ino i).type ≠ 0) {o : Nat} (ho : o < (ino i).size.toNat) :
    pos sb ino d (i, placeOf (o / BSIZE)) ≠ 0 :=
  h.holes i hi ht _ (lt_of_le_of_lt (Nat.div_mul_le_self o BSIZE) ho)

/-- A block that is not an indirect one changes no place. -/
theorem pos_write {p : Nat × Nat} (hp : pos sb ino d p ≠ 0) (hk : p.2 ≠ NDIRECT) (x : Block) :
    pos sb ino (update d (pos sb ino d p) x) = pos sb ino d := by
  have hfile := h.not_indirect hp hk
  generalize pos sb ino d p = b at hfile ⊢
  funext q
  unfold pos
  split
  next hq => rw [addrAt_congr rfl fun _ => update_of_ne (hfile q.1 hq.1 hq.2) _ _]
  next => rfl

theorem byteAt_write {bn : Nat} (hp : pos sb ino d (i, placeOf bn) ≠ 0) (x : Block) (j o : Nat) :
    byteAt sb ino (update d (pos sb ino d (i, placeOf bn)) x) j o =
      if j = i ∧ o / BSIZE = bn then x (o % BSIZE) else byteAt sb ino d j o := by
  unfold byteAt
  rw [h.pos_write hp (placeOf_ne_indirect bn)]
  split
  next hjo => rw [hjo.1, hjo.2, update_self]
  next hne =>
    rw [update_of_ne]
    intro e
    have hq := h.owned.inj _ _ hp e
    exact hne ⟨congrArg Prod.fst hq, placeOf_inj (congrArg Prod.snd hq)⟩

theorem pos_data (hd : ∀ b, sb.datastart ≤ b → d' b = d b) : pos sb ino d' = pos sb ino d := by
  funext q
  unfold pos
  split
  next hq => rw [addrAt_congr rfl fun hind => hd _ (h.indirect_area hq.1 hq.2 hind).2.1]
  next => rfl

/-- Only the blocks of the data area matter. -/
theorem content_frame (hpos : pos sb ino' d' = pos sb ino d)
    (hd : ∀ b, sb.datastart ≤ b → d' b = d b) (hi : i < sb.ninodes) (ht : (ino i).type ≠ 0)
    (hsize : (ino' i).size = (ino i).size) : content sb ino' d' i = content sb ino d i := by
  apply content_congr hsize
  intro o ho
  unfold byteAt
  rw [hpos, hd _ (h.owned.area _ (h.mapped hi ht ho)).1]

end Rep

/-- The places of an inode are its addresses. -/
theorem pos_same {v : Dinode} (haddr : v.addr = (ino i).addr) (htype : v.type = 0 ↔ (ino i).type = 0) :
    pos sb (update ino i v) d = pos sb ino d := by
  funext p
  rw [pos_update fun _ _ _ _ _ => rfl]
  split
  next hp =>
    unfold pos
    rw [hp, addrAt_congr haddr fun _ => rfl]
    simp only [ne_eq, htype]
  next => rfl

end

/-! ## `bmap` changes no file -/

section

variable {P : Type} {sb : Super} {s s' : State P} {k : Fin NINODE} {l a : Nat}

theorem Mapped.byteAt (hm : Mapped sb k l a s s') {j o : Nat} (hmapped : pos sb (table sb s k) s.disk (j, placeOf (o / BSIZE)) ≠ 0) :
    byteAt sb (table sb s' k) s'.disk j o = byteAt sb (table sb s k) s.disk j o := by
  unfold Fs.byteAt
  rw [hm.keeps _ hmapped, hm.data _ hmapped fun e => placeOf_ne_indirect _ (congrArg Prod.snd e)]

end

end Xv6.Fs
