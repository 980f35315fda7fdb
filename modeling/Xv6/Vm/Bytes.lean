import Xv6.Lib.Paged
import Xv6.Vm.Code

/-!
# Memory by bytes

A byte of physical memory stands in a word of a page. The bytes that a store writes read back, and
all others are as they were.
-/

namespace Xv6.Vm

open Prog Function List

/-! ## The bytes of a word -/

theorem ones_getLsbD (i : Nat) : (0xFF#64).getLsbD i = decide (i < 8) := by
  have h : 0xFF#64 = (BitVec.allOnes 8).setWidth 64 := by decide
  rw [h, BitVec.getLsbD_setWidth, BitVec.getLsbD_allOnes]
  by_cases hi : i < 8
  · have : i < 64 := by omega
    simp [hi, this]
  · simp [hi]

variable {a i n : Nat} {bs : List UInt8}

/-- The bits of a word in which a byte has been stored. -/
theorem lane_getLsbD (w : Word) (b : BitVec 8) {l : Nat} (hl : l < 8) (hi : i < 8) :
    (w &&& ~~~(0xFF#64 <<< (8 * n)) ||| b.setWidth 64 <<< (8 * n)).getLsbD (8 * l + i) =
      if l = n then b.getLsbD i else w.getLsbD (8 * l + i) := by
  have hlt : 8 * l + i < 64 := by omega
  simp only [BitVec.getLsbD_or, BitVec.getLsbD_and, BitVec.getLsbD_not, BitVec.getLsbD_shiftLeft, BitVec.getLsbD_setWidth,
    ones_getLsbD]
  by_cases hln : l = n
  · have : i < 64 := by omega
    subst hln
    simp [hi, hlt, this]
  · rw [if_neg hln]
    rcases Nat.lt_or_gt_of_ne hln with h | h
    · have hbelow : 8 * l + i < 8 * n := by omega
      simp [hlt, hbelow]
    · have hout : 8 ≤ 8 * l + i - 8 * n := by omega
      have hno : b.getLsbD (8 * l + i - 8 * n) = false := BitVec.getLsbD_of_ge b _ hout
      simp [hlt, hno, Nat.not_lt.mpr hout]

theorem lane (w : Word) (b : BitVec 8) {l : Nat} (hl : l < 8) :
    (w &&& ~~~(0xFF#64 <<< (8 * n)) ||| b.setWidth 64 <<< (8 * n)).extractLsb' (8 * l) 8 =
      if l = n then b else w.extractLsb' (8 * l) 8 := by
  apply BitVec.eq_of_getLsbD_eq
  intro i hi
  rw [BitVec.getLsbD_extractLsb', lane_getLsbD w b hl hi]
  split
  · simp [hi]
  · rw [BitVec.getLsbD_extractLsb']

/-! ## The bytes of a page -/

section

variable {row : Nat → Word} {k j : Nat} {b : UInt8}

@[simp] theorem getByte_setByte_self : getByte (setByte row k b) k = b := by
  unfold getByte setByte
  rw [update_self, lane _ _ (Nat.mod_lt k (by decide)), if_pos rfl]

theorem getByte_setByte_of_ne (h : j ≠ k) : getByte (setByte row k b) j = getByte row j := by
  unfold getByte setByte
  by_cases hword : j / 8 = k / 8
  · rw [hword, update_self, lane _ _ (Nat.mod_lt j (by decide)), if_neg (by omega)]
  · rw [update_of_ne hword]

end

/-! ## Physical memory -/

namespace Mem

variable (m : Mem)

/-- The byte at a physical address. -/
def byte (a : Nat) : UInt8 := getByte (m.word (PGROUNDDOWN a)) (a % PGSIZE)

def putByte (a : Nat) (b : UInt8) : Mem := m.setPage (PGROUNDDOWN a) (setByte (m.word (PGROUNDDOWN a)) (a % PGSIZE) b)

/-- The bytes from a physical address on. -/
def bytes (a n : Nat) : List UInt8 := (range n).map fun i => m.byte (a + i)

/-- Store bytes from a physical address on. -/
def putBytes (a : Nat) (bs : List UInt8) : Mem := Paged.scatter putByte id m a bs

variable {m}

theorem PGROUNDDOWN_add_mod (a : Nat) : PGROUNDDOWN a + a % PGSIZE = a := Nat.div_add_mod' a PGSIZE

theorem byte_putByte_self (m : Mem) (a : Nat) (b : UInt8) : (m.putByte a b).byte a = b := by
  unfold byte putByte
  rw [setPage_self, getByte_setByte_self]

theorem byte_putByte_of_ne (m : Mem) (a c : Nat) (b : UInt8) (h : c ≠ a) : (m.putByte a b).byte c = m.byte c := by
  unfold byte putByte
  by_cases hpage : PGROUNDDOWN c = PGROUNDDOWN a
  · have hmod : c % PGSIZE ≠ a % PGSIZE := by
      intro hmod
      apply h
      rw [← PGROUNDDOWN_add_mod c, ← PGROUNDDOWN_add_mod a, hpage, hmod]
    rw [hpage, setPage_self, getByte_setByte_of_ne hmod]
  · rw [setPage_of_ne hpage]

theorem length_bytes (m : Mem) (a n : Nat) : (m.bytes a n).length = n := by
  rw [bytes, length_map, length_range]

theorem getElem_bytes (hi : i < (m.bytes a n).length) : (m.bytes a n)[i] = m.byte (a + i) := by
  simp [bytes]

theorem bytes_add (m : Mem) (a n k : Nat) : m.bytes a (n + k) = m.bytes a n ++ m.bytes (a + n) k := by
  unfold bytes
  rw [range_add, map_append, map_map]
  simp only [comp_def, add_assoc]

theorem take_bytes (m : Mem) (a n k : Nat) : (m.bytes a n).take k = m.bytes a (min k n) := by
  unfold bytes
  rw [← map_take, take_range]

theorem drop_bytes (m : Mem) (a n k : Nat) : (m.bytes a n).drop k = m.bytes (a + min k n) (n - min k n) := by
  have hsplit := m.bytes_add a (min k n) (n - min k n)
  rw [Nat.add_sub_cancel' (Nat.min_le_right k n)] at hsplit
  rw [hsplit]
  rcases Nat.le_total n k with hn | hn
  · rw [Nat.min_eq_right hn, Nat.sub_self]
    exact drop_eq_nil_of_le (by rw [length_append, length_bytes]; exact hn)
  · rw [Nat.min_eq_left hn]
    exact drop_left' (length_bytes m a k)

/-- Bytes in pages that have not changed. -/
theorem bytes_congr {m' : Mem}
    (h : ∀ i, i < n → m'.word (PGROUNDDOWN (a + i)) = m.word (PGROUNDDOWN (a + i))) :
    m'.bytes a n = m.bytes a n := by
  apply map_congr_left
  intro i hi
  unfold byte
  rw [h i (mem_range.mp hi)]

theorem putBytes_append (m : Mem) (a : Nat) (bs cs : List UInt8) :
    m.putBytes a (bs ++ cs) = (m.putBytes a bs).putBytes (a + bs.length) cs :=
  Paged.scatter_append bs cs

/-- What a store leaves. -/
theorem byte_putBytes_of_not {c : Nat} (h : c < a ∨ a + bs.length ≤ c) :
    (m.putBytes a bs).byte c = m.byte c :=
  Paged.get_scatter_of_ne byte_putByte_of_ne bs fun i hi => by
    show c ≠ a + i
    omega

theorem byte_putBytes (hi : i < bs.length) : (m.putBytes a bs).byte (a + i) = bs[i] :=
  Paged.get_scatter_self byte_putByte_self byte_putByte_of_ne bs hi fun j _ _ => by
    show a + i ≠ a + j
    omega

theorem bytes_putBytes (hn : n = bs.length) : (m.putBytes a bs).bytes a n = bs := by
  apply ext_getElem
  · rw [length_bytes, hn]
  · intro i hi hi'
    rw [getElem_bytes, byte_putBytes hi']

end Mem

/-! ## A page and its bytes -/

section

variable {m : Mem} {page k : Nat}

section

variable (hpage : page % PGSIZE = 0) (hk : k < PGSIZE)
include hpage hk

theorem PGROUNDDOWN_page : PGROUNDDOWN (page + k) = page := by
  unfold PGROUNDDOWN
  rw [PGSIZE_eq] at hpage hk ⊢
  omega

theorem mod_page : (page + k) % PGSIZE = k := by
  rw [PGSIZE_eq] at hpage hk ⊢
  omega

theorem byte_page : m.byte (page + k) = getByte (m.word page) k := by
  unfold Mem.byte
  rw [PGROUNDDOWN_page hpage hk, mod_page hpage hk]

end

theorem setPage_setPage (m : Mem) (page : Nat) (row row' : Nat → Word) :
    (m.setPage page row).setPage page row' = m.setPage page row' := by
  unfold Mem.setPage
  simp only [update_idem]

theorem setPage_eq_self (m : Mem) (page : Nat) : m.setPage page (m.word page) = m := by
  unfold Mem.setPage
  simp only [update_eq_self]

/-- A store within a page. -/
theorem putBytes_page (hpage : page % PGSIZE = 0) (hk : k + bs.length ≤ PGSIZE) :
    m.putBytes (page + k) bs = m.setPage page (setBytes (m.word page) k bs) := by
  induction bs generalizing m k with
  | nil => exact (setPage_eq_self m page).symm
  | cons b bs ih =>
    rw [length_cons] at hk
    have hfirst : m.putByte (page + k) b = m.setPage page (setByte (m.word page) k b) := by
      unfold Mem.putByte
      rw [PGROUNDDOWN_page hpage (by omega), mod_page hpage (by omega)]
    have hrest := ih (m := m.putByte (page + k) b) (k := k + 1) (by omega)
    rw [hfirst, setPage_setPage, Mem.setPage_self] at hrest
    show (m.putByte (page + k) b).putBytes (page + k + 1) bs = _
    rw [hfirst, add_assoc, hrest]
    rfl

/-- Stores leave the pages they are not in. -/
theorem word_scatter {place : Nat → Nat} {p : Nat}
    (h : ∀ i, i < bs.length → p ≠ PGROUNDDOWN (place (a + i))) :
    (Paged.scatter Mem.putByte place m a bs).word p = m.word p := by
  induction bs generalizing m a with
  | nil => rfl
  | cons b bs ih =>
    rw [length_cons] at h
    rw [Paged.scatter, ih]
    · exact Mem.setPage_of_ne (h 0 (by omega))
    · intro i hi
      have := h (i + 1) (by omega)
      rwa [add_assoc, add_comm 1 i]

theorem word_putBytes {p : Nat} (h : ∀ i, i < bs.length → p ≠ PGROUNDDOWN (a + i)) :
    (m.putBytes a bs).word p = m.word p :=
  word_scatter h

end

end Xv6.Vm
