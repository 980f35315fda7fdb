import Mathlib.Algebra.Order.Ring.Int

/-!
# Byte sectors and little-endian fields

A sector is a run of bytes read and written at byte offsets. The scalar fields are the two widths
that packed on-disk records use: 16 and 32 bits, least significant byte first.

Every field carries the same three laws: reading back what was stored at the same offset
(`u16_putU16`, `u32_putU32`), reading a field that the store does not overlap
(`u32_putU32_of_disjoint` and its mixed-width forms), and the byte frame (`putU32_byte`). A packed
record is then a sequence of stores at disjoint offsets, and its round trip is a `simp` call.
-/

namespace Xv6

open Function

/-- One byte of storage. -/
abbrev Byte := BitVec 8

/-- A run of bytes by offset. What a sector's length is, its user says. -/
abbrev Sector := Nat → Byte

namespace Sector

/-- The 16-bit little-endian field at a byte offset. -/
def u16 (b : Sector) (off : Nat) : BitVec 16 := b (off + 1) ++ b off

/-- The 32-bit little-endian field at a byte offset. -/
def u32 (b : Sector) (off : Nat) : BitVec 32 := u16 b (off + 2) ++ u16 b off

/-- Store a 16-bit field. -/
def putU16 (b : Sector) (off : Nat) (v : BitVec 16) : Sector := fun i =>
  if i = off then v.extractLsb' 0 8 else if i = off + 1 then v.extractLsb' 8 8 else b i

/-- Store a 32-bit field: its low half, then its high half. -/
def putU32 (b : Sector) (off : Nat) (v : BitVec 32) : Sector :=
  putU16 (putU16 b off (v.extractLsb' 0 16)) (off + 2) (v.extractLsb' 16 16)

/-- Splitting a word in two halves and joining them again changes nothing. -/
theorem halves_append {n : Nat} (v : BitVec (n + n)) :
    (v.extractLsb' n n ++ v.extractLsb' 0 n : BitVec (n + n)) = v := by
  apply BitVec.eq_of_getLsbD_eq
  intro i hi
  rw [BitVec.getLsbD_append]
  by_cases h : i < n
  · rw [if_pos h, BitVec.getLsbD_extractLsb', zero_add]
    simp [h]
  · rw [if_neg h, BitVec.getLsbD_extractLsb', Nat.add_sub_cancel' (Nat.le_of_not_lt h)]
    simp [show i - n < n by omega]

/-! ## 16-bit fields -/

variable {i off off' : Nat} {b : Sector}

theorem putU16_byte (b : Sector) (v : BitVec 16) (h : i < off ∨ off + 2 ≤ i) :
    putU16 b off v i = b i := by
  unfold putU16
  rw [if_neg (by omega), if_neg (by omega)]

@[simp] theorem u16_putU16 (b : Sector) (off : Nat) (v : BitVec 16) :
    u16 (putU16 b off v) off = v := by
  have hlow : putU16 b off v off = v.extractLsb' 0 8 := if_pos rfl
  have hhigh : putU16 b off v (off + 1) = v.extractLsb' 8 8 := by
    unfold putU16
    rw [if_neg (by omega), if_pos rfl]
  rw [u16, hlow, hhigh]
  exact halves_append (n := 8) v

theorem u16_putU16_of_disjoint (b : Sector) (v : BitVec 16) (h : off' + 2 ≤ off ∨ off + 2 ≤ off') :
    u16 (putU16 b off v) off' = u16 b off' := by
  rw [u16, u16, putU16_byte b v (by omega), putU16_byte b v (by omega)]

/-! ## 32-bit fields -/

theorem putU32_byte (b : Sector) (v : BitVec 32) (h : i < off ∨ off + 4 ≤ i) :
    putU32 b off v i = b i := by
  rw [putU32, putU16_byte _ _ (by omega), putU16_byte _ _ (by omega)]

@[simp] theorem u32_putU32 (b : Sector) (off : Nat) (v : BitVec 32) :
    u32 (putU32 b off v) off = v := by
  rw [u32, putU32, u16_putU16, u16_putU16_of_disjoint _ _ (by omega), u16_putU16]
  exact halves_append (n := 16) v

theorem u32_putU32_of_disjoint (b : Sector) (v : BitVec 32) (h : off' + 4 ≤ off ∨ off + 4 ≤ off') :
    u32 (putU32 b off v) off' = u32 b off' := by
  rw [u32, u32, putU32, u16_putU16_of_disjoint _ _ (by omega), u16_putU16_of_disjoint _ _ (by omega),
    u16_putU16_of_disjoint _ _ (by omega), u16_putU16_of_disjoint _ _ (by omega)]

theorem u16_putU32_of_disjoint (b : Sector) (v : BitVec 32) (h : off' + 2 ≤ off ∨ off + 4 ≤ off') :
    u16 (putU32 b off v) off' = u16 b off' := by
  rw [u16, u16, putU32_byte b v (by omega), putU32_byte b v (by omega)]

/-- A field depends on its own bytes only. -/
theorem u16_congr {b' : Sector} (h0 : b off = b' off') (h1 : b (off + 1) = b' (off' + 1)) :
    u16 b off = u16 b' off' := by
  rw [u16, u16, h0, h1]

theorem u32_congr {b' : Sector} (h : ∀ i, i < 4 → b (off + i) = b' (off' + i)) :
    u32 b off = u32 b' off' := by
  have hlow : u16 b off = u16 b' off' := u16_congr (h 0 (by omega)) (h 1 (by omega))
  have hhigh : u16 b (off + 2) = u16 b' (off' + 2) := u16_congr (h 2 (by omega)) (h 3 (by omega))
  rw [u32, u32, hlow, hhigh]

/-! ## Arrays of 32-bit fields -/

/-- Store consecutive 32-bit fields. -/
def putU32s (b : Sector) (off : Nat) : List (BitVec 32) → Sector
  | [] => b
  | v :: vs => putU32s (putU32 b off v) (off + 4) vs

theorem putU32s_byte {vs : List (BitVec 32)} (h : i < off ∨ off + 4 * vs.length ≤ i) :
    putU32s b off vs i = b i := by
  induction vs generalizing b off with
  | nil => rfl
  | cons v vs ih =>
    rw [List.length_cons] at h
    rw [putU32s, ih (by omega), putU32_byte b v (by omega)]

theorem u32_putU32s {vs : List (BitVec 32)} {k : Nat} (hk : k < vs.length) :
    u32 (putU32s b off vs) (off + 4 * k) = vs[k] := by
  induction vs generalizing b off k with
  | nil => cases hk
  | cons v vs ih =>
    rw [putU32s]
    cases k with
    | zero =>
      have hbyte : ∀ i, i < 4 → putU32s (putU32 b off v) (off + 4) vs (off + i) = putU32 b off v (off + i) :=
        fun i hi => putU32s_byte (by omega)
      show u32 _ off = v
      rw [u32_congr hbyte, u32_putU32]
    | succ k =>
      rw [show off + 4 * (k + 1) = off + 4 + 4 * k by omega, ih (by simpa using hk), List.getElem_cons_succ]

/-! ## Bits -/

/-- Bit `n` of a sector: bit `n % 8` of byte `n / 8`. -/
def bit (b : Sector) (n : Nat) : Bool := (b (n / 8)).getLsbD (n % 8)

/-- Set a bit. -/
def setBit (b : Sector) (n : Nat) : Sector := update b (n / 8) (b (n / 8) ||| 1#8 <<< (n % 8))

/-- Clear a bit. -/
def clearBit (b : Sector) (n : Nat) : Sector := update b (n / 8) (b (n / 8) &&& ~~~(1#8 <<< (n % 8)))

theorem getLsbD_one_shiftLeft {j : Nat} (hi : i < 8) : (1#8 <<< j).getLsbD i = decide (i = j) := by
  rw [BitVec.getLsbD_shiftLeft, BitVec.getLsbD_one]
  by_cases hij : i = j
  · subst hij
    simp [hi]
  · simp only [hij, decide_false]
    by_cases hlt : i < j
    · simp [hlt]
    · simp [show i - j ≠ 0 by omega]

theorem bit_setBit (b : Sector) (n : Nat) : (b.setBit n).bit = update b.bit n true := by
  funext m
  unfold bit setBit
  by_cases hbyte : m / 8 = n / 8
  · rw [hbyte, update_self, BitVec.getLsbD_or, getLsbD_one_shiftLeft (by omega)]
    by_cases hm : m = n
    · simp [hm]
    · simp [hm, hbyte, show m % 8 ≠ n % 8 by omega]
  · rw [update_of_ne hbyte, update_of_ne (by rintro rfl; exact hbyte rfl)]

theorem bit_clearBit (b : Sector) (n : Nat) : (b.clearBit n).bit = update b.bit n false := by
  funext m
  unfold bit clearBit
  by_cases hbyte : m / 8 = n / 8
  · rw [hbyte, update_self, BitVec.getLsbD_and, BitVec.getLsbD_not, getLsbD_one_shiftLeft (by omega)]
    by_cases hm : m = n
    · simp [hm]
    · have hlt : m % 8 < 8 := Nat.mod_lt _ (by omega)
      simp [hm, hbyte, hlt, show m % 8 ≠ n % 8 by omega]
  · rw [update_of_ne hbyte, update_of_ne (by rintro rfl; exact hbyte rfl)]

end Sector

end Xv6
