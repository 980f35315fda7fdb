import Xv6.Lib.Radix
import Mathlib.Data.BitVec

/-!
# Pages and page-table entries

The macros of `kernel/riscv.h` and `kernel/memlayout.h` that the page tables use. Addresses are
numbers below 2^64, a page-table entry is a 64-bit word. `sv39` reads a page-table page as one level
of a radix tree with 512 words to a table.
-/

namespace Xv6.Vm

open BitVec

abbrev Word := BitVec 64

/-! ## `memlayout.h` and the sizes of `riscv.h` -/

/-- bytes per page -/
def PGSIZE : Nat := 4096
def KERNBASE : Nat := 0x80000000
def PHYSTOP : Nat := KERNBASE + 128 * 1024 * 1024
/-- one beyond the highest possible virtual address. -/
def MAXVA : Nat := 2 ^ (9 + 9 + 9 + 12 - 1)
def TRAMPOLINE : Nat := MAXVA - PGSIZE
def TRAPFRAME : Nat := TRAMPOLINE - PGSIZE
/-- Kernel stacks lie beneath the trampoline, each surrounded by invalid guard pages. -/
def KSTACK (p : Nat) : Nat := TRAMPOLINE - (p + 1) * 2 * PGSIZE

def PGROUNDDOWN (a : Nat) : Nat := a / PGSIZE * PGSIZE

/-- The addition is one of 64 bits. -/
def PGROUNDUP (sz : Nat) : Nat := PGROUNDDOWN ((sz + PGSIZE - 1) % 2 ^ 64)

/-! ## Page-table entries -/

/-- valid -/
def PTE_V : Word := 1
def PTE_R : Word := 2
def PTE_W : Word := 4
def PTE_X : Word := 8
/-- 1 -> user can access -/
def PTE_U : Word := 16

/-- shift a physical address to the right place for a PTE. -/
def PA2PTE (pa : Nat) : Word := BitVec.ofNat 64 pa >>> 12 <<< 10
def PTE2PA (pte : Word) : Nat := (pte >>> 10 <<< 12).toNat
def PTE_FLAGS (pte : Word) : Word := pte &&& 0x3FF

/-- extract the three 9-bit page table indices from a virtual address. -/
def PX (level va : Nat) : Nat := va >>> (12 + 9 * level) &&& 0x1FF

/-- A page-table page as a table of a radix tree. -/
def sv39 : Radix Nat Word where
  fan := 512
  valid pte := pte &&& PTE_V != 0
  addr := PTE2PA

/-- The entry may be read, written or run: it is not the address of a further table. -/
def isLeaf (pte : Word) : Bool := pte &&& (PTE_R ||| PTE_W ||| PTE_X) != 0

/-- The address of a page, as an entry can hold it. -/
structure PageAddr (pa : Nat) : Prop where
  aligned : pa % PGSIZE = 0
  lt : pa < 2 ^ 64

theorem PGSIZE_eq : PGSIZE = 4096 := rfl

theorem KERNBASE_eq : KERNBASE = 0x80000000 := rfl

theorem PHYSTOP_eq : PHYSTOP = 0x88000000 := rfl

theorem MAXVA_eq : MAXVA = 0x4000000000 := rfl

theorem PGROUNDDOWN_eq (a : Nat) : PGROUNDDOWN a = a / 4096 * 4096 := rfl

theorem PGROUNDUP_eq {sz : Nat} (h : sz < 2 ^ 63) : PGROUNDUP sz = (sz + 4095) / 4096 * 4096 := by
  unfold PGROUNDUP
  rw [PGSIZE_eq, PGROUNDDOWN_eq, Nat.mod_eq_of_lt (by omega)]
  rfl

theorem fan_pos : 0 < sv39.fan := by decide

theorem PX_eq_digit (level va : Nat) : PX level va = sv39.digit level (va / PGSIZE) := by
  have hmask : (0x1FF : Nat) = 2 ^ 9 - 1 := rfl
  unfold PX Radix.digit
  rw [hmask, Nat.and_two_pow_sub_one_eq_mod, Nat.shiftRight_eq_div_pow, Nat.pow_add, ← Nat.div_div_eq_div_mul,
    Nat.pow_mul]
  rfl

theorem PX_lt (level va : Nat) : PX level va < 512 := by
  rw [PX_eq_digit]
  exact Radix.digit_lt fan_pos level _

section

variable {pa : Nat} {perm : Word}

theorem PA2PTE_toNat (h : pa < 2 ^ 64) : (PA2PTE pa).toNat = pa / 4096 * 1024 := by
  unfold PA2PTE
  rw [toNat_shiftLeft, toNat_ushiftRight, toNat_ofNat, Nat.shiftRight_eq_div_pow,
    Nat.shiftLeft_eq]
  omega

/-- An address leaves the flag bits of an entry free. -/
theorem PA2PTE_and (pa : Nat) {m : Word} (hm : m &&& 0x3FF#64 = m) : PA2PTE pa &&& m = 0#64 := by
  have hlow : PA2PTE pa &&& 0x3FF#64 = 0#64 := by
    apply BitVec.eq_of_toNat_eq
    have hmask : (0x3FF#64).toNat = 2 ^ 10 - 1 := rfl
    unfold PA2PTE
    rw [toNat_and, hmask, Nat.and_two_pow_sub_one_eq_mod, toNat_shiftLeft, Nat.shiftLeft_eq]
    simp only [toNat_ofNat]
    omega
  rw [← hm, BitVec.and_comm m, ← BitVec.and_assoc, hlow, BitVec.zero_and]

/-- The flags of an entry, whatever its address. -/
theorem entry_and (pa : Nat) (perm : Word) {m : Word} (hm : m &&& 0x3FF#64 = m) :
    (PA2PTE pa ||| perm ||| PTE_V) &&& m = (perm ||| PTE_V) &&& m := by
  rw [BitVec.or_assoc, BitVec.and_comm, BitVec.and_or_distrib_left, BitVec.and_comm, PA2PTE_and pa hm, BitVec.zero_or,
    BitVec.and_comm]

theorem PTE2PA_mod (w : Word) : PTE2PA w % PGSIZE = 0 := by
  unfold PTE2PA
  rw [toNat_shiftLeft, Nat.shiftLeft_eq, PGSIZE_eq]
  omega

theorem PTE2PA_entry (hpa : PageAddr pa) (hperm : perm.toNat < 2 ^ 10) :
    PTE2PA (PA2PTE pa ||| perm ||| PTE_V) = pa := by
  have hhigh : (PA2PTE pa ||| perm ||| PTE_V) >>> 10 = PA2PTE pa >>> 10 := by
    have hflags : (perm ||| PTE_V) >>> 10 = 0#64 := by
      apply BitVec.eq_of_toNat_eq
      rw [toNat_ushiftRight, toNat_or, Nat.shiftRight_eq_div_pow]
      exact Nat.div_eq_of_lt (Nat.or_lt_two_pow hperm (by decide))
    rw [BitVec.or_assoc, ushiftRight_or_distrib, hflags, BitVec.or_zero]
  have haligned := hpa.aligned
  have hlt := hpa.lt
  unfold PGSIZE at haligned
  unfold PTE2PA
  rw [hhigh, toNat_shiftLeft, toNat_ushiftRight, PA2PTE_toNat hlt, Nat.shiftRight_eq_div_pow,
    Nat.shiftLeft_eq]
  omega

theorem valid_entry (pa : Nat) (perm : Word) : sv39.valid (PA2PTE pa ||| perm ||| PTE_V) = true := by
  show ((PA2PTE pa ||| perm ||| PTE_V) &&& PTE_V != 0) = true
  rw [BitVec.and_comm, BitVec.and_or_distrib_left, BitVec.and_self]
  apply bne_iff_ne.mpr
  intro h
  have hbit := congrArg (·.getLsbD 0) h
  simp [PTE_V] at hbit

theorem PTE_FLAGS_entry (pa : Nat) (hperm : perm.toNat < 2 ^ 10) :
    PTE_FLAGS (PA2PTE pa ||| perm ||| PTE_V) = perm ||| PTE_V := by
  unfold PTE_FLAGS
  rw [entry_and pa perm (by decide)]
  apply BitVec.eq_of_toNat_eq
  have hmask : (0x3FF : Word).toNat = 2 ^ 10 - 1 := rfl
  rw [toNat_and, hmask, Nat.and_two_pow_sub_one_eq_mod, toNat_or]
  exact Nat.mod_eq_of_lt (Nat.or_lt_two_pow hperm (by decide))

/-- The entry of a page-table page. -/
theorem PTE2PA_node (hpa : PageAddr pa) : PTE2PA (PA2PTE pa ||| PTE_V) = pa := by
  have h : PTE2PA (PA2PTE pa ||| 0#64 ||| PTE_V) = pa := PTE2PA_entry hpa (by decide)
  rwa [BitVec.or_zero] at h

theorem valid_node (pa : Nat) : sv39.valid (PA2PTE pa ||| PTE_V) = true := by
  have h := valid_entry pa 0#64
  rwa [BitVec.or_zero] at h

theorem isLeaf_node (pa : Nat) : isLeaf (PA2PTE pa ||| PTE_V) = false := by
  have h := entry_and pa 0#64 (m := PTE_R ||| PTE_W ||| PTE_X) (by decide)
  rw [BitVec.or_zero] at h
  unfold isLeaf
  rw [h]
  decide

theorem isLeaf_entry (pa : Nat) (perm : Word) :
    isLeaf (PA2PTE pa ||| perm ||| PTE_V) = isLeaf perm := by
  have hv : PTE_V &&& (PTE_R ||| PTE_W ||| PTE_X) = 0#64 := by decide
  unfold isLeaf
  rw [entry_and pa perm (by decide), BitVec.and_comm, BitVec.and_or_distrib_left, BitVec.and_comm _ PTE_V, hv,
    BitVec.or_zero, BitVec.and_comm]

end

theorem valid_iff (w : Word) : sv39.valid w = true ↔ w &&& PTE_V ≠ 0 := bne_iff_ne

theorem not_valid_iff (w : Word) : sv39.valid w = false ↔ w &&& PTE_V = 0 := by
  rw [← Bool.not_eq_true, valid_iff, Classical.not_not]

theorem isLeaf_iff (w : Word) : isLeaf w = true ↔ w &&& (PTE_R ||| PTE_W ||| PTE_X) ≠ 0 := bne_iff_ne

/-- An entry with a permission is more than valid. -/
theorem PTE_FLAGS_ne_of_isLeaf {w : Word} (h : isLeaf w = true) : PTE_FLAGS w ≠ PTE_V := by
  intro hflags
  have hmask : w &&& (PTE_R ||| PTE_W ||| PTE_X) = PTE_FLAGS w &&& (PTE_R ||| PTE_W ||| PTE_X) := by
    unfold PTE_FLAGS
    rw [BitVec.and_assoc]
    rfl
  rw [isLeaf_iff, hmask, hflags] at h
  exact h (by decide)

theorem isLeaf_PTE_FLAGS (w : Word) : isLeaf (PTE_FLAGS w) = isLeaf w := by
  unfold isLeaf PTE_FLAGS
  rw [BitVec.and_assoc]
  rfl

theorem PTE_FLAGS_lt (w : Word) : (PTE_FLAGS w).toNat < 2 ^ 10 := by
  have hmask : (0x3FF : Word).toNat = 2 ^ 10 - 1 := rfl
  unfold PTE_FLAGS
  rw [toNat_and, hmask, Nat.and_two_pow_sub_one_eq_mod]
  exact Nat.mod_lt _ (by decide)

/-- The flags of a valid entry have the bit `PTE_V`. -/
theorem PTE_FLAGS_valid {w : Word} (h : sv39.valid w = true) : PTE_FLAGS w ||| PTE_V = PTE_FLAGS w := by
  have hbit : w.getLsbD 0 = true := by
    rw [← Bool.not_eq_false]
    intro hb
    apply (valid_iff w).mp h
    apply BitVec.eq_of_getLsbD_eq
    intro i hi
    rw [getLsbD_and]
    cases i with
    | zero =>
      rw [hb, Bool.false_and]
      rfl
    | succ i => simp [PTE_V]
  apply BitVec.eq_of_getLsbD_eq
  intro i hi
  unfold PTE_FLAGS
  rw [getLsbD_or, getLsbD_and]
  cases i with
  | zero => simp [hbit]
  | succ i => simp [PTE_V]

/-- Without the bit `PTE_U` an entry has its other flags. -/
theorem clear_and (w : Word) {mask : Word} (hmask : ~~~PTE_U &&& mask = mask) :
    w &&& ~~~PTE_U &&& mask = w &&& mask := by
  rw [BitVec.and_assoc, hmask]

/-- Without the bit `PTE_U` an entry has its page. -/
theorem PTE2PA_clear (w : Word) : PTE2PA (w &&& ~~~PTE_U) = PTE2PA w := by
  have hhigh : (w &&& ~~~PTE_U) >>> 10 = w >>> 10 := by
    have hbits : (~~~PTE_U) >>> 10 = (allOnes 64) >>> 10 := by decide
    rw [ushiftRight_and_distrib, hbits, ← ushiftRight_and_distrib, BitVec.and_allOnes]
  unfold PTE2PA
  rw [hhigh]

end Xv6.Vm
