import Mathlib.Data.BitVec
import Xv6.Lib.Bytes
import Xv6.Lib.Move

/-!
# `memmove` (kernel/string.c, user/ulib.c)

The two versions have the same two loops and choose between them by different tests: the kernel
copies backwards only when the source starts below the target and reaches into it, the library
whenever the source does not start above the target.

`Moved` says what a move is for, and each direction is one of the orders of `copySeq`.
-/

namespace Xv6.Memmove

open Function

abbrev Addr := BitVec 64

abbrev Mem := Addr → Byte

/-- `while(n-- > 0) *d++ = *s++;` -/
def forward : Nat → Addr → Addr → Mem → Mem
  | 0, _, _, m => m
  | n + 1, d, s, m => forward n (d + 1) (s + 1) (update m d (m s))

/-- `while(n-- > 0) *--d = *--s;` -/
def backward : Nat → Addr → Addr → Mem → Mem
  | 0, _, _, m => m
  | n + 1, d, s, m => backward n (d - 1) (s - 1) (update m (d - 1) (m (s - 1)))

/-- `memmove` of the kernel, where `n` is a `uint`. -/
def kmemmove (dst src : Addr) (n : BitVec 32) (m : Mem) : Addr × Mem :=
  if src < dst ∧ src + n.setWidth 64 > dst then (dst, backward n.toNat (dst + n.setWidth 64) (src + n.setWidth 64) m)
  else (dst, forward n.toNat dst src m)

/-- `memmove` of the user library, where `n` is an `int`. -/
def umemmove (dst src : Addr) (n : BitVec 32) (m : Mem) : Addr × Mem :=
  if src > dst then (dst, forward n.toInt.toNat dst src m)
  else (dst, backward n.toInt.toNat (dst + n.signExtend 64) (src + n.signExtend 64) m)

/-- The `n` bytes at `src` have been moved to `dst`. -/
structure Moved (dst src : Addr) (n : Nat) (m m' : Mem) : Prop where
  moved : ∀ i < n, m' (dst + BitVec.ofNat 64 i) = m (src + BitVec.ofNat 64 i)
  kept : ∀ a, (∀ i < n, a ≠ dst + BitVec.ofNat 64 i) → m' a = m a

variable {dst src : Addr} {n : Nat} {m : Mem}

/-- A move has one result. -/
theorem Moved.unique {m₁ m₂ : Mem} (h₁ : Moved dst src n m m₁) (h₂ : Moved dst src n m m₂) : m₁ = m₂ := by
  funext a
  by_cases ha : ∃ i < n, a = dst + BitVec.ofNat 64 i
  · obtain ⟨i, hi, rfl⟩ := ha
    rw [h₁.moved i hi, h₂.moved i hi]
  · have hne : ∀ i < n, a ≠ dst + BitVec.ofNat 64 i := fun i hi heq => ha ⟨i, hi, heq⟩
    rw [h₁.kept a hne, h₂.kept a hne]

/-! ## The two directions -/

theorem add_one_add (a : Addr) (i : Nat) : a + 1 + BitVec.ofNat 64 i = a + BitVec.ofNat 64 (i + 1) := by
  rw [BitVec.add_assoc, BitVec.add_comm 1, BitVec.ofNat_add]
  rfl

theorem sub_one_sub (a : Addr) (i : Nat) : a - 1 - BitVec.ofNat 64 i = a - BitVec.ofNat 64 (i + 1) := by
  rw [BitVec.sub_sub, BitVec.add_comm 1, BitVec.ofNat_add]
  rfl

theorem forward_eq (n : Nat) (d s : Addr) (m : Mem) :
    forward n d s m = copySeq (fun i => d + BitVec.ofNat 64 i) (fun i => s + BitVec.ofNat 64 i) n m := by
  induction n generalizing d s m with
  | zero => rfl
  | succ n ih =>
    rw [forward, ih, copySeq_front]
    simp only [add_one_add, BitVec.add_zero]

theorem backward_eq (n : Nat) (d s : Addr) (m : Mem) :
    backward n d s m = copySeq (fun i => d - BitVec.ofNat 64 (i + 1)) (fun i => s - BitVec.ofNat 64 (i + 1)) n m := by
  induction n generalizing d s m with
  | zero => rfl
  | succ n ih =>
    rw [backward, ih, copySeq_front]
    simp only [sub_one_sub]
    rfl

theorem toNat_add (a : Addr) {i : Nat} (h : a.toNat + i < 2 ^ 64) : (a + BitVec.ofNat 64 i).toNat = a.toNat + i := by
  rw [BitVec.toNat_add, BitVec.toNat_ofNat, Nat.mod_eq_of_lt (by omega : i < 2 ^ 64), Nat.mod_eq_of_lt h]

/-- Different places of a range that does not wrap are different addresses. -/
theorem add_inj {a : Addr} {i j : Nat} (h : a.toNat + n ≤ 2 ^ 64) (hi : i < n) (hj : j < n)
    (heq : a + BitVec.ofNat 64 i = a + BitVec.ofNat 64 j) : i = j := by
  have := congrArg BitVec.toNat heq
  rw [toNat_add a (by omega), toNat_add a (by omega)] at this
  omega

/-- Copying upwards is right when the target does not start above the source, or the source ends
before it. -/
theorem forward_moved (hd : dst.toNat + n ≤ 2 ^ 64) (hs : src.toNat + n ≤ 2 ^ 64)
    (hdir : dst.toNat ≤ src.toNat ∨ src.toNat + n ≤ dst.toNat) : Moved dst src n m (forward n dst src m) := by
  rw [forward_eq]
  constructor
  · intro i hi
    apply copySeq_apply _ _ hi
    · intro i j hij hj heq
      have := congrArg BitVec.toNat heq
      rw [toNat_add src (by omega), toNat_add dst (by omega)] at this
      omega
    · intro i j hij hj heq
      have := add_inj hd (by omega) hj heq
      omega
  · intro a ha
    exact copySeq_of_ne ha

/-- Places counted from the end of a range. -/
theorem add_sub_eq (a : Addr) {i : Nat} (hi : i < n) :
    a + BitVec.ofNat 64 n - BitVec.ofNat 64 (i + 1) = a + BitVec.ofNat 64 (n - (i + 1)) := by
  have hsum : BitVec.ofNat 64 n = BitVec.ofNat 64 (n - (i + 1)) + BitVec.ofNat 64 (i + 1) := by
    rw [← BitVec.ofNat_add, Nat.sub_add_cancel hi]
  rw [hsum, ← BitVec.add_assoc, BitVec.add_sub_cancel]

/-- Copying downwards is right when the source does not start above the target. -/
theorem backward_moved (hd : dst.toNat + n ≤ 2 ^ 64) (hs : src.toNat + n ≤ 2 ^ 64) (hdir : src.toNat ≤ dst.toNat) :
    Moved dst src n m (backward n (dst + BitVec.ofNat 64 n) (src + BitVec.ofNat 64 n) m) := by
  rw [backward_eq]
  constructor
  · intro i hi
    -- the byte at `i` is the one that is copied when `i` bytes are left
    have hat : i = n - (n - 1 - i + 1) := by omega
    have hcopy := copySeq_apply (d := fun i => dst + BitVec.ofNat 64 n - BitVec.ofNat 64 (i + 1))
      (s := fun i => src + BitVec.ofNat 64 n - BitVec.ofNat 64 (i + 1)) (n := n) (m := m) (i := n - 1 - i) ?_ ?_ (by omega)
    · simp only [add_sub_eq _ (by omega : n - 1 - i < n), ← hat] at hcopy
      exact hcopy
    · intro i j hij hj heq
      rw [add_sub_eq src hj, add_sub_eq dst (by omega)] at heq
      have := congrArg BitVec.toNat heq
      rw [toNat_add src (by omega), toNat_add dst (by omega)] at this
      omega
    · intro i j hij hj heq
      rw [add_sub_eq dst hj, add_sub_eq dst (by omega)] at heq
      have := add_inj hd (by omega) (by omega) heq
      omega
  · intro a ha
    apply copySeq_of_ne
    intro i hi
    rw [add_sub_eq dst hi]
    exact ha _ (by omega)

theorem setWidth_eq (n : BitVec 32) : n.setWidth 64 = BitVec.ofNat 64 n.toNat := by
  apply BitVec.eq_of_toNat_eq
  rw [BitVec.toNat_setWidth, BitVec.toNat_ofNat]

theorem signExtend_eq {n : BitVec 32} (hn : 0 ≤ n.toInt) :
    n.signExtend 64 = BitVec.ofNat 64 n.toNat ∧ n.toInt.toNat = n.toNat := by
  have hmsb : n.msb = false := by
    rw [BitVec.msb_eq_toInt]
    exact decide_eq_false (not_lt.mpr hn)
  constructor
  · rw [BitVec.signExtend_eq_setWidth_of_msb_false hmsb, setWidth_eq]
  · rw [BitVec.toInt_eq_toNat_of_msb hmsb, Int.toNat_natCast]

/-- The direction that the kernel takes is right for every overlap. -/
theorem kmemmove_moved {n : BitVec 32} (hd : dst.toNat + n.toNat ≤ 2 ^ 64) (hs : src.toNat + n.toNat ≤ 2 ^ 64) :
    Moved dst src n.toNat m (kmemmove dst src n m).2 := by
  unfold kmemmove
  split
  · rename_i hdir
    rw [setWidth_eq]
    exact backward_moved hd hs (le_of_lt hdir.1)
  · rename_i hdir
    apply forward_moved hd hs
    by_contra hover
    apply hdir
    refine ⟨BitVec.lt_def.mpr (by omega), BitVec.lt_def.mpr ?_⟩
    rw [setWidth_eq, toNat_add src (by omega)]
    omega

/-- And so is the one that the user library takes. -/
theorem umemmove_moved {n : BitVec 32} (hn : 0 ≤ n.toInt) (hd : dst.toNat + n.toNat ≤ 2 ^ 64)
    (hs : src.toNat + n.toNat ≤ 2 ^ 64) : Moved dst src n.toNat m (umemmove dst src n m).2 := by
  obtain ⟨hext, hint⟩ := signExtend_eq hn
  unfold umemmove
  split
  · rename_i hdir
    rw [hint]
    exact forward_moved hd hs (.inl (le_of_lt hdir))
  · rename_i hdir
    rw [hint, hext]
    exact backward_moved hd hs (Nat.le_of_not_lt fun hlt => hdir (BitVec.lt_def.mpr hlt))

/-! ## Lists of bytes in memory -/

/-- The `n` bytes from `a` on. -/
def bytes (m : Mem) (a : Addr) (n : Nat) : List Byte := (List.range n).map fun i => m (a + BitVec.ofNat 64 i)

/-- The bytes are put at `a`. -/
def store : List Byte → Addr → Mem → Mem
  | [], _, m => m
  | b :: l, a, m => store l (a + 1) (update m a b)

theorem length_bytes (m : Mem) (a : Addr) (n : Nat) : (bytes m a n).length = n := by
  rw [bytes, List.length_map, List.length_range]

theorem bytes_add (m : Mem) (a : Addr) (n k : Nat) : bytes m a (n + k) = bytes m a n ++ bytes m (a + BitVec.ofNat 64 n) k := by
  unfold bytes
  rw [List.range_add, List.map_append, List.map_map]
  congr 1
  apply List.map_congr_left
  intro i _
  show m (a + BitVec.ofNat 64 (n + i)) = m (a + BitVec.ofNat 64 n + BitVec.ofNat 64 i)
  rw [BitVec.ofNat_add, BitVec.add_assoc]

theorem bytes_succ (m : Mem) (a : Addr) (n : Nat) : bytes m a (n + 1) = m a :: bytes m (a + 1) n := by
  have h := bytes_add m a 1 n
  rw [add_comm 1] at h
  rw [h]
  simp [bytes]

/-- Only what the bytes hold matters. -/
theorem bytes_congr {m m' : Mem} {a : Addr} (h : ∀ i < n, m' (a + BitVec.ofNat 64 i) = m (a + BitVec.ofNat 64 i)) :
    bytes m' a n = bytes m a n := by
  apply List.map_congr_left
  intro i hi
  exact h i (List.mem_range.mp hi)

theorem Moved.bytes {m' : Mem} (h : Moved dst src n m m') : Memmove.bytes m' dst n = Memmove.bytes m src n := by
  apply List.map_congr_left
  intro i hi
  exact h.moved i (List.mem_range.mp hi)

/-- A store outside the bytes. -/
theorem store_of_ne {l : List Byte} {a b : Addr} (h : ∀ i < l.length, b ≠ a + BitVec.ofNat 64 i) : store l a m b = m b := by
  induction l generalizing a m with
  | nil => rfl
  | cons c l ih =>
    have hne : b ≠ a := by
      have := h 0 (Nat.succ_pos _)
      rwa [BitVec.add_zero] at this
    rw [store, ih, update_of_ne hne]
    intro i hi
    rw [add_one_add]
    exact h (i + 1) (Nat.succ_lt_succ hi)

theorem bytes_store {l : List Byte} {a : Addr} (h : a.toNat + l.length ≤ 2 ^ 64) : bytes (store l a m) a l.length = l := by
  induction l generalizing a m with
  | nil => rfl
  | cons c l ih =>
    rw [List.length_cons] at h ⊢
    have hself : store l (a + 1) (update m a c) a = c := by
      rw [store_of_ne, update_self]
      intro i hi heq
      rw [add_one_add] at heq
      have := add_inj h (Nat.succ_pos _) (Nat.succ_lt_succ hi) ((BitVec.add_zero a).trans heq)
      omega
    have hnext : (a + 1).toNat + l.length ≤ 2 ^ 64 := by
      have := BitVec.toNat_add a 1
      have hone : (1 : Addr).toNat = 1 := rfl
      rw [hone] at this
      omega
    rw [store, bytes_succ, hself, ih hnext]

/-- Each of the two moves the bytes and nothing else, for every overlap, and so they agree. -/
theorem memmoves_agree (m : Mem) (dst src : Addr) (n : BitVec 32) (hd : dst.toNat + n.toNat ≤ 2 ^ 64)
    (hs : src.toNat + n.toNat ≤ 2 ^ 64) :
    Moved dst src n.toNat m (kmemmove dst src n m).2 ∧
      (0 ≤ n.toInt → Moved dst src n.toNat m (umemmove dst src n m).2 ∧ umemmove dst src n m = kmemmove dst src n m) := by
  have hk := kmemmove_moved (m := m) hd hs
  refine ⟨hk, fun hn => ?_⟩
  have hu := umemmove_moved (m := m) hn hd hs
  refine ⟨hu, Prod.ext ?_ (hu.unique hk)⟩
  unfold umemmove kmemmove
  split <;> split <;> rfl

/-- Two bytes are moved up by one. -/
theorem memmoves_agree_overlap : ∃ m : Mem, m 5 = 7 ∧ (kmemmove 5 4 2 m).2 6 = 7 ∧ umemmove 5 4 2 m = kmemmove 5 4 2 m := by
  refine ⟨fun a => if a = 5 then 7 else 0, rfl, ?_⟩
  have h := memmoves_agree (fun a => if a = 5 then 7 else 0) 5 4 2 (by decide) (by decide)
  exact ⟨h.1.moved 1 (by decide), (h.2 (by decide)).2⟩

end Xv6.Memmove
