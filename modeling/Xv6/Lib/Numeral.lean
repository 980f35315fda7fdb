import Mathlib.Data.Nat.Digits.Lemmas

/-!
# Numerals

Numbers written in a base, the most significant digit first. `numeral` is the canonical one, without
leading zeros, `padded` has a fixed length, and `value` reads either back.
-/

namespace Xv6.Numeral

open List

variable {C : Type}

/-- The number that a list of digits stands for. -/
def value (val : C → Nat) (b : Nat) (cs : List C) : Nat := cs.foldl (fun n c => n * b + val c) 0

/-- The last `k` digits of `n`. -/
def padded (dig : Nat → C) (b : Nat) : Nat → Nat → List C
  | 0, _ => []
  | k + 1, n => padded dig b k (n / b) ++ [dig (n % b)]

/-- The numeral of `n`. -/
def numeral (dig : Nat → C) (b n : Nat) : List C :=
  if n = 0 then [dig 0] else ((Nat.digits b n).map dig).reverse

variable {val : C → Nat} {dig : Nat → C} {b : Nat}

theorem value_append (cs : List C) (c : C) : value val b (cs ++ [c]) = value val b cs * b + val c := by
  unfold value
  rw [foldl_append]
  rfl

theorem length_padded (k n : Nat) : (padded dig b k n).length = k := by
  induction k generalizing n with
  | zero => rfl
  | succ k ih => rw [padded, length_append, ih, length_singleton]

theorem value_padded (hval : ∀ i < b, val (dig i) = i) (hb : 0 < b) (k n : Nat) : value val b (padded dig b k n) = n % b ^ k := by
  induction k generalizing n with
  | zero => rw [Nat.pow_zero, Nat.mod_one]; rfl
  | succ k ih =>
    rw [padded, value_append, ih, hval _ (Nat.mod_lt n hb), Nat.pow_succ', Nat.mod_mul, mul_comm b]
    omega

/-- The first of the digits. -/
theorem padded_succ (k n : Nat) : padded dig b (k + 1) n = dig (n / b ^ k % b) :: padded dig b k n := by
  induction k generalizing n with
  | zero => rw [padded, padded, Nat.pow_zero, Nat.div_one]; rfl
  | succ k ih =>
    rw [padded, ih, padded, Nat.div_div_eq_div_mul, ← Nat.pow_succ']
    rfl

theorem numeral_of_lt {n : Nat} (h : n < b) : numeral dig b n = [dig n] := by
  unfold numeral
  split
  · rename_i hzero
    rw [hzero]
  · rename_i hne
    rw [Nat.digits_of_lt b n hne h]
    rfl

theorem numeral_of_le {n : Nat} (hb : 1 < b) (h : b ≤ n) : numeral dig b n = numeral dig b (n / b) ++ [dig (n % b)] := by
  have hpos : 0 < n := by omega
  have hdiv : n / b ≠ 0 := (Nat.div_pos h (by omega)).ne'
  unfold numeral
  rw [if_neg hpos.ne', if_neg hdiv, Nat.digits_def' hb hpos]
  simp only [map_cons, reverse_cons]

/-- Reading a numeral back. -/
theorem value_numeral (hval : ∀ i < b, val (dig i) = i) (hb : 1 < b) (n : Nat) : value val b (numeral dig b n) = n := by
  induction n using Nat.strong_induction_on with
  | _ n ih =>
    rcases Nat.lt_or_ge n b with hlt | hge
    · rw [numeral_of_lt hlt]
      show 0 * b + val (dig n) = n
      rw [hval n hlt]
      omega
    · rw [numeral_of_le hb hge, value_append, ih _ (Nat.div_lt_self (by omega) hb), hval _ (Nat.mod_lt n (by omega))]
      exact Nat.div_add_mod' n b

theorem numeral_ne_nil (n : Nat) : numeral dig b n ≠ [] := by
  unfold numeral
  split
  · exact cons_ne_nil _ _
  · rename_i hne
    intro hnil
    have hmap := map_eq_nil_iff.mp (reverse_eq_nil_iff.mp hnil)
    exact hne (Nat.digits_eq_nil_iff_eq_zero.mp hmap)

/-- Only the numeral of zero starts with the digit zero. -/
theorem numeral_head (hval : ∀ i < b, val (dig i) = i) (hb : 1 < b) {n : Nat} (h : (numeral dig b n).head? = some (dig 0)) :
    n = 0 := by
  induction n using Nat.strong_induction_on with
  | _ n ih =>
    rcases Nat.lt_or_ge n b with hlt | hge
    · rw [numeral_of_lt hlt] at h
      have hzero : val (dig n) = val (dig 0) := congrArg val (Option.some.inj h)
      rw [hval n hlt, hval 0 (by omega)] at hzero
      exact hzero
    · rw [numeral_of_le hb hge, head?_append_of_ne_nil _ (numeral_ne_nil _)] at h
      have hdiv := Nat.div_pos hge (by omega)
      have := ih _ (Nat.div_lt_self (by omega) hb) h
      omega

/-- A numeral is made of digits. -/
theorem mem_numeral (hb : 1 < b) {n : Nat} {c : C} (hc : c ∈ numeral dig b n) : ∃ i < b, c = dig i := by
  unfold numeral at hc
  split at hc
  · exact ⟨0, by omega, mem_singleton.mp hc⟩
  · obtain ⟨i, hi, rfl⟩ := mem_map.mp (mem_reverse.mp hc)
    exact ⟨i, Nat.digits_lt_base hb hi, rfl⟩

theorem length_numeral_le (hb : 1 < b) {n k : Nat} (hk : 0 < k) (h : n < b ^ k) : (numeral dig b n).length ≤ k := by
  induction k generalizing n with
  | zero => omega
  | succ k ih =>
    rcases Nat.lt_or_ge n b with hlt | hge
    · rw [numeral_of_lt hlt, length_singleton]
      omega
    · have hk' : 0 < k := by
        by_contra hzero
        have : k = 0 := by omega
        subst this
        rw [Nat.pow_one] at h
        omega
      rw [numeral_of_le hb hge, length_append, length_singleton]
      have := ih hk' (Nat.div_lt_of_lt_mul (by rwa [← Nat.pow_succ'] : n < b * b ^ k))
      omega

/-- A larger number has no shorter numeral. -/
theorem length_numeral_mono {m n : Nat} (h : m ≤ n) : (numeral dig b m).length ≤ (numeral dig b n).length := by
  by_cases hm : m = 0
  · rw [hm, show numeral dig b 0 = [dig 0] from if_pos rfl]
    exact length_pos_of_ne_nil (numeral_ne_nil n)
  · have hn : n ≠ 0 := by omega
    unfold numeral
    rw [if_neg hm, if_neg hn, length_reverse, length_reverse, length_map, length_map]
    exact Nat.le_length_digits_le b m n h

end Xv6.Numeral
