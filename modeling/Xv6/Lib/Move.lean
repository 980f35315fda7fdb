import Mathlib.Order.Basic

/-!
# Moving cells one at a time

Cells of a memory are copied in some order: the `i`th one from `s i` to `d i`. The ranges may
overlap. As long as no cell is read after it was written (`d i ≠ s j` for `i < j`), each target gets
what its source held at the start.
-/

namespace Xv6

open Function

variable {A B : Type} [DecidableEq A]

/-- Copy the first `n` cells, in order. -/
def copySeq (d s : Nat → A) : Nat → (A → B) → A → B
  | 0, m => m
  | n + 1, m => update (copySeq d s n m) (d n) (copySeq d s n m (s n))

variable {d s : Nat → A} {n : Nat} {m : A → B}

theorem copySeq_of_ne {a : A} (ha : ∀ i < n, a ≠ d i) : copySeq d s n m a = m a := by
  induction n with
  | zero => rfl
  | succ n ih =>
    rw [copySeq, update_of_ne (ha n (Nat.lt_succ_self n))]
    exact ih fun i hi => ha i (Nat.lt_succ_of_lt hi)

theorem copySeq_apply (hread : ∀ i j, i < j → j < n → s j ≠ d i) (hinj : ∀ i j, i < j → j < n → d i ≠ d j) {i : Nat}
    (hi : i < n) : copySeq d s n m (d i) = m (s i) := by
  induction n with
  | zero => exact absurd hi (Nat.not_lt_zero i)
  | succ n ih =>
    rw [copySeq]
    by_cases heq : i = n
    · rw [heq, update_self]
      exact copySeq_of_ne fun j hj => hread j n hj (Nat.lt_succ_self n)
    · have hlt : i < n := Nat.lt_of_le_of_ne (Nat.le_of_lt_succ hi) heq
      rw [update_of_ne (hinj i n hlt (Nat.lt_succ_self n))]
      apply ih _ _ hlt
      · exact fun i j hij hj => hread i j hij (Nat.lt_succ_of_lt hj)
      · exact fun i j hij hj => hinj i j hij (Nat.lt_succ_of_lt hj)

/-- The first cell first. -/
theorem copySeq_front : copySeq d s (n + 1) m =
    copySeq (fun i => d (i + 1)) (fun i => s (i + 1)) n (update m (d 0) (m (s 0))) := by
  induction n with
  | zero => rfl
  | succ n ih =>
    rw [copySeq, ih]
    rfl

end Xv6
