import Mathlib.Algebra.BigOperators.Group.Finset.Piecewise
import Xv6.Lib.FreeList

/-!
# Units that are shared out

A fixed stock of units is in the hands of some parties, or free. A step of one party takes units
from what is free or puts some back, and says so by one equation (`Shares.move`). Where every unit
is there once, no two parties have the same one.
-/

namespace Xv6

open Function Multiset Finset

variable {ι : Type} [Fintype ι] [DecidableEq ι]

/-- A sum of which one summand is replaced. -/
theorem sum_update_add {M : Type} [AddCommMonoid M] (f : ι → M) (p : ι) (x : M) :
    (∑ i, update f p x i) + f p = (∑ i, f i) + x := by
  rw [sum_update_of_mem (mem_univ p), ← add_sum_erase _ f (mem_univ p),
    sdiff_singleton_eq_erase, add_comm x, add_right_comm, add_comm _ (f p)]

variable {A : Type}

/-- What is free and what the parties have is all there is. -/
def Shares (free all : Multiset A) (part : ι → Multiset A) : Prop := free + ∑ i, part i = all

namespace Shares

variable {free free' all : Multiset A} {part : ι → Multiset A} {p q : ι} {x : Multiset A} {a : A}

theorem move (h : Shares free all part) (hmove : free' + x = free + part p) : Shares free' all (update part p x) := by
  unfold Shares at h ⊢
  apply add_right_cancel (b := part p)
  rw [add_assoc, sum_update_add, ← h, ← add_assoc, add_right_comm, hmove, add_right_comm]

/-- A party is given nothing, and has lost nothing. -/
theorem same (h : Shares free all part) (hx : x = part p) : Shares free all (update part p x) :=
  h.move (by rw [hx])

omit [DecidableEq ι] in
theorem part_le (h : Shares free all part) (p : ι) : part p ≤ all := by
  unfold Shares at h
  rw [← h]
  refine le_trans ?_ (Multiset.le_add_left _ _)
  exact single_le_sum (fun _ _ => Multiset.zero_le _) (mem_univ p)

omit [DecidableEq ι] in
theorem nodup (h : Shares free all part) (hall : all.Nodup) : (free + ∑ i, part i).Nodup := by
  unfold Shares at h
  rw [h]
  exact hall

omit [DecidableEq ι] in
theorem part_nodup (h : Shares free all part) (hall : all.Nodup) (p : ι) : (part p).Nodup :=
  nodup_of_le (h.part_le p) hall

omit [DecidableEq ι] in
theorem notMem_free (h : Shares free all part) (hall : all.Nodup) (ha : a ∈ part p) : a ∉ free := by
  have hn := h.nodup hall
  have hsum : part p ≤ ∑ i, part i := single_le_sum (fun _ _ => Multiset.zero_le _) (mem_univ p)
  intro hfree
  exact disjoint_left.mp (nodup_add.mp hn).2.2 hfree (mem_of_le hsum ha)

theorem notMem (h : Shares free all part) (hall : all.Nodup) (hne : q ≠ p) (ha : a ∈ part p) : a ∉ part q :=
  notMem_of_nodup_sum (nodup_add.mp (h.nodup hall)).2.1 (mem_univ p) (mem_univ q) hne ha

omit [DecidableEq ι] in
/-- How many parties can have `n` units. -/
theorem card_le (h : Shares free all part) (S : Finset ι) {n : Nat} (hS : ∀ i ∈ S, n ≤ (part i).card) :
    S.card * n ≤ all.card := by
  unfold Shares at h
  rw [← h, card_add, card_sum]
  calc S.card * n ≤ ∑ i ∈ S, (part i).card := card_nsmul_le_sum S _ n hS
    _ ≤ ∑ i, (part i).card := sum_le_sum_of_subset (subset_univ S)
    _ ≤ free.card + ∑ i, (part i).card := Nat.le_add_left _ _

end Shares

end Xv6
