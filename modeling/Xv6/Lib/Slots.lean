import Mathlib.Data.List.Range

/-!
# A table of slots as a finite map

A table has slots, each of them empty or holding a key and a value. A key is looked up by going
through the slots in order, a new binding is put into an empty slot or behind the last one, and a
binding is removed by emptying its slot. When no two slots hold the same key, that is a finite map
(`find_put_self`, `find_put_other`, `find_clear_self`, `find_clear_other`).
-/

namespace Xv6.Slots

open Function

variable {κ ν : Type} [DecidableEq κ]

/-- The slot holds the key. -/
def holds (t : Nat → Option (κ × ν)) (key : κ) (j : Nat) : Bool := (t j).any fun b => b.1 = key

/-- The first of `n` slots that holds the key. -/
def find (t : Nat → Option (κ × ν)) (n : Nat) (key : κ) : Option Nat := (List.range n).find? (holds t key)

/-- The first empty slot, else the one behind the last. -/
def vacant (t : Nat → Option (κ × ν)) (n : Nat) : Nat := ((List.range n).find? fun j => (t j).isNone).getD n

/-- No two slots hold the same key. -/
def Distinct (t : Nat → Option (κ × ν)) (n : Nat) : Prop :=
  ∀ i j key, i < n → j < n → holds t key i = true → holds t key j = true → i = j

variable {t : Nat → Option (κ × ν)} {n j : Nat} {key key' : κ} {v : ν}

theorem find_eq_some : find t n key = some j ↔ j < n ∧ holds t key j = true ∧ ∀ i, i < j → holds t key i = false := by
  unfold find
  rw [List.find?_range_eq_some]
  simp only [List.mem_range, Bool.not_eq_eq_eq_not, Bool.not_true]
  constructor
  · intro h
    exact ⟨h.2.1, h.1, h.2.2⟩
  · intro h
    exact ⟨h.2.1, h.1, h.2.2⟩

theorem find_eq_none : find t n key = none ↔ ∀ i, i < n → holds t key i = false := by
  unfold find
  rw [List.find?_range_eq_none]
  simp only [Bool.not_eq_eq_eq_not, Bool.not_true]

omit [DecidableEq κ] in
theorem vacant_le : vacant t n ≤ n := by
  unfold vacant
  cases h : (List.range n).find? fun j => (t j).isNone with
  | none => exact Nat.le_refl n
  | some j => exact le_of_lt (List.mem_range.mp (List.mem_of_find?_eq_some h))

omit [DecidableEq κ] in
theorem vacant_empty (h : vacant t n < n) : t (vacant t n) = none := by
  unfold vacant at h ⊢
  cases hfind : (List.range n).find? fun j => (t j).isNone with
  | none =>
    rw [hfind] at h
    exact absurd h (lt_irrefl n)
  | some j =>
    have hnone := List.find?_some hfind
    exact Option.isNone_iff_eq_none.mp hnone

theorem holds_put (i : Nat) :
    holds (update t j (some (key, v))) key' i = if i = j then decide (key = key') else holds t key' i := by
  unfold holds
  by_cases h : i = j
  · rw [if_pos h, h, update_self]
    rfl
  · rw [if_neg h, update_of_ne h]

theorem holds_clear (i : Nat) : holds (update t j none) key i = if i = j then false else holds t key i := by
  unfold holds
  by_cases h : i = j
  · rw [if_pos h, h, update_self]
    rfl
  · rw [if_neg h, update_of_ne h]

theorem holds_inj (h : holds t key j = true) (h' : holds t key' j = true) : key = key' := by
  unfold holds at h h'
  cases hb : t j with
  | none =>
    rw [hb] at h
    cases h
  | some b =>
    rw [hb] at h h'
    exact (of_decide_eq_true h).symm.trans (of_decide_eq_true h')

/-- A new key is found where it has been put. -/
theorem find_put_self (hnew : find t n key = none) (hj : j ≤ n) : find (update t j (some (key, v))) (max n (j + 1)) key = some j := by
  rw [find_eq_none] at hnew
  rw [find_eq_some]
  refine ⟨by omega, by rw [holds_put, if_pos rfl, decide_eq_true rfl], fun i hi => ?_⟩
  rw [holds_put, if_neg (by omega)]
  exact hnew i (by omega)

/-- The other keys are found where they were. -/
theorem find_put_other (hne : key ≠ key') (hj : j ≤ n) (hempty : j < n → t j = none) :
    find (update t j (some (key, v))) (max n (j + 1)) key' = find t n key' := by
  have hold : ∀ i, i < max n (j + 1) → holds (update t j (some (key, v))) key' i = (decide (i < n) && holds t key' i) := by
    intro i hi
    rw [holds_put]
    by_cases hij : i = j
    · subst hij
      rw [if_pos rfl, decide_eq_false hne]
      by_cases hlt : i < n
      · unfold holds
        rw [hempty hlt]
        exact (Bool.and_false _).symm
      · rw [decide_eq_false hlt, Bool.false_and]
    · rw [if_neg hij, decide_eq_true (by omega), Bool.true_and]
  apply Option.ext
  intro i
  rw [find_eq_some, find_eq_some]
  constructor
  · intro h
    rw [hold i h.1, Bool.and_eq_true, decide_eq_true_iff] at h
    refine ⟨h.2.1.1, h.2.1.2, fun i' hi' => ?_⟩
    have := h.2.2 i' hi'
    rw [hold i' (by omega), decide_eq_true (by omega), Bool.true_and] at this
    exact this
  · intro h
    refine ⟨by omega, ?_, fun i' hi' => ?_⟩
    · rw [hold i (by omega), decide_eq_true h.1, Bool.true_and]
      exact h.2.1
    · rw [hold i' (by omega), h.2.2 i' hi', Bool.and_false]

/-- A key that is removed is gone. -/
theorem find_clear_self (hdistinct : Distinct t n) (hfind : find t n key = some j) : find (update t j none) n key = none := by
  rw [find_eq_some] at hfind
  rw [find_eq_none]
  intro i hi
  rw [holds_clear]
  split
  next => rfl
  next hne =>
    cases h : holds t key i with
    | false => rfl
    | true => exact absurd (hdistinct i j key hi hfind.1 h hfind.2.1) hne

/-- The other keys stay. -/
theorem find_clear_other (hne : key ≠ key') (hfind : find t n key = some j) : find (update t j none) n key' = find t n key' := by
  rw [find_eq_some] at hfind
  have hold : ∀ i, holds (update t j none) key' i = holds t key' i := by
    intro i
    rw [holds_clear]
    split
    next h =>
      subst h
      cases h : holds t key' i with
      | false => rfl
      | true => exact absurd (holds_inj hfind.2.1 h) hne
    next => rfl
  apply Option.ext
  intro i
  rw [find_eq_some, find_eq_some]
  simp only [hold]

end Xv6.Slots
