import Mathlib.Order.Basic

/-!
# Loops that end

A loop is a function of the number of turns it may make, `none` when they are not enough. `Ends f
out` says that it ends: with enough turns the result is `out`.
-/

namespace Xv6

variable {B C : Type}

def Ends (f : Nat → Option B) (out : B) : Prop := ∃ turns, ∀ fuel ≥ turns, f fuel = some out

namespace Ends

variable {f : Nat → Option B} {g : Nat → Option C} {out out' : B}

/-- The loop ends in this turn. -/
theorem now (h : ∀ fuel, f (fuel + 1) = some out) : Ends f out := by
  refine ⟨1, fun fuel hfuel => ?_⟩
  obtain ⟨k, rfl⟩ := Nat.exists_eq_add_of_le' hfuel
  exact h k

/-- The loop goes on after a part that ends itself. -/
theorem after {b : C} {k : Nat → C → Option B} (hg : Ends g b) (hk : Ends (k · b) out)
    (h : ∀ fuel b, g fuel = some b → f (fuel + 1) = k fuel b) : Ends f out := by
  obtain ⟨turns, hturns⟩ := hg
  obtain ⟨turns', hturns'⟩ := hk
  refine ⟨max turns turns' + 1, fun fuel hfuel => ?_⟩
  obtain ⟨j, rfl⟩ := Nat.exists_eq_add_of_le' (Nat.le_of_add_left_le hfuel)
  have hj : max turns turns' ≤ j := Nat.le_of_add_le_add_right hfuel
  rw [h j b (hturns j (Nat.le_trans (Nat.le_max_left ..) hj))]
  exact hturns' j (Nat.le_trans (Nat.le_max_right ..) hj)

/-- The loop goes on. -/
theorem later {f' : Nat → Option B} (hf : Ends f' out) (h : ∀ fuel, f (fuel + 1) = f' fuel) : Ends f out := by
  obtain ⟨turns, hturns⟩ := hf
  refine ⟨turns + 1, fun fuel hfuel => ?_⟩
  obtain ⟨j, rfl⟩ := Nat.exists_eq_add_of_le' (Nat.le_of_add_left_le hfuel)
  rw [h j]
  exact hturns j (Nat.le_of_add_le_add_right hfuel)

theorem later_iff {f' : Nat → Option B} (h : ∀ fuel, f (fuel + 1) = f' fuel) : Ends f out ↔ Ends f' out := by
  refine ⟨fun hf => ?_, fun hf => hf.later h⟩
  obtain ⟨turns, hturns⟩ := hf
  exact ⟨turns, fun fuel hfuel => (h fuel).symm.trans (hturns (fuel + 1) (Nat.le_succ_of_le hfuel))⟩

end Ends

end Xv6
