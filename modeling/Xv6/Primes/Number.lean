import Mathlib.Data.Nat.Prime.Basic
import Xv6.Primes.Code

/-!
# Primes and their digits

`isPrime` tells primes from other numbers, and `printf` prints a number in decimal.
-/

namespace Xv6.Primes

/-- The loop of `is_prime` goes through the numbers from `i` on. -/
theorem noDivisor_eq_true {n : Nat} {fuel i : Nat} (hi : 1 ≤ i) (hfuel : n ≤ i + fuel) :
    noDivisor n fuel i = true ↔ ∀ m, i ≤ m → m < n → ¬ m ∣ n := by
  induction fuel generalizing i with
  | zero => exact ⟨fun _ m hm hlt => by omega, fun _ => rfl⟩
  | succ fuel ih =>
    have hmod : (n : Int).tmod i = ((n % i : Nat) : Int) := rfl
    have hnext : noDivisor n fuel ((i : Int) + 1) = true ↔ ∀ m, i + 1 ≤ m → m < n → ¬ m ∣ n :=
      ih (i := i + 1) (by omega) (by omega)
    unfold noDivisor
    rw [hmod]
    by_cases hlt : i < n
    · rw [if_pos (Int.ofNat_lt.mpr hlt)]
      by_cases hdvd : i ∣ n
      · rw [if_pos (by rw [Nat.mod_eq_zero_of_dvd hdvd]; rfl)]
        exact ⟨fun h => (by cases h), fun h => absurd hdvd (h i (Nat.le_refl i) hlt)⟩
      · have hne : ((n % i : Nat) : Int) ≠ 0 := fun e => hdvd (Nat.dvd_of_mod_eq_zero (Int.ofNat.inj e))
        rw [if_neg hne, hnext]
        constructor
        · intro h m hm hmn
          rcases Nat.eq_or_lt_of_le hm with rfl | hm
          · exact hdvd
          · exact h m hm hmn
        · exact fun h m hm => h m (by omega)
    · rw [if_neg (fun e => hlt (Int.ofNat_lt.mp e))]
      exact ⟨fun _ m hm hmn => by omega, fun _ => rfl⟩

theorem toInt_eq_toNat {v : Word} (h : 2 ≤ v.toInt) : v.toInt = v.toNat := by
  rw [BitVec.toInt_eq_toNat_cond] at h ⊢
  split at h
  next hlt => rw [if_pos hlt]
  next =>
    have := v.isLt
    omega

theorem isPrime_iff {v : Word} (h : 2 ≤ v.toInt) : isPrime v.toInt = true ↔ v.toNat.Prime := by
  have heq := toInt_eq_toNat h
  have hle : 2 ≤ v.toNat := by omega
  unfold isPrime
  rw [heq, Int.toNat_natCast]
  rw [show (2 : Int) = ((2 : Nat) : Int) from rfl, noDivisor_eq_true (by omega) (by omega), Nat.prime_def_lt']
  exact ⟨fun hno => ⟨hle, hno⟩, fun hprime => hprime.2⟩

/-- The line for a number. -/
theorem primeLine_eq (v : Word) : primeLine v = "prime ".toList.map ascii ++ Printf.decimal v.toInt ++ [ascii '\n'] := by
  have hwidth : (v.setWidth 64).setWidth 32 = v := by
    apply BitVec.eq_of_toNat_eq
    rw [BitVec.toNat_setWidth, BitVec.toNat_setWidth]
    omega
  unfold primeLine Printf.printf
  rw [Printf.vprintf_eq, Option.getD_some]
  show "prime ".toList.map ascii ++ (Printf.decimal ((v.setWidth 64).setWidth 32).toInt ++ [ascii '\n']) = _
  rw [hwidth, List.append_assoc]

end Xv6.Primes
