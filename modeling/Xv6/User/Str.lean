import Mathlib.Data.List.TakeWhile
import Xv6.Lib.Bytes

/-!
# Strings of user programs (user/ulib.c)

A pointer into an object is what the object holds from there on, so that following it past the end
is `none`. A string ends at its first NUL.
-/

namespace Xv6

open List

def ascii (c : Char) : Byte := BitVec.ofNat 8 c.toNat

/-- `strchr`: where the character is, if it is in the string. -/
def strchr : List Byte → Byte → Option (Option Nat)
  | [], _ => none
  | b :: s, c => if b = 0 then some none else if b = c then some (some 0) else (strchr s c).map (Option.map (· + 1))

variable {l s : List Byte}

theorem strchr_of_notMem {c : Byte} (hnul : 0 ∉ s) (hc : c ∉ s) (junk : List Byte) :
    strchr (s ++ 0 :: junk) c = some none := by
  induction s with
  | nil => exact if_pos rfl
  | cons b s ih =>
    have hb : b ≠ 0 := fun e => hnul (e ▸ mem_cons_self ..)
    have hbc : b ≠ c := fun e => hc (e ▸ mem_cons_self ..)
    rw [cons_append, strchr, if_neg hb, if_neg hbc, ih (fun h => hnul (mem_cons_of_mem _ h)) fun h => hc (mem_cons_of_mem _ h)]
    rfl

theorem strchr_of_mem {c : Byte} (hnul : 0 ∉ l) (hc : c ∉ l) (hc0 : c ≠ 0) (s : List Byte) :
    strchr (l ++ c :: s) c = some (some l.length) := by
  induction l with
  | nil => rw [nil_append, strchr, if_neg hc0, if_pos rfl]; rfl
  | cons b l ih =>
    have hb : b ≠ 0 := fun e => hnul (e ▸ mem_cons_self ..)
    have hbc : b ≠ c := fun e => hc (e ▸ mem_cons_self ..)
    rw [cons_append, strchr, if_neg hb, if_neg hbc, ih (fun h => hnul (mem_cons_of_mem _ h)) fun h => hc (mem_cons_of_mem _ h)]
    rfl

/-! ## Strings in an array -/

/-- What an array of `n` bytes holds that starts with a string. -/
theorem map_range_string {f : Nat → Byte} {n : Nat} (hline : ∀ j (hj : j < l.length), f j = l[j])
    (hnul : f l.length = 0) (hn : l.length < n) :
    (range n).map f = l ++ 0 :: (range (n - l.length - 1)).map fun j => f (l.length + 1 + j) := by
  apply ext_getElem
  · simp
    omega
  · intro j hj hj'
    rw [getElem_map, getElem_range, getElem_append]
    split
    next h => exact hline j h
    next h =>
      rw [getElem_cons]
      split
      next h' =>
        rw [show j = l.length by omega]
        exact hnul
      next h' =>
        rw [getElem_map, getElem_range]
        congr 1
        omega

end Xv6
