import Mathlib.Data.Nat.ModEq
import Xv6.Lib.Update

/-!
# A ring buffer with counters that wrap

Two counters of `w` bits count what was taken out and what was put in. Where an element is stored is
the counter modulo the capacity, which divides `2 ^ w`, so that nothing happens when a counter
wraps. `contents` is the list of what is in the ring, the oldest element first.
-/

namespace Xv6

open Function List BitVec

structure Ring (w : Nat) (α : Type) where
  data : Nat → α
  nread : BitVec w
  nwrite : BitVec w

namespace Ring

variable {w : Nat} {α : Type} (cap : Nat) (r : Ring w α)

/-- How many elements are in the ring. -/
def count : Nat := (r.nwrite - r.nread).toNat

/-- The element that comes out next. -/
def front : α := r.data (r.nread.toNat % cap)

/-- The elements in the ring. -/
def contents : List α := (range r.count).map fun j => r.data ((r.nread.toNat + j) % cap)

/-- An element is put in. -/
def push (x : α) : Ring w α :=
  { r with data := update r.data (r.nwrite.toNat % cap) x, nwrite := r.nwrite + 1 }

/-- An element is taken out. -/
def pop : Ring w α := { r with nread := r.nread + 1 }

/-- Some elements are taken out. -/
def discard (n : Nat) : Ring w α := { r with nread := r.nread + BitVec.ofNat w n }

/-- The element that was put in last. -/
def last : α := r.data ((r.nwrite - 1).toNat % cap)

/-- The element that was put in last is taken back. -/
def unpush : Ring w α := { r with nwrite := r.nwrite - 1 }

variable {cap} {r}

@[simp] theorem length_contents : (r.contents cap).length = r.count := by
  unfold contents
  rw [length_map, length_range]

theorem nwrite_eq : r.nwrite = r.nread + BitVec.ofNat w r.count := by
  unfold count
  rw [ofNat_toNat, setWidth_eq, BitVec.add_comm, BitVec.sub_add_cancel]

/-- The ring is full when the counters say so. -/
theorem count_ne_cap (h : r.nwrite ≠ r.nread + BitVec.ofNat w cap) : r.count ≠ cap := by
  intro e
  apply h
  rw [nwrite_eq, e]

theorem count_ne_zero (h : r.nread ≠ r.nwrite) : r.count ≠ 0 := by
  intro e
  apply h
  rw [nwrite_eq, e]
  exact (BitVec.add_zero r.nread).symm

/-- The slot of the next element, by the number of elements. -/
theorem nwrite_mod (hdvd : cap ∣ 2 ^ w) : r.nwrite.toNat % cap = (r.nread.toNat + r.count) % cap := by
  rw [nwrite_eq, toNat_add, toNat_ofNat, Nat.mod_mod_of_dvd _ hdvd, Nat.add_mod, Nat.mod_mod_of_dvd _ hdvd,
    ← Nat.add_mod]

theorem count_push {x : α} (h : r.count + 1 < 2 ^ w) : (r.push cap x).count = r.count + 1 := by
  show (r.nwrite + 1 - r.nread).toNat = _
  have hswap : r.nwrite + 1 - r.nread = (r.nwrite - r.nread) + BitVec.ofNat w 1 := by
    rw [BitVec.sub_eq_add_neg, BitVec.sub_eq_add_neg, BitVec.add_assoc, BitVec.add_assoc, BitVec.add_comm (-r.nread)]
    rfl
  rw [hswap, toNat_add, toNat_ofNat, Nat.mod_eq_of_lt (a := 1) (by omega)]
  exact Nat.mod_eq_of_lt h

theorem count_pop (h : r.count ≠ 0) : r.pop.count + 1 = r.count := by
  have hback : r.pop.count = ((r.nwrite - r.nread) - BitVec.ofNat w 1).toNat := by
    show (r.nwrite - (r.nread + 1)).toNat = _
    congr 1
    rw [BitVec.sub_eq_add_neg, BitVec.sub_eq_add_neg, BitVec.sub_eq_add_neg, neg_add, BitVec.sub_eq_add_neg,
      BitVec.add_assoc]
    rfl
  have hlt : r.count < 2 ^ w := isLt _
  rw [hback, toNat_sub_of_le]
  · show r.count - _ + 1 = _
    rw [toNat_ofNat, Nat.mod_eq_of_lt (a := 1) (by omega)]
    omega
  · rw [BitVec.le_def, toNat_ofNat, Nat.mod_eq_of_lt (a := 1) (by omega)]
    show 1 ≤ r.count
    omega

/-- What is put in comes after what is there: no stored element has its slot. -/
theorem contents_push {x : α} (hdvd : cap ∣ 2 ^ w) (hw : r.count + 1 < 2 ^ w) (h : r.count < cap) :
    (r.push cap x).contents cap = r.contents cap ++ [x] := by
  unfold contents
  rw [count_push hw, range_succ, map_append]
  congr 1
  · refine map_congr_left fun j hj => ?_
    have hj := mem_range.mp hj
    refine update_of_ne (fun e => ?_) _ _
    rw [nwrite_mod hdvd] at e
    have hmod : j ≡ r.count [MOD cap] := Nat.ModEq.add_left_cancel' r.nread.toNat e
    rw [Nat.ModEq, Nat.mod_eq_of_lt h, Nat.mod_eq_of_lt (by omega)] at hmod
    omega
  · refine map_singleton.trans ?_
    congr 1
    show update r.data (r.nwrite.toNat % cap) x ((r.nread.toNat + r.count) % cap) = x
    rw [← nwrite_mod hdvd, update_self]

/-- What comes out is the oldest element. -/
theorem contents_pop (hdvd : cap ∣ 2 ^ w) (h : r.count ≠ 0) : r.contents cap = r.front cap :: r.pop.contents cap := by
  unfold contents
  rw [← count_pop h, range_succ_eq_map, map_cons, map_map]
  congr 1
  refine map_congr_left fun j _ => ?_
  show r.data ((r.nread.toNat + (j + 1)) % cap) = r.data (((r.nread + 1).toNat + j) % cap)
  congr 1
  have hlt : r.count < 2 ^ w := isLt _
  have hone : (1 : BitVec w).toNat = 1 := by
    show 1 % 2 ^ w = 1
    exact Nat.mod_eq_of_lt (by omega)
  rw [toNat_add, hone]
  have hmod : (r.nread.toNat + 1) % 2 ^ w ≡ r.nread.toNat + 1 [MOD cap] := Nat.mod_mod_of_dvd _ hdvd
  rw [hmod.add_right j, add_assoc, add_comm 1 j]

theorem discard_zero : r.discard 0 = r := by
  unfold discard
  rw [show BitVec.ofNat w 0 = 0#w from rfl, BitVec.add_zero]

theorem discard_pop (n : Nat) : r.pop.discard n = r.discard (n + 1) := by
  unfold discard pop
  congr 1
  rw [BitVec.add_assoc, add_comm n 1, ofNat_add]
  rfl

/-- What is taken out are the oldest elements. -/
theorem contents_discard (hdvd : cap ∣ 2 ^ w) {n : Nat} (h : n ≤ r.count) : (r.discard n).contents cap = (r.contents cap).drop n := by
  induction n generalizing r with
  | zero => rw [discard_zero, drop_zero]
  | succ n ih =>
    have hne : r.count ≠ 0 := by omega
    have hpop := count_pop hne
    rw [← discard_pop, ih (by omega), contents_pop hdvd hne, drop_succ_cons]

theorem count_unpush (h : r.count ≠ 0) : r.unpush.count + 1 = r.count := by
  have hsame : r.unpush.count = r.pop.count := by
    show (r.nwrite - 1 - r.nread).toNat = (r.nwrite - (r.nread + 1)).toNat
    congr 1
    rw [BitVec.sub_eq_add_neg, BitVec.sub_eq_add_neg, BitVec.sub_eq_add_neg, neg_add, BitVec.sub_eq_add_neg,
      BitVec.add_assoc, BitVec.add_comm (-1)]
  rw [hsame]
  exact count_pop h

/-- What is taken back is the youngest element. -/
theorem contents_unpush (hdvd : cap ∣ 2 ^ w) (h : r.count ≠ 0) :
    r.contents cap = r.unpush.contents cap ++ [r.last cap] := by
  have hslot : (r.nwrite - 1).toNat % cap = (r.nread.toNat + r.unpush.count) % cap := nwrite_mod (r := r.unpush) hdvd
  unfold contents last
  rw [← count_unpush h, range_succ, map_append, map_singleton, hslot]
  rfl

/-- A counter in between splits the ring. -/
theorem contents_split {m : BitVec w} (hdvd : cap ∣ 2 ^ w)
    (h : r.count = (m - r.nread).toNat + (r.nwrite - m).toNat) :
    r.contents cap = { r with nwrite := m }.contents cap ++ { r with nread := m }.contents cap := by
  have hslot : m.toNat % cap = (r.nread.toNat + (m - r.nread).toNat) % cap := nwrite_mod (r := { r with nwrite := m }) hdvd
  unfold contents
  rw [h, range_add, map_append, map_map]
  congr 1
  apply map_congr_left
  intro j _
  show r.data ((r.nread.toNat + ((m - r.nread).toNat + j)) % cap) = r.data ((m.toNat + j) % cap)
  rw [Nat.add_mod m.toNat, hslot, ← Nat.add_mod, add_assoc]

end Ring

/-! ## A ring that shows the end of a history -/

/-- Two counts that are less than `cap` apart are the same when they are the same modulo `cap`. -/
theorem eq_of_mod_eq {a b cap : Nat} (hle : a ≤ b) (hlt : b < a + cap) (h : a % cap = b % cap) : a = b := by
  have hdvd := (Nat.modEq_iff_dvd' hle).mp h
  by_contra hne
  have := Nat.le_of_dvd (by omega) hdvd
  omega

variable {α : Type} {cap : Nat} {slot : Nat → α} {xs : List α} {lo : Nat}

/-- The slots of a ring hold the elements of `xs` from `lo` on. -/
def Shown (cap : Nat) (slot : Nat → α) (xs : List α) (lo : Nat) : Prop :=
  ∀ k, lo ≤ k → k < xs.length → xs[k]? = some (slot (k % cap))

namespace Shown

/-- The slot of the next element is not one of those that are in use. -/
theorem write (h : Shown cap slot xs lo) (hroom : xs.length < lo + cap) (x : α) :
    Shown cap (update slot (xs.length % cap) x) xs lo := by
  intro k hlo hk
  rw [update_of_ne]
  · exact h k hlo hk
  · intro e
    have := eq_of_mod_eq hk.le (by omega) e
    omega

theorem snoc (h : Shown cap slot xs lo) {x : α} (hx : slot (xs.length % cap) = x) : Shown cap slot (xs ++ [x]) lo := by
  intro k hlo hk
  rw [length_append, length_singleton] at hk
  by_cases hlast : k = xs.length
  · rw [hlast, getElem?_concat_length, hx]
  · rw [getElem?_append_left (by omega)]
    exact h k hlo (by omega)

theorem mono {lo' : Nat} (h : Shown cap slot xs lo) (hlo : lo ≤ lo') : Shown cap slot xs lo' :=
  fun k hk hlt => h k (hlo.trans hk) hlt

end Shown

end Xv6
