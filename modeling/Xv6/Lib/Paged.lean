import Mathlib.Data.List.Basic

/-!
# Memory behind a table of pages

A table gives a frame to some page numbers, and so an address to some addresses. `reach` counts the
bytes from an address on up to the first one without an address; a copy that goes page by page goes
as far as one that goes byte by byte. `scatter` stores a list byte by byte, each byte at the address
that it has; on addresses that follow each other it stores a block.
-/

namespace Xv6.Paged

/-! ## Addresses -/

section

variable (size : Nat) (frame : Nat → Option Nat)

/-- The address at which a byte stands, if its page has a frame. -/
def addr (a : Nat) : Option Nat := (frame (a / size)).map (· + a % size)

/-- How many of `n` bytes from `a` on have an address, up to the first that has none. -/
def reach : Nat → Nat → Nat
  | _, 0 => 0
  | a, n + 1 => if (addr size frame a).isSome then reach (a + 1) n + 1 else 0

variable {size frame} {a n k i : Nat}

theorem addr_isSome : (addr size frame a).isSome = (frame (a / size)).isSome := Option.isSome_map ..

theorem reach_le : reach size frame a n ≤ n := by
  induction n generalizing a with
  | zero => exact Nat.le_refl 0
  | succ n ih =>
    have := ih (a := a + 1)
    rw [reach]
    split <;> omega

theorem addr_of_lt_reach (h : i < reach size frame a n) : (addr size frame (a + i)).isSome := by
  induction n generalizing a i with
  | zero => cases h
  | succ n ih =>
    rw [reach] at h
    split at h
    next hsome =>
      cases i with
      | zero => exact hsome
      | succ i =>
        have := ih (a := a + 1) (i := i) (by omega)
        rwa [Nat.add_assoc, Nat.add_comm 1 i] at this
    next => cases h

/-- The first byte that was not reached has no address. -/
theorem addr_reach (h : reach size frame a n < n) : addr size frame (a + reach size frame a n) = none := by
  induction n generalizing a with
  | zero => cases h
  | succ n ih =>
    rw [reach] at h ⊢
    split at h
    next hsome =>
      rw [if_pos hsome]
      have := ih (a := a + 1) (by omega)
      rwa [Nat.add_assoc, Nat.add_comm 1] at this
    next hnone =>
      rw [if_neg hnone]
      exact Option.not_isSome_iff_eq_none.mp hnone

theorem reach_eq_iff : reach size frame a n = n ↔ ∀ i, i < n → (addr size frame (a + i)).isSome := by
  constructor
  · intro h i hi
    exact addr_of_lt_reach (h ▸ hi)
  · intro h
    have hle : reach size frame a n ≤ n := reach_le
    by_contra hne
    have hlt : reach size frame a n < n := by omega
    have hsome := h _ hlt
    rw [addr_reach hlt] at hsome
    cases hsome

theorem reach_add (h : reach size frame a n = n) : reach size frame a (n + k) = n + reach size frame (a + n) k := by
  induction n generalizing a with
  | zero => rw [Nat.zero_add, Nat.zero_add, Nat.add_zero]
  | succ n ih =>
    have hfirst : (addr size frame a).isSome := addr_of_lt_reach (i := 0) (by rw [h]; exact Nat.succ_pos n)
    rw [reach, if_pos hfirst] at h
    rw [Nat.add_right_comm, reach, if_pos hfirst, ih (Nat.succ.inj h), Nat.add_assoc a, Nat.add_comm 1 n]
    omega

/-- The bytes left in the page of an address. -/
def left (size a : Nat) : Nat := size - a % size

theorem left_pos (hs : 0 < size) : 0 < left size a := by
  have := Nat.mod_lt a hs
  unfold left
  omega

/-- The next page starts after the bytes that are left. -/
theorem next_page (hs : 0 < size) : a / size * size + size = a + left size a := by
  have hmod := Nat.mod_lt a hs
  have hdiv := Nat.div_add_mod' a size
  unfold left
  omega

theorem div_of_lt_left (h : i < left size a) : (a + i) / size = a / size ∧ (a + i) % size = a % size + i := by
  unfold left at h
  have hdiv := Nat.div_add_mod' a size
  have hsum : a + i = a % size + i + a / size * size := by omega
  have hlt : a % size + i < size := by omega
  have hpos : 0 < size := by omega
  constructor
  · rw [hsum, Nat.add_mul_div_right _ _ hpos, Nat.div_eq_of_lt hlt, Nat.zero_add]
  · conv_lhs => rw [hsum]
    rw [Nat.add_mul_mod_self_right, Nat.mod_eq_of_lt hlt]

/-- Within a page the addresses follow each other. -/
theorem addr_in_page {f : Nat} (hf : frame (a / size) = some f) (h : i < left size a) :
    addr size frame (a + i) = some (f + a % size + i) := by
  obtain ⟨hdiv, hmod⟩ := div_of_lt_left h
  unfold addr
  rw [hdiv, hmod, hf, Option.map_some, Nat.add_assoc]

/-- A page with a frame is reached as far as it goes. -/
theorem reach_page {f : Nat} (hf : frame (a / size) = some f) (h : n ≤ left size a) : reach size frame a n = n := by
  apply reach_eq_iff.mpr
  intro i hi
  rw [addr_in_page hf (by omega)]
  rfl

theorem reach_none (hf : frame (a / size) = none) : reach size frame a n = 0 := by
  cases n with
  | zero => rfl
  | succ n =>
    have : (addr size frame a).isSome = false := by
      rw [addr_isSome, hf]
      rfl
    rw [reach, this]
    rfl

end

/-! ## Stores -/

section

variable {σ β : Type} (put : σ → Nat → β → σ) (place : Nat → Nat)

/-- The bytes are stored one after the other, the one for `a` at `place a`. -/
def scatter (s : σ) (a : Nat) : List β → σ
  | [] => s
  | b :: bs => scatter (put s (place a) b) (a + 1) bs

variable {put place} {s : σ} {a : Nat}

theorem scatter_append (bs cs : List β) :
    scatter put place s a (bs ++ cs) = scatter put place (scatter put place s a bs) (a + bs.length) cs := by
  induction bs generalizing s a with
  | nil => rfl
  | cons b bs ih =>
    rw [List.cons_append, scatter, scatter, ih, List.length_cons, Nat.add_assoc, Nat.add_comm 1]

/-- Only the places of the bytes matter. -/
theorem scatter_congr {place' : Nat → Nat} {a' : Nat} (bs : List β) (h : ∀ i, i < bs.length → place' (a' + i) = place (a + i)) :
    scatter put place' s a' bs = scatter put place s a bs := by
  induction bs generalizing s a a' with
  | nil => rfl
  | cons b bs ih =>
    have hfirst := h 0 (Nat.succ_pos _)
    rw [Nat.add_zero, Nat.add_zero] at hfirst
    rw [scatter, scatter, hfirst]
    apply ih
    intro i hi
    have := h (i + 1) (by rw [List.length_cons]; omega)
    rwa [Nat.add_assoc, Nat.add_comm 1 i, Nat.add_assoc, Nat.add_comm 1 i]

variable {get : σ → Nat → β}

/-- What stands elsewhere stays. -/
theorem get_scatter_of_ne (hput : ∀ s c d b, d ≠ c → get (put s c b) d = get s d) (bs : List β) {x : Nat}
    (h : ∀ i, i < bs.length → x ≠ place (a + i)) : get (scatter put place s a bs) x = get s x := by
  induction bs generalizing s a with
  | nil => rfl
  | cons b bs ih =>
    rw [scatter, ih, hput]
    · exact h 0 (Nat.succ_pos _)
    · intro i hi
      have := h (i + 1) (by rw [List.length_cons]; omega)
      rwa [Nat.add_assoc, Nat.add_comm 1 i]

/-- A byte is found at its place, if no byte after it is stored there too. -/
theorem get_scatter_self (hself : ∀ s c b, get (put s c b) c = b) (hput : ∀ s c d b, d ≠ c → get (put s c b) d = get s d)
    (bs : List β) {i : Nat} (hi : i < bs.length) (h : ∀ j, i < j → j < bs.length → place (a + i) ≠ place (a + j)) :
    get (scatter put place s a bs) (place (a + i)) = bs[i] := by
  induction bs generalizing s a i with
  | nil => cases hi
  | cons b bs ih =>
    rw [scatter]
    cases i with
    | zero =>
      rw [get_scatter_of_ne hput, Nat.add_zero, hself]
      · rfl
      · intro j hj
        have := h (j + 1) (Nat.succ_pos j) (by rw [List.length_cons]; omega)
        rwa [Nat.add_assoc, Nat.add_comm 1 j]
    | succ i =>
      rw [List.length_cons] at hi
      have := ih (s := put s (place a) b) (a := a + 1) (i := i) (by omega) fun j hij hj => by
        have := h (j + 1) (by omega) (by rw [List.length_cons]; omega)
        rwa [Nat.add_assoc, Nat.add_comm 1 i, Nat.add_assoc, Nat.add_comm 1 j]
      rw [Nat.add_assoc, Nat.add_comm 1 i] at this
      rw [this]
      rfl

end

end Xv6.Paged
