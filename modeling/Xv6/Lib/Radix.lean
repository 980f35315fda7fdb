import Mathlib.Algebra.BigOperators.Group.Finset.Basic
import Mathlib.Data.Nat.Digits.Defs

/-!
# Radix trees in memory

A table is a row of `fan` words at an address. Above level 0 a valid word is the address of a table
one level down; at level 0 a valid word is an entry of the tree. The digits of a number in base
`fan` lead from the root to the word that stands for it. `tables` lists the tables of a tree, each
as often as it is reached, `slot` is the place of a number's word, `leaf` the entry there.

Everything about a tree depends on the rows of its own tables (`tables_congr`, `leaf_congr`), and a
change below one word of a row changes that part of the tree only (`Beside`).
-/

namespace Xv6

open Function Multiset

/-- How the words of a table are read. -/
structure Radix (A W : Type) where
  fan : Nat
  valid : W → Bool
  addr : W → A

namespace Radix

variable {A W : Type} (c : Radix A W)

/-- The digit of `v` that chooses the word of a table at level `l`. -/
def digit (l v : Nat) : Nat := v / c.fan ^ l % c.fan

variable {w : W} {b : A} {j v : Nat}

section

variable (mem : A → Nat → W)

def tables : Nat → A → Multiset A
  | 0, a => {a}
  | l + 1, a => a ::ₘ ∑ i ∈ Finset.range c.fan, if c.valid (mem a i) then tables l (c.addr (mem a i)) else 0

/-- The tables below a word of a table at level `l + 1`. -/
def under (l : Nat) (w : W) : Multiset A := if c.valid w then c.tables mem l (c.addr w) else 0

/-- The tables below the other words of a table at level `l + 1`. -/
def siblings (l : Nat) (a : A) (i : Nat) : Multiset A := ∑ j ∈ (Finset.range c.fan).erase i, c.under mem l (mem a j)

def slot : Nat → A → Nat → Option (A × Nat)
  | 0, a, v => some (a, v % c.fan)
  | l + 1, a, v =>
    if c.valid (mem a (c.digit (l + 1) v)) then slot l (c.addr (mem a (c.digit (l + 1) v))) v else none

def leaf (l : Nat) (a : A) (v : Nat) : Option W :=
  (c.slot mem l a v).bind fun q => if c.valid (mem q.1 q.2) then some (mem q.1 q.2) else none

/-- Every valid word above level 0 has `P`. -/
def Nodes (P : W → Prop) : Nat → A → Prop
  | 0, _ => True
  | l + 1, a => ∀ i, i < c.fan → c.valid (mem a i) = true → P (mem a i) ∧ Nodes P l (c.addr (mem a i))

theorem tables_zero (a : A) : c.tables mem 0 a = {a} := rfl

theorem tables_succ (l : Nat) (a : A) :
    c.tables mem (l + 1) a = a ::ₘ ∑ i ∈ Finset.range c.fan, c.under mem l (mem a i) := rfl

theorem leaf_zero (a : A) (v : Nat) :
    c.leaf mem 0 a v = if c.valid (mem a (v % c.fan)) then some (mem a (v % c.fan)) else none := rfl

theorem leaf_succ (l : Nat) (a : A) (v : Nat) :
    c.leaf mem (l + 1) a v = if c.valid (mem a (c.digit (l + 1) v)) then
      c.leaf mem l (c.addr (mem a (c.digit (l + 1) v))) v else none := by
  unfold leaf
  rw [slot]
  split <;> rfl

variable {c mem}

theorem digit_lt (h : 0 < c.fan) (l v : Nat) : c.digit l v < c.fan := Nat.mod_lt _ h

theorem under_of_valid {l : Nat} (h : c.valid w = true) :
    c.under mem l w = c.tables mem l (c.addr w) :=
  if_pos h

theorem under_of_not {l : Nat} (h : c.valid w = false) : c.under mem l w = 0 := by
  unfold under
  rw [h]
  rfl

theorem tables_split {l : Nat} {a : A} {i : Nat} (hi : i < c.fan) :
    c.tables mem (l + 1) a = c.under mem l (mem a i) + (a ::ₘ c.siblings mem l a i) := by
  rw [tables_succ, ← Finset.add_sum_erase _ _ (Finset.mem_range.mpr hi), add_cons]
  rfl

theorem self_mem_tables (l : Nat) (a : A) : a ∈ c.tables mem l a := by
  cases l with
  | zero => exact mem_singleton_self a
  | succ l => exact mem_cons_self a _

theorem mem_tables_of_child {l : Nat} {a : A} {i : Nat} (hi : i < c.fan)
    (hv : c.valid (mem a i) = true) (hb : b ∈ c.tables mem l (c.addr (mem a i))) :
    b ∈ c.tables mem (l + 1) a := by
  rw [tables_split hi, under_of_valid hv]
  exact mem_add.mpr (.inl hb)

theorem mem_siblings_of_child {l : Nat} {a : A} {i : Nat} (hj : j < c.fan) (hji : j ≠ i)
    (hv : c.valid (mem a j) = true) (hb : b ∈ c.tables mem l (c.addr (mem a j))) :
    b ∈ c.siblings mem l a i := by
  apply mem_sum.mpr
  refine ⟨j, Finset.mem_erase.mpr ⟨hji, Finset.mem_range.mpr hj⟩, ?_⟩
  rw [under_of_valid hv]
  exact hb

theorem slot_mem (hf : 0 < c.fan) {l : Nat} {a : A} {i : Nat} (h : c.slot mem l a v = some (b, i)) :
    b ∈ c.tables mem l a := by
  induction l generalizing a with
  | zero => cases h; exact self_mem_tables 0 _
  | succ l ih =>
    rw [slot] at h
    split at h
    next hv => exact mem_tables_of_child (digit_lt hf _ _) hv (ih h)
    next => cases h

/-- An entry stands at its slot. -/
theorem slot_of_leaf {l : Nat} {a : A} (h : c.leaf mem l a v = some w) :
    ∃ b i, c.slot mem l a v = some (b, i) ∧ mem b i = w ∧ c.valid w = true := by
  unfold leaf at h
  obtain ⟨⟨b, i⟩, hs, hw⟩ := Option.bind_eq_some_iff.mp h
  split at hw
  next hv => cases hw; exact ⟨b, i, hs, rfl, hv⟩
  next => cases hw

theorem leaf_of_slot {l : Nat} {a : A} {i : Nat} (h : c.slot mem l a v = some (b, i)) :
    c.leaf mem l a v = if c.valid (mem b i) then some (mem b i) else none := by
  unfold leaf
  rw [h]
  rfl

end

/-! ## What a tree depends on -/

/-- Two memories with the same rows at the addresses of `B`. -/
def SameOn (B : Multiset A) (mem mem' : A → Nat → W) : Prop := ∀ b ∈ B, mem' b = mem b

namespace SameOn

variable {B B' : Multiset A} {mem mem' mem'' : A → Nat → W}

theorem refl (B : Multiset A) (mem : A → Nat → W) : SameOn B mem mem := fun _ _ => rfl

theorem trans (h : SameOn B mem mem') (h' : SameOn B mem' mem'') : SameOn B mem mem'' :=
  fun b hb => (h' b hb).trans (h b hb)

theorem mono (h : SameOn B mem mem') (hB : B' ≤ B) : SameOn B' mem mem' :=
  fun b hb => h b (mem_of_le hB hb)

theorem left (h : SameOn (B + B') mem mem') : SameOn B mem mem' := h.mono (Multiset.le_add_right B B')

theorem right (h : SameOn (B + B') mem mem') : SameOn B' mem mem' := h.mono (Multiset.le_add_left B' B)

end SameOn

section

variable {c} {mem mem' : A → Nat → W}

theorem tables_congr {l : Nat} {a : A} (h : SameOn (c.tables mem l a) mem mem') :
    c.tables mem' l a = c.tables mem l a := by
  induction l generalizing a with
  | zero => rfl
  | succ l ih =>
    rw [tables_succ, tables_succ, h a (self_mem_tables _ a)]
    congr 1
    apply Finset.sum_congr rfl
    intro i hi
    unfold under
    split
    next hv => exact ih fun b hb => h b (mem_tables_of_child (Finset.mem_range.mp hi) hv hb)
    next => rfl

theorem slot_congr (hf : 0 < c.fan) {l : Nat} {a : A} (h : SameOn (c.tables mem l a) mem mem') (v : Nat) :
    c.slot mem' l a v = c.slot mem l a v := by
  induction l generalizing a with
  | zero => rfl
  | succ l ih =>
    rw [slot, slot, h a (self_mem_tables _ a)]
    split
    next hv => exact ih fun b hb => h b (mem_tables_of_child (digit_lt hf _ _) hv hb)
    next => rfl

theorem leaf_congr (hf : 0 < c.fan) {l : Nat} {a : A} (h : SameOn (c.tables mem l a) mem mem') (v : Nat) :
    c.leaf mem' l a v = c.leaf mem l a v := by
  unfold leaf
  rw [slot_congr hf h]
  cases hs : c.slot mem l a v with
  | none => rfl
  | some q =>
    obtain ⟨b, i⟩ := q
    rw [Option.bind_some, Option.bind_some, h b (slot_mem hf hs)]

variable {P : W → Prop}

theorem Nodes.child {l : Nat} {a : A} (hn : c.Nodes mem P (l + 1) a) {i : Nat} (hi : i < c.fan)
    (hv : c.valid (mem a i) = true) : P (mem a i) ∧ c.Nodes mem P l (c.addr (mem a i)) :=
  hn i hi hv

theorem Nodes.congr {l : Nat} {a : A} (hn : c.Nodes mem P l a)
    (h : SameOn (c.tables mem l a) mem mem') : c.Nodes mem' P l a := by
  induction l generalizing a with
  | zero => trivial
  | succ l ih =>
    intro i hi hv
    rw [h a (self_mem_tables _ a)] at hv ⊢
    obtain ⟨hP, hchild⟩ := hn i hi hv
    exact ⟨hP, ih hchild fun b hb => h b (mem_tables_of_child hi hv hb)⟩

/-! ## A change below one word -/

/-- From `mem` to `mem'`, the tree at `a` changed at most at word `i` of its root and below that
word. -/
structure Beside (c : Radix A W) (mem mem' : A → Nat → W) (l : Nat) (a : A) (i : Nat) : Prop where
  row : ∀ j, j ≠ i → mem' a j = mem a j
  rest : SameOn (c.siblings mem l a i) mem mem'

namespace Beside

variable {l : Nat} {a : A} {i : Nat}

section

variable (h : Beside c mem mem' l a i)
include h

theorem under_eq (hj : j < c.fan) (hji : j ≠ i) :
    c.under mem' l (mem' a j) = c.under mem l (mem a j) := by
  rw [h.row j hji]
  unfold under
  split
  next hv => exact tables_congr fun b hb => h.rest b (mem_siblings_of_child hj hji hv hb)
  next => rfl

theorem siblings_eq : c.siblings mem' l a i = c.siblings mem l a i := by
  apply Finset.sum_congr rfl
  intro j hj
  obtain ⟨hji, hj⟩ := Finset.mem_erase.mp hj
  exact h.under_eq (Finset.mem_range.mp hj) hji

theorem tables_eq (hi : i < c.fan) :
    c.tables mem' (l + 1) a = c.under mem' l (mem' a i) + (a ::ₘ c.siblings mem l a i) := by
  rw [tables_split hi, h.siblings_eq]

theorem slot_eq (hf : 0 < c.fan) (hv : c.digit (l + 1) v ≠ i) :
    c.slot mem' (l + 1) a v = c.slot mem (l + 1) a v := by
  rw [slot, slot, h.row _ hv]
  split
  next hval =>
    exact slot_congr hf (fun b hb => h.rest b (mem_siblings_of_child (digit_lt hf _ _) hv hval hb)) v
  next => rfl

theorem leaf_eq (hf : 0 < c.fan) (hv : c.digit (l + 1) v ≠ i) :
    c.leaf mem' (l + 1) a v = c.leaf mem (l + 1) a v := by
  rw [leaf_succ, leaf_succ, h.row _ hv]
  split
  next hval =>
    exact leaf_congr hf (fun b hb => h.rest b (mem_siblings_of_child (digit_lt hf _ _) hv hval hb)) v
  next => rfl

theorem nodes (hn : c.Nodes mem P (l + 1) a)
    (hi : c.valid (mem' a i) = true → P (mem' a i) ∧ c.Nodes mem' P l (c.addr (mem' a i))) :
    c.Nodes mem' P (l + 1) a := by
  intro j hj hv
  by_cases hji : j = i
  · rw [hji] at hv ⊢
    exact hi hv
  · rw [h.row j hji] at hv ⊢
    obtain ⟨hP, hchild⟩ := hn j hj hv
    exact ⟨hP, hchild.congr fun b hb => h.rest b (mem_siblings_of_child hj hji hv hb)⟩

end

end Beside

end

/-! ## The parts of a tree -/

section

variable {c} {mem : A → Nat → W} {l : Nat} {a : A} {i : Nat}

section

variable (hi : i < c.fan) (hn : (c.tables mem (l + 1) a).Nodup)
include hi hn

/-- The root of a tree is not one of the tables below it. -/
theorem root_notMem_siblings : a ∉ c.siblings mem l a i := by
  rw [tables_split hi] at hn
  exact (nodup_cons.mp (nodup_add.mp hn).2.1).1

theorem under_disjoint (hb : b ∈ c.under mem l (mem a i)) : b ≠ a ∧ b ∉ c.siblings mem l a i := by
  rw [tables_split hi] at hn
  have hnot : b ∉ a ::ₘ c.siblings mem l a i :=
    fun h => disjoint_left.mp (nodup_add.mp hn).2.2 hb h
  exact ⟨fun e => hnot (e ▸ mem_cons_self _ _), fun h => hnot (mem_cons_of_mem h)⟩

theorem nodup_under : (c.under mem l (mem a i)).Nodup := by
  rw [tables_split hi] at hn
  exact (nodup_add.mp hn).1

end

/-- Writing below one word leaves everything beside it. -/
theorem beside_of_sameOn {mem' : A → Nat → W} (h : SameOn (a ::ₘ c.siblings mem l a i) mem mem') :
    Beside c mem mem' l a i :=
  ⟨fun j _ => by rw [h a (mem_cons_self _ _)], fun b hb => h b (mem_cons_of_mem hb)⟩

/-- Two numbers agree up to a digit when they agree below it and in it. -/
theorem mod_pow_succ_eq_iff (hf : 0 < c.fan) (l u v : Nat) :
    u % c.fan ^ (l + 1 + 1) = v % c.fan ^ (l + 1 + 1) ↔
      c.digit (l + 1) u = c.digit (l + 1) v ∧ u % c.fan ^ (l + 1) = v % c.fan ^ (l + 1) := by
  have hpos : 0 < c.fan ^ (l + 1) := Nat.pow_pos hf
  have hu := Nat.mod_lt u hpos
  have hv := Nat.mod_lt v hpos
  rw [Nat.mod_pow_succ, Nat.mod_pow_succ (x := v)]
  unfold digit
  constructor
  · intro h
    have hd := congrArg (· / c.fan ^ (l + 1)) h
    have hm := congrArg (· % c.fan ^ (l + 1)) h
    simp only [Nat.add_mul_div_left _ _ hpos, Nat.div_eq_of_lt hu, Nat.div_eq_of_lt hv, zero_add] at hd
    simp only [Nat.add_mul_mod_self_left, Nat.mod_mod] at hm
    exact ⟨hd, hm⟩
  · rintro ⟨hd, hm⟩
    rw [hd, hm]

variable {u : Nat}

theorem slot_mod (hf : 0 < c.fan) (h : u % c.fan ^ (l + 1) = v % c.fan ^ (l + 1)) :
    c.slot mem l a u = c.slot mem l a v := by
  induction l generalizing a with
  | zero =>
    rw [zero_add, Nat.pow_one] at h
    rw [slot, slot, h]
  | succ l ih =>
    obtain ⟨hd, hm⟩ := (mod_pow_succ_eq_iff hf l u v).mp h
    rw [slot, slot, hd, ih hm]

theorem leaf_mod (hf : 0 < c.fan) (h : u % c.fan ^ (l + 1) = v % c.fan ^ (l + 1)) :
    c.leaf mem l a u = c.leaf mem l a v := by
  unfold leaf
  rw [slot_mod hf h]

theorem digit_succ (l v : Nat) : c.digit (l + 1) v = c.digit l (v / c.fan) := by
  unfold digit
  rw [Nat.pow_succ', Nat.div_div_eq_div_mul]

/-- Numbers that differ in the last digit only have their slots in one table. -/
theorem slot_of_div_eq {q : A × Nat} (h : u / c.fan = v / c.fan) (hu : c.slot mem l a u = some q) :
    ∃ q', c.slot mem l a v = some q' := by
  induction l generalizing a with
  | zero => exact ⟨_, by rw [slot]⟩
  | succ l ih =>
    rw [slot, digit_succ, h, ← digit_succ] at hu
    rw [slot]
    split at hu
    next hvalid =>
      rw [if_pos hvalid]
      exact ih hu
    next => cases hu

/-- Numbers with the same slot agree in all digits. -/
theorem slot_inj (hf : 0 < c.fan) {q : A × Nat} (hn : (c.tables mem l a).Nodup)
    (hu : c.slot mem l a u = some q) (hv : c.slot mem l a v = some q) :
    u % c.fan ^ (l + 1) = v % c.fan ^ (l + 1) := by
  induction l generalizing a with
  | zero =>
    rw [zero_add, Nat.pow_one]
    rw [slot] at hu hv
    exact congrArg Prod.snd (Option.some.inj (hu.trans hv.symm))
  | succ l ih =>
    have hlt := digit_lt hf (l + 1) u
    rw [slot] at hu hv
    split at hu
    next hvalid =>
      have hmem : q.1 ∈ c.under mem l (mem a (c.digit (l + 1) u)) := by
        rw [under_of_valid hvalid]
        exact slot_mem hf hu
      have hd : c.digit (l + 1) u = c.digit (l + 1) v := by
        by_contra hne
        split at hv
        next hvalid' =>
          exact (under_disjoint hlt hn hmem).2
            (mem_siblings_of_child (digit_lt hf _ _) (Ne.symm hne) hvalid' (slot_mem hf hv))
        next => cases hv
      rw [← hd, if_pos hvalid] at hv
      have hnodup := nodup_under hlt hn
      rw [under_of_valid hvalid] at hnodup
      exact (mod_pow_succ_eq_iff hf l u v).mpr ⟨hd, ih hnodup hu hv⟩
    next => cases hu

/-- The entries below a word are entries of the tree. -/
theorem leaf_child (hf : 0 < c.fan) (hi : i < c.fan) (hv : c.valid (mem a i) = true) (v : Nat) :
    c.leaf mem l (c.addr (mem a i)) v = c.leaf mem (l + 1) a (v % c.fan ^ (l + 1) + c.fan ^ (l + 1) * i) := by
  have hpos : 0 < c.fan ^ (l + 1) := Nat.pow_pos hf
  have hd : c.digit (l + 1) (v % c.fan ^ (l + 1) + c.fan ^ (l + 1) * i) = i := by
    unfold digit
    rw [Nat.add_mul_div_left _ _ hpos, Nat.div_eq_of_lt (Nat.mod_lt v hpos), zero_add, Nat.mod_eq_of_lt hi]
  have hm : (v % c.fan ^ (l + 1) + c.fan ^ (l + 1) * i) % c.fan ^ (l + 1) = v % c.fan ^ (l + 1) := by
    rw [Nat.add_mul_mod_self_left, Nat.mod_mod]
  rw [leaf_succ, hd, if_pos hv, leaf_mod hf hm]

/-- No word of the table at `a` is valid. -/
def Blank (c : Radix A W) (mem : A → Nat → W) (a : A) : Prop := ∀ j, j < c.fan → c.valid (mem a j) = false

theorem tables_blank (h : c.Blank mem a) (l : Nat) : c.tables mem l a = {a} := by
  cases l with
  | zero => rfl
  | succ l =>
    rw [tables_succ, Finset.sum_eq_zero fun j hj => under_of_not (h j (Finset.mem_range.mp hj))]
    rfl

theorem leaf_blank (hf : 0 < c.fan) (h : c.Blank mem a) (l v : Nat) : c.leaf mem l a v = none := by
  cases l with
  | zero => rw [leaf_zero, h _ (Nat.mod_lt _ hf)]; rfl
  | succ l => rw [leaf_succ, h _ (digit_lt hf _ _)]; rfl

theorem nodes_blank (h : c.Blank mem a) (P : W → Prop) (l : Nat) : c.Nodes mem P l a := by
  cases l with
  | zero => trivial
  | succ l =>
    intro j hj hv
    rw [h j hj] at hv
    cases hv

end

/-! ## Writing a word -/

section

variable [DecidableEq A]

def set (mem : A → Nat → W) (b : A) (i : Nat) (w : W) : A → Nat → W :=
  update mem b (update (mem b) i w)

variable {c} {mem : A → Nat → W}

theorem set_of_ne {b' : A} {i : Nat} (h : b' ≠ b) : set mem b i w b' = mem b' :=
  update_of_ne h ..

@[simp] theorem set_self (b : A) (i : Nat) (w : W) : set mem b i w b i = w := by
  unfold set
  rw [update_self, update_self]

theorem set_row {i : Nat} (h : j ≠ i) : set mem b i w b j = mem b j := by
  unfold set
  rw [update_self, update_of_ne h]

theorem sameOn_set {B : Multiset A} {i : Nat} (h : b ∉ B) : SameOn B mem (set mem b i w) :=
  fun _ hb' => set_of_ne fun e => h (e ▸ hb')

variable {l : Nat} {a : A} {i : Nat}

theorem beside_set_root (hi : i < c.fan) (hn : (c.tables mem (l + 1) a).Nodup) (w : W) :
    Beside c mem (set mem a i w) l a i :=
  ⟨fun _ hj => set_row hj, sameOn_set (root_notMem_siblings hi hn)⟩

theorem beside_set_under (hi : i < c.fan) (hn : (c.tables mem (l + 1) a).Nodup)
    (hb : b ∈ c.under mem l (mem a i)) (k : Nat) (w : W) : Beside c mem (set mem b k w) l a i := by
  obtain ⟨hne, hsib⟩ := under_disjoint hi hn hb
  apply beside_of_sameOn
  apply sameOn_set
  intro h
  rcases mem_cons.mp h with h | h
  · exact hne h
  · exact hsib h

/-- What is left of a tree when a word is written at a slot. -/
structure SlotWritten (c : Radix A W) (mem mem' : A → Nat → W) (l : Nat) (a : A) (v : Nat) (w : W) : Prop where
  tables : c.tables mem' l a = c.tables mem l a
  slot : ∀ u, c.slot mem' l a u = c.slot mem l a u
  leaf_self : ∀ u, u % c.fan ^ (l + 1) = v % c.fan ^ (l + 1) →
    c.leaf mem' l a u = if c.valid w then some w else none
  leaf_of_ne : ∀ u, u % c.fan ^ (l + 1) ≠ v % c.fan ^ (l + 1) → c.leaf mem' l a u = c.leaf mem l a u
  nodes : ∀ P : W → Prop, c.Nodes mem P l a → c.Nodes mem' P l a

theorem slotWritten (hf : 0 < c.fan) {k : Nat} (hn : (c.tables mem l a).Nodup)
    (hs : c.slot mem l a v = some (b, k)) (w : W) : SlotWritten c mem (set mem b k w) l a v w := by
  induction l generalizing a with
  | zero =>
    cases hs
    refine ⟨rfl, fun _ => rfl, fun u hu => ?_, fun u hu => ?_, fun _ _ => trivial⟩
    · rw [zero_add, Nat.pow_one] at hu
      rw [leaf_zero, hu, set_self]
    · rw [zero_add, Nat.pow_one] at hu
      rw [leaf_zero, leaf_zero, set_row hu]
  | succ l ih =>
    have hd := digit_lt hf (l + 1) v
    rw [slot] at hs
    split at hs
    next hv =>
      have hund : c.under mem l (mem a (c.digit (l + 1) v)) = c.tables mem l (c.addr (mem a (c.digit (l + 1) v))) :=
        under_of_valid hv
      have hbin : b ∈ c.under mem l (mem a (c.digit (l + 1) v)) := by
        rw [hund]
        exact slot_mem hf hs
      have hbes := beside_set_under hd hn hbin k w
      have hsub := ih (hund ▸ nodup_under hd hn) hs
      have hrow : set mem b k w a = mem a := set_of_ne (under_disjoint hd hn hbin).1.symm
      refine ⟨?_, fun u => ?_, fun u hu => ?_, fun u hu => ?_, fun P hP => ?_⟩
      · rw [hbes.tables_eq hd, hrow, under_of_valid hv, hsub.tables, tables_split hd, hund]
      · by_cases hu : c.digit (l + 1) u = c.digit (l + 1) v
        · rw [slot, slot, hrow, hu, if_pos hv, if_pos hv]
          exact hsub.slot u
        · exact hbes.slot_eq hf hu
      · obtain ⟨hdig, hmod⟩ := (mod_pow_succ_eq_iff hf l u v).mp hu
        rw [leaf_succ, hrow, hdig, if_pos hv]
        exact hsub.leaf_self u hmod
      · by_cases hdig : c.digit (l + 1) u = c.digit (l + 1) v
        · rw [leaf_succ, leaf_succ, hrow, hdig, if_pos hv, if_pos hv]
          exact hsub.leaf_of_ne u fun hmod => hu ((mod_pow_succ_eq_iff hf l u v).mpr ⟨hdig, hmod⟩)
        · exact hbes.leaf_eq hf hdig
      · apply hbes.nodes hP
        intro _
        rw [hrow]
        obtain ⟨hPd, hchild⟩ := hP _ hd hv
        exact ⟨hPd, hsub.nodes P hchild⟩
    next => cases hs

/-- A blank table is hung below an invalid word: the tree gains that table and no entry. -/
theorem link (hf : 0 < c.fan) (hi : i < c.fan) (hn : (c.tables mem (l + 1) a).Nodup)
    (hinv : c.valid (mem a i) = false) (hfresh : b ∉ c.tables mem (l + 1) a)
    (hblank : c.Blank mem b) (hw : c.valid w = true) (haddr : c.addr w = b) :
    c.tables (set mem a i w) (l + 1) a = b ::ₘ c.tables mem (l + 1) a ∧
      (∀ v, c.leaf (set mem a i w) (l + 1) a v = c.leaf mem (l + 1) a v) ∧
      ∀ P : W → Prop, P w → c.Nodes mem P (l + 1) a → c.Nodes (set mem a i w) P (l + 1) a := by
  have hbes := beside_set_root hi hn w
  have hba : b ≠ a := by
    rintro rfl
    exact hfresh (self_mem_tables _ b)
  have hblank' : c.Blank (set mem a i w) b := by
    intro j hj
    rw [set_of_ne hba]
    exact hblank j hj
  refine ⟨?_, fun v => ?_, fun P hP hnodes => ?_⟩
  · rw [hbes.tables_eq hi, set_self, under_of_valid hw, haddr, tables_blank hblank', tables_split hi,
      under_of_not hinv, zero_add]
    rfl
  · by_cases hd : c.digit (l + 1) v = i
    · rw [leaf_succ, leaf_succ, hd, set_self, if_pos hw, haddr, leaf_blank hf hblank', hinv]
      rfl
    · exact hbes.leaf_eq hf hd
  · apply hbes.nodes hnodes
    intro _
    rw [set_self, haddr]
    exact ⟨hP, nodes_blank hblank' P l⟩

end

-- a table's row is long: a proof about a tree goes by the equations above
attribute [irreducible] tables under siblings slot leaf Nodes

end Radix

end Xv6
