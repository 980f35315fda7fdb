import Mathlib.Algebra.Order.BigOperators.Group.Finset

/-!
# A stock of units on a linked free list

The free units are chained through themselves: `next` of a free unit is the following one, `null`
ends the chain. `Stock` says that the free units and those that are out make up all units, each
once. A unit is taken off the front of the chain (`Stock.take`) and put back there (`Stock.put`).
-/

namespace Xv6

open Multiset

variable {A : Type}

def Chain (next : A → A) (null : A) : A → List A → Prop
  | head, [] => head = null
  | head, a :: as => head = a ∧ a ≠ null ∧ Chain next null (next a) as

namespace Chain

variable {next next' : A → A} {null head : A} {as bs : List A}

theorem congr (h : Chain next null head as) (hnext : ∀ a ∈ as, next' a = next a) : Chain next' null head as := by
  induction as generalizing head with
  | nil => exact h
  | cons a as ih =>
    obtain ⟨hhead, hne, hrest⟩ := h
    refine ⟨hhead, hne, ?_⟩
    rw [hnext a List.mem_cons_self]
    exact ih hrest fun b hb => hnext b (List.mem_cons_of_mem a hb)

/-- The links determine the list. -/
theorem unique (h : Chain next null head as) (h' : Chain next null head bs) : as = bs := by
  induction as generalizing head bs with
  | nil =>
    cases bs with
    | nil => rfl
    | cons b bs => exact absurd (h'.1.symm.trans h) h'.2.1
  | cons a as ih =>
    cases bs with
    | nil => exact absurd (h.1.symm.trans h') h.2.1
    | cons b bs =>
      obtain ⟨rfl, -, hrest⟩ := h
      obtain ⟨rfl, -, hrest'⟩ := h'
      rw [ih hrest hrest']

end Chain

/-- Follow the links, over at most `k` units. -/
def follow [DecidableEq A] (next : A → A) (null : A) : Nat → A → List A
  | 0, _ => []
  | k + 1, a => if a = null then [] else a :: follow next null k (next a)

theorem Chain.follow_eq [DecidableEq A] {next : A → A} {null head : A} {as : List A} {k : Nat} (h : Chain next null head as)
    (hk : as.length ≤ k) : follow next null k head = as := by
  induction as generalizing k head with
  | nil =>
    have hhead : head = null := h
    cases k with
    | zero => rfl
    | succ k => rw [follow, if_pos hhead]
  | cons a as ih =>
    obtain ⟨rfl, hne, hrest⟩ := h
    cases k with
    | zero => cases hk
    | succ k => rw [follow, if_neg hne, ih hrest (Nat.le_of_succ_le_succ hk)]

/-- The free units and the units `out` make up `all`. -/
def Stock (next : A → A) (null head : A) (all out : Multiset A) : Prop :=
  ∃ free : List A, Chain next null head free ∧ (free : Multiset A) + out = all

namespace Stock

variable {next next' : A → A} {null head : A} {all out : Multiset A}

section

variable (h : Stock next null head all out)
include h

theorem out_le : out ≤ all := by
  obtain ⟨free, -, rfl⟩ := h
  exact Multiset.le_add_left out free

/-- The links determine which units are out. -/
theorem unique {out' : Multiset A} (h' : Stock next null head all out') : out = out' := by
  obtain ⟨free, hfree, rfl⟩ := h
  obtain ⟨free', hfree', heq⟩ := h'
  rw [hfree'.unique hfree] at heq
  exact (Multiset.add_right_inj.mp heq).symm

theorem head_mem : head = null ∨ head ∈ all := by
  obtain ⟨free, hfree, rfl⟩ := h
  cases free with
  | nil => exact .inl hfree
  | cons a free => exact .inr (mem_add.mpr (.inl (mem_coe.mpr (hfree.1 ▸ List.mem_cons_self))))

theorem nodup (hall : all.Nodup) : out.Nodup := nodup_of_le h.out_le hall

theorem mem {a : A} (ha : a ∈ out) : a ∈ all := mem_of_le h.out_le ha

/-- The links of the units that are out do not matter. -/
theorem congr (hall : all.Nodup) (hnext : ∀ a, a ∉ out → next' a = next a) :
    Stock next' null head all out := by
  obtain ⟨free, hfree, rfl⟩ := h
  refine ⟨free, hfree.congr fun a ha => hnext a fun hout => ?_, rfl⟩
  exact disjoint_left.mp (nodup_add.mp hall).2.2 (mem_coe.mpr ha) hout

theorem take (hne : head ≠ null) : Stock next null (next head) all (head ::ₘ out) := by
  obtain ⟨free, hfree, rfl⟩ := h
  cases free with
  | nil => exact absurd hfree hne
  | cons a free =>
    obtain ⟨rfl, -, hrest⟩ := hfree
    refine ⟨free, hrest, ?_⟩
    rw [add_cons, ← cons_add, cons_coe]

end

theorem put {a : A} (h : Stock next null head all (a ::ₘ out)) (hall : all.Nodup) (hne : a ≠ null)
    (hnext : ∀ b, b ∉ out → b ≠ a → next' b = next b) (ha : next' a = head) : Stock next' null a all out := by
  obtain ⟨free, hfree, rfl⟩ := h
  refine ⟨a :: free, ⟨rfl, hne, ?_⟩, ?_⟩
  · rw [ha]
    apply hfree.congr
    intro b hb
    have hout : b ∉ a ::ₘ out :=
      fun h => disjoint_left.mp (nodup_add.mp hall).2.2 (mem_coe.mpr hb) h
    exact hnext b (fun h => hout (mem_cons_of_mem h)) fun e => hout (e ▸ mem_cons_self _ _)
  · rw [add_cons, ← cons_add, cons_coe]

/-- An empty chain means that every unit is out. -/
theorem eq_of_null (h : Stock next null null all out) : out = all := by
  obtain ⟨free, hfree, rfl⟩ := h
  cases free with
  | nil => exact (zero_add out).symm
  | cons a free => exact absurd hfree.1.symm hfree.2.1

end Stock

/-- Where every unit occurs once, each is in one part. -/
theorem notMem_of_nodup_sum {ι : Type} [DecidableEq ι] {S : Finset ι} {part : ι → Multiset A} {i j : ι} {a : A}
    (h : (∑ k ∈ S, part k).Nodup) (hi : i ∈ S) (hj : j ∈ S) (hne : j ≠ i) (ha : a ∈ part i) : a ∉ part j := by
  rw [← Finset.add_sum_erase S part hi] at h
  have hle : part j ≤ ∑ k ∈ S.erase i, part k :=
    Finset.single_le_sum (fun _ _ => Multiset.zero_le _) (Finset.mem_erase.mpr ⟨hne, hj⟩)
  intro haj
  exact disjoint_left.mp (nodup_add.mp h).2.2 ha (mem_of_le hle haj)

end Xv6
