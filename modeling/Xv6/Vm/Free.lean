import Xv6.Vm.Table
import Mathlib.Algebra.BigOperators.Intervals
import Mathlib.Tactic.Abel

/-!
# Taking page tables apart

`uvmunmap` removes the entries of a range, and with `do_free` gives the pages they map back to the
free list; `freewalk` gives back the pages of a tree that has no entry left. Neither panics on a
page table whose entries are what their callers say they are.
-/

namespace Xv6.Vm

open Prog Radix Function Multiset

variable {L : Layout} {m m' : Mem} {B T : Multiset Nat} {root : Nat} {mp mp' : Nat → Option Word}

/-! ## The pages a range maps -/

def pageOf : Option Word → Multiset Nat
  | none => 0
  | some w => {PTE2PA w}

/-- The pages mapped at `n` page numbers from `v` on. -/
def pages (mp : Nat → Option Word) (v n : Nat) : Multiset Nat := ∑ i ∈ Finset.range n, pageOf (mp (v + i))

theorem pages_zero (mp : Nat → Option Word) (v : Nat) : pages mp v 0 = 0 := rfl

theorem pages_add (mp : Nat → Option Word) (v n k : Nat) : pages mp v (n + k) = pages mp v n + pages mp (v + n) k := by
  unfold pages
  rw [Finset.sum_range_add]
  congr 1
  apply Finset.sum_congr rfl
  intro i _
  rw [add_assoc]

theorem pages_one (mp : Nat → Option Word) (v : Nat) : pages mp v 1 = pageOf (mp v) := by
  unfold pages
  rw [Finset.sum_range_one, add_zero]

theorem pages_front (mp : Nat → Option Word) (v n : Nat) : pages mp v (n + 1) = pageOf (mp v) + pages mp (v + 1) n := by
  rw [add_comm, pages_add, pages_one]

theorem pages_back (mp : Nat → Option Word) (v n : Nat) : pages mp v (n + 1) = pages mp v n + pageOf (mp (v + n)) := by
  rw [pages_add, pages_one]

variable {a l n v : Nat} {doFree : Bool}

theorem pages_congr (h : ∀ u, v ≤ u → u < v + n → mp' u = mp u) : pages mp' v n = pages mp v n := by
  apply Finset.sum_congr rfl
  intro i hi
  rw [h (v + i) (by omega) (by have := Finset.mem_range.mp hi; omega)]

/-- An entry for the same page takes the place of one. -/
theorem pages_update {u : Nat} {x : Option Word} (h : pageOf x = pageOf (mp u)) :
    pages (update mp u x) v n = pages mp v n := by
  apply Finset.sum_congr rfl
  intro i _
  by_cases hi : v + i = u
  · rw [hi, update_self, h]
  · rw [update_of_ne hi]

/-- The entries after `n` page numbers from `v` on have been unmapped. -/
def unmapRange (mp : Nat → Option Word) (v n : Nat) : Nat → Option Word := fun u =>
  if v ≤ u ∧ u < v + n then none else mp u

theorem unmapRange_zero (mp : Nat → Option Word) (v : Nat) : unmapRange mp v 0 = mp := by
  funext u
  exact if_neg (by omega)

theorem unmapRange_succ (mp : Nat → Option Word) (v n : Nat) :
    unmapRange (update mp v none) (v + 1) n = unmapRange mp v (n + 1) := by
  funext u
  unfold unmapRange
  by_cases hu : u = v
  · rw [if_neg (by omega), if_pos (by omega), hu, update_self]
  · rw [update_of_ne hu]
    by_cases hu' : v + 1 ≤ u ∧ u < v + 1 + n
    · rw [if_pos hu', if_pos (by omega)]
    · rw [if_neg hu', if_neg (by omega)]

/-! ## `uvmunmap` -/

/-- The pages that the loop gives back. -/
def given (doFree : Bool) (mp : Nat → Option Word) (v n : Nat) : Multiset Nat := if doFree then pages mp v n else 0

theorem given_front {w : Word} (hw : mp v = some w) :
    given doFree mp v (n + 1) = (if doFree then {PTE2PA w} else 0) + given doFree mp (v + 1) n := by
  unfold given
  cases doFree
  · rfl
  · simp only [if_true]
    rw [pages_front, hw]
    rfl

/-- One turn gives back the page of its entry. -/
theorem unmap_free {F : Multiset Nat} {w : Word}
    (hp : Pool L m ((if doFree then {PTE2PA w} else 0) + F)) :
    wp (onlyIf (doFree = true) (kfree L (PTE2PA w))) (fun _ m' => Pool L m' F ∧ SameOn F m.word m'.word) never m := by
  apply wp_onlyIf
  · rintro rfl
    rw [if_pos rfl, singleton_add] at hp
    exact kfree_spec hp
  · intro hfalse
    rw [if_neg hfalse, zero_add] at hp
    exact ⟨hp, .refl _ _⟩

theorem unmapLoop_spec (hva : (v + n) * PGSIZE ≤ MAXVA) (ht : PageTable m.word root T mp)
    (hmapped : ∀ u, v ≤ u → u < v + n → ∃ w, mp u = some w ∧ isLeaf w = true)
    (hp : Pool L m (T + (given doFree mp v n + B))) :
    wp (unmapLoop L root doFree n (v * PGSIZE)) (fun _ m' => Kept L B m m' root T (unmapRange mp v n)) never m := by
  induction n generalizing v m mp with
  | zero =>
    rw [unmapLoop, wp_pure, unmapRange_zero]
    refine ⟨ht, ?_, .refl _ _⟩
    have hzero : given doFree mp v 0 = 0 := by cases doFree <;> rfl
    rw [hzero, zero_add] at hp
    exact hp
  | succ n ih =>
    have hlt : v * PGSIZE < MAXVA := by
      have : v * PGSIZE < (v + (n + 1)) * PGSIZE := Nat.mul_lt_mul_of_pos_right (by omega) (by decide)
      omega
    have hpage : v * PGSIZE / PGSIZE = v := Nat.mul_div_cancel v (by decide)
    have hv : v < NPAGES := hpage ▸ va_lt_NPAGES hlt
    obtain ⟨w, hw, hleaf⟩ := hmapped v (Nat.le_refl v) (by omega)
    obtain ⟨q, hq, hword, hvalid⟩ := ht.slot_of_some hv hw
    rw [unmapLoop, wp_bind, wp_walk_lookup hlt, hpage, hq]
    simp only [wp_bind, getPte, wp_read, setPte]
    rw [hword, if_neg ((valid_iff w).mp hvalid), if_neg (PTE_FLAGS_ne_of_isLeaf hleaf)]
    have hp' : Pool L m ((if doFree then {PTE2PA w} else 0) + (T + (given doFree mp (v + 1) n + B))) := by
      apply hp.of_eq
      rw [given_front hw]
      abel
    apply wp_seq (unmap_free hp')
    rintro _ m₁ ⟨hp₁, hsame₁⟩
    rw [wp_bind, wp_change]
    have hkept : Kept L (given doFree mp (v + 1) n + B) m m₁ root T mp :=
      ⟨ht.congr hsame₁.left, hp₁, hsame₁.right⟩
    have hset := hkept.setPte hv ((slot_congr fan_pos (ht.tables.symm ▸ hsame₁.left) v).trans hq) 0
    rw [if_neg (by decide)] at hset
    have hgiven : given doFree (update mp v none) (v + 1) n = given doFree mp (v + 1) n := by
      have hpages : pages (update mp v none) (v + 1) n = pages mp (v + 1) n :=
        pages_congr fun u hu _ => update_of_ne (by omega) ..
      unfold given
      rw [hpages]
    rw [show v * PGSIZE + PGSIZE = (v + 1) * PGSIZE from (Nat.succ_mul v PGSIZE).symm]
    have hmapped' : ∀ u, v + 1 ≤ u → u < v + 1 + n → ∃ w, update mp v none u = some w ∧ isLeaf w = true := by
      intro u hu hu'
      rw [update_of_ne (by omega)]
      exact hmapped u (by omega) (by omega)
    apply wp_mono (ih (by rw [add_right_comm]; exact hva) hset.table hmapped' (hgiven.symm ▸ hset.pool)) _ fun _ _ => id
    intro _ m' hrest
    rw [unmapRange_succ] at hrest
    exact ⟨hrest.table, hrest.pool, hset.same.right.trans hrest.same⟩

theorem uvmunmap_spec (hva : (v + n) * PGSIZE ≤ MAXVA) (ht : PageTable m.word root T mp)
    (hmapped : ∀ u, v ≤ u → u < v + n → ∃ w, mp u = some w ∧ isLeaf w = true)
    (hp : Pool L m (T + (given doFree mp v n + B))) :
    wp (uvmunmap L root (v * PGSIZE) n doFree) (fun _ m' => Kept L B m m' root T (unmapRange mp v n)) never m := by
  have hturns : pagesUpTo (v * PGSIZE) ((v * PGSIZE + n * PGSIZE) % 2 ^ 64) = n := by
    rw [MAXVA_eq, PGSIZE_eq] at hva
    unfold pagesUpTo
    rw [PGSIZE_eq, Nat.mod_eq_of_lt (by omega)]
    omega
  unfold uvmunmap
  rw [if_neg (by rw [Nat.mul_mod_left]; decide), hturns]
  exact unmapLoop_spec hva ht hmapped hp

/-! ## `freewalk` -/

/-- What the loop of `freewalk` over the words of a table keeps; `is` are the words that are left.
-/
structure Freeing (L : Layout) (B : Multiset Nat) (m m' : Mem) (l a : Nat) (is : List Nat) : Prop where
  nodes : sv39.Nodes m'.word IsNode l a
  leaf : ∀ v, sv39.leaf m'.word l a v = none
  pool : Pool L m' (sv39.tables m'.word l a + B)
  same : SameOn B m.word m'.word
  left : ∀ i ∈ is, i < sv39.fan
  done : ∀ i, i < sv39.fan → i ∉ is → sv39.valid (m'.word a i) = false

/-- When no word is left, the table itself goes. -/
theorem Freeing.finish (h : Freeing L B m m' l a []) :
    wp (kfree L a) (fun _ m'' => Pool L m'' B ∧ SameOn B m.word m''.word) never m' := by
  have hblank : sv39.Blank m'.word a := fun i hi => h.done i hi List.not_mem_nil
  have hp := h.pool
  rw [tables_blank hblank, singleton_add] at hp
  apply wp_mono (kfree_spec hp) _ fun _ _ => id
  rintro _ m'' ⟨hp', hsame⟩
  exact ⟨hp', h.same.trans hsame⟩

/-- A word that is not valid needs nothing. -/
theorem Freeing.skip {i : Nat} {is : List Nat} (h : Freeing L B m m' l a (i :: is))
    (hv : sv39.valid (m'.word a i) = false) : Freeing L B m m' l a is := by
  refine ⟨h.nodes, h.leaf, h.pool, h.same, fun j hj => h.left j (List.mem_cons_of_mem i hj), fun j hj hnot => ?_⟩
  by_cases hji : j = i
  · rw [hji]
    exact hv
  · apply h.done j hj
    rw [List.mem_cons, not_or]
    exact ⟨hji, hnot⟩

/-- The tree below a word has been freed and the word is cleared. -/
theorem Freeing.clear {m₁ : Mem} {i : Nat} {is : List Nat}
    (h : Freeing L B m m' (l + 1) a (i :: is))
    (hp : Pool L m₁ (a ::ₘ sv39.siblings m'.word l a i + B))
    (hsame : SameOn (a ::ₘ sv39.siblings m'.word l a i + B) m'.word m₁.word) :
    Freeing L B m (m₁.setWord a i 0) (l + 1) a is := by
  have hi := h.left i List.mem_cons_self
  have hmem : a ∈ a ::ₘ sv39.siblings m'.word l a i + B := mem_add.mpr (.inl (mem_cons_self _ _))
  have hroot : a ∉ sv39.siblings m'.word l a i :=
    (nodup_cons.mp (nodup_add.mp hp.nodup).1).1
  have hself : (m₁.setWord a i 0).word a i = 0 := set_self ..
  have hbes : Beside sv39 m'.word (m₁.setWord a i 0).word l a i := by
    refine ⟨fun j hj => ?_, ?_⟩
    · rw [← hsame a hmem]
      exact set_row hj
    · apply SameOn.trans (fun b hb => hsame b (mem_add.mpr (.inl (mem_cons_of_mem hb))))
      exact sameOn_set hroot
  have hzero : sv39.valid ((m₁.setWord a i 0).word a i) = false := by
    rw [hself]
    decide
  refine ⟨?_, fun v => ?_, ?_, ?_, fun j hj => h.left j (List.mem_cons_of_mem i hj), fun j hj hnot => ?_⟩
  · apply hbes.nodes h.nodes
    intro hv
    rw [hzero] at hv
    cases hv
  · by_cases hd : sv39.digit (l + 1) v = i
    · rw [leaf_succ, hd, hzero]
      rfl
    · rw [hbes.leaf_eq fan_pos hd]
      exact h.leaf v
  · rw [hbes.tables_eq hi, under_of_not hzero, zero_add]
    exact hp.setWord hmem i 0
  · apply h.same.trans (hsame.right.trans _)
    exact sameOn_set (hp.disjoint (mem_cons_self _ _))
  · by_cases hji : j = i
    · rw [hji]
      exact hzero
    · rw [hbes.row j hji]
      apply h.done j hj
      rw [List.mem_cons, not_or]
      exact ⟨hji, hnot⟩

theorem Freeing.start (hn : sv39.Nodes m.word IsNode l a)
    (hleaf : ∀ v, sv39.leaf m.word l a v = none) (hp : Pool L m (sv39.tables m.word l a + B)) :
    Freeing L B m m l a indices :=
  ⟨hn, hleaf, hp, .refl _ _, fun _ => mem_indices.mp, fun _ hi hnot => absurd (mem_indices.mpr hi) hnot⟩

theorem freewalk_spec (hn : sv39.Nodes m.word IsNode l a)
    (hleaf : ∀ v, sv39.leaf m.word l a v = none) (hp : Pool L m (sv39.tables m.word l a + B)) :
    wp (freewalk L (l + 1) a) (fun _ m' => Pool L m' B ∧ SameOn B m.word m'.word) never m := by
  induction l generalizing a m B with
  | zero =>
    rw [freewalk]
    apply wp_seq (Q := fun _ m' => Freeing L B m m' 0 a [])
    · apply wp_each (fun is m' => Freeing L B m m' 0 a is) _ _ _ (Freeing.start hn hleaf hp)
      intro i is m' h
      have hinvalid : sv39.valid (m'.word a i) = false := by
        have hnone := h.leaf i
        rw [leaf_zero, Nat.mod_eq_of_lt (h.left i List.mem_cons_self)] at hnone
        by_contra hv
        rw [Bool.not_eq_false] at hv
        rw [if_pos hv] at hnone
        cases hnone
      have hzero := (not_valid_iff _).mp hinvalid
      rw [wp_bind, getPte, wp_read, if_neg (fun hv => hv.1 hzero), if_neg (not_not.mpr hzero)]
      exact h.skip hinvalid
    · intro _ m' h
      exact h.finish
  | succ l ih =>
    rw [freewalk]
    apply wp_seq (Q := fun _ m' => Freeing L B m m' (l + 1) a [])
    · apply wp_each (fun is m' => Freeing L B m m' (l + 1) a is) _ _ _ (Freeing.start hn hleaf hp)
      intro i is m' h
      have hi := h.left i List.mem_cons_self
      rw [wp_bind, getPte, wp_read]
      apply wp_ite
      · rintro ⟨hv, -⟩
        have hv := (valid_iff _).mpr hv
        have hp' := h.pool
        rw [tables_split hi, under_of_valid hv, add_assoc] at hp'
        have hbelow : ∀ v, sv39.leaf m'.word l (sv39.addr (m'.word a i)) v = none := fun v =>
          (leaf_child fan_pos hi hv v).trans (h.leaf _)
        apply wp_seq (ih (h.nodes.child hi hv).2 hbelow hp')
        rintro _ m₁ ⟨hp₁, hsame₁⟩
        exact h.clear hp₁ hsame₁
      · intro hnode
        by_cases hv : sv39.valid (m'.word a i) = true
        · -- an entry above the last level is the address of a table
          have hzero := mt (isLeaf_iff _).mpr (Bool.eq_false_iff.mp (h.nodes.child hi hv).1)
          exact absurd ⟨(valid_iff _).mp hv, not_not.mp hzero⟩ hnode
        · rw [Bool.not_eq_true] at hv
          rw [if_neg (not_not.mpr ((not_valid_iff _).mp hv))]
          exact h.skip hv
    · intro _ m' h
      exact h.finish

end Xv6.Vm
