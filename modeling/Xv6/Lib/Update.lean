import Mathlib.Data.Fintype.Prod

/-!
# One entry of a table changes

A step of a system changes the entry of one process in a table indexed by all of them. What holds
of every entry, and how many entries have a property, follow from the old table and the new entry.
-/

namespace Xv6

open Function Finset

variable {P A : Type} [DecidableEq P]

theorem forall_update {f : P → A} {p : P} {a : A} {C : P → A → Prop} (hp : C p a)
    (hq : ∀ q, q ≠ p → C q (f q)) (q : P) : C q (update f p a q) :=
  (forall_update_iff f C).mpr ⟨hp, hq⟩ q

/-- A table of records of which one field is read. -/
theorem update_apply_field {B : Type} (g : A → B) (f : P → A) (p : P) (a : A) :
    (fun q => g (update f p a q)) = update (fun q => g (f q)) p (g a) := by
  funext q
  by_cases h : q = p
  · rw [h, update_self, update_self]
  · rw [update_of_ne h, update_of_ne h]

variable [Fintype P]

/-- How many entries have a property, after one of them changed. -/
theorem card_update (C : A → Prop) [DecidablePred C] (f : P → A) (p : P) (a : A) :
    (univ.filter fun q => C (update f p a q)).card + (if C (f p) then 1 else 0) =
      (univ.filter fun q => C (f q)).card + if C a then 1 else 0 := by
  -- both sides count the entries other than `p`'s, and then `p`'s old and new one
  have hsplit : ∀ g : P → A, (univ.filter fun q => C (g q)).card =
      ((univ.erase p).filter fun q => C (g q)).card + if C (g p) then 1 else 0 := by
    intro g
    rw [← insert_erase (mem_univ p), filter_insert, erase_insert (notMem_erase p _)]
    split
    next => rw [card_insert_of_notMem (fun h => notMem_erase p _ (mem_filter.mp h).1)]
    next => rfl
  have hsame : ((univ.erase p).filter fun q => C (update f p a q)) =
      (univ.erase p).filter fun q => C (f q) :=
    filter_congr fun q hq => by rw [update_of_ne (ne_of_mem_erase hq)]
  rw [hsplit f, hsplit (update f p a), hsame, update_self]
  omega

/-! ## Pointers

A table of tables, whose entries may point to something. -/

section

variable {D F : Type} [DecidableEq D] [Fintype D] [DecidableEq F]

/-- The places that point to `f`. -/
@[irreducible] def pointers (table : P → D → Option F) (f : F) : Finset (P × D) :=
  univ.filter fun x => table x.1 x.2 = some f

omit [DecidableEq P] [DecidableEq D] in
theorem mem_pointers {table : P → D → Option F} {f : F} {p : P} {d : D} :
    (p, d) ∈ pointers table f ↔ table p d = some f := by
  unfold pointers
  exact ⟨fun h => (mem_filter.mp h).2, fun h => mem_filter.mpr ⟨mem_univ _, h⟩⟩

omit [DecidableEq P] [DecidableEq D] in
theorem card_pointers_pos {table : P → D → Option F} {f : F} {p : P} {d : D} (h : table p d = some f) :
    0 < (pointers table f).card :=
  card_pos.mpr ⟨_, mem_pointers.mpr h⟩

/-- One place is set. -/
theorem card_pointers_update (table : P → D → Option F) (p : P) (d : D) (x : Option F) (f : F) :
    (pointers (update table p (update (table p) d x)) f).card + (if table p d = some f then 1 else 0) =
      (pointers table f).card + if x = some f then 1 else 0 := by
  have hupdate : (fun y : P × D => update table p (update (table p) d x) y.1 y.2) =
      update (fun y : P × D => table y.1 y.2) (p, d) x := by
    funext ⟨q, e⟩
    by_cases hq : q = p
    · subst hq
      by_cases he : e = d
      · simp [he]
      · simp [he]
    · simp [hq]
  have hcard := card_update (fun y => y = some f) (fun y : P × D => table y.1 y.2) (p, d) x
  rw [← hupdate] at hcard
  unfold pointers
  exact hcard

end

end Xv6
