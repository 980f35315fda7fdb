import Mathlib.Logic.Relation
import Mathlib.Order.Basic

/-!
# Lock orders

Each agent waits for at most one lock, and each lock has at most one holder. If whoever waits for a
lock holds only locks of a lower rank, then no agents wait for each other in a circle.
-/

namespace Xv6

variable {A L : Type} (wants : A → Option L) (holder : L → Option A)

/-- `a` waits for a lock that another agent holds. -/
def WaitsFor (a b : A) : Prop := b ≠ a ∧ ∃ l, wants a = some l ∧ holder l = some b

variable {wants holder} {R : Type} [Preorder R] (rank : L → R)

/-- Along a chain of waiting agents the ranks of the locks rise. -/
theorem rank_le_of_transGen (hrank : ∀ a l m, wants a = some l → holder m = some a → rank m < rank l) {a b : A}
    (h : Relation.TransGen (WaitsFor wants holder) a b) :
    ∃ l m, wants a = some l ∧ holder m = some b ∧ rank l ≤ rank m := by
  induction h with
  | single h =>
    obtain ⟨-, l, hl, hm⟩ := h
    exact ⟨l, l, hl, hm, le_rfl⟩
  | tail _ h ih =>
    obtain ⟨l, m, hl, hm, hle⟩ := ih
    obtain ⟨-, l', hl', hm'⟩ := h
    exact ⟨l, l', hl, hm', hle.trans (hrank _ l' m hl' hm).le⟩

theorem no_cycle_of_rank (hrank : ∀ a l m, wants a = some l → holder m = some a → rank m < rank l) (a : A) :
    ¬ Relation.TransGen (WaitsFor wants holder) a a := by
  intro h
  obtain ⟨l, m, hl, hm, hle⟩ := rank_le_of_transGen rank hrank h
  exact (hrank a l m hl hm).not_ge hle

end Xv6
