import Mathlib.Data.Finset.Card

/-!
# Storage units and who owns them

A table says for every place which unit it owns, 0 for none, and a bitmap says which units are in
use. `Owned` is exactness: no unit has two owners, and the units in use are the reserved ones, below
`lo`, and the owned ones, from `lo` up to `hi`. A unit is taken for a place that has none
(`Owned.attach`) and given back (`Owned.detach`). What is taken for the places of a set is counted
by `Owned.vacant_add_free`.
-/

namespace Xv6

open Function Finset

variable {ι : Type}

structure Owned (place : ι → Nat) (lo hi : Nat) (used : Nat → Bool) : Prop where
  area : ∀ p, place p ≠ 0 → lo ≤ place p ∧ place p < hi
  inj : ∀ p q, place p ≠ 0 → place q = place p → q = p
  used_iff : ∀ b, lo ≤ b → b < hi → (used b = true ↔ ∃ p, place p = b)
  reserved : ∀ b, b < lo → used b = true

namespace Owned

variable {place : ι → Nat} {lo hi : Nat} {used : Nat → Bool}

theorem congr {place' : ι → Nat} {used' : Nat → Bool} (h : Owned place lo hi used) (hp : place' = place)
    (hlo : lo ≤ hi) (hu : ∀ b, b < hi → used' b = used b) : Owned place' lo hi used' := by
  subst hp
  refine ⟨h.area, h.inj, fun b hb hb' => ?_, fun b hb => ?_⟩
  · rw [hu b hb']
    exact h.used_iff b hb hb'
  · rw [hu b (lt_of_lt_of_le hb hlo)]
    exact h.reserved b hb

theorem used_of_owned (h : Owned place lo hi used) {p : ι} (hp : place p ≠ 0) : used (place p) = true :=
  (h.used_iff _ (h.area p hp).1 (h.area p hp).2).mpr ⟨p, rfl⟩

/-- A free unit is not below the area, and nobody owns it. -/
theorem free (h : Owned place lo hi used) {b : Nat} (hb : b < hi) (hfree : used b = false) :
    lo ≤ b ∧ ∀ p, place p ≠ b := by
  have hlo : lo ≤ b := by
    by_contra hlt
    cases (h.reserved b (by omega)).symm.trans hfree
  refine ⟨hlo, fun p hp => ?_⟩
  cases ((h.used_iff b hlo hb).mpr ⟨p, hp⟩).symm.trans hfree

variable [DecidableEq ι]

theorem attach (h : Owned place lo hi used) (hpos : 0 < lo) {p : ι} {b : Nat} (hp : place p = 0)
    (hb : b < hi) (hfree : used b = false) :
    Owned (update place p b) lo hi (update used b true) := by
  obtain ⟨hlo, hnone⟩ := h.free hb hfree
  refine ⟨fun q hq => ?_, fun q r hq hr => ?_, fun c hc hc' => ?_, fun c hc => ?_⟩
  · by_cases hqp : q = p
    · rw [hqp, update_self]
      exact ⟨hlo, hb⟩
    · rw [update_of_ne hqp] at hq ⊢
      exact h.area q hq
  · by_cases hqp : q = p <;> by_cases hrp : r = p
    · rw [hqp, hrp]
    · rw [hqp, update_self, update_of_ne hrp] at hr
      exact absurd hr (hnone r)
    · rw [hrp, update_self, update_of_ne hqp] at hr
      exact absurd hr.symm (hnone q)
    · rw [update_of_ne hqp] at hq hr
      rw [update_of_ne hrp] at hr
      exact h.inj q r hq hr
  · by_cases hcb : c = b
    · rw [hcb, update_self]
      exact ⟨fun _ => ⟨p, update_self ..⟩, fun _ => rfl⟩
    · rw [update_of_ne hcb, h.used_iff c hc hc']
      constructor
      · rintro ⟨q, hq⟩
        have hqp : q ≠ p := by
          rintro rfl
          have : c = 0 := hq.symm.trans hp
          omega
        exact ⟨q, by rw [update_of_ne hqp]; exact hq⟩
      · rintro ⟨q, hq⟩
        by_cases hqp : q = p
        · rw [hqp, update_self] at hq
          exact absurd hq.symm hcb
        · rw [update_of_ne hqp] at hq
          exact ⟨q, hq⟩
  · rw [update_of_ne (by omega)]
    exact h.reserved c hc

/-- The places of a set that own nothing. -/
def vacant (place : ι → Nat) (L : Finset ι) : Finset ι := L.filter fun p => place p = 0

/-- The units below `hi` that are not in use. -/
def unused (used : Nat → Bool) (hi : Nat) : Finset Nat := (range hi).filter fun b => used b = false

/-- Each place that is given a unit takes a free one. -/
theorem vacant_add_free {place' : ι → Nat} {used' : Nat → Bool} (h : Owned place lo hi used)
    (h' : Owned place' lo hi used') (hpos : 0 < lo)
    {L : Finset ι} (hkeep : ∀ p, place p ≠ 0 → place' p = place p) (hnew : ∀ p, place p = 0 → place' p ≠ 0 → p ∈ L) :
    (vacant place L).card + (unused used' hi).card = (vacant place' L).card + (unused used hi).card := by
  have hzero : ∀ p, place' p = 0 → place p = 0 := fun p hp => by
    by_contra hne
    exact hne ((hkeep p hne).symm.trans hp)
  -- the places that are given a unit
  let N := L.filter fun p => place p = 0 ∧ place' p ≠ 0
  have hvacant : (vacant place L).card = (vacant place' L).card + N.card := by
    rw [← card_union_of_disjoint]
    · congr 1
      ext p
      simp only [vacant, N, mem_filter, mem_union]
      constructor
      · intro hp
        by_cases hp' : place' p = 0
        · exact .inl ⟨hp.1, hp'⟩
        · exact .inr ⟨hp.1, hp.2, hp'⟩
      · intro hp
        rcases hp with hp | hp
        · exact ⟨hp.1, hzero p hp.2⟩
        · exact ⟨hp.1, hp.2.1⟩
    · rw [disjoint_left]
      intro p hp hp'
      exact (mem_filter.mp hp').2.2 (mem_filter.mp hp).2
  have hunused : (unused used hi).card = (unused used' hi).card + (N.image place').card := by
    rw [← card_union_of_disjoint]
    · congr 1
      ext b
      simp only [unused, N, mem_filter, mem_union, mem_image, mem_range]
      constructor
      · intro hb
        obtain ⟨hlo, hnone⟩ := h.free hb.1 hb.2
        cases hused : used' b with
        | false => exact .inl ⟨hb.1, rfl⟩
        | true =>
          obtain ⟨p, hp⟩ := (h'.used_iff b hlo hb.1).mp hused
          have hpzero : place p = 0 := by
            by_contra hne
            exact hnone p ((hkeep p hne).symm.trans hp)
          have hne : place' p ≠ 0 := by omega
          exact .inr ⟨p, ⟨hnew p hpzero hne, hpzero, hne⟩, hp⟩
      · intro hb
        rcases hb with hb | ⟨p, hp, rfl⟩
        · refine ⟨hb.1, ?_⟩
          by_contra hused
          have hused : used b = true := by simpa using hused
          by_cases hlo : lo ≤ b
          · obtain ⟨p, hp⟩ := (h.used_iff b hlo hb.1).mp hused
            have hp' : place' p = b := (hkeep p (by omega)).trans hp
            cases ((h'.used_iff b hlo hb.1).mpr ⟨p, hp'⟩).symm.trans hb.2
          · cases (h'.reserved b (by omega)).symm.trans hb.2
        · have harea := h'.area p hp.2.2
          refine ⟨harea.2, ?_⟩
          by_contra hused
          have hused : used (place' p) = true := by simpa using hused
          obtain ⟨q, hq⟩ := (h.used_iff _ harea.1 harea.2).mp hused
          have hq' : place' q = place' p := (hkeep q (by rw [hq]; exact hp.2.2)).trans hq
          have := h'.inj p q hp.2.2 hq'
          rw [this, hp.2.1] at hq
          exact hp.2.2 hq.symm
    · rw [disjoint_left]
      intro b hb hb'
      obtain ⟨p, hp, rfl⟩ := mem_image.mp hb'
      have hused := h'.used_of_owned (mem_filter.mp hp).2.2
      have hfree := (mem_filter.mp hb).2
      rw [hused] at hfree
      cases hfree
  have hinj : (N.image place').card = N.card := by
    apply card_image_of_injOn
    intro p hp q hq e
    exact h'.inj q p (mem_filter.mp hq).2.2 e
  omega

end Owned

end Xv6
