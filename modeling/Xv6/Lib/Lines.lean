import Mathlib.Data.List.Basic

/-!
# Lines

`split nl s` cuts `s` at every `nl`: the lines that `nl` ends, without it, and what is left after
the last. A text that comes in pieces is cut the same way when each piece is put behind what is left
of the pieces before it (`split_append`).
-/

namespace Xv6.Lines

open List

variable {A : Type} [DecidableEq A]

/-- One more element in front of the first line. -/
def push (a : A) : List (List A) × List A → List (List A) × List A
  | ([], t) => ([], a :: t)
  | (l :: ls, t) => ((a :: l) :: ls, t)

def split (nl : A) : List A → List (List A) × List A
  | [] => ([], [])
  | a :: s => if a = nl then ([] :: (split nl s).1, (split nl s).2) else push a (split nl s)

/-- The lines. -/
def lines (nl : A) (s : List A) : List (List A) := (split nl s).1

/-- What is after the last line. -/
def tail (nl : A) (s : List A) : List A := (split nl s).2

variable {nl : A} {l s : List A}

theorem split_of_notMem (h : nl ∉ s) : split nl s = ([], s) := by
  induction s with
  | nil => rfl
  | cons a s ih =>
    have hne : a ≠ nl := fun e => h (e ▸ mem_cons_self ..)
    rw [split, if_neg hne, ih fun hmem => h (mem_cons_of_mem _ hmem)]
    rfl

theorem split_line (h : nl ∉ l) (s : List A) : split nl (l ++ nl :: s) = (l :: (split nl s).1, (split nl s).2) := by
  induction l with
  | nil => rw [nil_append, split, if_pos rfl]
  | cons a l ih =>
    have hne : a ≠ nl := fun e => h (e ▸ mem_cons_self ..)
    rw [cons_append, split, if_neg hne, ih fun hmem => h (mem_cons_of_mem _ hmem)]
    rfl

/-- The lines of a text that is made of lines. -/
theorem lines_flatMap {ls : List (List A)} (h : ∀ l ∈ ls, nl ∉ l) : lines nl (ls.flatMap (· ++ [nl])) = ls := by
  induction ls with
  | nil => rfl
  | cons l ls ih =>
    unfold lines at ih ⊢
    rw [flatMap_cons, append_assoc, singleton_append, split_line (h l (mem_cons_self ..)),
      ih fun l' h' => h l' (mem_cons_of_mem _ h')]

/-- A text has a first line, or none. -/
theorem cases (nl : A) (s : List A) : nl ∉ s ∨ ∃ l s', nl ∉ l ∧ s = l ++ nl :: s' := by
  by_cases h : nl ∈ s
  · obtain ⟨l, s', heq, hnot⟩ := eq_append_cons_of_mem h
    exact .inr ⟨l, s', hnot, heq⟩
  · exact .inl h

/-- What is claimed of texts without a line, and of a text with one more line in front, holds of all
texts. -/
theorem induct {P : List A → Prop} (nl : A) (hlast : ∀ s, nl ∉ s → P s) (hline : ∀ l s, nl ∉ l → P s → P (l ++ nl :: s)) (s : List A) :
    P s := by
  induction h : s.length using Nat.strongRecOn generalizing s with
  | _ n ih =>
    rcases cases nl s with hnot | ⟨l, s', hl, rfl⟩
    · exact hlast s hnot
    · apply hline l s' hl
      apply ih s'.length _ s' rfl
      rw [← h, length_append, length_cons]
      omega

theorem split_append (s r : List A) :
    split nl (s ++ r) = (lines nl s ++ lines nl (tail nl s ++ r), tail nl (tail nl s ++ r)) := by
  unfold lines tail
  induction s using induct nl with
  | hlast s hnot => rw [split_of_notMem hnot]; rfl
  | hline l s hl ih => rw [append_assoc, cons_append, split_line hl, split_line hl, ih]; rfl

theorem lines_append (s r : List A) : lines nl (s ++ r) = lines nl s ++ lines nl (tail nl s ++ r) := by
  unfold lines
  rw [split_append]
  rfl

theorem notMem_of_mem_lines (h : l ∈ lines nl s) : nl ∉ l := by
  unfold lines at h
  induction s using induct nl with
  | hlast s hnot => rw [split_of_notMem hnot] at h; cases h
  | hline l' s hl ih =>
    rw [split_line hl] at h
    rcases mem_cons.mp h with rfl | h
    · exact hl
    · exact ih h

/-- What is not a separator is in a line, or after the last one. -/
theorem mem_lines_or_tail {a : A} (h : a ∈ s) (hne : a ≠ nl) : (∃ l ∈ lines nl s, a ∈ l) ∨ a ∈ tail nl s := by
  unfold lines tail
  induction s using induct nl with
  | hlast s hnot => rw [split_of_notMem hnot]; exact .inr h
  | hline l s hl ih =>
    rw [split_line hl]
    rcases mem_append.mp h with h | h
    · exact .inl ⟨l, mem_cons_self, h⟩
    · refine (ih ((mem_cons.mp h).resolve_left hne)).imp_left ?_
      rintro ⟨l', hl', ha⟩
      exact ⟨l', mem_cons_of_mem _ hl', ha⟩

theorem tail_notMem (nl : A) (s : List A) : nl ∉ tail nl s := by
  unfold tail
  induction s using induct nl with
  | hlast s hnot => rw [split_of_notMem hnot]; exact hnot
  | hline l s hl ih => rw [split_line hl]; exact ih

theorem mem_of_mem_tail {a : A} {s : List A} (h : a ∈ tail nl s) : a ∈ s := by
  unfold tail at h
  induction s using induct nl with
  | hlast s hnot => rwa [split_of_notMem hnot] at h
  | hline l s hl ih =>
    rw [split_line hl] at h
    exact mem_append_right _ (mem_cons_of_mem _ (ih h))

end Xv6.Lines
