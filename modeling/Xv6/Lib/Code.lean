import Mathlib.Data.List.Basic

/-!
# Code run one instruction at a time

A thread's code is a list of instructions. Running the first one changes the state and leaves code
in its place: nothing for a plain instruction, a body and the loop head again for a loop. The state
after each instruction can be observed, so the rules below are about every intermediate state and
not only about the last one.

`Wp exec G Q c s` says that code `c`, started in `s`, runs to its end; that `G i` holds of the
state whenever instruction `i` is about to run; and that `Q` holds at the end. It is an inductive
predicate, so it carries termination. A guard `G` that ignores the instruction is a crash
condition; a guard that reads it is what the surrounding system needs to know of the next step.
-/

namespace Xv6

variable {σ ι : Type}

/-- `Runs exec s c s' c'`: code `c` in state `s` comes, after some instructions, to `c'` in `s'`. -/
inductive Runs (exec : ι → σ → σ × List ι) : σ → List ι → σ → List ι → Prop
  | refl (s : σ) (c : List ι) : Runs exec s c s c
  | step {s s' : σ} {i : ι} {c c' : List ι} :
    Runs exec (exec i s).1 ((exec i s).2 ++ c) s' c' → Runs exec s (i :: c) s' c'

/-- Code that runs to its end with `G` before every instruction and `Q` at the end. -/
inductive Wp (exec : ι → σ → σ × List ι) (G : ι → σ → Prop) (Q : σ → Prop) : List ι → σ → Prop
  | nil {s : σ} : Q s → Wp exec G Q [] s
  | cons {i : ι} {c : List ι} {s : σ} :
    G i s → Wp exec G Q ((exec i s).2 ++ c) (exec i s).1 → Wp exec G Q (i :: c) s

namespace Wp

variable {exec : ι → σ → σ × List ι} {G : ι → σ → Prop} {Q : σ → Prop} {c : List ι} {s s' : σ}

/-- The step form of the `cons` rule, for an instruction whose effect is known. -/
theorem cons_of {i : ι} {left : List ι} (hexec : exec i s = (s', left)) (hG : G i s)
    (h : Wp exec G Q (left ++ c) s') : Wp exec G Q (i :: c) s := by
  refine .cons hG ?_
  rw [hexec]
  exact h

/-- One instruction keeps the predicate: it is an invariant of the code's own steps. -/
theorem step {i : ι} (h : Wp exec G Q (i :: c) s) :
    G i s ∧ Wp exec G Q ((exec i s).2 ++ c) (exec i s).1 := by
  cases h with
  | cons hG hrest => exact ⟨hG, hrest⟩

/-- Every state that the code reaches keeps the predicate. -/
theorem runs {c' : List ι} (h : Wp exec G Q c s) (hr : Runs exec s c s' c') :
    Wp exec G Q c' s' := by
  induction hr with
  | refl => exact h
  | step _ ih => exact ih h.step.2

/-- At the end of the code its postcondition holds. -/
theorem post (h : Wp exec G Q [] s) : Q s := by
  cases h with
  | nil hQ => exact hQ

/-- The code does run to its end. -/
theorem halts (h : Wp exec G Q c s) : ∃ s', Runs exec s c s' [] ∧ Q s' := by
  induction h with
  | @nil s hQ => exact ⟨s, .refl s [], hQ⟩
  | cons _ _ ih =>
    obtain ⟨s', hr, hQ⟩ := ih
    exact ⟨s', .step hr, hQ⟩

/-- A crash condition that also follows from the postcondition holds in every reachable state. -/
theorem crash {C : σ → Prop} {c' : List ι} (h : Wp exec (fun _ => C) Q c s) (hQ : ∀ s, Q s → C s)
    (hr : Runs exec s c s' c') : C s' := by
  have h' := h.runs hr
  cases h' with
  | nil hq => exact hQ _ hq
  | cons hC _ => exact hC

theorem mono {Q' : σ → Prop} (h : Wp exec G Q c s) (hQ : ∀ s, Q s → Q' s) : Wp exec G Q' c s := by
  induction h with
  | nil hq => exact .nil (hQ _ hq)
  | cons hG _ ih => exact .cons hG ih

/-- A guard may be weakened. -/
theorem weaken {G' : ι → σ → Prop} (h : Wp exec G Q c s) (hG : ∀ i s, G i s → G' i s) :
    Wp exec G' Q c s := by
  induction h with
  | nil hq => exact .nil hq
  | cons hg _ ih => exact .cons (hG _ _ hg) ih

/-- Code in sequence: the first part establishes what the second part needs. -/
theorem append {d : List ι} (h : Wp exec G (Wp exec G Q d) c s) : Wp exec G Q (c ++ d) s := by
  induction h with
  | nil hq => exact hq
  | @cons i c s hG _ ih =>
    refine .cons hG ?_
    show Wp exec G Q ((exec i s).2 ++ (c ++ d)) (exec i s).1
    rw [← List.append_assoc]
    exact ih

/-- Interference: a change `R` of the state that every instruction, the guards and the postcondition
tolerate may happen before any instruction. -/
theorem stable {R : σ → σ → Prop} {t : σ} (h : Wp exec G Q c s)
    (hexec : ∀ i s t, R s t → R (exec i s).1 (exec i t).1 ∧ (exec i t).2 = (exec i s).2)
    (hG : ∀ i s t, R s t → G i s → G i t) (hQ : ∀ s t, R s t → Q s → Q t) (hR : R s t) :
    Wp exec G Q c t := by
  induction h generalizing t with
  | nil hq => exact .nil (hQ _ _ hR hq)
  | @cons i c s hg _ ih =>
    obtain ⟨hR', hleft⟩ := hexec i s t hR
    refine .cons (hG i s t hR hg) ?_
    rw [hleft]
    exact ih hR'

/-- A counting loop: its head, in a state that has come to turn `t`, leaves the body of that turn
and the next head, and nothing after turn `n`. -/
theorem loop (head : Nat → ι) (body : Nat → List ι) (I : Nat → σ → Prop) {n : Nat}
    (hturn : ∀ t s, t < n → I t s → exec (head t) s = (s, body t ++ [head (t + 1)]))
    (hdone : ∀ s, I n s → exec (head n) s = (s, [])) (hG : ∀ t s, I t s → G (head t) s)
    (hbody : ∀ t s, t < n → I t s → Wp exec G (I (t + 1)) (body t) s)
    (hc : ∀ s, I n s → Wp exec G Q c s) :
    ∀ (r t : Nat) (s : σ), t + r = n → I t s → Wp exec G Q (head t :: c) s := by
  -- induction on the number of turns left
  intro r
  induction r with
  | zero =>
    rintro t s rfl hI
    exact cons_of (hdone s hI) (hG _ s hI) (hc s hI)
  | succ r ih =>
    intro t s ht hI
    refine cons_of (hturn t s (by omega) hI) (hG t s hI) ?_
    rw [List.append_assoc]
    exact ((hbody t s (by omega) hI).mono fun s' hI' => ih (t + 1) s' (by omega) hI').append

end Wp

end Xv6
