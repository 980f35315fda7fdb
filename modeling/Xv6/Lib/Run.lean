import Mathlib.Algebra.Order.Ring.Int
import Mathlib.Data.List.Basic

/-!
# Runs of a machine that can stop with an error

A machine is a function from a state and an action to the next state. An action may be disabled in
a state (`none`), and a step may stop the machine for good (`some (.error e)`). A run is a list of
actions; the whole machine is quantified over by quantifying over the list.

`EachStep C` says that every action of a run was taken in a state that allows it by `C`: the
discipline of the machine's clients, or a condition under which a property is to hold. The rules
come in pairs: what holds in every state reached (`run_invariant`), and which errors no run ends
with (`run_ne_error`). Both ask for one invariant and for what one step does to it.
-/

namespace Xv6

variable {S A E : Type}

/-- Take the actions in order. The run is `none` when an action is disabled where it stands. -/
def run (step : S → A → Option (Except E S)) : S → List A → Option (Except E S)
  | s, [] => some (.ok s)
  | s, a :: as =>
    match step s a with
    | some (.ok s') => run step s' as
    | some (.error e) => some (.error e)
    | none => none

/-- Every action that the run takes meets `C` in the state in which it is taken. -/
def EachStep (step : S → A → Option (Except E S)) (C : S → A → Prop) : S → List A → Prop
  | _, [] => True
  | s, a :: as => C s a ∧
    match step s a with
    | some (.ok s') => EachStep step C s' as
    | _ => True

instance EachStep.decidable (step : S → A → Option (Except E S)) (C : S → A → Prop) [∀ s a, Decidable (C s a)] :
    ∀ s as, Decidable (EachStep step C s as)
  | _, [] => .isTrue trivial
  | s, a :: as =>
    have : Decidable (match step s a with
        | some (.ok s') => EachStep step C s' as
        | _ => True) :=
      match step s a with
      | some (.ok s') => EachStep.decidable step C s' as
      | some (.error _) => .isTrue trivial
      | none => .isTrue trivial
    inferInstanceAs (Decidable (_ ∧ _))

variable {step : S → A → Option (Except E S)}
  {C : S → A → Prop} {s : S} {a : A} {as : List A} {I : S → Prop}

theorem EachStep.head (h : EachStep step C s (a :: as)) : C s a :=
  h.1

theorem EachStep.tail {s' : S} (h : EachStep step C s (a :: as)) (hs : step s a = some (.ok s')) :
    EachStep step C s' as := by
  have := h.2
  rwa [hs] at this

theorem eachStep_cons (hC : C s a) (h : ∀ s', step s a = some (.ok s') → EachStep step C s' as) :
    EachStep step C s (a :: as) := by
  refine ⟨hC, ?_⟩
  split
  next s' hs => exact h s' hs
  next => trivial

theorem run_cons_ok {s' : S} (h : step s a = some (.ok s')) :
    run step s (a :: as) = run step s' as := by
  rw [run, h]

/-- The step that a successful run takes first. -/
theorem run_cons_inv {t : S} (h : run step s (a :: as) = some (.ok t)) :
    ∃ s', step s a = some (.ok s') ∧ run step s' as = some (.ok t) := by
  rw [run] at h
  cases hstep : step s a with
  | none => rw [hstep] at h; cases h
  | some r =>
    rw [hstep] at h
    cases r with
    | error e => cases h
    | ok s' => exact ⟨s', rfl, h⟩

section

variable (hstep : ∀ s a s', I s → C s a → step s a = some (.ok s') → I s')
include hstep

/-- What every allowed step keeps holds after every allowed run. -/
theorem run_invariant :
    ∀ {as : List A} {s t : S}, I s → EachStep step C s as → run step s as = some (.ok t) → I t := by
  intro as
  induction as with
  | nil => intro s t hI _ h; cases h; exact hI
  | cons a as ih =>
    intro s t hI hC h
    obtain ⟨s', hs', hrest⟩ := run_cons_inv h
    exact ih (hstep s a s' hI hC.head hs') (hC.tail hs') hrest

/-- An error that no allowed step gives where the invariant holds is not how a run ends. -/
theorem run_ne_error {e : E} (herr : ∀ s a, I s → C s a → step s a ≠ some (.error e)) :
    ∀ {as : List A} {s : S}, I s → EachStep step C s as → run step s as ≠ some (.error e) := by
  intro as
  induction as with
  | nil => intro s _ _ h; cases h
  | cons a as ih =>
    intro s hI hC h
    cases hs : step s a with
    | none => rw [run, hs] at h; cases h
    | some r =>
      cases r with
      | error e' =>
        rw [run, hs] at h
        cases h
        exact herr s a hI hC.head hs
      | ok s' =>
        rw [run_cons_ok hs] at h
        exact ih (hstep s a s' hI hC.head hs) (hC.tail hs) h

/-- Where the invariant says exactly which steps give an error, so it does for runs. -/
theorem run_ne_error_iff {D : S → A → Prop} {e : E}
    (herr : ∀ s a, I s → (step s a = some (.error e) ↔ ¬ D s a)) :
    ∀ {as : List A} {s : S}, I s → EachStep step C s as →
      (run step s as ≠ some (.error e) ↔ EachStep step D s as) := by
  intro as
  induction as with
  | nil => exact fun _ _ => ⟨fun _ => trivial, fun _ => nofun⟩
  | cons a as ih =>
    intro s hI hC
    by_cases hD : D s a
    · have hne : step s a ≠ some (.error e) := fun h => (herr s a hI).mp h hD
      cases hs : step s a with
      | none => exact ⟨fun _ => eachStep_cons hD (by rw [hs]; nofun), fun _ => by rw [run, hs]; nofun⟩
      | some r =>
        cases r with
        | error e' =>
          refine ⟨fun _ => eachStep_cons hD (by rw [hs]; nofun), fun _ h => ?_⟩
          rw [run, hs] at h
          exact hne (hs.trans h)
        | ok s' =>
          rw [run_cons_ok hs, ih (hstep s a s' hI hC.head hs) (hC.tail hs)]
          refine ⟨fun h => eachStep_cons hD fun t ht => ?_, fun h => h.tail hs⟩
          cases hs.symm.trans ht
          exact h
    · have hs := (herr s a hI).mpr hD
      exact ⟨fun h => absurd (by rw [run, hs]) h, fun h => absurd h.head hD⟩

end

/-- A condition on the actions alone. -/
theorem eachStep_of_forall (h : ∀ a ∈ as, ∀ s, C s a) (s : S) : EachStep step C s as := by
  induction as generalizing s with
  | nil => trivial
  | cons a as ih => exact eachStep_cons (h a (List.mem_cons_self ..) s) fun s' _ => ih (fun b hb => h b (List.mem_cons_of_mem _ hb)) s'

theorem eachStep_true : ∀ (as : List A) (s : S), EachStep step (fun _ _ => True) s as
  | [], _ => trivial
  | _ :: as, _ => eachStep_cons trivial fun s' _ => eachStep_true as s'

/-- The run ends in a state with property `P`. -/
def endsIn (P : S → Prop) [DecidablePred P] : Option (Except E S) → Bool
  | some (.ok s) => decide (P s)
  | _ => false

/-- A run on fixed actions can be evaluated. -/
theorem exists_of_endsIn {P : S → Prop} [DecidablePred P] {r : Option (Except E S)} (h : endsIn P r = true) :
    ∃ s, r = some (.ok s) ∧ P s := by
  match r, h with
  | some (.ok s), h => exact ⟨s, rfl, of_decide_eq_true h⟩

end Xv6
