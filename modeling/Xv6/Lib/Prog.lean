import Mathlib.Logic.Basic

/-!
# Programs on a state that may stop

A program takes a state to a result and a state, or stops for good. `wp m Q E s` says what `m` does
from `s`: it returns with `Q`, or it stops with `E`. The rules follow the program: `wp_bind` for a
sequence, `wp_ite` for a test, `wp_each` for a loop over a list. `first` and `second` put programs
on two states together.
-/

namespace Xv6

/-- What a program does: it returns, or it stops. -/
inductive Res (σ ε α : Type)
  | ok (a : α) (s : σ)
  | stop (e : ε) (s : σ)

/-- How a program that stops does so. -/
def Res.stopped {σ ε α : Type} : Res σ ε α → Option ε
  | .ok _ _ => none
  | .stop e _ => some e

/-- The program returns, with a result and a state as `p` says. -/
def Res.okWith {σ ε α : Type} (p : α → σ → Bool) : Res σ ε α → Bool
  | .ok a s => p a s
  | .stop _ _ => false

theorem Res.exists_of_okWith {σ ε α : Type} {p : α → σ → Bool} {r : Res σ ε α}
    (h : r.okWith p = true) : ∃ a s, r = .ok a s ∧ p a s = true := by
  cases r with
  | ok a s => exact ⟨a, s, rfl, h⟩
  | stop e s => cases h

def Prog (σ ε α : Type) := σ → Res σ ε α

namespace Prog

variable {σ ε α β : Type}

instance : Monad (Prog σ ε) where
  pure a := fun s => .ok a s
  bind m f := fun s =>
    match m s with
    | .ok a s' => f a s'
    | .stop e s' => .stop e s'

/-- Read the state. -/
def read (f : σ → α) : Prog σ ε α := fun s => .ok (f s) s

/-- Change the state. -/
def change (f : σ → σ) : Prog σ ε Unit := fun s => .ok () (f s)

def stop (e : ε) : Prog σ ε α := fun s => .stop e s

/-- A test without an alternative. -/
def onlyIf (c : Prop) [Decidable c] (m : Prog σ ε Unit) : Prog σ ε Unit := if c then m else pure ()

/-- A loop over a list. -/
def each {ι : Type} (body : ι → Prog σ ε Unit) : List ι → Prog σ ε Unit
  | [] => pure ()
  | i :: is => do body i; each body is

/-- A program on a part of the state. -/
def zoom {τ : Type} (get : σ → τ) (set : τ → σ → σ) (m : Prog τ ε α) : Prog σ ε α := fun s =>
  match m (get s) with
  | .ok a t => .ok a (set t s)
  | .stop e t => .stop e (set t s)

/-- A program on the first of two states. -/
def first {φ ε' : Type} (m : Prog σ ε α) : Prog (σ × φ) (ε ⊕ ε') α := fun s =>
  match m s.1 with
  | .ok a t => .ok a (t, s.2)
  | .stop e t => .stop (.inl e) (t, s.2)

/-- A program on the second of two states. -/
def second {φ ε' : Type} (m : Prog φ ε' α) : Prog (σ × φ) (ε ⊕ ε') α := fun s =>
  match m s.2 with
  | .ok a t => .ok a (s.1, t)
  | .stop e t => .stop (.inr e) (s.1, t)

/-- A program whose second state holds nothing. -/
def alone (m : Prog (σ × Unit) (ε ⊕ Empty) α) : Prog σ ε α := fun s =>
  match m (s, ()) with
  | .ok a t => .ok a t.1
  | .stop (.inl e) t => .stop e t.1

def wp (m : Prog σ ε α) (Q : α → σ → Prop) (E : ε → σ → Prop) (s : σ) : Prop :=
  match m s with
  | .ok a s' => Q a s'
  | .stop e s' => E e s'

/-- For a program that does not stop. -/
def never : ε → σ → Prop := fun _ _ => False

/-- For a program that stops on its second state only. -/
def inSecond {ε' : Type} : ε ⊕ ε' → σ → Prop := fun e _ => e.isRight = true

section

variable {m : Prog σ ε α} {f : α → Prog σ ε β} {Q : α → σ → Prop} {R : β → σ → Prop} {E : ε → σ → Prop} {s : σ}
  {a : α} {s' : σ}

@[simp] theorem wp_pure : wp (pure a) Q E s ↔ Q a s := Iff.rfl

@[simp] theorem wp_read {g : σ → α} : wp (read g) Q E s ↔ Q (g s) s := Iff.rfl

@[simp] theorem wp_change {g : σ → σ} {Q : Unit → σ → Prop} : wp (change g) Q E s ↔ Q () (g s) := Iff.rfl

@[simp] theorem wp_bind : wp (m >>= f) R E s ↔ wp m (fun a s' => wp (f a) R E s') E s := by
  show (match (match m s with | .ok a s' => f a s' | .stop e s' => .stop e s' : Res σ ε β) with
    | .ok a s' => R a s' | .stop e s' => E e s') ↔ _
  unfold wp
  cases m s <;> rfl

@[simp] theorem wp_zoom {τ : Type} {get : σ → τ} {set : τ → σ → σ} {m : Prog τ ε α} :
    wp (zoom get set m) Q E s ↔ wp m (fun a t => Q a (set t s)) (fun e t => E e (set t s)) (get s) := by
  unfold wp zoom
  cases m (get s) <;> rfl

theorem wp_ite {c : Prop} [Decidable c] {n : Prog σ ε α} (hm : c → wp m Q E s) (hn : ¬ c → wp n Q E s) :
    wp (if c then m else n) Q E s := by
  split
  next h => exact hm h
  next h => exact hn h

theorem wp_onlyIf {c : Prop} [Decidable c] {m : Prog σ ε Unit} {Q : Unit → σ → Prop} (hm : c → wp m Q E s)
    (hn : ¬ c → Q () s) : wp (onlyIf c m) Q E s :=
  wp_ite hm hn

theorem wp_mono {Q' : α → σ → Prop} {E' : ε → σ → Prop} (h : wp m Q E s) (hQ : ∀ a s', Q a s' → Q' a s')
    (hE : ∀ e s', E e s' → E' e s') : wp m Q' E' s := by
  unfold wp at h ⊢
  cases hm : m s with
  | ok a s' => rw [hm] at h; exact hQ a s' h
  | stop e s' => rw [hm] at h; exact hE e s' h

/-- Two specifications of one program. -/
theorem wp_and {Q' : α → σ → Prop} {E' : ε → σ → Prop} (h : wp m Q E s) (h' : wp m Q' E' s) :
    wp m (fun a s' => Q a s' ∧ Q' a s') (fun e s' => E e s' ∧ E' e s') s := by
  unfold wp at h h' ⊢
  cases hm : m s with
  | ok a s' => rw [hm] at h h'; exact ⟨h, h'⟩
  | stop e s' => rw [hm] at h h'; exact ⟨h, h'⟩

/-- The first program's specification, then the rest's. -/
theorem wp_seq (h : wp m Q E s) (hf : ∀ a s', Q a s' → wp (f a) R E s') : wp (m >>= f) R E s :=
  wp_bind.mpr (wp_mono h hf fun _ _ => id)

/-- Only what the program does from this state matters. -/
theorem wp_congr {m' : Prog σ ε α} (h : m s = m' s) : wp m Q E s ↔ wp m' Q E s := by
  unfold wp
  rw [h]

theorem wp_ok (h : wp m Q E s) (hm : m s = .ok a s') : Q a s' := by
  unfold wp at h
  rw [hm] at h
  exact h

theorem bind_of_ok (h : m s = .ok a s') : (m >>= f) s = f a s' := by
  show (match m s with | .ok a s' => f a s' | .stop e s' => .stop e s' : Res σ ε β) = f a s'
  rw [h]

theorem bind_of_stop {e : ε} (h : m s = .stop e s') : (m >>= f) s = .stop e s' := by
  show (match m s with | .ok a s' => f a s' | .stop e s' => .stop e s' : Res σ ε β) = _
  rw [h]

/-- A program that does not stop returns. -/
theorem wp_returns (h : wp m Q never s) : ∃ a s', m s = .ok a s' ∧ Q a s' := by
  unfold wp at h
  cases hm : m s with
  | ok a s' =>
    rw [hm] at h
    exact ⟨a, s', rfl, h⟩
  | stop e s' =>
    rw [hm] at h
    exact h.elim

theorem wp_first {φ ε' : Type} {E : ε ⊕ ε' → σ × φ → Prop} {f : φ} (h : wp m Q never s) :
    wp (first m) (fun a t => Q a t.1) E (s, f) := by
  obtain ⟨a, s', hm, hQ⟩ := wp_returns h
  unfold wp first
  rw [hm]
  exact hQ

/-- Whatever the second part does, the first state stays. -/
theorem wp_second {φ ε' : Type} {m : Prog φ ε' α} {f : φ} :
    wp (second m) (fun _ t => t.1 = s) (inSecond (ε := ε)) (s, f) := by
  unfold wp second
  cases m f <;> rfl

theorem second_ok {φ ε' : Type} {m : Prog φ ε' α} {f f' : φ} (h : m f = .ok a f') :
    second (ε := ε) m (s, f) = .ok a (s, f') := by
  unfold second
  rw [h]

theorem wp_alone {m : Prog (σ × Unit) (ε ⊕ Empty) α} (h : wp m (fun a t => Q a t.1) inSecond (s, ())) :
    wp (alone m) Q never s := by
  unfold wp at h ⊢
  unfold alone
  cases hm : m (s, ()) with
  | ok a t => rw [hm] at h; exact h
  | stop e t =>
    rw [hm] at h
    cases e with
    | inl e => cases h
    | inr e => exact e.elim

theorem wp_of_ok (hm : m s = .ok a s') (h : Q a s') : wp m Q E s := by
  unfold wp
  rw [hm]
  exact h

end

/-- A loop keeps what each turn keeps: `I` is told the turns that are left. -/
theorem wp_each {ι : Type} {body : ι → Prog σ ε Unit} {E : ε → σ → Prop} (I : List ι → σ → Prop)
    (hbody : ∀ i is s, I (i :: is) s → wp (body i) (fun _ => I is) E s) :
    ∀ is s, I is s → wp (each body is) (fun _ => I []) E s := by
  intro is
  induction is with
  | nil => intro s h; exact h
  | cons i is ih =>
    intro s h
    exact wp_seq (hbody i is s h) fun _ s' h' => ih s' h'

/-! ## What a program leaves alone -/

/-- If `m` returns, `g` of the state is what it was. -/
def Keeps {τ : Type} (g : σ → τ) (m : Prog σ ε α) : Prop := ∀ s, wp m (fun _ s' => g s' = g s) (fun _ _ => True) s

namespace Keeps

variable {τ : Type} {g : σ → τ} {m n : Prog σ ε α} {f : α → Prog σ ε β}

theorem pure (a : α) : Keeps g (Pure.pure a : Prog σ ε α) := fun _ => rfl

theorem read (h : σ → α) : Keeps g (Prog.read h : Prog σ ε α) := fun _ => rfl

theorem stop (e : ε) : Keeps g (Prog.stop e : Prog σ ε α) := fun _ => trivial

theorem change {h : σ → σ} (hg : ∀ s, g (h s) = g s) : Keeps g (Prog.change h : Prog σ ε Unit) := hg

theorem bind (hm : Keeps g m) (hf : ∀ a, Keeps g (f a)) : Keeps g (m >>= f) := fun s =>
  wp_seq (hm s) fun a s' h => wp_mono (hf a s') (fun _ _ h' => h'.trans h) fun _ _ => id

theorem ite {c : Prop} [Decidable c] (hm : Keeps g m) (hn : Keeps g n) : Keeps g (if c then m else n) := fun s =>
  wp_ite (fun _ => hm s) fun _ => hn s

end Keeps

end Prog

end Xv6
