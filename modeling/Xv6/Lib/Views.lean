import Mathlib.Data.List.Basic

/-!
# Several views of one store

A view gives an address to some keys. When no two keys of any views share an address, the views are
independent: a write through one is a write to a map of its own, and nothing that is written through
the others is seen through it. `load_run` says so for any sequence of writes.
-/

namespace Xv6.Views

variable {S A B V I : Type} [DecidableEq V] [DecidableEq I]

/-- A store of values at addresses. -/
structure Store (S A B : Type) where
  get : S → A → B
  put : S → A → B → S
  get_self : ∀ s a b, get (put s a b) a = b
  get_ne : ∀ s a a' b, a' ≠ a → get (put s a b) a' = get s a'

variable (st : Store S A B) (addr : I → V → Option A)

def load (s : S) (i : I) (v : V) : Option B := (addr i v).map (st.get s)

/-- A write through a view; where it has no address, nothing happens. -/
def store (s : S) (i : I) (v : V) (b : B) : S :=
  match addr i v with
  | some a => st.put s a b
  | none => s

/-- The same write on a map of keys. -/
def overwrite (f : V → Option B) (v : V) (b : B) : V → Option B := fun u => if u = v then (f u).map fun _ => b else f u

def run (s : S) (ws : List (I × V × B)) : S := ws.foldl (fun s w => store st addr s w.1 w.2.1 w.2.2) s

/-- The writes through one view, on a map of keys. -/
def overwrites (f : V → Option B) (i : I) (ws : List (I × V × B)) : V → Option B :=
  (ws.filter fun w => w.1 = i).foldl (fun f w => overwrite f w.2.1 w.2.2) f

/-- No address is shared. -/
def Independent : Prop := ∀ i j u v a, addr i u = some a → addr j v = some a → i = j ∧ u = v

variable {st addr} {s : S} {v : V}

section

omit [DecidableEq V] [DecidableEq I]

variable {i : I} {a : A} {b : B}

theorem load_none (h : addr i v = none) : load st addr s i v = none := by
  rw [load, h, Option.map_none]

theorem load_some (h : addr i v = some a) : load st addr s i v = some (st.get s a) := by
  rw [load, h, Option.map_some]

theorem store_none (h : addr i v = none) : store st addr s i v b = s := by
  rw [store, h]

theorem store_some (h : addr i v = some a) : store st addr s i v b = st.put s a b := by
  rw [store, h]

/-- A write at another address is not seen. -/
theorem load_put (h : addr i v ≠ some a) :
    load st addr (st.put s a b) i v = load st addr s i v := by
  cases hv : addr i v with
  | none => rw [load_none hv, load_none hv]
  | some a' =>
    have hne : a' ≠ a := fun e => h (e ▸ hv)
    rw [load_some hv, load_some hv, st.get_ne _ _ _ _ hne]

theorem load_store_of_ne (h : Independent addr) {j : I} (hij : j ≠ i) (v : V) (b : B) :
    load st addr (store st addr s i v b) j = load st addr s j := by
  funext u
  cases hv : addr i v with
  | none => rw [store_none hv]
  | some a =>
    rw [store_some hv]
    exact load_put fun hu => hij (h j i u v a hu hv).1

end

omit [DecidableEq I] in
theorem load_store_self (h : Independent addr) (i : I) (v : V) (b : B) :
    load st addr (store st addr s i v b) i = overwrite (load st addr s i) v b := by
  funext u
  unfold overwrite
  by_cases huv : u = v
  · subst huv
    rw [if_pos rfl]
    cases hu : addr i u with
    | none => rw [load_none hu, load_none hu, Option.map_none]
    | some a => rw [store_some hu, load_some hu, load_some hu, Option.map_some, st.get_self]
  · rw [if_neg huv]
    cases hv : addr i v with
    | none => rw [store_none hv]
    | some a =>
      rw [store_some hv]
      exact load_put fun hu => huv (h i i u v a hu hv).2

/-- What is written at a key depends on the key only. -/
theorem overwrites_congr {f g : V → Option B} (h : f v = g v) (i : I) (ws : List (I × V × B)) :
    overwrites f i ws v = overwrites g i ws v := by
  unfold overwrites
  generalize ws.filter (fun w => w.1 = i) = us
  induction us generalizing f g with
  | nil => exact h
  | cons w us ih =>
    apply ih
    show overwrite f w.2.1 w.2.2 v = overwrite g w.2.1 w.2.2 v
    unfold overwrite
    rw [h]

/-- What is seen through a view are the writes through it. -/
theorem load_run (h : Independent addr) (ws : List (I × V × B)) (i : I) :
    load st addr (run st addr s ws) i = overwrites (load st addr s i) i ws := by
  induction ws generalizing s with
  | nil => rfl
  | cons w ws ih =>
    show load st addr (run st addr (store st addr s w.1 w.2.1 w.2.2) ws) i = _
    rw [ih]
    unfold overwrites
    by_cases hw : w.1 = i
    · rw [List.filter_cons_of_pos (by simpa using hw), List.foldl_cons, ← hw, load_store_self h]
    · rw [List.filter_cons_of_neg (by simpa using hw), load_store_of_ne h (Ne.symm hw)]

end Xv6.Views
