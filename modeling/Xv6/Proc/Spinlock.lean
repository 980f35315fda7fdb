import Xv6.Lib.Update

/-!
# `spinlock.c`, and the states of a process

A spin lock is free or has a holder. `acquire` spins while another holds it, which is to say that
the step is not enabled, and panics if the caller holds it. `release` panics if the caller does not
hold it.
-/

namespace Xv6

/-- `enum procstate` -/
inductive ProcState
  | unused
  | sleeping
  | runnable
  | running
  | zombie
  deriving DecidableEq, Repr

/-- The panics of `spinlock.c` and of `proc.c`. -/
inductive SpinPanic
  | acquire
  | release
  | schedLock
  | schedLocks
  | schedRunning
  | schedInterruptible
  | wakeup1
  | initExiting
  | zombieExit
  deriving DecidableEq, Repr

variable {H S : Type} [DecidableEq H]

/-- `acquire` by `h` of the lock `l`, which leads to the state `s`. -/
def acquiring (l : Option H) (h : H) (s : S) : Option (Except SpinPanic S) :=
  match l with
  | none => some (.ok s)
  | some h' => if h' = h then some (.error .acquire) else none

/-- `release` by `h` of the lock `l`, which leads to the state `s`. -/
def releasing (l : Option H) (h : H) (s : S) : Option (Except SpinPanic S) :=
  if l = some h then some (.ok s) else some (.error .release)

variable {l : Option H} {h : H} {s t : S}

theorem acquiring_ok (hs : acquiring l h s = some (.ok t)) : l = none ∧ t = s := by
  unfold acquiring at hs
  cases l with
  | none => cases hs; exact ⟨rfl, rfl⟩
  | some h' =>
    simp only at hs
    split at hs <;> cases hs

theorem releasing_ok (hs : releasing l h s = some (.ok t)) : l = some h ∧ t = s := by
  unfold releasing at hs
  split at hs
  next hl => cases hs; exact ⟨hl, rfl⟩
  next => cases hs

end Xv6
