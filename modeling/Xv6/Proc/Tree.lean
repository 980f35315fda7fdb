import Xv6.Lib.Update

/-!
# The process tree

What `fork`, `exit` and `wait` are for, without locks, CPUs and the scheduler. A slot is unused, or
has a live process, or a zombie. `birth` numbers the processes in the order in which `fork` starts
them, so it tells one process from the next one in the same slot, and `creator` is the `birth` of
the process that called `fork`. A process that has called `exit` is `leaving` with its status.

`Step` lists what a process may do to the tree, and when. `Sound` is what every step keeps.
-/

namespace Xv6.Proc

open Function

inductive Life
  | unused
  | alive
  | zombie
  deriving DecidableEq, Repr

/-- A call of `exit`, and a call of `wait` that returned the pid and the status of a child. -/
inductive Event
  | exit (id : Nat) (pid : BitVec 32) (status : Int)
  | wait (waiter creator id : Nat) (pid : BitVec 32) (status : Int)
  deriving DecidableEq, Repr

structure Node (P : Type) where
  life : Life
  parent : Option P
  leaving : Option Int
  pid : BitVec 32
  birth : Nat
  creator : Nat

/-- The latest event comes first. -/
structure Tree (P : Type) where
  node : P → Node P
  births : Nat
  history : List Event

variable {P : Type} [DecidableEq P]

def Tree.setNode (t : Tree P) (j : P) (x : Node P) : Tree P := { t with node := update t.node j x }

/-- What the process in slot `p` may do. Orphans go to `ip`. -/
inductive Step (ip p : P) (t : Tree P) : Tree P → Prop
  | idle : Step ip p t t
  /-- `allocproc` prepares a slot, or gives it back -/
  | prepare (j : P) (pid : BitVec 32) (hj : (t.node j).life = .unused) :
    Step ip p t (t.setNode j { t.node j with pid := pid })
  | adopt (j : P) (hj : (t.node j).life = .unused) (hn : (t.node j).parent = none) (hp : (t.node p).life = .alive) :
    Step ip p t (t.setNode j { t.node j with parent := some p })
  | start (j : P) (hj : (t.node j).life = .unused) (hn : (t.node j).parent = some p) :
    Step ip p t
      { t.setNode j { t.node j with life := .alive, leaving := none, birth := t.births, creator := (t.node p).birth } with
        births := t.births + 1 }
  | exit (st : Int) (hp : (t.node p).life = .alive) (hl : (t.node p).leaving = none) (hi : p ≠ ip) :
    Step ip p t
      { t.setNode p { t.node p with leaving := some st } with
        history := .exit (t.node p).birth (t.node p).pid st :: t.history }
  | orphan (j : P) (hj : (t.node j).parent = some p) (hp : (t.node p).leaving ≠ none) :
    Step ip p t (t.setNode j { t.node j with parent := some ip })
  | die (hp : (t.node p).life = .alive) (hl : (t.node p).leaving ≠ none) (hc : ∀ j, (t.node j).parent ≠ some p) :
    Step ip p t (t.setNode p { t.node p with life := .zombie })
  | reap (j : P) (st : Int) (hj : (t.node j).life = .zombie) (hn : (t.node j).parent = some p)
    (hl : (t.node j).leaving = some st) :
    Step ip p t
      { t.setNode j { t.node j with life := .unused, parent := none, leaving := none, pid := 0 } with
        history := .wait (t.node p).birth (t.node j).creator (t.node j).birth (t.node j).pid st :: t.history }

/-- Each event is in order where it stands: a process calls `exit` once; `wait` returns of a process
what it gave to `exit`, and once; and it returns that to the creator, or to the first process after
the creator called `exit`. -/
def InOrder : List Event → Prop
  | [] => True
  | .exit id _ _ :: h => InOrder h ∧ ∀ pid st, .exit id pid st ∉ h
  | .wait w cr id pid st :: h =>
    InOrder h ∧ .exit id pid st ∈ h ∧ (∀ w' cr' pid' st', .wait w' cr' id pid' st' ∉ h) ∧
      (w = cr ∨ w = 0 ∧ ∃ pid' st', .exit cr pid' st' ∈ h)

def Event.id : Event → Nat
  | .exit id _ _ => id
  | .wait _ _ id _ _ => id

/-- Who is whose child. The parent of a child is alive, and the first process has none. -/
structure Family (ip : P) (t : Tree P) : Prop where
  parent : ∀ j q, (t.node j).parent = some q → (t.node q).life = .alive
  init : (t.node ip).life = .alive ∧ (t.node ip).leaving = none ∧ (t.node ip).parent = none
  child : ∀ j, (t.node j).life ≠ .unused → j ≠ ip → (t.node j).parent ≠ none

/-- No two processes are of one age, and a parent is older than its children. -/
structure Ages (ip : P) (t : Tree P) : Prop where
  first : (t.node ip).birth = 0
  birth : ∀ j, (t.node j).life ≠ .unused → (t.node j).birth < t.births
  distinct : ∀ i j, (t.node i).life ≠ .unused → (t.node j).life ≠ .unused → (t.node i).birth = (t.node j).birth → i = j
  older : ∀ j q, (t.node j).life ≠ .unused → (t.node j).parent = some q → (t.node q).birth < (t.node j).birth

/-- What the history has, and what it does not have yet, of the processes that are there. -/
structure Records (ip : P) (t : Tree P) : Prop where
  past : ∀ e ∈ t.history, e.id < t.births
  creator : ∀ j q, (t.node j).life ≠ .unused → (t.node j).parent = some q →
    (t.node q).birth = (t.node j).creator ∨ q = ip ∧ ∃ pid st, .exit (t.node j).creator pid st ∈ t.history
  called : ∀ j st, (t.node j).life ≠ .unused → (t.node j).leaving = some st →
    .exit (t.node j).birth (t.node j).pid st ∈ t.history
  quiet : ∀ j, (t.node j).life ≠ .unused → (t.node j).leaving = none →
    ∀ pid st, .exit (t.node j).birth pid st ∉ t.history
  unwaited : ∀ j, (t.node j).life ≠ .unused → ∀ w cr pid st, .wait w cr (t.node j).birth pid st ∉ t.history
  inOrder : InOrder t.history

structure Sound (ip : P) (t : Tree P) : Prop where
  family : Family ip t
  ages : Ages ip t
  records : Records ip t

variable {ip p : P} {t t' : Tree P}

theorem Family.step (h : Family ip t) (hs : Step ip p t t') : Family ip t' := by
  obtain ⟨parent, init, child⟩ := h
  cases hs
  case idle => exact ⟨parent, init, child⟩
  all_goals constructor <;> simp only [Tree.setNode, update_apply] <;> grind

theorem Ages.step (h : Ages ip t) (hf : Family ip t) (hs : Step ip p t t') : Ages ip t' := by
  obtain ⟨first, birth, distinct, older⟩ := h
  obtain ⟨parent, init, child⟩ := hf
  cases hs
  case idle => exact ⟨first, birth, distinct, older⟩
  all_goals constructor <;> simp only [Tree.setNode, update_apply] <;> grind

omit [DecidableEq P] in
/-- A number that was not given out yet is in no event. -/
theorem Records.fresh (h : Records ip t) :
    (∀ pid st, .exit t.births pid st ∉ t.history) ∧ ∀ w cr pid st, .wait w cr t.births pid st ∉ t.history :=
  ⟨fun _ _ he => lt_irrefl _ (h.past _ he), fun _ _ _ _ he => lt_irrefl _ (h.past _ he)⟩

omit [DecidableEq P] in
/-- A process that is leaving has called `exit`: what it gives away may be reaped by the first
process. -/
theorem Records.left (h : Records ip t) (hf : Family ip t) {j : P} (hj : (t.node j).parent = some p)
    (hp : (t.node p).leaving ≠ none) : ∃ pid st, .exit (t.node p).birth pid st ∈ t.history := by
  obtain ⟨st, hst⟩ := Option.ne_none_iff_exists'.mp hp
  exact ⟨_, st, h.called p st (by rw [hf.parent j p hj]; decide) hst⟩

theorem Records.step (h : Records ip t) (hf : Family ip t) (ha : Ages ip t) (hs : Step ip p t t') : Records ip t' := by
  have fresh := h.fresh
  have left := fun j => h.left (p := p) hf (j := j)
  obtain ⟨past, creator, called, quiet, unwaited, inOrder⟩ := h
  obtain ⟨parent, init, child⟩ := hf
  obtain ⟨first, birth, distinct, older⟩ := ha
  cases hs
  case idle => exact ⟨past, creator, called, quiet, unwaited, inOrder⟩
  all_goals constructor <;> simp only [Tree.setNode, update_apply] <;> grind [InOrder, Event.id]

theorem Sound.step (h : Sound ip t) (hs : Step ip p t t') : Sound ip t' :=
  ⟨h.family.step hs, h.ages.step h.family hs, h.records.step h.family h.ages hs⟩

/-- Only `p` itself gets children by a step of `p`, unless they go to the first process. -/
theorem Step.parent_of_ne (hs : Step ip p t t') {j q : P} (hq : q ≠ p) (hi : q ≠ ip)
    (h : (t'.node j).parent = some q) : (t.node j).parent = some q := by
  cases hs
  case idle => exact h
  all_goals simp only [Tree.setNode, update_apply] at h; grind

/-- Only a parent loses its children. -/
theorem Step.parent_keeps (hs : Step ip p t t') {j q : P} (hq : q ≠ p) (h : (t.node j).parent = some q) :
    (t'.node j).parent = some q := by
  cases hs
  case idle => exact h
  all_goals simp only [Tree.setNode, update_apply]; grind

/-- A live process keeps its parent, or is given to the first process. -/
theorem Step.parent_or (hs : Step ip p t t') {j q : P} (hj : (t.node j).life = .alive) (h : (t.node j).parent = some q) :
    (t'.node j).parent = some q ∨ (t'.node j).parent = some ip := by
  cases hs
  case idle => exact .inl h
  all_goals simp only [Tree.setNode, update_apply]; grind

end Xv6.Proc
