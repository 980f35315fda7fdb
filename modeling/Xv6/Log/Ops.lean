import Xv6.Lib.Run
import Xv6.Param

/-!
# `log.c`: `begin_op`, `log_write` and `end_op` under the log's lock

`LogState` holds the fields of `struct log` that the lock protects. The functions on it are the
critical sections of `begin_op`, `log_write` and `end_op`, with the panics that they can reach.

`System` puts any number of processes around them. A process calls `begin_op`, then `log_write` any
number of times, then `end_op`; each critical section is one step. `sleep(&log, &log.lock)` gives
up the lock and sleeps in one step, as it does in the kernel, where `wakeup` needs the lock of each
process it wakes. The process whose `end_op` finds no other operation commits without the lock, in
steps of its own between which the others run.
-/

namespace Xv6.Log

open Function

/-- The panics of `log.c`'s three entry points. -/
inductive Panic
  | tooBig
  | outsideTrans
  | committing
  deriving DecidableEq, Repr

/-- `struct log` without its lock and `dev`. The header is the list of its used block numbers. -/
structure LogState where
  start : Nat
  size : Int
  /-- how many FS sys calls are executing -/
  outstanding : Int
  /-- in `commit()`, please wait -/
  committing : Bool
  lh : List Nat
  deriving DecidableEq, Repr

namespace LogState

/-- The state that `initlog` leaves when there is nothing to recover. -/
def init (start : Nat) (size : Int) : LogState :=
  { start := start, size := size, outstanding := 0, committing := false, lh := [] }

/-- `begin_op` must sleep: a commit is running, or this op might exhaust log space. -/
def mustWait (l : LogState) : Prop :=
  l.committing = true ∨ (l.lh.length : Int) + (l.outstanding + 1) * MAXOPBLOCKS > LOGSIZE

instance (l : LogState) : Decidable l.mustWait := by unfold mustWait; infer_instance

/-- `log_write`'s loop: a block already in the header is absorbed, another one is added. -/
def absorb (lh : List Nat) (b : Nat) : List Nat := if b ∈ lh then lh else lh ++ [b]

/-- The two tests of `log_write`, made before it looks for absorption. -/
def check (l : LogState) : Except Panic Unit :=
  if (l.lh.length : Int) ≥ LOGSIZE ∨ (l.lh.length : Int) ≥ l.size - 1 then .error .tooBig
  else if l.outstanding < 1 then .error .outsideTrans
  else .ok ()

/-- `log_write` of a buffer of block `b`. -/
def logWrite (l : LogState) (b : Nat) : Except Panic LogState :=
  match l.check with
  | .error e => .error e
  | .ok () => .ok { l with lh := absorb l.lh b }

/-- The first critical section of `end_op`, and whether it must commit. -/
def endOp (l : LogState) : Except Panic (LogState × Bool) :=
  if l.committing = true then .error .committing
  else if l.outstanding - 1 = 0 then .ok ({ l with outstanding := l.outstanding - 1, committing := true }, true)
  else .ok ({ l with outstanding := l.outstanding - 1 }, false)

end LogState

/-! ## Processes -/

/-- Where a process stands in its file-system call. -/
inductive Proc
  /-- not in a call -/
  | outside
  /-- in `begin_op`, about to acquire the lock and test -/
  | beginning
  /-- in `begin_op`, asleep on `&log` -/
  | asleep
  /-- between `begin_op` and `end_op`; `wrote` are the distinct blocks it has logged -/
  | inOp (wrote : List Nat)
  /-- in `commit`, up to the end of `install_trans` -/
  | commit
  /-- in `commit`, after `install_trans` -/
  | installed
  /-- back from `commit`, about to acquire the lock again -/
  | finishing
  deriving DecidableEq, Repr

/-- What an observer sees of a run: each `log_write`, each end of an operation, and each commit
with the blocks that its `install_trans` writes home. -/
inductive Event (P : Type)
  | wrote (p : P) (b : Nat)
  | ended (p : P)
  | install (blocks : List Nat)
  deriving DecidableEq, Repr

structure System (P : Type) where
  log : LogState
  proc : P → Proc
  /-- the events so far, the last one first -/
  trace : List (Event P)

/-- The steps of the processes. -/
inductive Act (P : Type)
  /-- call `begin_op` -/
  | beginOp (p : P)
  /-- one turn of `begin_op`'s loop -/
  | tryBegin (p : P)
  | logWrite (p : P) (b : Nat)
  | endOp (p : P)
  /-- `write_log`, `write_head` and `install_trans` of the blocks in the header -/
  | install (p : P)
  /-- `log.lh.n = 0` and the last `write_head` -/
  | clear (p : P)
  /-- `log.committing = 0; wakeup(&log)` -/
  | finish (p : P)
  /-- a sleeper is made runnable without `wakeup(&log)`, as by `kill` -/
  | kill (p : P)
  deriving DecidableEq, Repr

/-- `wakeup(&log)` -/
def wakeup {P : Type} (proc : P → Proc) : P → Proc := fun p =>
  if proc p = .asleep then .beginning else proc p

/-- The distinct blocks of an operation after one more `log_write`. -/
def addBlock (wrote : List Nat) (b : Nat) : List Nat := if b ∈ wrote then wrote else b :: wrote

section

variable {P : Type} [DecidableEq P]

def step (s : System P) : Act P → Option (Except Panic (System P))
  | .beginOp p =>
    if s.proc p = .outside then some (.ok { s with proc := update s.proc p .beginning }) else none
  | .tryBegin p =>
    if s.proc p = .beginning then
      if s.log.mustWait then some (.ok { s with proc := update s.proc p .asleep })
      else some (.ok { s with log := { s.log with outstanding := s.log.outstanding + 1 },
                              proc := update s.proc p (.inOp []) })
    else none
  | .logWrite p b =>
    match s.proc p with
    | .inOp wrote =>
      match s.log.logWrite b with
      | .error e => some (.error e)
      | .ok l => some (.ok { log := l, proc := update s.proc p (.inOp (addBlock wrote b)),
                             trace := .wrote p b :: s.trace })
    | _ => none
  | .endOp p =>
    match s.proc p with
    | .inOp _ =>
      match s.log.endOp with
      | .error e => some (.error e)
      | .ok (l, true) => some (.ok { log := l, proc := update s.proc p .commit,
                                     trace := .ended p :: s.trace })
      | .ok (l, false) => some (.ok { log := l, proc := update (wakeup s.proc) p .outside,
                                      trace := .ended p :: s.trace })
    | _ => none
  | .install p =>
    if s.proc p = .commit then
      some (.ok { s with proc := update s.proc p .installed, trace := .install s.log.lh :: s.trace })
    else none
  | .clear p =>
    if s.proc p = .installed then
      some (.ok { s with log := { s.log with lh := [] }, proc := update s.proc p .finishing })
    else none
  | .finish p =>
    if s.proc p = .finishing then
      some (.ok { s with log := { s.log with committing := false },
                         proc := update (wakeup s.proc) p .outside })
    else none
  | .kill p =>
    if s.proc p = .asleep then some (.ok { s with proc := update s.proc p .beginning }) else none

/-- What a step that does not panic does, one case for each way through the code. -/
inductive Steps (s : System P) : Act P → System P → Prop
  | call {p : P} : s.proc p = .outside →
    Steps s (.beginOp p) { s with proc := update s.proc p .beginning }
  | sleep {p : P} : s.proc p = .beginning → s.log.mustWait →
    Steps s (.tryBegin p) { s with proc := update s.proc p .asleep }
  | enter {p : P} : s.proc p = .beginning → ¬ s.log.mustWait →
    Steps s (.tryBegin p) { s with log := { s.log with outstanding := s.log.outstanding + 1 },
                                   proc := update s.proc p (.inOp []) }
  | write {p : P} {b : Nat} {wrote : List Nat} : s.proc p = .inOp wrote →
    Steps s (.logWrite p b) { log := { s.log with lh := LogState.absorb s.log.lh b },
                              proc := update s.proc p (.inOp (addBlock wrote b)),
                              trace := .wrote p b :: s.trace }
  | last {p : P} {wrote : List Nat} : s.proc p = .inOp wrote → s.log.outstanding - 1 = 0 →
    Steps s (.endOp p) { log := { s.log with outstanding := s.log.outstanding - 1, committing := true },
                         proc := update s.proc p .commit, trace := .ended p :: s.trace }
  | other {p : P} {wrote : List Nat} : s.proc p = .inOp wrote → s.log.outstanding - 1 ≠ 0 →
    Steps s (.endOp p) { log := { s.log with outstanding := s.log.outstanding - 1 },
                         proc := update (wakeup s.proc) p .outside, trace := .ended p :: s.trace }
  | install {p : P} : s.proc p = .commit →
    Steps s (.install p) { s with proc := update s.proc p .installed,
                                  trace := .install s.log.lh :: s.trace }
  | clear {p : P} : s.proc p = .installed →
    Steps s (.clear p) { s with log := { s.log with lh := [] }, proc := update s.proc p .finishing }
  | finish {p : P} : s.proc p = .finishing →
    Steps s (.finish p) { s with log := { s.log with committing := false },
                                 proc := update (wakeup s.proc) p .outside }
  | kill {p : P} : s.proc p = .asleep →
    Steps s (.kill p) { s with proc := update s.proc p .beginning }

variable {l l' : LogState}

/-- Inside a transaction `log_write` can only find the log full. -/
theorem LogState.check_error {e : Panic} (hout : ¬ l.outstanding < 1) (h : l.check = .error e) :
    e = .tooBig := by
  unfold LogState.check at h
  split at h
  next => exact (Except.error.inj h).symm
  next => cases h

theorem LogState.logWrite_ok {b : Nat} (h : l.logWrite b = .ok l') :
    l' = { l with lh := LogState.absorb l.lh b } := by
  unfold LogState.logWrite at h
  split at h
  next => cases h
  next => exact (Except.ok.inj h).symm

theorem LogState.endOp_last (h : l.endOp = .ok (l', true)) :
    l.outstanding - 1 = 0 ∧ l' = { l with outstanding := l.outstanding - 1, committing := true } := by
  simp only [LogState.endOp] at h
  split at h
  next => cases h
  next =>
    split at h
    next hlast => exact ⟨hlast, (Prod.mk.inj (Except.ok.inj h)).1.symm⟩
    next => cases h

theorem LogState.endOp_other (h : l.endOp = .ok (l', false)) :
    l.outstanding - 1 ≠ 0 ∧ l' = { l with outstanding := l.outstanding - 1 } := by
  simp only [LogState.endOp] at h
  split at h
  next => cases h
  next =>
    split at h
    next => cases h
    next hmore => exact ⟨hmore, (Prod.mk.inj (Except.ok.inj h)).1.symm⟩

/-- `step` does nothing else. -/
theorem steps_of_step {s s' : System P} {a : Act P} (h : step s a = some (.ok s')) : Steps s a s' := by
  cases a with
  | logWrite p b =>
    simp only [step] at h
    split at h
    next wrote hp =>
      split at h
      next => cases h
      next l hl =>
        cases h
        rw [LogState.logWrite_ok hl]
        exact .write hp
    next => cases h
  | endOp p =>
    simp only [step] at h
    split at h
    next wrote hp =>
      split at h
      next => cases h
      next l hl =>
        cases h
        obtain ⟨hlast, rfl⟩ := LogState.endOp_last hl
        exact .last hp hlast
      next l hl =>
        cases h
        obtain ⟨hmore, rfl⟩ := LogState.endOp_other hl
        exact .other hp hmore
    next => cases h
  | tryBegin p =>
    simp only [step] at h
    split at h
    next hp =>
      split at h
      next hw => cases h; exact .sleep hp hw
      next hw => cases h; exact .enter hp hw
    next => cases h
  | beginOp p => simp only [step] at h; split at h <;> cases h; exact .call (by assumption)
  | install p => simp only [step] at h; split at h <;> cases h; exact .install (by assumption)
  | clear p => simp only [step] at h; split at h <;> cases h; exact .clear (by assumption)
  | finish p => simp only [step] at h; split at h <;> cases h; exact .finish (by assumption)
  | kill p => simp only [step] at h; split at h <;> cases h; exact .kill (by assumption)

end

/-- No process is in a call and the log is empty. -/
def System.init (P : Type) (start : Nat) (size : Int) : System P :=
  { log := .init start size, proc := fun _ => .outside, trace := [] }

end Xv6.Log
