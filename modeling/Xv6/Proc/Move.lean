import Xv6.Proc.Machine

/-!
# What a step of the process table can be

`Did` and `Move` list the ways in which `step` succeeds. The proofs about the machine go by cases on
them and do not unfold `step`. Seen from the calls of the processes there are fewer: a call begins,
its code takes a step, or nothing happens but that locks and CPUs change hands (`Quiet`).
-/

namespace Xv6.Proc

variable {n : Nat} {C : Type} [DecidableEq C]

/-- The ways in which an effect takes place. -/
inductive Did (s : State n C) (c : C) (p : Slot n) : Effect n C → State n C → Prop
  | goto (t : Thread n) : Did s c p (.goto t) (s.setThread p t)
  | acquire (j : Slot n) (f : Entry n C → Entry n C) (t : Thread n) (hl : (s.proc j).lock = none) :
    Did s c p (.acquire j f t) ((s.setEntry j ((f (s.proc j)).withLock (some c))).setThread p t)
  | release (j : Slot n) (f : Entry n C → Entry n C) (t : Thread n) (hl : (s.proc j).lock = some c) :
    Did s c p (.release j f t) ((s.setEntry j ((f (s.proc j)).withLock none)).setThread p t)
  | store (j : Slot n) (f : Entry n C → Entry n C) (t : Thread n) :
    Did s c p (.store j f t) ((s.setEntry j (f (s.proc j))).setThread p t)
  | wakeup1 (j : Slot n) (t : Thread n) (hl : (s.proc j).lock = some c) :
    Did s c p (.wakeup1 j t) ((s.setEntry j ((s.proc j).wakeup (.proc j))).setThread p t)
  | allocpid (j : Slot n) (t : Thread n) : Did s c p (.allocpid j t) ((s.allocpid j).setThread p t)
  | context (j : Slot n) (t : Thread n) :
    Did s c p (.context j t) (((s.setThread j (.base .forkret)).setStack j none).setThread p t)
  | start (j : Slot n) (t : Thread n) : Did s c p (.start j t) ((s.start p j).setThread p t)
  | free (j : Slot n) (t : Thread n) : Did s c p (.free j t) ((s.setEntry j (s.proc j).free).setThread p t)
  | reap (j : Slot n) (t : Thread n) :
    Did s c p (.reap j t)
      (((s.record (.wait (s.proc p).birth (s.proc j).creator (s.proc j).birth (s.proc j).pid (s.proc j).xstate)).setEntry
        j (s.proc j).free).setThread p t)
  | swtch (t : Thread n) (hl : (s.proc p).lock = some c) :
    Did s c p (.swtch t) (((s.setThread p t).setStack p none).setCpu c ⟨(s.cpu c).proc, .back p⟩)

/-- The ways in which the machine moves on. -/
inductive Move (s : State n C) : Act n C → State n C → Prop
  | call {c : C} {p : Slot n} (k : Call) (hr : (s.cpu c).run = .thread p) (ht : s.thread p = .base .user)
    (hk : ∀ st, k ≠ .exit st) : Move s (.call c k) (s.setThread p (.base k.entry))
  | exit {c : C} {p : Slot n} (st : Int) (hr : (s.cpu c).run = .thread p) (ht : s.thread p = .base .user)
    (hp : p ≠ initproc) :
    Move s (.call c (.exit st)) ((s.record (.exit (s.proc p).birth (s.proc p).pid st)).setThread p (.base (.exit st)))
  | timer {c : C} {p : Slot n} (hr : (s.cpu c).run = .thread p) (hi : (s.thread p).interruptible p) :
    Move s (.timer c) (s.setThread p ⟨(s.thread p).pc, .yield⟩)
  | wakeup {c : C} {p : Slot n} (chan : Chan n) (hr : (s.cpu c).run = .thread p) (hi : (s.thread p).interruptible p) :
    Move s (.wakeup c chan) (s.setThread p ⟨(s.thread p).pc, .wakeup chan 0⟩)
  | interrupt {c : C} {i : Nat} (chan : Chan n) (hr : (s.cpu c).run = .sched i) :
    Move s (.wakeup c chan) (s.setCpu c ⟨(s.cpu c).proc, .irq chan 0 i⟩)
  | thread {c : C} {p : Slot n} {ok : Bool} {e : Effect n C} {s' : State n C} (hr : (s.cpu c).run = .thread p)
    (hn : (s.thread p).next s p ok = some e) (hd : Did s c p e s') : Move s (.go c ok) s'
  -- `scheduler` and the interrupts under it
  | acquire {c : C} {ok : Bool} {i : Nat} {j : Slot n} (hr : (s.cpu c).run = .sched i) (hi : slot? i = some j)
    (hl : (s.proc j).lock = none) :
    Move s (.go c ok) ((s.setEntry j ((s.proc j).withLock (some c))).setCpu c ⟨(s.cpu c).proc, .look j⟩)
  | again {c : C} {ok : Bool} {i : Nat} (hr : (s.cpu c).run = .sched i) :
    Move s (.go c ok) (s.setCpu c ⟨(s.cpu c).proc, .sched 0⟩)
  | dispatch {c : C} {ok : Bool} {j : Slot n} (hr : (s.cpu c).run = .look j) (hj : (s.proc j).state = .runnable) :
    Move s (.go c ok)
      (((s.setEntry j { s.proc j with state := .running }).setStack j (some c)).setCpu c ⟨some j, .thread j⟩)
  | skip {c : C} {ok : Bool} {j : Slot n} (hr : (s.cpu c).run = .look j) (hl : (s.proc j).lock = some c) :
    Move s (.go c ok)
      ((s.setEntry j ((s.proc j).withLock none)).setCpu c ⟨(s.cpu c).proc, .sched (j.val + 1)⟩)
  | back {c : C} {ok : Bool} {j : Slot n} (hr : (s.cpu c).run = .back j) (hl : (s.proc j).lock = some c) :
    Move s (.go c ok) ((s.setEntry j ((s.proc j).withLock none)).setCpu c ⟨none, .sched (j.val + 1)⟩)
  | irqAcquire {c : C} {ok : Bool} {chan : Chan n} {i resume : Nat} {j : Slot n}
    (hr : (s.cpu c).run = .irq chan i resume) (hi : slot? i = some j) (hl : (s.proc j).lock = none) :
    Move s (.go c ok)
      ((s.setEntry j ((s.proc j).withLock (some c))).setCpu c ⟨(s.cpu c).proc, .irqHold chan j resume⟩)
  | irqEnd {c : C} {ok : Bool} {chan : Chan n} {i resume : Nat} (hr : (s.cpu c).run = .irq chan i resume) :
    Move s (.go c ok) (s.setCpu c ⟨(s.cpu c).proc, .sched resume⟩)
  | irqRelease {c : C} {ok : Bool} {chan : Chan n} {resume : Nat} {j : Slot n}
    (hr : (s.cpu c).run = .irqHold chan j resume) (hl : (s.proc j).lock = some c) :
    Move s (.go c ok)
      ((s.setEntry j (((s.proc j).wakeup chan).withLock none)).setCpu c ⟨(s.cpu c).proc, .irq chan (j.val + 1) resume⟩)

def life : ProcState → Life
  | .unused => .unused
  | .zombie => .zombie
  | .sleeping | .runnable | .running => .alive

omit [DecidableEq C] in
/-- A lock changes hands, or a process is woken, yields or is run. -/
structure Entry.Stirred (x y : Entry n C) : Prop where
  eq : x = { y with state := x.state, lock := x.lock }
  state : x.state = y.state ∨ (x.state = .runnable ∨ x.state = .running) ∧ life y.state = .alive

/-- No call goes on. -/
structure Quiet (s s' : State n C) : Prop where
  pc : ∀ q, (s'.thread q).pc = (s.thread q).pc
  stirred : ∀ q, (s'.proc q).Stirred (s.proc q)
  births : s'.births = s.births
  history : s'.history = s.history

/-- What becomes of the calls when the machine moves on. -/
inductive Moved (s : State n C) : Act n C → State n C → Prop
  | call {c : C} {p : Slot n} (k : Call) (hr : (s.cpu c).run = .thread p) (ht : s.thread p = .base .user)
    (hk : ∀ st, k ≠ .exit st) : Moved s (.call c k) (s.setThread p (.base k.entry))
  | exit {c : C} {p : Slot n} (st : Int) (hr : (s.cpu c).run = .thread p) (ht : s.thread p = .base .user)
    (hp : p ≠ initproc) :
    Moved s (.call c (.exit st)) ((s.record (.exit (s.proc p).birth (s.proc p).pid st)).setThread p (.base (.exit st)))
  | code {c : C} {p : Slot n} {ok : Bool} {pc : Pc n} {e : Effect n C} {s' : State n C} (hr : (s.cpu c).run = .thread p)
    (ht : s.thread p = .base pc) (hn : pc.next s p ok = some e) (hd : Did s c p e s') : Moved s (.go c ok) s'
  | quiet {a : Act n C} {s' : State n C} (h : Quiet s s') : Moved s a s'

variable {s s' : State n C} {c : C} {p : Slot n} {ok : Bool} {a : Act n C}

theorem exec_did {e : Effect n C} (h : e.exec s c p = some (.ok s')) : Did s c p e s' := by
  cases e with
  | goto t => cases h; exact .goto t
  | acquire j f t =>
    obtain ⟨hl, rfl⟩ := acquiring_ok h
    exact .acquire j f t hl
  | release j f t =>
    obtain ⟨hl, rfl⟩ := releasing_ok h
    exact .release j f t hl
  | store j f t => cases h; exact .store j f t
  | wakeup1 j t =>
    simp only [Effect.exec] at h
    split at h
    next hl => cases h; exact .wakeup1 j t hl
    next => cases h
  | allocpid j t => cases h; exact .allocpid j t
  | context j t => cases h; exact .context j t
  | start j t => cases h; exact .start j t
  | free j t => cases h; exact .free j t
  | reap j t => cases h; exact .reap j t
  | swtch t =>
    simp only [Effect.exec] at h
    repeat' split at h
    all_goals first
      | cases h; done
      | rename_i hl _ _ _
        cases h
        exact .swtch t (not_not.mp hl)
  | panic e => cases h

theorem step_go {e : Effect n C} (hr : (s.cpu c).run = .thread p) (hn : (s.thread p).next s p ok = some e) :
    step s (.go c ok) = e.exec s c p := by
  simp only [step, hr, Run.step, hn]

theorem run_step_move (h : (s.cpu c).run.step s c ok = some (.ok s')) : Move s (.go c ok) s' := by
  cases hr : (s.cpu c).run with
  | sched i =>
    rw [hr] at h
    simp only [Run.step] at h
    split at h
    next j hi =>
      obtain ⟨hl, rfl⟩ := acquiring_ok h
      exact .acquire hr hi hl
    next => cases h; exact .again hr
  | look j =>
    rw [hr] at h
    simp only [Run.step] at h
    split at h
    next hj => cases h; exact .dispatch hr hj
    next =>
      obtain ⟨hl, rfl⟩ := releasing_ok h
      exact .skip hr hl
  | back j =>
    rw [hr] at h
    obtain ⟨hl, rfl⟩ := releasing_ok h
    exact .back hr hl
  | irq chan i resume =>
    rw [hr] at h
    simp only [Run.step] at h
    split at h
    next j hi =>
      obtain ⟨hl, rfl⟩ := acquiring_ok h
      exact .irqAcquire hr hi hl
    next => cases h; exact .irqEnd hr
  | irqHold chan j resume =>
    rw [hr] at h
    obtain ⟨hl, rfl⟩ := releasing_ok h
    exact .irqRelease hr hl
  | thread p =>
    rw [hr] at h
    simp only [Run.step] at h
    split at h
    next e he => exact .thread hr he (exec_did h)
    next => cases h

theorem callStep_move {k : Call} (hr : (s.cpu c).run = .thread p) (ht : s.thread p = .base .user)
    (h : callStep s p k = some (.ok s')) : Move s (.call c k) s' := by
  cases k with
  | exit st =>
    simp only [callStep] at h
    split at h
    next => cases h
    next hp => cases h; exact .exit st hr ht hp
  | fork => cases h; exact .call .fork hr ht (fun _ e => by cases e)
  | wait copy => cases h; exact .call (.wait copy) hr ht (fun _ e => by cases e)
  | kill pid => cases h; exact .call (.kill pid) hr ht (fun _ e => by cases e)
  | sleep a => cases h; exact .call (.sleep a) hr ht (fun _ e => by cases e)

theorem step_move (h : step s a = some (.ok s')) : Move s a s' := by
  cases a with
  | call c k =>
    simp only [step] at h
    split at h
    next p hr =>
      split at h
      next ht => exact callStep_move hr ht h
      next => cases h
    next => cases h
  | timer c =>
    simp only [step] at h
    split at h
    next p hr =>
      split at h
      next hi => cases h; exact .timer hr hi
      next => cases h
    next => cases h
  | wakeup c chan =>
    simp only [step] at h
    split at h
    next p hr =>
      split at h
      next hi => cases h; exact .wakeup chan hr hi
      next => cases h
    next i hr => cases h; exact .interrupt chan hr
    next => cases h
  | go c ok => exact run_step_move h

end Xv6.Proc
