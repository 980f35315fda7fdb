import Xv6.Proc.Machine

/-!
# Locks, stacks and states of processes

A lock is held by the CPU that has it in its list at the place where it is (`Locks`); a stack is run
on by the CPU that is on it (`Stacks`); and the state of a process goes with the place of its
thread, whether a CPU runs it (`Running`) or not (`Parked`). The lock of a process that leaves the
CPU in `sched` passes to `scheduler`, and from there to the process that comes back.
-/

namespace Xv6.Proc

variable {n : Nat} {C : Type}

/-- The locks that the code on the stack of `p` holds. -/
def Thread.held (p : Slot n) (t : Thread n) : List (Slot n) :=
  match t.trap with
  | .off => t.pc.held p
  | .yieldSched | .yieldBack => [p]
  | .waking _ j => [j]
  | .yield | .wakeup .. => []

/-- The locks that CPU `c` holds. -/
def State.held (s : State n C) (c : C) : List (Slot n) :=
  match (s.cpu c).run with
  | .look j | .back j | .irqHold _ j _ => [j]
  | .thread p => (s.thread p).held p
  | .sched _ | .irq .. => []

/-- An effect takes or gives up one lock of those in `h`, or changes a slot whose lock is in `h`. -/
def Effect.Fits (p : Slot n) (h : List (Slot n)) : Effect n C → Prop
  | .goto t => t.held p = h
  | .acquire j _ t => (t.held p).Perm (j :: h)
  | .release j _ t => (j :: t.held p).Perm h
  | .store j f t => (t.held p = h ∧ j ∈ h) ∧ ∀ x, (f x).lock = x.lock
  | .wakeup1 j t | .allocpid j t | .context j t | .start j t | .free j t | .reap j t => t.held p = h ∧ j ∈ h
  | .swtch t => t.held p = [p] ∧ h = [p]
  | .panic _ => True

variable {pc : Pc n} {t : Thread n} {x y : Entry n C} {j q : Slot n}

section

variable {s : State n C} {p : Slot n} {ok : Bool} {e : Effect n C}

theorem Pc.next_fits (h : pc.next s p ok = some e) : e.Fits p (pc.held p) := by
  cases pc <;> simp only [Pc.next] at h
  all_goals repeat' split at h
  all_goals cases h
  all_goals simp only [Effect.Fits, Thread.held, Thread.base, Pc.held]
  case exitBoth => exact List.Perm.swap ..
  all_goals simp

theorem Thread.next_fits (ht : t.trap ≠ .off → t.pc.held p = []) (h : t.next s p ok = some e) :
    e.Fits p (t.held p) := by
  obtain ⟨pc, trap⟩ := t
  cases trap with
  | off => exact Pc.next_fits h
  | yield => cases h; exact List.Perm.refl _
  | yieldSched => cases h; exact ⟨rfl, rfl⟩
  | yieldBack =>
    cases h
    show (p :: pc.held p).Perm [p]
    rw [ht (fun e => by cases e)]
  | wakeup chan i =>
    simp only [Thread.next, Trap.next] at h
    split at h
    next => cases h; exact List.Perm.refl _
    next => cases h; exact ht (fun e => by cases e)
  | waking chan j => cases h; exact List.Perm.refl _

end

/-- A lock is held by the CPU that has it in its list. -/
structure Locks (s : State n C) : Prop where
  mem : ∀ c j, (s.proc j).lock = some c ↔ j ∈ s.held c
  nodup : ∀ c, (s.held c).Nodup

/-- What a CPU runs for. -/
def Run.proc : Run n → Option (Slot n)
  | .thread p | .back p => some p
  | .sched _ | .look _ | .irq .. | .irqHold .. => none

/-- A stack is run on by the CPU that is on it. -/
structure Stacks (s : State n C) : Prop where
  run : ∀ c p, (s.cpu c).run = .thread p ↔ s.stack p = some c
  proc : ∀ c, (s.cpu c).proc = (s.cpu c).run.proc

/-- The state of a process that is on a CPU. It changes its state before it leaves in `sched`. -/
def Running (p : Slot n) (e : Entry n C) (t : Thread n) : Prop :=
  match t.trap, t.pc with
  | .yieldSched, _ => e.state = .runnable
  | .off, .exitRel _ | .off, .exitSched => e.state = .zombie
  | .off, .waitSched _ => e.state = .sleeping ∧ e.chan = some (.proc p)
  | .off, .sleepSched => e.state = .sleeping ∧ ∃ a, e.chan = some (.addr a)
  | .off, .dead => False
  | _, _ => e.state = .running

/-- The state of a process that is on no CPU, or of a slot that has none. -/
def Parked (p : Slot n) (e : Entry n C) (t : Thread n) : Prop :=
  match t.trap, t.pc with
  | .yieldBack, _ => e.state = .runnable
  | .off, .forkret => e.state = .runnable ∨ e.state = .unused
  | .off, .waitBack _ => e.state = .runnable ∨ e.state = .sleeping ∧ e.chan = some (.proc p)
  | .off, .sleepBack => e.state = .runnable ∨ e.state = .sleeping ∧ ∃ a, e.chan = some (.addr a)
  | .off, .dead => e.state = .zombie ∨ e.state = .unused
  | _, _ => False

/-- The places at which a thread whose registers are in `p->context` goes on: `forkret`, and right
after the `swtch` of `sched`. -/
def Thread.saved (t : Thread n) : Bool :=
  match t.trap, t.pc with
  | .yieldBack, _ | .off, .forkret | .off, .waitBack _ | .off, .sleepBack | .off, .dead => true
  | _, _ => false

/-- What the code may rely on of a slot that `allocproc` has found. -/
def Pc.Owns (s : State n C) : Pc n → Prop
  | .allocPid j | .allocPagetable j => (s.proc j).state = .unused
  | .forkCopy j | .forkParent j | .forkRun j => (s.proc j).state = .unused ∧ s.thread j = .base .forkret
  | _ => True

structure World (s : State n C) : Prop where
  locks : Locks s
  cpus : Stacks s
  trap : ∀ p, (s.thread p).trap ≠ .off → (s.thread p).pc.held p = []
  running : ∀ c p, s.stack p = some c → Running p (s.proc p) (s.thread p)
  parked : ∀ p, s.stack p = none → Parked p (s.proc p) (s.thread p)
  owns : ∀ p, (s.thread p).pc.Owns s

variable {s s' : State n C} {c : C} {p : Slot n} {ok : Bool}

/-- A process on a CPU whose state is no longer `RUNNING` holds its lock. -/
theorem Running.holds (h : Running p x t) (hx : x.state ≠ .running) : p ∈ t.held p := by
  obtain ⟨pc, trap⟩ := t
  cases trap <;> first | exact absurd h hx | exact List.mem_cons_self .. | skip
  cases pc <;> first | exact absurd h hx | exact h.elim | simp [Thread.held, Pc.held]

theorem Running.used (h : Running p x t) : x.state ≠ .unused := by
  obtain ⟨pc, trap⟩ := t
  cases trap <;> cases pc <;> simp [Running] at h <;> simp [h]

theorem Parked.not_running (h : Parked p x t) : x.state ≠ .running := by
  obtain ⟨pc, trap⟩ := t
  cases trap <;> cases pc <;> simp [Parked] at h <;> grind

theorem Pc.owns_of_nil (h : pc.held p = []) (s : State n C) : pc.Owns s := by
  cases pc <;> trivial

theorem running_base (h : pc.held p = []) : Running p x ⟨pc, .off⟩ ↔ x.state = .running := by
  cases pc <;> first | rfl | cases h

@[simp] theorem Entry.wakeup_lock (chan : Chan n) (x : Entry n C) : (x.wakeup chan).lock = x.lock := by
  unfold Entry.wakeup
  split <;> rfl

theorem held_thread (hr : (s.cpu c).run = .thread p) : s.held c = (s.thread p).held p := by
  rw [State.held, hr]

theorem held_setThread (hr : (s.cpu c).run = .thread p) : (s.setThread p t).held c = t.held p := by
  rw [held_thread (s := s.setThread p t) hr, State.setThread]
  simp

namespace World

/-- Two processes are not on one CPU. -/
theorem cpu_ne (h : World s) {c' : C} (hr : (s.cpu c).run = .thread p) (hs : s.stack q = some c')
    (hq : q ≠ p) : c' ≠ c := by
  rintro rfl
  rw [← h.cpus.run, hr] at hs
  cases hs
  exact hq rfl

/-- Who has not the lock of the process it runs, runs a process that is `RUNNING`. -/
theorem running_of_unlocked (h : World s) (hs : s.stack p = some c) (hl : (s.proc p).lock ≠ some c) :
    (s.proc p).state = .running := by
  by_contra hne
  have hmem := (h.running c p hs).holds hne
  rw [← held_thread ((h.cpus.run c p).mpr hs)] at hmem
  exact hl ((h.locks.mem c p).mpr hmem)

/-- Who has the lock of a process, is not on its stack and finds it not `RUNNING`, knows that nobody
is. -/
theorem stack_none (h : World s) (hl : (s.proc j).lock = some c) (hr : (s.cpu c).run ≠ .thread j)
    (hj : (s.proc j).state ≠ .running) : s.stack j = none := by
  cases hs : s.stack j with
  | none => rfl
  | some c' =>
    refine absurd (h.running_of_unlocked hs fun hl' => ?_) hj
    cases hl.symm.trans hl'
    exact hr ((h.cpus.run c j).mpr hs)

theorem on_cpu (h : World s) (hj : (s.proc p).state = .running) : ∃ c, s.stack p = some c := by
  cases hs : s.stack p with
  | none => exact absurd hj (h.parked p hs).not_running
  | some c => exact ⟨c, rfl⟩

/-- While the lock of a process is free, who has it as `c->proc` is on its stack. -/
theorem thread_of_proc (h : World s) (hl : (s.proc p).lock = none) (hc : (s.cpu c).proc = some p) :
    (s.cpu c).run = .thread p := by
  rw [h.cpus.proc] at hc
  cases hr : (s.cpu c).run with
  | thread q => rw [hr] at hc; cases hc; rfl
  | back q =>
    rw [hr] at hc
    cases hc
    have hheld : s.held c = [p] := by rw [State.held, hr]
    have hlock := (h.locks.mem c p).mpr (by rw [hheld]; exact List.mem_cons_self ..)
    rw [hl] at hlock
    cases hlock
  | sched | look | irq | irqHold => rw [hr] at hc; cases hc

theorem stack_unused (h : World s) (hj : (s.proc j).state = .unused) : s.stack j = none := by
  cases hs : s.stack j with
  | none => rfl
  | some c => exact absurd hj (h.running c j hs).used

end World

/-- The slot that `allocproc` has found, as long as it has no process. -/
def Pc.found : Pc n → Option (Slot n)
  | .allocPid j | .allocPagetable j | .forkCopy j | .forkParent j | .forkRun j => some j
  | _ => none

theorem Pc.owns_of_not_found (h : pc.found = none) (s : State n C) : pc.Owns s := by
  cases pc <;> trivial

theorem Pc.owns_congr (h : pc.found = some j) (hp : (s'.proc j).state = (s.proc j).state)
    (ht : s'.thread j = s.thread j) (ho : pc.Owns s) : pc.Owns s' := by
  cases pc <;> cases h <;> simpa only [Pc.Owns, hp, ht] using ho

theorem Parked.saved (h : Parked p x t) : t.saved = true := by
  obtain ⟨pc, trap⟩ := t
  cases trap <;> cases pc <;> first | rfl | exact h.elim

/-- A place where the code goes on after `swtch`, or starts. -/
def Pc.resumes (pc : Pc n) : Bool := (Thread.base pc).saved

/-- Where a lock is held there is no interrupt. -/
theorem World.base_of_held (h : World s) (hj : j ∈ (s.thread p).pc.held p) :
    s.thread p = .base (s.thread p).pc := by
  by_contra hne
  rw [h.trap p (fun he => hne (by rw [Thread.base, ← he]))] at hj
  cases hj

/-- The locks that go with the place of a process are held by the CPU that runs it. -/
theorem World.holder (h : World s) (hj : j ∈ (s.thread p).pc.held p)
    (hs : (s.thread p).pc.resumes = false) :
    ∃ c, s.stack p = some c ∧ (s.proc j).lock = some c := by
  have hoff := h.base_of_held hj
  cases hc : s.stack p with
  | none =>
    have hsaved := (h.parked p hc).saved
    rw [hoff] at hsaved
    cases hs.symm.trans hsaved
  | some c =>
    refine ⟨c, rfl, (h.locks.mem c j).mpr ?_⟩
    rw [held_thread ((h.cpus.run c p).mpr hc), hoff]
    exact hj

theorem Pc.mem_held_of_found (h : pc.found = some j) : j ∈ pc.held p ∧ pc.resumes = false := by
  cases pc <;> cases h <;> exact ⟨List.mem_cons_self .., rfl⟩

theorem Pc.unused_of_found (h : pc.found = some j) (ho : pc.Owns s) :
    (s.proc j).state = .unused := by
  cases pc <;> cases h <;> first | exact ho | exact ho.1

/-- The CPU that runs a process in `fork` has the lock of the slot that it found. -/
theorem World.found (h : World s) (hf : (s.thread p).pc.found = some j) :
    (s.proc j).state = .unused ∧ ∃ c, s.stack p = some c ∧ (s.proc j).lock = some c := by
  obtain ⟨hmem, hres⟩ := Pc.mem_held_of_found (p := p) hf
  exact ⟨Pc.unused_of_found hf (h.owns p), h.holder hmem hres⟩

/-- Contexts are set up, and slots given back, by `fork` only. -/
theorem Thread.next_found {t' : Thread n} {k : Slot n}
    (h : t.next s p ok = some (.context k t') ∨ t.next s p ok = some (.free k t')) :
    t.pc.found = some k := by
  obtain ⟨pc, trap⟩ := t
  cases trap
  case off =>
    cases pc <;> simp only [Thread.next, Pc.next] at h
    all_goals repeat' split at h
    all_goals rcases h with h | h <;> first | (cases h; rfl) | cases h
  all_goals
    simp only [Thread.next, Trap.next] at h
    repeat' split at h
  all_goals rcases h with h | h <;> cases h

/-- Only `wait` frees a process, and that is a zombie. -/
theorem Thread.next_reap {t' : Thread n} {k : Slot n} (h : t.next s p ok = some (.reap k t')) :
    (∃ copy, t = .base (.scanLook copy k)) ∧ (s.proc k).state = .zombie := by
  obtain ⟨pc, trap⟩ := t
  cases trap
  case off =>
    cases pc <;> simp only [Thread.next, Pc.next] at h
    case scanLook copy j =>
      split at h
      next hz =>
        split at h
        next => cases h
        next => cases h; exact ⟨⟨copy, rfl⟩, hz⟩
      next => cases h
    all_goals repeat' split at h
    all_goals cases h
  all_goals
    simp only [Thread.next, Trap.next] at h
    repeat' split at h
  all_goals cases h

namespace Locks

theorem same (h : Locks s) (hl : ∀ j, (s'.proc j).lock = (s.proc j).lock) (hh : ∀ c, s'.held c = s.held c) : Locks s' :=
  ⟨fun c j => by rw [hl, hh]; exact h.mem c j, fun c => by rw [hh]; exact h.nodup c⟩

theorem acquire (h : Locks s) (hj : (s.proc j).lock = none)
    (hl : ∀ k, (s'.proc k).lock = if k = j then some c else (s.proc k).lock)
    (hc : (s'.held c).Perm (j :: s.held c)) (ho : ∀ c', c' ≠ c → s'.held c' = s.held c') :
    Locks s' := by
  have hfree : ∀ c', j ∉ s.held c' := fun c' hmem => by
    rw [← h.mem, hj] at hmem
    cases hmem
  refine ⟨fun c' k => ?_, fun c' => ?_⟩
  · rw [hl k]
    by_cases hcc : c' = c
    · rw [hcc, hc.mem_iff, List.mem_cons, ← h.mem]
      by_cases hk : k = j <;> simp [hk]
    · rw [ho c' hcc, ← h.mem]
      by_cases hk : k = j
      · simp [hk, hj, Ne.symm hcc]
      · rw [if_neg hk]
  · by_cases hcc : c' = c
    · rw [hcc, hc.nodup_iff]
      exact List.nodup_cons.mpr ⟨hfree c, h.nodup c⟩
    · rw [ho c' hcc]
      exact h.nodup c'

theorem release (h : Locks s)
    (hl : ∀ k, (s'.proc k).lock = if k = j then none else (s.proc k).lock)
    (hc : (j :: s'.held c).Perm (s.held c)) (ho : ∀ c', c' ≠ c → s'.held c' = s.held c') :
    Locks s' := by
  have hnodup := List.nodup_cons.mp (hc.nodup_iff.mpr (h.nodup c))
  have hj : (s.proc j).lock = some c := (h.mem c j).mpr (hc.mem_iff.mp (List.mem_cons_self ..))
  refine ⟨fun c' k => ?_, fun c' => ?_⟩
  · rw [hl k]
    by_cases hcc : c' = c
    · subst hcc
      by_cases hk : k = j
      · simp [hk, hnodup.1]
      · rw [if_neg hk, h.mem, ← hc.mem_iff, List.mem_cons]
        simp [hk]
    · rw [ho c' hcc, ← h.mem]
      by_cases hk : k = j
      · simp [hk, hj, Ne.symm hcc]
      · rw [if_neg hk]
  · by_cases hcc : c' = c
    · rw [hcc]
      exact hnodup.2
    · rw [ho c' hcc]
      exact h.nodup c'

end Locks

/-- A slot stays as it is, or CPU `c` wakes the process. -/
def Wake (s : State n C) (c : C) (q : Slot n) (x : Entry n C) : Prop :=
  x.state = (s.proc q).state ∧ x.chan = (s.proc q).chan ∨
  ((s.proc q).lock = none ∨ (s.proc q).lock = some c) ∧ (s.proc q).state = .sleeping ∧ x.state = .runnable ∧
    x.chan = (s.proc q).chan

/-- What CPU `c` may do to the slot of a process that it does not run. -/
def Touch (s : State n C) (c : C) (q : Slot n) (x : Entry n C) : Prop :=
  Wake s c q x ∨
  (s.proc q).state = .unused ∧ s.thread q = .base .forkret ∧ x.state = .runnable ∨
  ((s.proc q).state = .unused ∨ (s.proc q).state = .zombie ∧ (s.proc q).lock = some c) ∧ x.state = .unused

theorem Running.congr (h : Running p x t) (hs : y.state = x.state) (hc : y.chan = x.chan) :
    Running p y t := by
  unfold Running at h ⊢
  rwa [hs, hc]

section

variable (h : Parked p x t)
include h

theorem Parked.congr (hs : y.state = x.state) (hc : y.chan = x.chan) : Parked p y t := by
  unfold Parked at h ⊢
  rwa [hs, hc]

theorem Parked.wake (hs : x.state = .sleeping) (hy : y.state = .runnable) : Parked p y t := by
  obtain ⟨pc, trap⟩ := t
  cases trap <;> cases pc <;> simp_all [Parked]

theorem Parked.free (hs : x.state = .unused ∨ x.state = .zombie) (hy : y.state = .unused) :
    Parked p y t := by
  obtain ⟨pc, trap⟩ := t
  rcases hs with hs | hs <;> cases trap <;> cases pc <;> simp_all [Parked]

theorem Parked.dead (hs : x.state = .zombie) : t = .base .dead := by
  obtain ⟨pc, trap⟩ := t
  cases trap <;> cases pc <;> simp_all [Parked, Thread.base]

theorem Parked.held (hs : x.state = .runnable) : t.held p = [p] := by
  obtain ⟨pc, trap⟩ := t
  cases trap <;> cases pc <;> simp_all [Parked, Thread.held, Pc.held]

theorem Parked.resume (hs : x.state = .runnable) (hy : y.state = .running) : Running p y t := by
  obtain ⟨pc, trap⟩ := t
  cases trap <;> cases pc <;> simp_all [Parked, Running]

end

theorem World.running_touch (h : World s) {c' : C} (hx : Touch s c q x) (hs : s.stack q = some c')
    (hc : c' ≠ c) : Running q x (s.thread q) := by
  have hrun := h.running c' q hs
  have hlock : (s.proc q).lock = none ∨ (s.proc q).lock = some c → (s.proc q).state = .running := fun hl => by
    refine h.running_of_unlocked hs ?_
    rcases hl with hl | hl <;> rw [hl]
    · exact fun e => by cases e
    · exact fun e => hc (Option.some.inj e).symm
  rcases hx with (⟨hst, hch⟩ | ⟨hl, hsl, -⟩) | ⟨hu, -⟩ | ⟨hu | ⟨hz, hl⟩, -⟩
  · exact hrun.congr hst hch
  · rw [hlock hl] at hsl; cases hsl
  · exact absurd hu hrun.used
  · exact absurd hu hrun.used
  · rw [hlock (.inr hl)] at hz; cases hz

theorem World.parked_touch (h : World s) (hx : Touch s c q x) (hs : s.stack q = none) :
    Parked q x (s.thread q) := by
  have hpark := h.parked q hs
  rcases hx with (⟨hst, hch⟩ | ⟨-, hsl, hst, -⟩) | ⟨-, ht, hst⟩ | ⟨hu, hst⟩
  · exact hpark.congr hst hch
  · exact hpark.wake hsl hst
  · rw [ht]; exact .inl hst
  · exact hpark.free (hu.imp_right (·.1)) hst

end Xv6.Proc
