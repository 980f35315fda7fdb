import Xv6.Lib.Run
import Xv6.Proc.Spinlock

/-!
# Interrupts, `push_off` and `pop_off` (kernel/spinlock.c, kernel/proc.c)

Each CPU has the bit `intr` of its `sstatus`, and `noff` and `intena` of its `struct cpu`. It runs
the scheduler or the kernel thread of a process. A kernel thread is a stack of frames: an interrupt
that is taken while they are on runs `kerneltrap` in a frame of its own, on top of the interrupted
one. A frame knows its `depth` and whether interrupts were on `before` its outermost `push_off`; no
code reads them.

`push_off` is two steps, since interrupts may be on between its first two lines: the thread may be
interrupted there, yield and go on on another CPU. All that follows in `push_off`, and the whole of
`pop_off`, concerns the own CPU and is done with interrupts off.

The scheduler is any program that turns interrupts on and off, acquires and releases locks, and
switches to a thread whose lock it has acquired at depth 1, after which it goes on by releasing that
lock. In user mode a thread is as good as at depth 0.
-/

namespace Xv6.Intr

open Function

/-! ## The machine -/

inductive Panic
  | popInterruptible
  | pop
  | schedLocks
  | schedInterruptible
  | spin (p : SpinPanic)
  deriving DecidableEq

structure Frame where
  depth : Nat
  before : Bool
  /-- The local variable of `push_off`, inside of it. -/
  old : Option Bool
  deriving DecidableEq

structure Stack where
  top : Frame
  /-- The frames that were interrupted. -/
  below : List Frame
  deriving DecidableEq

structure Cpu (T : Type) where
  intr : Bool
  noff : Nat
  intena : Bool
  proc : Option T
  /-- The stack of `scheduler`. -/
  sched : Stack
  /-- `scheduler` is behind its `swtch`. -/
  back : Bool

inductive Status
  /-- It will start at `forkret`. -/
  | new
  | running
  /-- In `sched`, with its local variable. -/
  | out (intena : Bool)
  deriving DecidableEq

structure State (C T L : Type) where
  cpu : C → Cpu T
  thread : T → Stack
  status : T → Status
  /-- The CPU that holds a lock. -/
  lock : L → Option C

section

variable {T : Type}

/-- `push_off`, after `int old = intr_get()`. -/
def pushOff (old : Bool) (c : Cpu T) : Cpu T :=
  { c with intr := false, intena := if c.noff = 0 then old else c.intena, noff := c.noff + 1 }

/-- `pop_off` -/
def popOff (c : Cpu T) : Except Panic (Cpu T) :=
  if c.intr = true then .error .popInterruptible
  else if c.noff < 1 then .error .pop
  else .ok { c with noff := c.noff - 1, intr := if c.noff - 1 = 0 ∧ c.intena = true then true else c.intr }

/-- What a thread does on its own CPU. -/
inductive Act
  /-- The first line of `push_off`. -/
  | read
  /-- The rest of it. -/
  | off
  | pop
  | intrOn
  | intrOff
  /-- An interrupt is taken. -/
  | trap
  /-- `kerneltrap` returns. -/
  | sret
  deriving DecidableEq

def act : Act → Cpu T → Stack → Option (Except Panic (Cpu T × Stack))
  | .read, c, k =>
    if k.top.old = none then
      some (.ok (c, { k with top := ⟨k.top.depth, if k.top.depth = 0 then c.intr else k.top.before, some c.intr⟩ }))
    else none
  | .off, c, k => k.top.old.map fun old => .ok (pushOff old c, { k with top := ⟨k.top.depth + 1, k.top.before, none⟩ })
  | .pop, c, k =>
    if k.top.old = none then
      some ((popOff c).map fun c' =>
        ({ c' with back := c'.back && c'.noff != 0 }, { k with top := ⟨k.top.depth - 1, k.top.before, none⟩ }))
    else none
  | .intrOn, c, k => if k.top.old = none then some (.ok ({ c with intr := true }, k)) else none
  | .intrOff, c, k => if k.top.old = none then some (.ok ({ c with intr := false }, k)) else none
  | .trap, c, k => if c.intr = true then some (.ok ({ c with intr := false }, ⟨⟨0, false, none⟩, k.top :: k.below⟩)) else none
  | .sret, c, k =>
    match k.below with
    | [] => none
    | f :: fs => if k.top.old = none then some (.ok ({ c with intr := true }, ⟨f, fs⟩)) else none

/-- The sequence is properly nested, and interrupts are only turned on and off directly outside of
it. -/
def Act.Proper (k : Stack) : Act → Prop
  | .pop => 0 < k.top.depth
  | .intrOn | .intrOff | .sret => k.top.depth = 0
  | .read | .off | .trap => True

instance (k : Stack) (a : Act) : Decidable (a.Proper k) := by
  cases a <;> unfold Act.Proper <;> infer_instance

end

inductive Action (C T L : Type)
  | act (c : C) (a : Act)
  /-- `acquire`, after its `push_off` -/
  | take (c : C) (l : L)
  /-- `release`, before its `pop_off` -/
  | drop (c : C) (l : L)
  /-- `sched`, up to the `swtch` to the scheduler -/
  | sched (c : C)
  /-- The scheduler's `swtch` to a thread, and what `sched` does after it. -/
  | swtch (c : C) (t : T)
  /-- A new thread, in a slot of `proc` whose old one does not run. -/
  | fork (t : T)

section

variable {C T L : Type} [DecidableEq C] [DecidableEq T] [DecidableEq L]

/-- The stack that a CPU is on. -/
def State.cur (s : State C T L) (c : C) : Stack :=
  match (s.cpu c).proc with
  | some t => s.thread t
  | none => (s.cpu c).sched

/-- A CPU and the stack it is on change. -/
def State.put (s : State C T L) (c : C) (cpu : Cpu T) (k : Stack) : State C T L :=
  match cpu.proc with
  | some t => { s with cpu := update s.cpu c cpu, thread := update s.thread t k }
  | none => { s with cpu := update s.cpu c { cpu with sched := k } }

/-- `intena` where a thread goes on: `sched` restores it, `forkret` does not. -/
def Status.intena (st : Status) (c : Cpu T) : Bool :=
  match st with
  | .out intena => intena
  | _ => c.intena

/-- The stack of a thread that goes on. A new one has the depth of the scheduler. -/
def Status.stack (st : Status) (c : Cpu T) (k : Stack) : Stack :=
  match st with
  | .new => ⟨⟨c.sched.top.depth, c.sched.top.before, none⟩, []⟩
  | _ => k

/-- The scheduler can switch to `t`. -/
def Switchable (plock : T → L) (s : State C T L) (c : C) (t : T) : Prop :=
  (s.cpu c).proc = none ∧ (s.cpu c).back = false ∧ (s.cpu c).sched.below = [] ∧ (s.cpu c).sched.top.old = none ∧
    (s.cpu c).sched.top.depth = 1 ∧ s.lock (plock t) = some c ∧ s.status t ≠ .running

instance (plock : T → L) (s : State C T L) (c : C) (t : T) : Decidable (Switchable plock s c t) :=
  inferInstanceAs (Decidable (_ ∧ _))

/-- `plock t` is the lock of thread `t`'s process. -/
def step (plock : T → L) (s : State C T L) : Action C T L → Option (Except Panic (State C T L))
  | .act c a => (act a (s.cpu c) (s.cur c)).map fun r => r.map fun x => s.put c x.1 x.2
  | .take c l => (acquiring (s.lock l) c { s with lock := update s.lock l (some c) }).map (·.mapError .spin)
  | .drop c l => (releasing (s.lock l) c { s with lock := update s.lock l none }).map (·.mapError .spin)
  | .sched c =>
    match (s.cpu c).proc with
    | none => none
    | some t =>
      if (s.thread t).top.old ≠ none then none
      else if s.lock (plock t) ≠ some c then some (.error (.spin .schedLock))
      else if (s.cpu c).noff ≠ 1 then some (.error .schedLocks)
      else if (s.cpu c).intr = true then some (.error .schedInterruptible)
      else
        some (.ok
          { s with
            cpu := update s.cpu c { s.cpu c with proc := none, back := true }
            status := update s.status t (.out (s.cpu c).intena) })
  | .swtch c t =>
    if Switchable plock s c t then
      some (.ok
        { s with
          cpu := update s.cpu c { s.cpu c with proc := some t, intena := (s.status t).intena (s.cpu c) }
          thread := update s.thread t ((s.status t).stack (s.cpu c) (s.thread t))
          status := update s.status t .running })
    else none
  | .fork t => if s.status t ≠ .running then some (.ok { s with status := update s.status t .new }) else none

/-- Each thread's sequence is properly nested, and `sched` is entered at depth 1. -/
def Proper (s : State C T L) : Action C T L → Prop
  | .act c a => a.Proper (s.cur c)
  | .sched c => (s.cur c).top.depth = 1
  | .take .. | .drop .. | .swtch .. | .fork .. => True

omit [DecidableEq C] [DecidableEq T] [DecidableEq L] in
instance (s : State C T L) (a : Action C T L) : Decidable (Proper s a) := by
  cases a <;> unfold Proper <;> infer_instance

def boot : State C T L where
  cpu _ := ⟨false, 0, false, none, ⟨⟨0, false, none⟩, []⟩, false⟩
  thread _ := ⟨⟨0, false, none⟩, []⟩
  status _ := .new
  lock _ := none

end

/-! ## One CPU -/

section

variable {T : Type} {c c' : Cpu T} {k k' : Stack} {a : Act}

/-- An interrupted frame. -/
structure Rests (f : Frame) : Prop where
  depth : f.depth = 0
  old : ∀ b, f.old = some b → b = f.before

/-- What a CPU says of the stack it is on. After its `swtch`, the scheduler does not know what
`intena` is. -/
structure Runs (c : Cpu T) (k : Stack) : Prop where
  noff : c.noff = k.top.depth
  off : 0 < k.top.depth → c.intr = false
  old : k.top.depth = 0 → ∀ b, k.top.old = some b → b = k.top.before
  below : ∀ f ∈ k.below, Rests f
  intena : c.proc.isSome = true ∨ c.back = false → 0 < k.top.depth → c.intena = k.top.before

theorem popOff_eq (h : Runs c k) (hpos : 0 < k.top.depth) :
    popOff c = .ok { c with noff := c.noff - 1, intr := decide (k.top.depth = 1) && c.intena } := by
  have hnoff := h.noff
  have hoff := h.off hpos
  unfold popOff
  rw [if_neg (by simp [hoff]), if_neg (by omega), hoff]
  congr 2
  by_cases hone : k.top.depth = 1
  · have hzero : c.noff - 1 = 0 := by omega
    cases c.intena <;> simp [hone, hzero]
  · have hzero : c.noff - 1 ≠ 0 := by omega
    simp [hone, hzero]

/-- Where the sequence is properly nested there is no panic: `pop_off` is the only act that has one.
-/
theorem act_ne_error (h : Runs c k) (ha : a.Proper k) (p : Panic) : act a c k ≠ some (.error p) := by
  intro hact
  cases a with
  | pop =>
    rw [act, popOff_eq h ha] at hact
    split at hact <;> cases hact
  | off =>
    rw [act] at hact
    cases hold : k.top.old <;> rw [hold] at hact <;> cases hact
  | sret =>
    rw [act] at hact
    split at hact
    next => cases hact
    next => split at hact <;> cases hact
  | read | intrOn | intrOff | trap =>
    rw [act] at hact
    split at hact <;> cases hact

theorem act_runs (h : Runs c k) (ha : a.Proper k) (hact : act a c k = some (.ok (c', k'))) :
    Runs c' k' ∧ c'.proc = c.proc ∧ c'.sched = c.sched := by
  cases a with
  | read =>
    rw [act] at hact
    split at hact
    next =>
      cases hact
      refine ⟨⟨h.noff, h.off, ?_, h.below, ?_⟩, rfl, rfl⟩
      · intro hzero b hb
        cases hb
        exact (if_pos hzero).symm
      · intro hknown hpos
        exact (h.intena hknown hpos).trans (if_neg (Nat.ne_of_gt hpos)).symm
    next => cases hact
  | off =>
    rw [act] at hact
    cases hold : k.top.old with
    | none =>
      rw [hold] at hact
      cases hact
    | some b =>
      rw [hold] at hact
      cases hact
      refine ⟨⟨congrArg (· + 1) h.noff, fun _ => rfl, ?_, h.below, ?_⟩, rfl, rfl⟩
      · intro hzero
        exact absurd hzero (Nat.succ_ne_zero _)
      · intro hknown _
        show (if c.noff = 0 then b else c.intena) = k.top.before
        have hnoff := h.noff
        by_cases hzero : c.noff = 0
        · rw [if_pos hzero]
          exact h.old (by omega) b hold
        · rw [if_neg hzero]
          exact h.intena hknown (by omega)
  | pop =>
    have hnoff := h.noff
    have hpos : 0 < k.top.depth := ha
    rw [act, popOff_eq h ha] at hact
    split at hact
    next hold =>
      cases hact
      refine ⟨⟨congrArg (· - 1) h.noff, ?_, ?_, h.below, ?_⟩, rfl, rfl⟩
      · intro hpos'
        have hone : k.top.depth ≠ 1 := by
          have : 0 < k.top.depth - 1 := hpos'
          omega
        show (decide (k.top.depth = 1) && c.intena) = false
        rw [decide_eq_false hone, Bool.false_and]
      · intro _ b hb
        cases hb
      · intro hknown hpos'
        have hleft : 0 < k.top.depth - 1 := hpos'
        apply h.intena _ hpos
        rcases hknown with hproc | hback
        · exact .inl hproc
        · rcases Bool.and_eq_false_iff.mp hback with hback | hzero
          · exact .inr hback
          · have : c.noff - 1 = 0 := by simpa using hzero
            omega
    next => cases hact
  | intrOn | intrOff =>
    rw [act] at hact
    split at hact
    next =>
      cases hact
      have hzero : k.top.depth = 0 := ha
      exact ⟨⟨h.noff, fun hpos => absurd hzero (Nat.ne_of_gt hpos), h.old, h.below, h.intena⟩, rfl, rfl⟩
    next => cases hact
  | trap =>
    rw [act] at hact
    split at hact
    next hintr =>
      cases hact
      have hzero : k.top.depth = 0 := by
        apply Nat.eq_zero_of_not_pos
        intro hpos
        rw [h.off hpos] at hintr
        cases hintr
      refine ⟨⟨h.noff.trans hzero, fun _ => rfl, ?_, ?_, ?_⟩, rfl, rfl⟩
      · intro _ b hb
        cases hb
      · intro f hf
        rcases List.mem_cons.mp hf with rfl | hf
        · exact ⟨hzero, h.old hzero⟩
        · exact h.below f hf
      · intro _ hpos
        exact absurd hpos (lt_irrefl 0)
    next => cases hact
  | sret =>
    have hnoff := h.noff
    have hzero : k.top.depth = 0 := ha
    rw [act] at hact
    split at hact
    next => cases hact
    next f fs hbelow =>
      split at hact
      next =>
        cases hact
        have hf := h.below f (hbelow ▸ List.mem_cons_self ..)
        refine ⟨⟨?_, ?_, fun _ => hf.old, ?_, ?_⟩, rfl, rfl⟩
        · show c.noff = f.depth
          rw [hnoff, hzero, hf.depth]
        · intro hpos
          exact absurd hf.depth (Nat.ne_of_gt hpos)
        · intro f' hf'
          exact h.below f' (hbelow ▸ List.mem_cons_of_mem _ hf')
        · intro _ hpos
          exact absurd hf.depth (Nat.ne_of_gt hpos)
      next => cases hact

/-- The outermost `pop_off` of a thread. -/
theorem act_pop (h : Runs c k) (hproc : c.proc.isSome = true) (hdepth : k.top.depth = 1) (hold : k.top.old = none) :
    ∃ c' k', act .pop c k = some (.ok (c', k')) ∧ c'.proc = c.proc ∧ c'.intr = k.top.before ∧ k'.top.depth = 0 := by
  rw [act, if_pos hold, popOff_eq h (by omega)]
  refine ⟨_, _, rfl, rfl, ?_, ?_⟩
  · show (decide (k.top.depth = 1) && c.intena) = _
    rw [decide_eq_true hdepth, Bool.true_and, h.intena (.inl hproc) (by omega)]
  · show k.top.depth - 1 = 0
    omega

end

/-! ## All of them -/

section

variable {E F A B : Type} {r : Option (Except E A)}

theorem map_ok {f : A → B} {b : B} (h : r.map (fun x => x.map f) = some (.ok b)) : ∃ a, r = some (.ok a) ∧ f a = b := by
  match r, h with
  | some (.ok a), h => exact ⟨a, rfl, Except.ok.inj (Option.some.inj h)⟩

theorem map_error {f : A → B} {e : E} (h : r.map (fun x => x.map f) = some (.error e)) : r = some (.error e) := by
  match r, h with
  | some (.error e'), h => rw [Except.error.inj (Option.some.inj h)]

theorem mapError_ok {g : E → F} {a : A} (h : r.map (fun x => x.mapError g) = some (.ok a)) : r = some (.ok a) := by
  match r, h with
  | some (.ok a'), h => rw [Except.ok.inj (Option.some.inj h)]

theorem mapError_error {g : E → F} {e : F} (h : r.map (fun x => x.mapError g) = some (.error e)) : ∃ e', e = g e' := by
  match r, h with
  | some (.error e'), h => exact ⟨e', (Except.error.inj (Option.some.inj h)).symm⟩

end

section

variable {C T L : Type} {s s' : State C T L}

/-- A thread in `sched`. -/
structure Out (k : Stack) (intena : Bool) : Prop where
  depth : k.top.depth = 1
  before : k.top.before = intena
  old : k.top.old = none
  below : ∀ f ∈ k.below, Rests f

structure Inv (s : State C T L) : Prop where
  runs : ∀ c, Runs (s.cpu c) (s.cur c)
  /-- Where a thread runs, the scheduler is in its `swtch`. -/
  waits : ∀ c, (s.cpu c).proc.isSome = true → Out (s.cpu c).sched (s.cpu c).sched.top.before
  out : ∀ t b, s.status t = .out b → Out (s.thread t) b
  running : ∀ c t, (s.cpu c).proc = some t → s.status t = .running
  unique : ∀ c c' t, (s.cpu c).proc = some t → (s.cpu c').proc = some t → c = c'

theorem inv_boot : Inv (boot : State C T L) where
  runs c := by
    refine ⟨rfl, fun _ => rfl, fun _ b h => ?_, fun f hf => ?_, fun _ h => absurd h (lt_irrefl 0)⟩
    · cases h
    · cases hf
  waits c h := by cases h
  out t b h := by cases h
  running c t h := by cases h
  unique c c' t h := by cases h

theorem cur_of_some {c : C} {t : T} (h : (s.cpu c).proc = some t) : s.cur c = s.thread t := by
  unfold State.cur
  rw [h]

theorem cur_of_none {c : C} (h : (s.cpu c).proc = none) : s.cur c = (s.cpu c).sched := by
  unfold State.cur
  rw [h]

/-- What another CPU is on is not changed. -/
theorem cur_congr {d : C} (hcpu : s'.cpu d = s.cpu d) (hthread : ∀ t, (s.cpu d).proc = some t → s'.thread t = s.thread t) :
    s'.cur d = s.cur d := by
  cases hproc : (s.cpu d).proc with
  | none => rw [cur_of_none hproc, cur_of_none (hcpu ▸ hproc), hcpu]
  | some t => rw [cur_of_some hproc, cur_of_some (s := s') (hcpu ▸ hproc), hthread t hproc]

/-- A step of CPU `c` leaves the others, and the threads on them, as they are. -/
theorem Inv.of_cpu (h : Inv s) {c : C} (hcpu : ∀ d, d ≠ c → s'.cpu d = s.cpu d)
    (hother : ∀ d t, d ≠ c → (s.cpu d).proc = some t → s'.thread t = s.thread t ∧ s'.status t = .running)
    (hruns : Runs (s'.cpu c) (s'.cur c))
    (hwaits : (s'.cpu c).proc.isSome = true → Out (s'.cpu c).sched (s'.cpu c).sched.top.before)
    (hout : ∀ t b, s'.status t = .out b → Out (s'.thread t) b)
    (hproc : ∀ t, (s'.cpu c).proc = some t → s'.status t = .running ∧ ∀ d, d ≠ c → (s.cpu d).proc ≠ some t) : Inv s' where
  runs d := by
    by_cases hd : d = c
    · exact hd ▸ hruns
    · rw [hcpu d hd, cur_congr (hcpu d hd) fun t ht => (hother d t hd ht).1]
      exact h.runs d
  waits d := by
    by_cases hd : d = c
    · exact hd ▸ hwaits
    · rw [hcpu d hd]
      exact h.waits d
  out := hout
  running d t ht := by
    by_cases hd : d = c
    · exact (hproc t (hd ▸ ht)).1
    · exact (hother d t hd (hcpu d hd ▸ ht)).2
  unique d d' t ht ht' := by
    by_cases hd : d = c
    · by_cases hd' : d' = c
      · rw [hd, hd']
      · exact absurd (hcpu d' hd' ▸ ht') ((hproc t (hd ▸ ht)).2 d' hd')
    · by_cases hd' : d' = c
      · exact absurd (hcpu d hd ▸ ht) ((hproc t (hd' ▸ ht')).2 d hd)
      · exact h.unique d d' t (hcpu d hd ▸ ht) (hcpu d' hd' ▸ ht')

variable [DecidableEq C] [DecidableEq T]

/-- A CPU and the stack it is on change as the CPU's own acts do. -/
theorem Inv.put (h : Inv s) {c : C} {cpu : Cpu T} {k : Stack} (hruns : Runs cpu k) (hproc : cpu.proc = (s.cpu c).proc)
    (hsched : cpu.sched = (s.cpu c).sched) : Inv (s.put c cpu k) := by
  cases ht : cpu.proc with
  | none =>
    have hcpu : (s.put c cpu k).cpu = update s.cpu c { cpu with sched := k } := by rw [State.put, ht]
    have hrest : (s.put c cpu k).thread = s.thread ∧ (s.put c cpu k).status = s.status := by
      rw [State.put, ht]
      exact ⟨rfl, rfl⟩
    have hself : (s.put c cpu k).cpu c = { cpu with sched := k } := by rw [hcpu, update_self]
    have hcur : (s.put c cpu k).cur c = k := by
      rw [cur_of_none (by rw [hself]; exact ht), hself]
    apply h.of_cpu (c := c)
    · intro d hd
      rw [hcpu, update_of_ne hd]
    · intro d t _ hdt
      rw [hrest.1, hrest.2]
      exact ⟨rfl, h.running d t hdt⟩
    · rw [hcur, hself]
      exact ⟨hruns.noff, hruns.off, hruns.old, hruns.below, hruns.intena⟩
    · rw [hself]
      intro hsome
      rw [show cpu.proc = none from ht] at hsome
      cases hsome
    · rw [hrest.1, hrest.2]
      exact h.out
    · rw [hself]
      intro t hct
      cases ht.symm.trans hct
  | some t =>
    have hct : (s.cpu c).proc = some t := hproc ▸ ht
    have hcpu : (s.put c cpu k).cpu = update s.cpu c cpu := by rw [State.put, ht]
    have hrest : (s.put c cpu k).thread = update s.thread t k ∧ (s.put c cpu k).status = s.status := by
      rw [State.put, ht]
      exact ⟨rfl, rfl⟩
    have hself : (s.put c cpu k).cpu c = cpu := by rw [hcpu, update_self]
    have hcur : (s.put c cpu k).cur c = k := by
      rw [cur_of_some (t := t) (by rw [hself]; exact ht), hrest.1, update_self]
    apply h.of_cpu (c := c)
    · intro d hd
      rw [hcpu, update_of_ne hd]
    · intro d t' hd hdt
      rw [hrest.1, hrest.2, update_of_ne]
      · exact ⟨rfl, h.running d t' hdt⟩
      · rintro rfl
        exact hd (h.unique d c t' hdt hct)
    · rw [hcur, hself]
      exact hruns
    · rw [hself, hsched]
      intro _
      exact h.waits c (by rw [hct]; rfl)
    · rw [hrest.1, hrest.2]
      intro t' b hb
      rw [update_of_ne]
      · exact h.out t' b hb
      · rintro rfl
        cases hb.symm.trans (h.running c t' hct)
    · rw [hself, hrest.2]
      intro t' hct'
      obtain rfl := Option.some.inj (ht.symm.trans hct')
      exact ⟨h.running c t hct, fun d hd hdt => hd (h.unique d c t hdt hct)⟩

/-- `sched`: the thread takes its `intena` with it, and the scheduler is at the depth at which it
left. -/
theorem Inv.sched (h : Inv s) {c : C} {t : T} (hproc : (s.cpu c).proc = some t) (hdepth : (s.thread t).top.depth = 1)
    (hold : (s.thread t).top.old = none) :
    Inv { s with
      cpu := update s.cpu c { s.cpu c with proc := none, back := true }
      status := update s.status t (.out (s.cpu c).intena) } := by
  have hruns := h.runs c
  rw [cur_of_some hproc] at hruns
  have hknown : (s.cpu c).proc.isSome = true := by
    rw [hproc]
    rfl
  have hwaits := h.waits c hknown
  apply h.of_cpu (c := c)
  · intro d hd
    exact update_of_ne hd ..
  · intro d t' hd hdt
    refine ⟨rfl, ?_⟩
    show update s.status t _ t' = _
    rw [update_of_ne]
    · exact h.running d t' hdt
    · rintro rfl
      exact hd (h.unique d c t' hdt hproc)
  · rw [cur_of_none] <;> simp only [update_self]
    refine ⟨?_, ?_, ?_, hwaits.below, ?_⟩
    · show (s.cpu c).noff = _
      rw [hruns.noff, hdepth, hwaits.depth]
    · intro _
      exact hruns.off (by omega)
    · intro hzero
      have := hwaits.depth
      omega
    · intro hor
      rcases hor with hsome | hback
      · cases hsome
      · cases hback
  · simp only [update_self]
    intro hsome
    cases hsome
  · intro t' b hb
    by_cases ht : t' = t
    · subst ht
      obtain rfl : (s.cpu c).intena = b := by
        have hb' : update s.status t' (.out (s.cpu c).intena) t' = .out b := hb
        rw [update_self] at hb'
        exact Status.out.inj hb'
      exact ⟨hdepth, (hruns.intena (.inl hknown) (by omega)).symm, hold, hruns.below⟩
    · have hb' : update s.status t (.out (s.cpu c).intena) t' = .out b := hb
      rw [update_of_ne ht] at hb'
      exact h.out t' b hb'
  · simp only [update_self]
    intro t' ht
    cases ht

/-- `swtch` to a thread: it finds the depth at which it left, and its own `intena`. -/
theorem Inv.swtch [DecidableEq L] {plock : T → L} (h : Inv s) {c : C} {t : T} (hs : Switchable plock s c t) :
    Inv { s with
      cpu := update s.cpu c { s.cpu c with proc := some t, intena := (s.status t).intena (s.cpu c) }
      thread := update s.thread t ((s.status t).stack (s.cpu c) (s.thread t))
      status := update s.status t .running } := by
  obtain ⟨hproc, hback, hbelow, hold, hdepth, -, hstatus⟩ := hs
  have hruns := h.runs c
  rw [cur_of_none hproc] at hruns
  have hnot : ∀ d, (s.cpu d).proc ≠ some t := fun d hd => hstatus (h.running d t hd)
  have hresume : Runs { s.cpu c with proc := some t, intena := (s.status t).intena (s.cpu c) }
      ((s.status t).stack (s.cpu c) (s.thread t)) := by
    cases hst : s.status t with
    | running => exact absurd hst hstatus
    | new =>
      refine ⟨hruns.noff, hruns.off, fun _ b hb => ?_, fun f hf => ?_, fun _ => hruns.intena (.inr hback)⟩
      · cases hb
      · cases hf
    | out b =>
      have hout := h.out t b hst
      have hone : (s.thread t).top.depth = (s.cpu c).sched.top.depth := hout.depth.trans hdepth.symm
      refine ⟨hruns.noff.trans hone.symm, fun hpos => hruns.off (hone ▸ hpos), fun hzero => ?_, hout.below,
        fun _ _ => hout.before.symm⟩
      exact absurd (hout.depth.symm.trans hzero) Nat.one_ne_zero
  apply h.of_cpu (c := c)
  · intro d hd
    exact update_of_ne hd ..
  · intro d t' _ hdt
    have hne : t' ≠ t := fun e => hnot d (e ▸ hdt)
    exact ⟨update_of_ne hne .., (update_of_ne hne ..).trans (h.running d t' hdt)⟩
  · rw [cur_of_some (t := t)] <;> simp only [update_self]
    exact hresume
  · simp only [update_self]
    intro _
    refine ⟨hdepth, rfl, hold, fun f hf => ?_⟩
    rw [hbelow] at hf
    cases hf
  · intro t' b hb
    have hb' : update s.status t .running t' = .out b := hb
    have hne : t' ≠ t := by
      rintro rfl
      rw [update_self] at hb'
      cases hb'
    rw [update_of_ne hne] at hb'
    show Out (update s.thread t _ t') b
    rw [update_of_ne hne]
    exact h.out t' b hb'
  · simp only [update_self]
    rintro t' ht
    cases ht
    exact ⟨update_self .., fun d _ => hnot d⟩

omit [DecidableEq C] in
/-- A new thread is in no `sched`. -/
theorem Inv.fork (h : Inv s) {t : T} (ht : s.status t ≠ .running) : Inv { s with status := update s.status t .new } where
  runs := h.runs
  waits := h.waits
  out t' b hb := by
    have hb' : update s.status t .new t' = .out b := hb
    by_cases hne : t' = t
    · rw [hne, update_self] at hb'
      cases hb'
    · rw [update_of_ne hne] at hb'
      exact h.out t' b hb'
  running c t' hc := by
    have hne : t' ≠ t := fun e => ht (e ▸ h.running c t' hc)
    exact (update_of_ne hne ..).trans (h.running c t' hc)
  unique := h.unique

variable [DecidableEq L] {plock : T → L} {a : Action C T L}

theorem Inv.step (h : Inv s) (ha : Proper s a) (hs : Intr.step plock s a = some (.ok s')) : Inv s' := by
  cases a with
  | act c a =>
    obtain ⟨x, hact, rfl⟩ := map_ok hs
    obtain ⟨hruns, hproc, hsched⟩ := act_runs (h.runs c) ha hact
    exact h.put hruns hproc hsched
  | take c l =>
    obtain ⟨-, rfl⟩ := acquiring_ok (mapError_ok hs)
    exact ⟨h.runs, h.waits, h.out, h.running, h.unique⟩
  | drop c l =>
    obtain ⟨-, rfl⟩ := releasing_ok (mapError_ok hs)
    exact ⟨h.runs, h.waits, h.out, h.running, h.unique⟩
  | sched c =>
    rw [Intr.step] at hs
    cases hproc : (s.cpu c).proc with
    | none =>
      rw [hproc] at hs
      cases hs
    | some t =>
      have hdepth : (s.thread t).top.depth = 1 := by
        rw [← cur_of_some hproc]
        exact ha
      simp only [hproc] at hs
      by_cases hold : (s.thread t).top.old = none
      · rw [if_neg (not_not.mpr hold)] at hs
        split_ifs at hs <;> cases hs
        exact h.sched hproc hdepth hold
      · rw [if_pos hold] at hs
        cases hs
  | swtch c t =>
    rw [Intr.step] at hs
    split at hs
    next hsw =>
      cases hs
      exact h.swtch hsw
    next => cases hs
  | fork t =>
    rw [Intr.step] at hs
    split at hs
    next ht =>
      cases hs
      exact h.fork ht
    next => cases hs

/-- `pop_off` does not panic, and neither does `sched` about interrupts or the number of locks. -/
theorem Inv.step_ne_error (h : Inv s) (ha : Proper s a) {p : Panic} (hp : ∀ q, p ≠ .spin q) :
    Intr.step plock s a ≠ some (.error p) := by
  intro hs
  cases a with
  | act c a => exact act_ne_error (h.runs c) ha p (map_error hs)
  | take c l | drop c l =>
    obtain ⟨q, rfl⟩ := mapError_error hs
    exact hp q rfl
  | sched c =>
    rw [Intr.step] at hs
    cases hproc : (s.cpu c).proc with
    | none =>
      rw [hproc] at hs
      cases hs
    | some t =>
      have hruns := h.runs c
      have hdepth : (s.cur c).top.depth = 1 := ha
      have hnoff : (s.cpu c).noff = 1 := hruns.noff.trans hdepth
      have hintr : (s.cpu c).intr = false := hruns.off (by omega)
      simp only [hproc, hnoff, hintr, ne_eq, not_true, if_false, Bool.false_eq_true] at hs
      split_ifs at hs <;> cases hs
      exact hp _ rfl
  | swtch c t | fork t =>
    rw [Intr.step] at hs
    split at hs <;> cases hs

/-- In every run in which each thread's sequence of `push_off` and `pop_off` is properly nested and
`sched` is entered at depth 1, `pop_off` does not panic. A thread that runs with positive depth has
interrupts off, and its outermost `pop_off` turns them on if and only if they were on before its
outermost `push_off`. -/
theorem interrupts_nest (plock : T → L) (as : List (Action C T L)) (has : EachStep (Intr.step plock) Proper boot as) :
    run (Intr.step plock) boot as ≠ some (.error .popInterruptible) ∧ run (Intr.step plock) boot as ≠ some (.error .pop) ∧
    ∀ s, run (Intr.step plock) boot as = some (.ok s) → ∀ c t, (s.cpu c).proc = some t →
      (0 < (s.thread t).top.depth → (s.cpu c).intr = false) ∧
      ((s.thread t).top.depth = 1 → (s.thread t).top.old = none →
        ∃ s', Intr.step plock s (.act c .pop) = some (.ok s') ∧ (s'.thread t).top.depth = 0 ∧
          ((s'.cpu c).intr = true ↔ (s.thread t).top.before = true)) := by
  have hkeep : ∀ (s : State C T L) a s', Inv s → Proper s a → Intr.step plock s a = some (.ok s') → Inv s' :=
    fun _ _ _ h ha hs => h.step ha hs
  refine ⟨run_ne_error hkeep (fun _ _ h ha => h.step_ne_error ha fun q => by simp) inv_boot has,
    run_ne_error hkeep (fun _ _ h ha => h.step_ne_error ha fun q => by simp) inv_boot has, ?_⟩
  intro s hrun c t hproc
  have hinv := run_invariant hkeep inv_boot has hrun
  have hruns := hinv.runs c
  rw [cur_of_some hproc] at hruns
  refine ⟨hruns.off, fun hdepth hold => ?_⟩
  obtain ⟨cpu, k, hact, hproc', hintr, hzero⟩ := act_pop hruns (by rw [hproc]; rfl) hdepth hold
  refine ⟨s.put c cpu k, ?_, ?_, ?_⟩
  · rw [Intr.step, cur_of_some hproc, hact]
    rfl
  · rw [State.put, hproc', hproc]
    simp only [update_self, hzero]
  · rw [State.put, hproc', hproc]
    simp only [update_self, hintr]

/-- On one of two CPUs a thread turns interrupts on and is interrupted between the first lines of
`push_off`. The handler yields, and the thread goes on on the other CPU. -/
def migration : List (Action Bool Unit Unit) :=
  [.act false .read, .act false .off, .take false (), .swtch false (), .drop false (), .act false .pop, .act false .intrOn,
    .act false .read, .act false .trap, .act false .read, .act false .off, .take false (), .sched false, .drop false (),
    .act false .pop, .act true .intrOn, .act true .read, .act true .off, .take true (), .swtch true (), .drop true (),
    .act true .pop, .act true .sret, .act true .off]

/-- There the outermost `pop_off` turns interrupts on again. -/
theorem interrupts_nest_migration :
    ∃ s s', run (Intr.step id) boot migration = some (.ok s) ∧ (s.cpu true).proc = some () ∧
      Intr.step id s (.act true .pop) = some (.ok s') ∧ (s'.cpu true).intr = true := by
  obtain ⟨s, hrun, hproc, hdepth, hbefore, hold⟩ := exists_of_endsIn
    (P := fun s : State Bool Unit Unit => (s.cpu true).proc = some () ∧ (s.thread ()).top.depth = 1 ∧
      (s.thread ()).top.before = true ∧ (s.thread ()).top.old = none)
    (r := run (Intr.step id) boot migration) (by decide +kernel)
  obtain ⟨s', hs', -, hintr⟩ :=
    ((interrupts_nest id migration (by decide +kernel)).2.2 s hrun true () hproc).2 hdepth hold
  exact ⟨s, s', hrun, hproc, hs', hintr.mpr hbefore⟩

end

end Xv6.Intr
