import Xv6.Kernel.Ownership

/-!
# Whom `kill` reaches

`kill` looks for a pid in all of `proc[]`, also in the free slots. That is right as long as a free
slot has pid 0 and `killed` is not set there (`Clean`), and nobody asks for pid 0. `Tidy` says what
a call may do to the free slots; all calls do only that, except two: `kill(0)` sets `killed` in a
free slot, and `allocproc` leaves a pid in one when there is no page for a trapframe. That a process
that has been killed exits is not shown.
-/

namespace Xv6.Kernel

open Prog Vm Function State List

variable {L : Layout} {s s' : State} {p : Slot}

/-- A free slot has no pid and is not killed. -/
def Clean (s : State) : Prop := ∀ q, (s.proc q).state = .unused → (s.proc q).pid = 0 ∧ (s.proc q).killed = false

/-- A free slot was cleared, or was free before and is as it was. -/
def Tidy (s s' : State) : Prop := ∀ q, (s'.proc q).state = .unused →
  ((s'.proc q).pid = 0 ∧ (s'.proc q).killed = false) ∨
    ((s.proc q).state = .unused ∧ (s'.proc q).pid = (s.proc q).pid ∧ (s'.proc q).killed = (s.proc q).killed)

theorem Clean.tidy (h : Clean s) (ht : Tidy s s') : Clean s' := by
  intro q hq
  rcases ht q hq with hclear | ⟨hold, hpid, hkilled⟩
  · exact hclear
  · rw [hpid, hkilled]
    exact h q hold

namespace Tidy

theorem of_proc (h : s'.proc = s.proc) : Tidy s s' := by
  intro q hq
  rw [h] at hq ⊢
  exact .inr ⟨hq, rfl, rfl⟩

theorem trans {s'' : State} (h : Tidy s s') (h' : Tidy s' s'') : Tidy s s'' := by
  intro q hq
  rcases h' q hq with hclear | ⟨hold, hpid, hkilled⟩
  · exact .inl hclear
  · rw [hpid, hkilled]
    exact h q hold

variable {x : Proc}

section

variable (hproc : s'.proc = update s.proc p x)
include hproc

/-- One slot changes. -/
theorem of_update (hx : x.state = .unused → (x.pid = 0 ∧ x.killed = false) ∨
    ((s.proc p).state = .unused ∧ x.pid = (s.proc p).pid ∧ x.killed = (s.proc p).killed)) :
    Tidy s s' := by
  intro q hq
  rw [hproc] at hq ⊢
  by_cases hqp : q = p
  · subst hqp
    rw [update_self] at hq ⊢
    exact hx hq
  · rw [update_of_ne hqp] at hq ⊢
    exact .inr ⟨hq, rfl, rfl⟩

/-- Fields other than the state, the pid and `killed` change. -/
theorem fields (hstate : x.state = (s.proc p).state) (hpid : x.pid = (s.proc p).pid)
    (hkilled : x.killed = (s.proc p).killed) : Tidy s s' :=
  of_update hproc fun hx => .inr ⟨hstate.symm.trans hx, hpid, hkilled⟩

/-- A slot is in use afterwards. -/
theorem used (hx : x.state ≠ .unused) : Tidy s s' :=
  of_update hproc fun h => absurd h hx

end

theorem setProc_fields (hstate : x.state = (s.proc p).state) (hpid : x.pid = (s.proc p).pid)
    (hkilled : x.killed = (s.proc p).killed) : Tidy s (s.setProc p x) :=
  fields rfl hstate hpid hkilled

theorem setProc_used (hx : x.state ≠ .unused) : Tidy s (s.setProc p x) := used rfl hx

theorem reopened (h : Reopened p s s') : Tidy s s' := by
  obtain ⟨⟨ofile, hproc⟩, -, -⟩ := h
  exact fields hproc rfl rfl rfl

theorem execed {r : Int} {B : Multiset Nat} {held : FileId → Int} (h : Execed L s p B held r s') : Tidy s s' := by
  cases h with
  | failed _ hundone =>
    apply of_proc
    rw [hundone.eq]
    rfl
  | done => exact fields (p := p) rfl rfl rfl rfl

end Tidy

/-! ## The calls -/

/-- However the call stops. -/
def anyStop : Panic → State → Prop := fun _ _ => True

theorem wp_onMem_any {α : Type} {c : Call α} {Q : α → State → Prop} (h : ∀ a m', Q a (s.setMem m')) :
    wp (onMem c) Q anyStop s := by
  rw [wp_onMem]
  unfold wp
  cases c s.mem with
  | ok a m' => exact h a m'
  | stop e m' => trivial

theorem wp_onMem_onlyIf {c : Prop} [Decidable c] {call : Call Unit} {Q : Unit → State → Prop} (h : ∀ m', Q () (s.setMem m')) :
    wp (onlyIf c (onMem call)) Q anyStop s := by
  apply wp_onlyIf
  · intro _
    exact wp_onMem_any fun _ m' => h m'
  · intro _
    exact h s.mem

theorem freeproc_proc : wp (freeproc L p) (fun _ s' => s'.proc = update s.proc p (s.proc p).free) anyStop s := by
  unfold freeproc
  rw [wp_bind, wp_read, wp_bind]
  apply wp_onMem_onlyIf
  intro m₁
  rw [wp_bind]
  apply wp_onMem_onlyIf
  intro m₂
  rfl

theorem growproc_tidy {n : BitVec 32} : wp (growproc L p n) (fun _ s' => Tidy s s') anyStop s := by
  have hsz : ∀ m' sz, Tidy s ((s.setMem m').setProc p ((s.proc p).setSz sz)) := fun m' sz => .fields (p := p) rfl rfl rfl rfl
  unfold growproc
  rw [wp_bind, wp_read]
  apply wp_ite
  · intro _
    rw [wp_bind]
    apply wp_onMem_any
    intro r m'
    apply wp_ite
    · intro _
      exact .of_proc rfl
    · intro _
      exact hsz m' _
  · intro _
    apply wp_ite
    · intro _
      rw [wp_bind]
      apply wp_onMem_any
      intro r m'
      exact hsz m' _
    · intro _
      exact hsz s.mem _

/-- The slot that `allocproc` hands out. -/
structure Handed (s s' : State) (np : Slot) : Prop where
  found : (finRange NPROC).find? (fun p => (s.proc p).state = .unused) = some np
  proc : ∃ x, s'.proc = update s.proc np x ∧ x.state = .unused ∧ x.killed = (s.proc np).killed

/-- The next call of `kalloc` finds a page. -/
def PageFree (m : Mem) : Prop := m.fails.headD false = false ∧ m.freelist ≠ 0

theorem kalloc_ne_zero {m : Mem} : wp kalloc (fun r _ => PageFree m → r ≠ 0) (fun _ _ => True) m := by
  unfold kalloc
  rw [wp_bind, wp_read, wp_bind, wp_change, wp_bind, wp_read]
  apply wp_ite
  · rintro (hfail | hnull) ⟨hfail', hfree⟩
    · rw [hfail] at hfail'
      cases hfail'
    · exact absurd hnull hfree
  · rintro hok ⟨-, hfree⟩
    exact hfree

/-- When there is a page for the trapframe, a failed `allocproc` leaves no trace. -/
theorem allocproc_tidy : wp (allocproc L) (fun r s' =>
    (r = none → ((∃ p, (s.proc p).state = .unused) → PageFree s.mem) → Tidy s s') ∧ ∀ np, r = some np → Handed s s' np) anyStop s := by
  unfold allocproc
  rw [wp_bind, wp_read]
  cases hfind : (finRange NPROC).find? fun p => (s.proc p).state = .unused with
  | none => exact ⟨fun _ _ => .of_proc rfl, (fun np hnp => by cases hnp)⟩
  | some np =>
    have hnp : (s.proc np).state = .unused := by simpa using find?_some hfind
    show wp (allocpid >>= _) _ _ s
    rw [wp_bind, allocpid, wp_bind, wp_read, wp_bind, wp_change, wp_pure, wp_bind, assign, wp_change, wp_bind, wp_onMem]
    apply wp_mono (kalloc_ne_zero (m := s.mem)) _ fun _ _ _ => trivial
    intro trapframe m₁ htf
    rw [wp_bind, assign, wp_change]
    apply wp_ite
    · intro hzero
      exact ⟨fun _ hpage => absurd hzero (htf (hpage ⟨np, hnp⟩)), (fun np hnp => by cases hnp)⟩
    intro _
    rw [wp_bind]
    apply wp_onMem_any
    intro pagetable m₂
    rw [wp_bind, assign, wp_change]
    simp only [setProc_proc, setProc_setProc, setProc_setMem, setMem_setMem,
      setNextpid_proc, setNextpid_setMem]
    apply wp_ite
    · intro _
      apply wp_seq freeproc_proc
      intro _ s₃ hs₃
      refine ⟨fun _ _ => .of_update (p := np) (x := (s.proc np).free) ?_ fun _ => .inl ⟨rfl, rfl⟩, (fun np hnp => by cases hnp)⟩
      rw [hs₃]
      show update (update s.proc np _) np _ = _
      rw [update_idem, setProc_proc]
      rfl
    · intro _
      refine ⟨(fun h => by cases h), fun np' hnp' => ?_⟩
      cases hnp'
      exact ⟨hfind, _, rfl, hnp, rfl⟩

theorem filedup_proc {f : FileId} : wp (filedup f) (fun _ s' => s'.proc = s.proc) anyStop s := by
  unfold filedup
  rw [wp_bind, wp_read]
  apply wp_ite
  · intro _
    trivial
  · intro _
    rfl

variable {np : Slot}

/-- `p` and `np` aside, nothing happens to a slot. -/
theorem dupFiles_proc :
    wp (dupFiles p np) (fun _ s' => ∃ x, s'.proc = update s.proc np x) anyStop s := by
  apply wp_each (fun _ s' => ∃ x, s'.proc = update s.proc np x) _ _ s ⟨s.proc np, (update_eq_self ..).symm⟩
  rintro fd _ s₁ ⟨x, hx⟩
  rw [wp_bind, wp_read]
  cases (s₁.proc p).ofile fd with
  | none => exact ⟨x, hx⟩
  | some f =>
    apply wp_seq filedup_proc
    intro _ s₂ hs₂
    refine ⟨(s₂.proc np).setOfile fd (some f), ?_⟩
    show update s₂.proc np _ = _
    rw [hs₂, hx, update_idem]

theorem forkFinish_tidy :
    wp (forkFinish p np) (fun _ s' => ∃ x, s'.proc = update s.proc np x ∧
    x.state = .runnable) anyStop s := by
  unfold forkFinish
  rw [wp_bind, wp_read, wp_bind, wp_read, wp_bind, assign, wp_change, wp_bind, assign, wp_change, setProc_proc,
    setProc_setProc, wp_bind]
  apply wp_onMem_any
  intro _ m₁
  apply wp_seq dupFiles_proc
  rintro _ s₂ ⟨x, hx⟩
  rw [wp_bind, assign, wp_change, wp_bind, assign, wp_change, setProc_proc, setProc_setProc, wp_bind, assign,
    wp_change, setProc_proc, setProc_setProc, wp_pure]
  refine ⟨(((s₂.proc np).setCwd (s.proc p).cwd).setName (s.proc p).name).setState .runnable, ?_, rfl⟩
  generalize (((s₂.proc np).setCwd (s.proc p).cwd).setName (s.proc p).name).setState .runnable = y
  show update s₂.proc np y = _
  rw [hx]
  show update (update (update s.proc np _) np _) np y = _
  rw [update_idem, update_idem]

theorem fork_tidy (hkalloc : (∃ p, (s.proc p).state = .unused) → PageFree s.mem) :
    wp (fork L p) (fun _ s' => Tidy s s') anyStop s := by
  unfold fork
  apply wp_seq allocproc_tidy
  rintro r s₁ ⟨hnone, hsome⟩
  cases r with
  | none => exact hnone rfl hkalloc
  | some np =>
    obtain ⟨-, x, hx, -, -⟩ := hsome np rfl
    rw [wp_bind, wp_read, wp_bind, wp_read, wp_bind]
    apply wp_onMem_any
    intro r m₂
    apply wp_ite
    · intro _
      apply wp_seq freeproc_proc
      intro _ s₃ hs₃
      apply Tidy.of_update (p := np) (x := (s₁.proc np).free) _ fun _ => .inl ⟨rfl, rfl⟩
      rw [hs₃]
      show update s₁.proc np (s₁.proc np).free = update s.proc np (s₁.proc np).free
      generalize (s₁.proc np).free = y
      rw [hx, update_idem]
    · intro _
      apply wp_mono forkFinish_tidy _ fun _ _ => id
      rintro _ s₃ ⟨y, hy, hrun⟩
      apply Tidy.used (p := np) (x := y) _ (by rw [hrun]; decide)
      rw [hy]
      show update s₁.proc np y = _
      rw [hx, update_idem]

theorem wakeup1_tidy {q : Slot} (h : Tidy s s') : wp (wakeup1 q) (fun _ s'' => Tidy s s'') anyStop s' := by
  unfold wakeup1
  rw [wp_bind, wp_read]
  apply wp_onlyIf
  · intro _
    exact h.trans (.setProc_used (ProcState.noConfusion ·))
  · intro _
    exact h

theorem reparent_tidy {q : Slot} (h : Tidy s s') : wp (reparent q) (fun _ s'' => Tidy s s'') anyStop s' := by
  apply wp_each (fun _ s'' => Tidy s s'') _ _ s' h
  intro pp _ s₁ h₁
  rw [wp_bind, wp_read, wp_bind, wp_read]
  apply wp_onlyIf
  · intro _
    exact h₁.trans (.setProc_fields rfl rfl rfl)
  · intro _
    exact h₁

theorem exit_tidy {status : BitVec 32} (h : Inv L s) : wp (exit L p status) (fun _ s' => Tidy s s') anyStop s := by
  unfold exit
  rw [wp_bind, wp_read]
  apply wp_ite
  · intro _
    trivial
  · intro _
    have hclose : wp (closeFiles L p) (fun _ s' => Reopened p s s') anyStop s :=
      wp_mono (closeFiles_spec h.core) (fun _ _ h => h.1) fun _ _ _ => trivial
    apply wp_seq hclose
    intro _ s₁ hre
    rw [wp_bind, wp_read]
    cases s.initproc with
    | none => trivial
    | some initproc =>
      cases (s₁.proc p).parent with
      | none => trivial
      | some parent =>
        show wp (exitFinish p initproc parent status) _ _ s₁
        have h₁ : Tidy s (s₁.setProc p ((s₁.proc p).setCwd none)) := (Tidy.reopened hre).trans (.setProc_fields rfl rfl rfl)
        unfold exitFinish
        rw [wp_bind, assign, wp_change]
        apply wp_seq (wakeup1_tidy h₁)
        intro _ s₂ h₂
        apply wp_seq (reparent_tidy h₂)
        intro _ s₃ h₃
        apply wp_seq (wakeup1_tidy h₃)
        intro _ s₄ h₄
        rw [wp_bind, assign, wp_change, assign, wp_change, setProc_proc, setProc_setProc]
        exact h₄.trans (.setProc_used (ProcState.noConfusion ·))

theorem reap_tidy {addr : Nat} : wp (reap L p np addr) (fun _ s' => Tidy s s') anyStop s := by
  unfold reap
  rw [wp_bind, wp_read, wp_bind, wp_read, wp_bind]
  apply wp_onMem_any
  intro r m₁
  apply wp_ite
  · intro _
    exact .of_proc rfl
  · intro _
    apply wp_seq freeproc_proc
    intro _ s₂ hs₂
    exact .of_update (p := np) hs₂ fun _ => .inl ⟨rfl, rfl⟩

theorem wait_tidy {addr : Nat} : wp (wait L p addr) (fun _ s' => Tidy s s') anyStop s := by
  unfold wait
  rw [wp_bind, assign, wp_change]
  have h₁ : Tidy s (s.setProc p ((s.proc p).setChan none)) := .fields (p := p) rfl rfl rfl rfl
  generalize s.setProc p ((s.proc p).setChan none) = s₁ at h₁ ⊢
  rw [wp_bind, wp_read]
  cases (finRange NPROC).find? fun np => (s₁.proc np).parent = some p ∧ (s₁.proc np).state = .zombie with
  | some np =>
    apply wp_seq reap_tidy
    intro r s₂ h₂
    exact h₁.trans h₂
  | none =>
    show wp (read _ >>= _) _ _ s₁
    rw [wp_bind, wp_read, wp_bind, wp_read]
    apply wp_ite
    · intro _
      exact h₁
    · intro _
      rw [wp_bind, assign, wp_change, wp_bind, assign, wp_change, setProc_proc, setProc_setProc]
      exact h₁.trans (.setProc_used (ProcState.noConfusion ·))

/-! ## `kill` -/

/-- The process after `kill` has found it. -/
def Proc.struck (q : Proc) : Proc := if q.state = .sleeping then q.setKilled.setState .runnable else q.setKilled

/-- What `kill` does: the first slot with the pid is hit, or nothing happens. -/
def Killed (s : State) (pid : BitVec 32) (r : Int) (s' : State) : Prop :=
  match (finRange NPROC).find? fun p => (s.proc p).pid = pid with
  | none => r = -1 ∧ s' = s
  | some p => r = 0 ∧ s' = s.setProc p (s.proc p).struck

theorem kill_exact (s : State) (pid : BitVec 32) : wp (kill pid) (Killed s pid) never s := by
  unfold kill Killed
  rw [wp_bind, wp_read]
  cases (finRange NPROC).find? fun p => (s.proc p).pid = pid with
  | none => exact ⟨rfl, rfl⟩
  | some p =>
    show wp (read (fun s => s.proc p) >>= _) _ _ s
    rw [wp_bind, wp_read, wp_bind, assign, wp_change]
    show wp (onlyIf ((s.proc p).state = .sleeping) _ >>= _) _ _ _
    rw [wp_bind]
    apply wp_onlyIf
    · intro hsleep
      have hx : (s.proc p).struck = (s.proc p).setKilled.setState .runnable := if_pos hsleep
      rw [assign, wp_change, setProc_proc, setProc_setProc, wp_pure]
      exact ⟨rfl, by rw [hx]⟩
    · intro hnot
      have hx : (s.proc p).struck = (s.proc p).setKilled := if_neg hnot
      rw [wp_pure]
      exact ⟨rfl, by rw [hx]⟩

theorem Proc.struck_state (q : Proc) : q.struck.state = .unused ↔ q.state = .unused := by
  unfold Proc.struck
  split
  next h =>
    constructor
    · intro h'
      cases h'
    · intro h'
      cases h.symm.trans h'
  next => rfl

theorem Proc.struck_pid (q : Proc) : q.struck.pid = q.pid := by
  unfold Proc.struck
  split <;> rfl

/-- Nobody comes, goes or gets another pid. -/
theorem Killed.proc {pid : BitVec 32} {r : Int} (h : Killed s pid r s') (q : Slot) :
    ((s'.proc q).state = .unused ↔ (s.proc q).state = .unused) ∧ (s'.proc q).pid = (s.proc q).pid := by
  unfold Killed at h
  split at h
  next =>
    rw [h.2]
    exact ⟨Iff.rfl, rfl⟩
  next np _ =>
    rw [h.2]
    by_cases hq : q = np
    · subst hq
      rw [setProc_proc]
      exact ⟨Proc.struck_state _, Proc.struck_pid _⟩
    · rw [setProc_of_ne _ _ hq]
      exact ⟨Iff.rfl, rfl⟩

/-! ## Steps and runs -/

theorem call_tidy {op : Op} (h : Inv L s) (hclean : Clean s) (hrun : (s.proc p).state = .runnable)
    (hkill : ∀ pid, op = .kill pid → pid ≠ 0) (hfork : op = .fork → (∃ p, (s.proc p).state = .unused) → PageFree s.mem) :
    wp (op.call L p) (fun _ s' => Clean s') anyStop s := by
  have hlive := h.live hrun
  -- what is left of a call is that it is tidy
  have htidy : ∀ {α : Type} {c : Sys α}, wp c (fun _ s' => Tidy s s') anyStop s →
      wp (do let _ ← c) (fun _ s' => Clean s') anyStop s := fun hc => wp_seq hc fun _ _ ht => hclean.tidy ht
  have hreopened : ∀ {α : Type} {c : Sys α}, wp c (fun _ s' => Reopened p s s' ∧ Core L s' 0 0) never s →
      wp (do let _ ← c) (fun _ s' => Clean s') anyStop s := fun hc =>
    htidy (wp_mono hc (fun _ _ h => .reopened h.1) fun _ _ _ => trivial)
  cases op with
  | fork => exact htidy (fork_tidy (hfork rfl))
  | exec path file uargv =>
    exact htidy (wp_mono (wp_alone (sysExec_spec h.core hlive)) (fun _ _ he => .execed he) fun _ _ _ => trivial)
  | sbrk n =>
    apply htidy
    unfold sysSbrk
    rw [wp_bind, wp_read]
    apply wp_seq growproc_tidy
    intro r s' ht
    apply wp_ite <;> exact fun _ => ht
  | exit status => exact wp_mono (exit_tidy h) (fun _ _ ht => hclean.tidy ht) fun _ _ => id
  | wait addr => exact htidy wait_tidy
  | kill pid =>
    apply htidy
    apply wp_mono (kill_exact s pid) _ fun _ _ h => h.elim
    intro r s' hk
    unfold Killed at hk
    split at hk
    next => exact .of_proc (congrArg proc hk.2)
    next q hfind =>
      -- the slot has a pid, so it is not free
      have hq : (s.proc q).pid = pid := by simpa using find?_some hfind
      rw [hk.2]
      apply Tidy.setProc_used
      intro hunused
      exact hkill pid rfl (hq.symm.trans (hclean q ((Proc.struck_state _).mp hunused)).1)
  | pipe fdarray => exact hreopened (sysPipe_spec h.core hlive)
  | close fd => exact hreopened (sysClose_spec h.core)
  | dup fd => exact hreopened (sysDup_spec h.core)
  | «open» device readable writable ip => exact hreopened (sysOpen_spec h.core)
  | store va bytes =>
    show wp (read (fun s => (s.proc p).pagetable) >>= _) _ _ s
    rw [wp_bind, wp_read]
    apply htidy
    apply wp_onMem_any
    intro _ m'
    exact .of_proc rfl

/-- The two steps that leave something in a free slot: `kill(0)`, and a `fork` that finds a slot but
no page. -/
def Careful (s : State) (a : Action) : Prop :=
  (∀ pid, a.op = .kill pid → pid ≠ 0) ∧
    (a.op = .fork → (∃ p, (s.proc p).state = .unused) → PageFree (s.mem.setFails a.fails))

theorem step_clean {a : Action} (h : Inv L s ∧ Clean s) (ha : Careful s a) (hstep : step L s a = some (.ok s')) :
    Inv L s' ∧ Clean s' := by
  refine ⟨step_inv h.1 hstep, ?_⟩
  unfold step at hstep
  split at hstep
  next hrun =>
    have hcall : wp (a.op.call L a.proc) (fun _ s' => Clean s') anyStop _ := call_tidy (h.1.setFails a.fails) h.2 hrun ha.1 ha.2
    cases hres : a.op.call L a.proc (s.setMem (s.mem.setFails a.fails)) with
    | ok u s₁ =>
      rw [hres] at hstep
      cases hstep
      exact wp_ok hcall hres
    | stop e s₁ =>
      rw [hres] at hstep
      cases hstep
  next => cases hstep

theorem Fresh.clean (h : Fresh L s p) : Clean s := by
  intro q hq
  have hne : q ≠ p := by
    rintro rfl
    cases h.run.symm.trans hq
  rw [h.others q hne]
  exact ⟨rfl, rfl⟩

/-- A new process is killed when its slot was. -/
theorem allocproc_killed (hres : allocproc L s = .ok (some np) s') :
    (s.proc np).state = .unused ∧ (s'.proc np).killed = (s.proc np).killed := by
  obtain ⟨hfound, x, hx, -, hkilled⟩ := (wp_ok allocproc_tidy hres).2 np rfl
  refine ⟨by simpa using find?_some hfound, ?_⟩
  rw [hx, update_self]
  exact hkilled

/-- Before the two steps that leave something in a free slot, `kill` returns 0 just when a process
has the pid, and then changes that process only; otherwise it changes nothing. And a new process is
not killed. -/
theorem kill_reaches_processes (L : Layout) (hL : L.Bootable) (root : Nat) (word : Nat → Nat → Word) (s₀ s : State)
    (as : List Action) (hboot : boot L root (reset word) = .ok () s₀) (hcareful : EachStep (step L) Careful s₀ as)
    (hrun : run (step L) s₀ as = some (.ok s)) :
    (∀ pid, pid ≠ 0 → ∃ r s', kill pid s = .ok r s' ∧
      (r = 0 ↔ ∃ p, (s.proc p).state ≠ .unused ∧ (s.proc p).pid = pid) ∧
      (r = 0 → ∃ p x, (s.proc p).state ≠ .unused ∧ (s.proc p).pid = pid ∧ s' = s.setProc p x) ∧
      (r ≠ 0 → r = -1 ∧ s' = s)) ∧
    ∀ fails np s', allocproc L (s.setMem (s.mem.setFails fails)) = .ok (some np) s' → (s'.proc np).killed = false := by
  obtain ⟨p, hfresh⟩ := wp_ok (boot_spec hL root word) hboot
  have hclean : Clean s := by
    have hboth := run_invariant (I := fun s => Inv L s ∧ Clean s) (fun s a s' h ha hstep => step_clean h ha hstep)
      ⟨hfresh.inv, hfresh.clean⟩ hcareful hrun
    exact hboth.2
  refine ⟨fun pid hpid => ?_, fun fails np s' hres => ?_⟩
  · obtain ⟨r, s', hres, hk⟩ := wp_returns (kill_exact s pid)
    refine ⟨r, s', hres, ?_⟩
    unfold Killed at hk
    split at hk
    next hfind =>
      obtain ⟨rfl, rfl⟩ := hk
      have hnone : ¬ ∃ p, (s'.proc p).state ≠ .unused ∧ (s'.proc p).pid = pid := by
        rintro ⟨q, -, hq⟩
        have hnot := find?_eq_none.mp hfind q (mem_finRange q)
        simp [hq] at hnot
      exact ⟨⟨(fun h => by cases h), fun h => absurd h hnone⟩, (fun h => by cases h), fun _ => ⟨rfl, rfl⟩⟩
    next q hfind =>
      obtain ⟨rfl, rfl⟩ := hk
      have hq : (s.proc q).pid = pid := by simpa using find?_some hfind
      have hused : (s.proc q).state ≠ .unused := fun h => hpid (hq.symm.trans (hclean q h).1)
      exact ⟨⟨fun _ => ⟨q, hused, hq⟩, fun _ => rfl⟩, fun _ => ⟨q, _, hused, hq, rfl⟩, fun h => absurd rfl h⟩
  · obtain ⟨hunused, hkilled⟩ := allocproc_killed hres
    rw [hkilled]
    exact (hclean np hunused).2

/-- `init` forks and kills its child, and then can kill it again. -/
theorem kill_reaches_processes_forked : ∃ s₀ s₁ s₂ p np s₃, boot fourPages 1 (reset fun _ _ => 0) = .ok () s₀ ∧
    step fourPages s₀ ⟨p, .fork, []⟩ = some (.ok s₁) ∧ (s₁.proc np).state = .runnable ∧ (s₁.proc np).pid = 2 ∧
    step fourPages s₁ ⟨p, .kill 2, []⟩ = some (.ok s₂) ∧ kill 2 s₂ = .ok 0 s₃ := by
  obtain ⟨s₀, s₁, p, np, hboot, hfresh, hfork, hforked⟩ := exists_forked fourPages_bootable
  obtain ⟨hrun, -⟩ := hforked.run p (by simp)
  obtain ⟨hchild, -⟩ := hforked.run np (by simp)
  obtain ⟨r, s₂, hkill, hk⟩ := wp_returns (kill_exact (s₁.setMem (s₁.mem.setFails [])) 2)
  have hstep : step fourPages s₁ ⟨p, .kill 2, []⟩ = some (.ok s₂) := step_of_call rfl hrun hkill
  have hcareful : EachStep (step fourPages) Careful s₀ [⟨p, .fork, []⟩, ⟨p, .kill 2, []⟩] := by
    obtain ⟨out, hpool, hout⟩ := hfresh.room
    have hcard := fourPages_bootable.card_frames
    have hfree := Pool.freelist_ne_zero (hpool.fed hfresh.fails (k := 1) (by omega))
    refine eachStep_cons ⟨(fun _ h => by cases h), fun _ _ => ⟨rfl, hfree⟩⟩ fun s hs => ?_
    exact eachStep_cons ⟨(fun pid h => by cases h; decide), (fun h => by cases h)⟩ fun _ _ => trivial
  have hrun₂ : run (step fourPages) s₀ [⟨p, .fork, []⟩, ⟨p, .kill 2, []⟩] = some (.ok s₂) := by
    rw [run_cons_ok hfork, run_cons_ok hstep]
    rfl
  obtain ⟨r', s₃, hkill', hiff, -⟩ := (kill_reaches_processes fourPages fourPages_bootable 1 (fun _ _ => 0) s₀ s₂ _ hboot
    hcareful hrun₂).1 2 (by decide)
  have hzero : r' = 0 := hiff.mpr ⟨np, (hk.proc np).1.not.mpr (fun h => by cases hchild.symm.trans h), (hk.proc np).2.trans hforked.pid⟩
  exact ⟨s₀, s₁, s₂, p, np, s₃, hboot, hfork, hchild, hforked.pid, hstep, hzero ▸ hkill'⟩

/-- After boot the free slots are those with pid 0. -/
theorem Fresh.unused_iff (h : Fresh L s p) (q : Slot) : (s.proc q).state = .unused ↔ (s.proc q).pid = 0 := by
  by_cases hq : q = p
  · subst hq
    rw [h.run, h.pid]
    decide
  · rw [h.others q hq]
    decide

theorem Fresh.exists_free (h : Fresh L s p) : ∃ q, (s.proc q).pid = 0 := by
  have hne : ∃ q : Slot, q ≠ p := by
    by_cases hp : p = ⟨0, by decide⟩
    · exact ⟨⟨1, by decide⟩, by rw [hp]; decide⟩
    · exact ⟨⟨0, by decide⟩, Ne.symm hp⟩
  obtain ⟨q, hq⟩ := hne
  refine ⟨q, ?_⟩
  rw [h.others q hq]
  rfl

/-- `init` calls `kill(0)` as the first call after boot. It returns 0 though no process has pid 0,
and the next process that `allocproc` hands out is killed. -/
theorem kill_zero_marks_next_process : ∃ s₀ s₁ p np s₂, boot fourPages 1 (reset fun _ _ => 0) = .ok () s₀ ∧
    (s₀.proc p).state = .runnable ∧ (∀ q, (s₀.proc q).state ≠ .unused → (s₀.proc q).pid ≠ 0) ∧ kill 0 s₀ = .ok 0 s₁ ∧
    step fourPages s₀ ⟨p, .kill 0, []⟩ = some (.ok s₁) ∧
    allocproc fourPages s₁ = .ok (some np) s₂ ∧ (s₂.proc np).killed = true := by
  obtain ⟨s₀, p, hboot, hfresh⟩ := exists_fresh fourPages_bootable 1 fun _ _ => 0
  obtain ⟨r, s₁, hkill, hk⟩ := wp_returns (kill_exact s₀ 0)
  unfold Killed at hk
  split at hk
  next hfind =>
    obtain ⟨q, hq⟩ := hfresh.exists_free
    have hnot := find?_eq_none.mp hfind q (mem_finRange q)
    simp [hq] at hnot
  next q hfind =>
    obtain ⟨rfl, rfl⟩ := hk
    have hq : (s₀.proc q).pid = 0 := by simpa using find?_some hfind
    have hunused := (hfresh.unused_iff q).mpr hq
    have hstruck : (s₀.proc q).struck = (s₀.proc q).setKilled := if_neg (by rw [hunused]; decide)
    rw [hstruck] at hkill
    generalize hs₁ : s₀.setProc q (s₀.proc q).setKilled = s₁ at hkill
    have hmem₁ : s₁.mem = s₀.mem := hs₁ ▸ rfl
    have hproc₁ : s₁.proc q = (s₀.proc q).setKilled := hs₁ ▸ setProc_proc ..
    obtain ⟨out, hpool, hout⟩ := hfresh.room
    have hcard := fourPages_bootable.card_frames
    obtain ⟨r, s₂, halloc, hsome, -, -⟩ := wp_returns (allocproc_room (p := q) (hmem₁ ▸ hpool) (hmem₁ ▸ hfresh.fails) (by omega)
      (by rw [hproc₁]; exact hunused))
    cases r with
    | none => exact absurd rfl hsome
    | some np =>
      -- the first free slot is the first one with pid 0
      obtain ⟨hfound, x, hx, -, hkilled⟩ := (wp_ok allocproc_tidy halloc).2 np rfl
      have hsame : (fun p => decide ((s₁.proc p).state = .unused)) = fun p => decide ((s₀.proc p).pid = 0) := by
        funext r
        apply decide_eq_decide.mpr
        rw [← hfresh.unused_iff r, ← hs₁]
        by_cases hr : r = q
        · subst hr
          rw [setProc_proc]
          rfl
        · rw [setProc_of_ne _ _ hr]
      rw [hsame, hfind] at hfound
      cases hfound
      refine ⟨s₀, s₁, p, q, s₂, hboot, hfresh.run, fun q' hused hpid => hused ((hfresh.unused_iff q').mpr hpid), hkill, ?_, halloc, ?_⟩
      · exact step_of_call rfl hfresh.run (by rw [hfresh.setFails]; exact hkill)
      · rw [hx, update_self, hkilled, hproc₁]
        rfl

end Xv6.Kernel
