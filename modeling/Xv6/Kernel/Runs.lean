import Xv6.Lib.Run
import Xv6.Kernel.Boot
import Xv6.Kernel.Exec
import Xv6.Kernel.PipeCalls

/-!
# Runs of the kernel

Every call keeps `Inv`, whether it succeeds or fails, and no call panics, except that the kernel
refuses to go on when `init` exits. So `Inv` holds between the calls of every run from boot.
-/

namespace Xv6.Kernel

open Prog Radix Vm

variable {L : Layout} {s s' : State} {p : Slot}

/-! ## One call -/

theorem Inv.execed {r : Int} (h : Inv L s) (hrun : (s.proc p).state = .runnable) (he : Execed L s p 0 0 r s') : Inv L s' := by
  cases he with
  | failed _ hundone =>
    have hcore := h.core.borrowed hundone
    rw [Multiset.zero_add, hundone.eq] at hcore
    rw [hundone.eq]
    exact h.setMem hcore
  | done _ m' name root sz hroot hcore => exact h.running m' hrun hcore (.inl hrun) hroot rfl

theorem Inv.reopened (h : Inv L s) (hrun : (s.proc p).state = .runnable) (hr : Reopened p s s') (hcore : Core L s' 0 0) : Inv L s' :=
  ⟨hcore, h.status.reopened hr hrun⟩

/-- A call whose result is dropped. -/
theorem wp_drop {α : Type} {c : Sys α} {P : State → Prop} {E : Panic → State → Prop} (h : wp c (fun _ s' => P s') E s) :
    wp (do let _ ← c) (fun _ s' => P s') E s :=
  wp_seq h fun _ _ h => h

/-- The only way to stop: `init` exits. -/
def InitExits (s : State) (p : Slot) : Panic → State → Prop := fun e _ => e = .initExiting ∧ s.initproc = some p

theorem Op.call_spec (op : Op) (h : Inv L s) (hrun : (s.proc p).state = .runnable) :
    wp (op.call L p) (fun _ s' => Inv L s') (InitExits s p) s := by
  have hne : (s.proc p).state ≠ .unused := fun h => by cases hrun.symm.trans h
  have hlive := h.live hrun
  -- a call that does not stop
  have htotal : ∀ {c : Sys Unit}, wp c (fun _ s' => Inv L s') never s → wp c (fun _ s' => Inv L s') (InitExits s p) s :=
    fun hc => wp_mono hc (fun _ _ => id) fun _ _ h => h.elim
  cases op with
  | fork => exact htotal (wp_drop (fork_spec h hne))
  | exec path file uargv =>
    apply htotal
    apply wp_drop
    exact wp_mono (wp_alone (sysExec_spec h.core hlive)) (fun _ _ he => h.execed hrun he) fun _ _ => id
  | sbrk n => exact htotal (wp_drop (sysSbrk_spec h hrun))
  | exit status => exact exit_spec h hrun
  | wait addr => exact htotal (wp_drop (wait_spec h hrun))
  | kill pid => exact htotal (wp_drop (kill_spec h))
  | pipe fdarray =>
    apply htotal
    apply wp_drop
    exact wp_mono (sysPipe_spec h.core hlive) (fun _ _ h' => h.reopened hrun h'.1 h'.2) fun _ _ => id
  | close fd =>
    apply htotal
    apply wp_drop
    exact wp_mono (sysClose_spec h.core) (fun _ _ h' => h.reopened hrun h'.1 h'.2) fun _ _ => id
  | dup fd =>
    apply htotal
    apply wp_drop
    exact wp_mono (sysDup_spec h.core) (fun _ _ h' => h.reopened hrun h'.1 h'.2) fun _ _ => id
  | «open» device readable writable ip =>
    apply htotal
    apply wp_drop
    exact wp_mono (sysOpen_spec h.core) (fun _ _ h' => h.reopened hrun h'.1 h'.2) fun _ _ => id
  | store va bytes =>
    apply htotal
    show wp (read (fun s => (s.proc p).pagetable) >>= _) _ _ s
    rw [wp_bind, wp_read]
    apply wp_drop
    apply wp_mono (h.core.user_call hlive copyout_spec) _ fun _ _ => id
    rintro _ s₁ ⟨m₁, rfl, hcore₁⟩
    exact h.setMem hcore₁

/-- What `kalloc` will do is no part of the state. -/
theorem Inv.setFails (h : Inv L s) (fails : List Bool) : Inv L (s.setMem (s.mem.setFails fails)) := by
  obtain ⟨X, hpool, hback⟩ := h.core.around
  exact h.setMem (hback _ 0 hpool (.refl _ _))

/-! ## Steps and runs -/

theorem step_inv {a : Action} (h : Inv L s) (hstep : step L s a = some (.ok s')) : Inv L s' := by
  unfold step at hstep
  split at hstep
  next hrun =>
    have hcall := a.op.call_spec (h.setFails a.fails) hrun
    unfold wp at hcall
    cases hres : a.op.call L a.proc (s.setMem (s.mem.setFails a.fails)) with
    | ok u s₁ =>
      rw [hres] at hstep hcall
      cases hstep
      exact hcall
    | stop e s₁ =>
      rw [hres] at hstep
      cases hstep
  next => cases hstep

theorem step_error {a : Action} {e : Panic} (h : Inv L s) (hstep : step L s a = some (.error e)) : e = .initExiting := by
  unfold step at hstep
  split at hstep
  next hrun =>
    have hcall := a.op.call_spec (h.setFails a.fails) hrun
    unfold wp at hcall
    cases hres : a.op.call L a.proc (s.setMem (s.mem.setFails a.fails)) with
    | ok u s₁ =>
      rw [hres] at hstep
      cases hstep
    | stop e' s₁ =>
      rw [hres] at hstep hcall
      cases hstep
      exact hcall.1
  next => cases hstep

/-- The states between the calls of a run from boot. -/
def Reached (L : Layout) (s : State) : Prop :=
  ∃ root word s₀ as, boot L root (State.reset word) = .ok () s₀ ∧ run (step L) s₀ as = some (.ok s)

theorem Reached.inv (hL : L.Bootable) (h : Reached L s) : Inv L s := by
  obtain ⟨root, word, s₀, as, hboot, hrun⟩ := h
  obtain ⟨p, hfresh⟩ := wp_ok (boot_spec hL root word) hboot
  apply run_invariant (C := fun _ _ => True) _ hfresh.inv (eachStep_true as s₀) hrun
  intro s a s' hinv _ hstep
  exact step_inv hinv hstep

/-- The kernel boots. -/
theorem exists_fresh (hL : L.Bootable) (root : Nat) (word : Nat → Nat → Word) :
    ∃ s p, boot L root (State.reset word) = .ok () s ∧ Fresh L s p := by
  obtain ⟨_, s, hboot, p, hfresh⟩ := wp_returns (boot_spec hL root word)
  exact ⟨s, p, hboot, hfresh⟩

theorem exists_reached (hL : L.Bootable) : ∃ s p, Reached L s ∧ Fresh L s p := by
  obtain ⟨s, p, hboot, hfresh⟩ := exists_fresh hL 1 fun _ _ => 0
  exact ⟨s, p, ⟨1, _, s, [], hboot, rfl⟩, hfresh⟩

/-! ## The first calls -/

/-- A call that returns is a step. -/
theorem step_of_call {α : Type} {op : Op} {fails : List Bool} {c : Sys α} {a : α} (hop : op.call L p = do let _ ← c)
    (hrun : (s.proc p).state = .runnable) (hc : c (s.setMem (s.mem.setFails fails)) = .ok a s') :
    step L s ⟨p, op, fails⟩ = some (.ok s') := by
  unfold step
  rw [if_pos hrun, hop, bind_of_ok hc]
  rfl

/-- `init` and a child, both ready to run. -/
structure Forked (L : Layout) (s : State) (p np : Slot) : Prop where
  inv : Inv L s
  ne : np ≠ p
  run : ∀ q ∈ [p, np], (s.proc q).state = .runnable ∧ (s.proc q).sz = PGSIZE
  pid : (s.proc np).pid = 2

/-- The first process can fork. -/
theorem fork_fresh (hL : L.Bootable) (h : Fresh L s p) : wp (fork L p) (fun _ s' => ∃ np, Forked L s' p np) never s := by
  obtain ⟨out, hpool, hout⟩ := h.room
  have hcard := hL.card_frames
  obtain ⟨hcore, hst⟩ := h.inv
  obtain ⟨q, hq⟩ : ∃ q : Slot, q ≠ p := @exists_ne (Fin 64) _ p
  have hunused : (s.proc q).state = .unused := by
    rw [h.others q hq]
    rfl
  have hboth := wp_and (allocproc_spec hcore fun q => (hst.ok q).unused) (allocproc_room hpool h.fails (by omega) hunused)
  unfold fork
  apply wp_seq (wp_mono hboth (fun _ _ h => h) fun _ _ h => h.1)
  rintro r s₁ ⟨⟨hcore₁, ⟨rfl, -⟩ | ⟨np, m', pagetable, trapframe, rfl, hnew⟩⟩, hsome, hfails, out', hpool', hout'⟩
  · exact absurd rfl hsome
  have hne : np ≠ p := fun e => by
    have hstate := hnew.unused
    rw [e, h.run] at hstate
    cases hstate
  have hproc₁ : s₁.proc np = Proc.zero.start 2 trapframe pagetable := by
    rw [hnew.eq, State.setProc_proc, h.others np hne, h.nextpid]
  have hothers : ∀ q, q ≠ np → s₁.proc q = s.proc q := fun q hq => hnew.eq ▸ State.setProc_of_ne _ _ hq
  have hparent := hothers p hne.symm
  have hinit : s₁.initproc = s.initproc := hnew.eq ▸ rfl
  have hlive : (s.proc p).pagetable ≠ 0 := hst.live fun hu => by cases h.run.symm.trans hu
  have hroot : (s₁.proc np).pagetable ≠ 0 := hproc₁ ▸ hnew.root
  rw [wp_bind, wp_read, wp_bind, wp_read]
  apply wp_seq (hcore₁.copy hne.symm (hparent ▸ hlive) hroot (hproc₁ ▸ rfl))
  rintro r s₂ ⟨m₂, rfl, ⟨-, -, hstarved⟩ | ⟨rfl, hcore₂⟩⟩
  · have hone : npages PGSIZE = 1 := by decide
    refine absurd hstarved (hpool'.fed hfails ?_)
    rw [hparent, h.sz, hone]
    omega
  · rw [if_neg (by decide)]
    refine wp_mono (forkFinish_spec hcore₂ (hinit ▸ hst.init) (fun q hq => ?_) (fun fd => ?_) hroot) ?_ fun _ _ => id
    · show ProcOk s₁.initproc q (s₁.proc q)
      rw [hinit, hothers q hq]
      exact hst.ok q
    · rw [State.setMem_proc, hproc₁]
      rfl
    · rintro _ s₃ ⟨hinv, hchild⟩
      have hp : s₃.proc p = s.proc p := (hchild.others p hne.symm).trans hparent
      refine ⟨np, hinv, hne, ?_, ?_⟩
      · simp only [List.forall_mem_cons, List.not_mem_nil, false_implies, implies_true, and_true]
        refine ⟨⟨hp ▸ h.run, hp ▸ h.sz⟩, hchild.state, hchild.sz.trans ?_⟩
        rw [State.setMem_proc, hparent, h.sz]
      · rw [hchild.pid, State.setMem_proc, hproc₁]
        rfl

/-- Nothing is to fail, so nothing changes when that is said. -/
theorem Fresh.setFails (h : Fresh L s p) : s.setMem (s.mem.setFails []) = s := by
  have hmem : s.mem.setFails [] = s.mem := by rw [Mem.setFails, ← h.fails]
  rw [hmem]
  rfl

theorem exists_forked (hL : L.Bootable) : ∃ s₀ s p np, boot L 1 (State.reset fun _ _ => 0) = .ok () s₀ ∧ Fresh L s₀ p ∧
    step L s₀ ⟨p, .fork, []⟩ = some (.ok s) ∧ Forked L s p np := by
  obtain ⟨s₀, p, hboot, hfresh⟩ := exists_fresh hL 1 fun _ _ => 0
  obtain ⟨r, s, hfork, np, hforked⟩ := wp_returns (fork_fresh hL hfresh)
  refine ⟨s₀, s, p, np, hboot, hfresh, ?_, hforked⟩
  exact step_of_call rfl hfresh.run (by rw [hfresh.setFails]; exact hfork)

end Xv6.Kernel
