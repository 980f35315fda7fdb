import Xv6.Kernel.Spaces
import Xv6.Kernel.Files

/-!
# Processes are made, copied and freed

`allocproc` and `freeproc` keep `Core`, and what they do to `proc[]` is one entry. `fork` may fail
in `allocproc` or in `uvmcopy`; in both cases `freeproc` takes back what the child had got.
-/

namespace Xv6.Kernel

open Prog Radix Vm Function Multiset State

variable {L : Layout} {s s' : State} {B : Multiset Nat} {held : FileId → Int} {p np : Slot}

/-! ## `freeproc` -/

/-- A process with an address space. -/
theorem freeproc_room {T : Multiset Nat} {mp : Nat → Option Word}
    (h : Room L ({(s.proc p).trapframe} + B) s.mem s.mem (s.proc p).pagetable
    (s.proc p).trapframe (npages (s.proc p).sz) T mp) :
    wp (freeproc L p) (fun _ s' => ∃ m', s' = (s.setMem m').setProc p (s.proc p).free ∧ Pool L m' B ∧ SameOn B s.mem.word m'.word)
      never s := by
  have htf : (s.proc p).trapframe ≠ 0 := h.pool.ne_zero (by simp)
  have hroot : (s.proc p).pagetable ≠ 0 := by
    apply h.pool.ne_zero
    rw [← h.space.table.tables]
    exact mem_add.mpr (.inl (self_mem_tables 2 _))
  have hpool : Pool L s.mem ((s.proc p).trapframe ::ₘ (T + (pages mp 0 (npages (s.proc p).sz) + B))) := by
    apply h.pool.of_eq
    rw [← singleton_add]
    abel
  unfold freeproc
  rw [wp_bind, wp_read, onlyIf, if_pos htf, onlyIf, if_pos hroot, wp_bind, wp_onMem]
  apply wp_mono (kfree_spec hpool) _ fun _ _ h => h
  rintro _ m₁ ⟨hpool₁, hsame₁⟩
  rw [wp_bind, wp_onMem]
  apply wp_mono (procFreepagetable_spec rfl (h.restrict hpool₁ hsame₁)) _ fun _ _ h => h
  rintro _ m₂ ⟨hpool₂, hsame₂⟩
  exact ⟨m₂, rfl, hpool₂, hsame₂⟩

theorem freeproc_spec (h : Core L s B held) : wp (freeproc L p) (fun _ s' => ∃ m',
    s' = (s.setMem m').setProc p (s.proc p).free ∧ Core L s' B held) never s := by
  obtain ⟨F, R, hpool, howns, -, hback⟩ := h.focus p
  have hdone : ∀ m', Pool L m' (R + B) → SameOn R s.mem.word m'.word →
      Core L ((s.setMem m').setProc p (s.proc p).free) B held := fun m' hpool' hsame =>
    hback m' (s.proc p).free B 0 ((Multiset.zero_add _).symm ▸ hpool') hsame .nothing rfl
  cases hx : s.layer p with
  | mk pagetable trapframe sz =>
    have hpt : (s.proc p).pagetable = pagetable := congrArg Layer.pagetable hx
    have htf : (s.proc p).trapframe = trapframe := congrArg Layer.trapframe hx
    have hsz : (s.proc p).sz = sz := congrArg Layer.sz hx
    rw [hx] at howns
    cases howns with
    | nothing =>
      unfold freeproc
      rw [wp_bind, wp_read, hpt, htf]
      rw [zero_add] at hpool
      exact ⟨s.mem, rfl, hdone s.mem hpool (.refl _ _)⟩
    | bare _ hne =>
      rw [singleton_add] at hpool
      unfold freeproc
      rw [wp_bind, wp_read, hpt, htf, onlyIf, if_pos hne, onlyIf, if_neg (not_not.mpr rfl), wp_bind, wp_onMem]
      apply wp_mono (kfree_spec hpool) _ fun _ _ h => h
      rintro _ m' ⟨hpool', hsame⟩
      exact ⟨m', rfl, hdone m' hpool' hsame.left⟩
    | space _ T mp _ _ hspace =>
      have hroom : Room L ({(s.proc p).trapframe} + (R + B)) s.mem s.mem (s.proc p).pagetable (s.proc p).trapframe
          (npages (s.proc p).sz) T mp := by
        rw [hpt, htf, hsz]
        refine ⟨hspace, hpool.of_eq ?_, .refl _ _⟩
        simp only [add_assoc]
      apply wp_mono (freeproc_room hroom) _ fun _ _ => id
      rintro _ _ ⟨m₂, rfl, hpool₂, hsame₂⟩
      exact ⟨m₂, rfl, hdone m₂ hpool₂ hsame₂.left⟩

/-! ## `allocproc` -/

/-- What is left in `proc[]` when `allocproc` fails. -/
inductive AllocFailed (s s' : State) : Prop
  /-- no free slot -/
  | full (hfull : ∀ p, (s.proc p).state ≠ .unused) (heq : s' = s)
  /-- no trapframe: the slot keeps the pid -/
  | trapframe (p : Slot) (m' : Mem) (hp : (s.proc p).state = .unused)
    (heq : s' = ((s.setMem m').setNextpid (s.nextpid + 1)).setProc p ((s.proc p).setPid s.nextpid))
  /-- no page table: `freeproc` has cleared the slot -/
  | pagetable (p : Slot) (m' : Mem) (hp : (s.proc p).state = .unused)
    (heq : s' = ((s.setMem m').setNextpid (s.nextpid + 1)).setProc p (s.proc p).free)

/-- The assignments of `allocproc` to a free slot. -/
def Proc.start (q : Proc) (pid : BitVec 32) (trapframe pagetable : Nat) : Proc :=
  ((q.setPid pid).setTrapframe trapframe).setPagetable pagetable

/-- A new process in a free slot. -/
structure Allocated (s s' : State) (p : Slot) (m' : Mem) (pagetable trapframe : Nat) : Prop where
  unused : (s.proc p).state = .unused
  root : pagetable ≠ 0
  layer : (s.proc p).layer = ⟨0, 0, 0⟩
  eq : s' = ((s.setMem m').setNextpid (s.nextpid + 1)).setProc p ((s.proc p).start s.nextpid trapframe pagetable)

theorem Owns.nothing_inv {word : Nat → Nat → Word} {F : Multiset Nat} (h : Owns L word ⟨0, 0, 0⟩ F) : F = 0 := by
  cases h with
  | nothing => rfl
  | bare _ htf => exact absurd rfl htf
  | space _ _ _ hroot => exact absurd rfl hroot

variable {trapframe : Nat} {q : Proc} {init : Option Slot}

theorem Owns.bare_inv {word : Nat → Nat → Word} {F : Multiset Nat} (htf : trapframe ≠ 0)
    (h : Owns L word ⟨0, trapframe, 0⟩ F) : F = {trapframe} := by
  cases h with
  | nothing => exact absurd rfl htf
  | bare => rfl
  | space _ _ _ hroot => exact absurd rfl hroot

/-- A page of the call becomes the trapframe of a free slot. -/
theorem Core.giveTrapframe (h : Core L s ({trapframe} + B) held) (htf : trapframe ≠ 0)
    (hlayer : (s.proc p).layer = ⟨0, 0, 0⟩) :
    Core L (s.setProc p ((s.proc p).setTrapframe trapframe)) B held := by
  obtain ⟨F, R, hpool, howns, -, hback⟩ := h.focus p
  rw [layer, hlayer] at howns
  have hF := howns.nothing_inv
  subst hF
  have hown : Owns L s.mem.word ((s.proc p).setTrapframe trapframe).layer {trapframe} := by
    have hx : ((s.proc p).setTrapframe trapframe).layer = ⟨0, trapframe, 0⟩ :=
      congrArg (fun x : Layer => (⟨x.pagetable, trapframe, x.sz⟩ : Layer)) hlayer
    rw [hx]
    exact .bare trapframe htf
  apply hback s.mem _ B {trapframe} (hpool.of_eq _) (.refl _ _) hown rfl
  abel

/-- `proc_pagetable` for a slot that has a trapframe only. -/
theorem Core.givePagetable (h : Core L s B held) (htf : trapframe ≠ 0)
    (hlayer : (s.proc p).layer = ⟨0, trapframe, 0⟩) :
    wp (onMem (procPagetable L trapframe)) (fun r s' => ∃ m', s' = s.setMem m' ∧
      ((r = 0 ∧ Core L s' B held) ∨ (r ≠ 0 ∧ Core L (s'.setProc p ((s.proc p).setPagetable r)) B held))) never s := by
  obtain ⟨F, R, hpool, howns, -, hback⟩ := h.focus p
  rw [layer, hlayer] at howns
  have hF := howns.bare_inv htf
  subst hF
  rw [wp_onMem]
  apply wp_mono (procPagetable_spec hpool) _ fun _ _ h => h
  rintro r m' (⟨rfl, hpool', hsame, -⟩ | ⟨hr, T, mp, hroom, -, -⟩)
  · refine ⟨m', rfl, .inl ⟨rfl, ?_⟩⟩
    have hcore := hback m' (s.proc p) B {trapframe} hpool' hsame.right.left (hlayer ▸ .bare trapframe htf) rfl
    rw [show s.proc p = (s.setMem m').proc p from rfl, setProc_self] at hcore
    exact hcore
  · refine ⟨m', rfl, .inr ⟨hr, ?_⟩⟩
    have hx : ((s.proc p).setPagetable r).layer = ⟨r, trapframe, 0⟩ :=
      congrArg (fun x : Layer => (⟨r, x.trapframe, x.sz⟩ : Layer)) hlayer
    have hspace : Space L m'.word r trapframe (npages 0) T mp := hroom.space
    have hown : Owns L m'.word ((s.proc p).setPagetable r).layer (T + (Vm.pages mp 0 (npages 0) + {trapframe})) := by
      rw [hx]
      exact .space ⟨r, trapframe, 0⟩ T mp hr htf hspace
    apply hback m' _ B _ (hroom.pool.of_eq _) hroom.same.right.left hown rfl
    rw [show npages 0 = 0 from rfl]
    abel

theorem allocproc_spec (h : Core L s 0 0) (hunused : ∀ p, (s.proc p).state = .unused → (s.proc p).layer = ⟨0, 0, 0⟩) :
    wp (allocproc L) (fun r s' => Core L s' 0 0 ∧
      ((r = none ∧ AllocFailed s s') ∨ ∃ p m' pagetable trapframe, r = some p ∧ Allocated s s' p m' pagetable trapframe))
      never s := by
  unfold allocproc
  rw [wp_bind, wp_read]
  cases hfind : (List.finRange NPROC).find? fun p => (s.proc p).state = .unused with
  | none =>
    refine ⟨h, .inl ⟨rfl, .full (fun p => ?_) rfl⟩⟩
    simpa using List.find?_eq_none.mp hfind p (List.mem_finRange p)
  | some p =>
    have hp : (s.proc p).state = .unused := by simpa using List.find?_some hfind
    have hlayer := hunused p hp
    show wp (allocpid >>= _) _ _ s
    rw [wp_bind, allocpid, wp_bind, wp_read, wp_bind, wp_change, wp_pure, wp_bind, assign, wp_change]
    generalize hs₁ : (s.setNextpid (s.nextpid + 1)).setProc p ((s.proc p).setPid s.nextpid) = s₁
    have hproc₁ : s₁.proc p = (s.proc p).setPid s.nextpid := hs₁ ▸ setProc_proc ..
    have hcore₁ : Core L s₁ 0 0 := by
      have hpid : Core L (s.setNextpid (s.nextpid + 1)) 0 0 := h.of_fields rfl rfl rfl rfl fun _ => rfl
      rw [← hs₁]
      exact hpid.assign rfl rfl
    show wp (onMem kalloc >>= _) _ _ ((s.setNextpid (s.nextpid + 1)).setProc p ((s.proc p).setPid s.nextpid))
    rw [hs₁]
    apply wp_seq hcore₁.kalloc
    rintro trapframe s₂ ⟨m₂, rfl, ⟨rfl, hcore₂⟩ | ⟨htf, hcore₂⟩⟩
    · rw [wp_bind, assign, wp_change, if_pos rfl, wp_pure]
      have hkeep : (s₁.proc p).setTrapframe 0 = s₁.proc p := by
        have htf : (s₁.proc p).trapframe = 0 := hproc₁ ▸ congrArg Layer.trapframe hlayer
        rw [Proc.setTrapframe, ← htf]
      rw [setMem_proc, hkeep, ← setMem_proc s₁ m₂, setProc_self]
      exact ⟨hcore₂, .inl ⟨rfl, .trapframe p m₂ hp (by rw [← hs₁]; rfl)⟩⟩
    · rw [wp_bind, assign, wp_change, if_neg htf]
      have hlayer₂ : ((s₁.setMem m₂).proc p).layer = ⟨0, 0, 0⟩ := by
        rw [setMem_proc, hproc₁]
        exact hlayer
      have hcore₃ := hcore₂.giveTrapframe htf hlayer₂
      rw [setMem_proc, hproc₁] at hcore₃ ⊢
      have hlayer₃ : (((s.proc p).setPid s.nextpid).setTrapframe trapframe).layer = ⟨0, trapframe, 0⟩ :=
        congrArg (fun x : Layer => (⟨x.pagetable, trapframe, x.sz⟩ : Layer)) hlayer
      rw [← setProc_proc (s₁.setMem m₂) p (((s.proc p).setPid s.nextpid).setTrapframe trapframe)] at hlayer₃
      apply wp_seq (hcore₃.givePagetable htf hlayer₃)
      rintro pagetable s₄ ⟨m₄, rfl, ⟨rfl, hcore₄⟩ | ⟨hroot, hcore₄⟩⟩
      · have hkeep : (((s.proc p).setPid s.nextpid).setTrapframe trapframe).setPagetable 0 =
            ((s.proc p).setPid s.nextpid).setTrapframe trapframe := by
          have hpt : (s.proc p).pagetable = 0 := congrArg Layer.pagetable hlayer
          rw [Proc.setPagetable, Proc.setTrapframe, Proc.setPid, hpt]
        rw [wp_bind, assign, wp_change, if_pos rfl, setMem_proc, setProc_proc, hkeep]
        simp only [setProc_setMem, setMem_setMem, setProc_setProc] at hcore₄ ⊢
        apply wp_seq (freeproc_spec hcore₄)
        rintro _ s₅ ⟨m₅, rfl, hcore₅⟩
        refine ⟨hcore₅, .inl ⟨rfl, .pagetable p m₅ hp ?_⟩⟩
        rw [← hs₁]
        simp
        rfl
      · rw [wp_bind, assign, wp_change, if_neg hroot, wp_pure]
        refine ⟨hcore₄, .inr ⟨p, m₄, pagetable, trapframe, rfl, hp, hroot, hlayer, ?_⟩⟩
        rw [← hs₁]
        simp
        rfl

/-! ## What holds of every slot between calls -/

/-- A free slot has nothing, a used one has a space, a process that has ended has no files, and
every process but `init` has a parent. -/
structure ProcOk (init : Option Slot) (p : Slot) (q : Proc) : Prop where
  unused : q.state = .unused → q.layer = ⟨0, 0, 0⟩
  used : q.state ≠ .unused → q.pagetable ≠ 0
  closed : q.state = .unused ∨ q.state = .zombie → ∀ fd, q.ofile fd = none
  parent : q.state ≠ .unused → init ≠ some p → q.parent ≠ none

structure Status (s : State) : Prop where
  init : s.initproc ≠ none
  ok : ∀ p, ProcOk s.initproc p (s.proc p)

/-- Pages, files and processes between calls. -/
structure Inv (L : Layout) (s : State) : Prop where
  core : Core L s 0 0
  status : Status s

theorem Status.of_eq (h : Status s) (hinit : s'.initproc = s.initproc)
    (hok : ∀ q, s'.proc q = s.proc q ∨ ProcOk s.initproc q (s'.proc q)) :
    Status s' := by
  refine ⟨hinit ▸ h.init, fun q => ?_⟩
  rw [hinit]
  rcases hok q with heq | hok
  · rw [heq]
    exact h.ok q
  · exact hok

/-- One slot changes. -/
theorem Status.setProc (h : Status s) (hinit : s'.initproc = s.initproc)
    (hproc : s'.proc = update s.proc p q) (hq : ProcOk s.initproc p q) : Status s' := by
  apply h.of_eq hinit
  intro r
  rw [hproc]
  by_cases hr : r = p
  · subst hr
    rw [update_self]
    exact .inr hq
  · exact .inl (update_of_ne hr ..)

/-- A slot that `freeproc` has cleared. -/
theorem ProcOk.free (h : ∀ fd, q.ofile fd = none) : ProcOk init p q.free :=
  ⟨fun _ => rfl, fun h => absurd rfl h, fun _ => h, fun h => absurd rfl h⟩

/-- A process that has not ended. -/
theorem ProcOk.active (hunused : q.state ≠ .unused) (hzombie : q.state ≠ .zombie)
    (hroot : q.pagetable ≠ 0) (hparent : init ≠ some p → q.parent ≠ none) : ProcOk init p q :=
  ⟨fun h => absurd h hunused, fun _ => hroot, fun h => absurd h (not_or.mpr ⟨hunused, hzombie⟩), fun _ => hparent⟩

/-- Fields that do not matter here are assigned. -/
theorem ProcOk.congr {q' : Proc} (h : ProcOk init p q) (hstate : q'.state = q.state)
    (hlayer : q'.layer = q.layer) (hofile : q'.ofile = q.ofile) (hparent : q'.parent = q.parent) :
    ProcOk init p q' := by
  have hroot : q'.pagetable = q.pagetable := congrArg Layer.pagetable hlayer
  refine ⟨?_, ?_, ?_, ?_⟩
  · rw [hstate, hlayer]
    exact h.unused
  · rw [hstate, hroot]
    exact h.used
  · rw [hstate, hofile]
    exact h.closed
  · rw [hstate, hparent]
    exact h.parent

theorem Status.live (h : Status s) (hp : (s.proc p).state ≠ .unused) : (s.proc p).pagetable ≠ 0 := (h.ok p).used hp

theorem Status.allocFailed (h : Status s) (hf : AllocFailed s s') : Status s' := by
  cases hf with
  | full _ heq => exact heq ▸ h
  | trapframe p m' _ heq =>
    subst heq
    exact h.setProc (p := p) rfl rfl ((h.ok p).congr rfl rfl rfl rfl)
  | pagetable p m' hp heq =>
    subst heq
    exact h.setProc (p := p) rfl rfl (.free ((h.ok p).closed (.inl hp)))

/-- Descriptors of a process that runs. -/
theorem Status.reopened (h : Status s) (hr : Reopened p s s') (hrun : (s.proc p).state = .runnable) : Status s' := by
  obtain ⟨⟨ofile, hproc⟩, hinit, -⟩ := hr
  have hne : (s.proc p).state ≠ .unused := fun h => by cases hrun.symm.trans h
  have hne' : (s.proc p).state ≠ .zombie := fun h => by cases hrun.symm.trans h
  exact h.setProc hinit hproc (.active hne hne' (h.live hne) ((h.ok p).parent hne))

/-! ## `fork` -/

/-- The memory of a process is copied to a new one, which has none. -/
theorem Core.copy (h : Core L s 0 0) (hne : p ≠ np) (hp : (s.proc p).pagetable ≠ 0) (hnp : (s.proc np).pagetable ≠ 0)
    (hsz : (s.proc np).sz = 0) :
    wp (onMem (uvmcopy L (s.proc p).pagetable (s.proc np).pagetable (s.proc p).sz)) (fun r s' => ∃ m', s' = s.setMem m' ∧
      ((r = -1 ∧ Core L s' 0 0 ∧ Starved L s.mem (3 * npages (s.proc p).sz)) ∨
       (r = 0 ∧ Core L (s'.setProc np ((s.proc np).setSz (s.proc p).sz)) 0 0))) never s := by
  obtain ⟨R, T, mp, htf, hroom, hothers, hback⟩ := h.room hnp
  obtain ⟨G, hG, howns⟩ := hothers p hne
  obtain ⟨T₀, mp₀, -, hspace₀, rfl⟩ := howns.live hp
  have hout : T₀ + pages mp₀ 0 (npages (s.proc p).sz) ≤ {(s.proc np).trapframe} + (R + 0) := by
    rw [← add_assoc] at hG
    exact ((Multiset.le_add_right _ _).trans hG).trans ((Multiset.le_add_right R 0).trans (Multiset.le_add_left _ _))
  rw [hsz] at hroom
  rw [wp_onMem]
  apply wp_mono (uvmcopy_spec ⟨hspace₀.table, hspace₀.user, hout⟩ hroom) _ fun _ _ h => h
  rintro r m' ⟨T', mp', ⟨rfl, hroom'⟩ | ⟨rfl, hroom', hstarved⟩⟩
  · exact ⟨m', rfl, .inr ⟨rfl, hback m' _ T' mp' rfl rfl rfl hroom'⟩⟩
  · have hcore := hback m' (s.proc np) T' mp' rfl rfl rfl (hsz.symm ▸ hroom')
    rw [← setMem_proc s m', setProc_self] at hcore
    exact ⟨m', rfl, .inl ⟨rfl, hcore, hstarved⟩⟩

theorem wp_setReg {reg w : Nat} {Q : Unit → State → Prop} {E : Panic → State → Prop} :
    wp (setReg p reg w) Q E s ↔ Q () (s.setMem (s.mem.setWord (s.proc p).trapframe reg (BitVec.ofNat 64 w))) := by
  unfold setReg
  rw [wp_bind, wp_read, wp_onMem, wp_change]

/-- The trapframe of a process is written. -/
theorem Core.writeTrapframe (h : Core L s B held) (hp : (s.proc p).pagetable ≠ 0) (m' : Mem)
    (hfree : m'.freelist = s.mem.freelist) (hfails : m'.fails = s.mem.fails)
    (hword : ∀ q, q ≠ (s.proc p).trapframe → m'.word q = s.mem.word q) : Core L (s.setMem m') B held := by
  obtain ⟨F, R, hpool, howns, -, hback⟩ := h.focus p
  obtain ⟨T, mp, htf, hspace, rfl⟩ := howns.live hp
  have hmem : (s.proc p).trapframe ∈ T + (pages mp 0 (npages (s.layer p).sz) + {(s.layer p).trapframe}) :=
    mem_add.mpr (.inr (mem_add.mpr (.inr (mem_singleton_self _))))
  have hpool' : Pool L m' (T + (pages mp 0 (npages (s.layer p).sz) + {(s.layer p).trapframe}) + (R + B)) := by
    have hwrite := hpool.write (mem_add.mpr (.inl hmem)) hword
    rw [← hfree, ← hfails] at hwrite
    exact hwrite
  have hR : (s.proc p).trapframe ∉ R := fun hR => hpool.disjoint hmem (mem_add.mpr (.inl hR))
  have hT : (s.proc p).trapframe ∉ T := by
    intro hT
    have hnodup := (nodup_add.mp hpool.nodup).1
    exact disjoint_left.mp (nodup_add.mp hnodup).2.2 hT
      (mem_add.mpr (.inr (mem_singleton_self _)))
  have hsame : ∀ {C : Multiset Nat}, (s.proc p).trapframe ∉ C → SameOn C s.mem.word m'.word := fun hC q hq =>
    hword q (ne_of_mem_of_not_mem hq hC)
  have hcore := hback m' (s.proc p) B _ hpool' (hsame hR) (.space _ T mp hp htf (hspace.congr (hsame hT))) rfl
  rw [← setMem_proc s m', setProc_self] at hcore
  exact hcore

theorem dupFiles_spec (h : Core L s 0 0) (hnone : ∀ fd, (s.proc np).ofile fd = none) :
    wp (dupFiles p np) (fun _ s' => Reopened np s s' ∧ Core L s' 0 0) never s := by
  -- the descriptors that are left are still free in the child
  apply wp_mono (wp_each (fun fds s' => Reopened np s s' ∧ Core L s' 0 0 ∧ fds.Nodup ∧ ∀ fd ∈ fds, (s'.proc np).ofile fd = none)
    _ (List.finRange NOFILE) s ⟨.refl np s, h, List.nodup_finRange _, fun fd _ => hnone fd⟩) _ fun _ _ => id
  swap
  · rintro _ s' ⟨hre, hcore, -⟩
    exact ⟨hre, hcore⟩
  · rintro fd fds s₁ ⟨hre, hcore, hnodup, hfree⟩
    rw [wp_bind, wp_read]
    cases hfd : (s₁.proc p).ofile fd with
    | none => exact ⟨hre, hcore, hnodup.of_cons, fun d hd => hfree d (List.mem_cons_of_mem fd hd)⟩
    | some f =>
      apply wp_seq (filedup_spec hcore (hcore.ref_pos (Int.le_refl 0) hfd))
      rintro _ s₂ ⟨hsame, hcore₂⟩
      have hold : (s₂.proc np).ofile fd = none := by
        rw [hsame.proc]
        exact hfree fd List.mem_cons_self
      rw [assign, wp_change]
      refine ⟨(hre.trans (hsame.reopened np)).trans (reopened_setOfile ..), ?_, hnodup.of_cons, fun d hd => ?_⟩
      · apply (hcore₂.setOfile fd (some f)).of_held
        rw [hold, points_none, points_some]
        abel
      · have hdne : d ≠ fd := fun e => (List.nodup_cons.mp hnodup).1 (e ▸ hd)
        rw [setProc_proc]
        show update (s₂.proc np).ofile fd (some f) d = none
        rw [update_of_ne hdne, hsame.proc]
        exact hfree d (List.mem_cons_of_mem fd hd)

/-- What `fork` leaves: a child of the parent's size, and the other slots as they were. -/
structure Child (s s' : State) (p np : Slot) : Prop where
  others : ∀ q, q ≠ np → s'.proc q = s.proc q
  state : (s'.proc np).state = .runnable
  pid : (s'.proc np).pid = (s.proc np).pid
  sz : (s'.proc np).sz = (s.proc p).sz

/-- The child runs, with the parent's files, when its memory has been copied. -/
theorem forkFinish_spec (h : Core L (s.setProc np ((s.proc np).setSz (s.proc p).sz)) 0 0) (hinit : s.initproc ≠ none)
    (hok : ∀ q, q ≠ np → ProcOk s.initproc q (s.proc q)) (hnone : ∀ fd, (s.proc np).ofile fd = none)
    (hnp : (s.proc np).pagetable ≠ 0) :
    wp (forkFinish p np) (fun _ s' => Inv L s' ∧ Child s s' p np) never s := by
  unfold forkFinish
  rw [wp_bind, wp_read, wp_bind, wp_read, wp_bind, assign, wp_change, wp_bind, assign, wp_change, setProc_proc,
    setProc_setProc, wp_bind, wp_onMem, wp_change]
  have hcore₁ := h.assign (p := np) (q := ((s.proc np).setSz (s.proc p).sz).setParent (some p)) (by rw [setProc_proc]; rfl)
    (by rw [setProc_proc]; rfl)
  rw [setProc_setProc] at hcore₁
  generalize hs₁ : s.setProc np (((s.proc np).setSz (s.proc p).sz).setParent (some p)) = s₁ at hcore₁ ⊢
  have hproc₁ : s₁.proc np = ((s.proc np).setSz (s.proc p).sz).setParent (some p) := hs₁ ▸ setProc_proc ..
  have hcore₂ := hcore₁.writeTrapframe (p := np) (by rw [hproc₁]; exact hnp) (s₁.mem.setPage (s.proc np).trapframe
    (childTrapframe (s₁.mem.word (s.proc p).trapframe) (s₁.mem.word (s.proc np).trapframe))) rfl rfl
    (by rw [hproc₁]; exact fun q hq => Mem.setPage_of_ne hq)
  apply wp_seq (dupFiles_spec hcore₂ (by rw [setMem_proc, hproc₁]; exact hnone))
  rintro _ s₃ ⟨⟨⟨ofile, hproc₃⟩, hinit₃, -⟩, hcore₃⟩
  rw [wp_bind, assign, wp_change, wp_bind, assign, wp_change, setProc_proc, setProc_setProc, wp_bind, assign,
    wp_change, setProc_proc, setProc_setProc, wp_pure]
  have hinit' : s₃.initproc = s.initproc := hinit₃.trans (hs₁ ▸ rfl)
  have hothers : ∀ q, q ≠ np → s₃.proc q = s.proc q := by
    intro q hq
    rw [hproc₃, update_of_ne hq, setMem_proc, ← hs₁]
    exact setProc_of_ne _ _ hq
  have hchild : s₃.proc np = (((s.proc np).setSz (s.proc p).sz).setParent (some p)).setOfiles ofile := by
    rw [hproc₃, update_self, setMem_proc, hproc₁]
  refine ⟨⟨hcore₃.assign rfl rfl, ⟨?_, fun q => ?_⟩⟩, ⟨fun q hq => ?_, ?_, ?_, ?_⟩⟩
  · show s₃.initproc ≠ none
    rw [hinit']
    exact hinit
  · show ProcOk s₃.initproc q _
    rw [hinit']
    by_cases hq : q = np
    · subst hq
      rw [setProc_proc, hchild]
      exact .active (ProcState.noConfusion ·) (ProcState.noConfusion ·) hnp fun _ => Option.some_ne_none p
    · rw [setProc_of_ne _ _ hq, hothers q hq]
      exact hok q hq
  · rw [setProc_of_ne _ _ hq, hothers q hq]
  all_goals
    rw [setProc_proc, hchild]
    rfl

theorem fork_spec (h : Inv L s) (hp : (s.proc p).state ≠ .unused) : wp (fork L p) (fun _ s' => Inv L s') never s := by
  obtain ⟨hcore, hst⟩ := h
  unfold fork
  apply wp_seq (allocproc_spec hcore fun q => (hst.ok q).unused)
  rintro r s₁ ⟨hcore₁, ⟨rfl, hfailed⟩ | ⟨np, m', pagetable, trapframe, rfl, hnew⟩⟩
  · exact ⟨hcore₁, hst.allocFailed hfailed⟩
  have hne : p ≠ np := fun e => hp (e ▸ hnew.unused)
  have hproc₁ : s₁.proc np = (s.proc np).start s.nextpid trapframe pagetable := hnew.eq ▸ setProc_proc ..
  have hparent : s₁.proc p = s.proc p := hnew.eq ▸ setProc_of_ne _ _ hne
  have hnone : ∀ fd, (s₁.proc np).ofile fd = none := by
    rw [hproc₁]
    exact (hst.ok np).closed (.inl hnew.unused)
  have hroot : (s₁.proc np).pagetable ≠ 0 := hproc₁ ▸ hnew.root
  have hsz : (s₁.proc np).sz = 0 := hproc₁ ▸ congrArg Layer.sz hnew.layer
  rw [wp_bind, wp_read, wp_bind, wp_read]
  apply wp_seq (hcore₁.copy hne (by rw [hparent]; exact hst.live hp) hroot hsz)
  rintro r s₂ ⟨m₂, rfl, ⟨rfl, hcore₂, -⟩ | ⟨rfl, hcore₂⟩⟩
  · rw [if_pos (by decide)]
    apply wp_seq (freeproc_spec hcore₂)
    rintro _ s₃ ⟨m₃, rfl, hcore₃⟩
    refine ⟨hcore₃, hst.setProc (p := np) (hnew.eq ▸ rfl) ?_ (ProcOk.free hnone)⟩
    show update s₁.proc np (s₁.proc np).free = _
    rw [hnew.eq]
    show update (update s.proc np _) np _ = _
    rw [update_idem]
  · rw [if_neg (by decide)]
    have hinit : s₁.initproc = s.initproc := hnew.eq ▸ rfl
    refine wp_mono (forkFinish_spec hcore₂ (hinit ▸ hst.init) (fun q hq => ?_) hnone hroot) (fun _ _ h => h.1) fun _ _ => id
    show ProcOk s₁.initproc q (s₁.proc q)
    rw [hinit, show s₁.proc q = s.proc q from hnew.eq ▸ setProc_of_ne _ _ hq]
    exact hst.ok q

end Xv6.Kernel
