import Xv6.Vm.Boot
import Xv6.Kernel.Procs

/-!
# From reset to the first process

`boot` is what `main` does before the scheduler runs. With a few hundred frames it returns, and
`Inv` holds then.
-/

namespace Xv6.Kernel

open Prog Radix Vm Function Multiset State Finset

/-! ## The code -/

/-- Allocate a page for each process's kernel stack. Map it high in memory, followed by an invalid
guard page. -/
def procinit : Sys Unit :=
  each (fun p => do
    let pa ← onMem kalloc
    if pa = 0 then stop .kalloc
    else
      let kernelPagetable ← read fun s => s.kernelPagetable
      onMem (kvmmap kernelPagetable (KSTACK p.val) pa PGSIZE (PTE_R ||| PTE_W))) (List.finRange NPROC)

/-- What `main` calls, as far as memory and processes go; `root` is the inode that `namei("/")`
finds. -/
def boot (L : Layout) (root : Nat) : Sys Unit := do
  onMem (kinit L)
  let kernelPagetable ← onMem (kvminit L)
  change fun s => s.setKernelPagetable kernelPagetable
  procinit
  userinit L root

/-- The kernel's variables at reset, with anything in memory. -/
def State.reset (word : Nat → Nat → Word) : State where
  mem := ⟨word, 0, []⟩
  kernelPagetable := 0
  proc := fun _ => .zero
  initproc := none
  nextpid := 1
  file := fun _ => .zero

variable {L : Layout} {s : State} {out : Multiset Nat}

/-! ## The kernel stacks -/

theorem KSTACK_eq (p : Slot) : KSTACK p.val = (0x3FFFFFF - 2 * (p.val + 1)) * PGSIZE := by
  have hp : p.val < 64 := p.isLt
  unfold KSTACK
  rw [show TRAMPOLINE = 0x3FFFFFF * 4096 from rfl, PGSIZE_eq]
  omega

theorem stackPage_eq (p : Slot) : stackPage p = 0x3FFFFFF - 2 * (p.val + 1) := by
  unfold stackPage
  rw [KSTACK_eq, Nat.mul_div_cancel _ (by decide)]

theorem stackPage_injective {p q : Slot} (h : stackPage p = stackPage q) : p = q := by
  have hp : p.val < 64 := p.isLt
  have hq : q.val < 64 := q.isLt
  rw [stackPage_eq, stackPage_eq] at h
  exact Fin.ext (by omega)

/-- The pages of the kernel stacks that are mapped. -/
def stackPages (mp : Nat → Option Word) : Multiset Nat := ∑ p, pageOf (mp (stackPage p))

theorem card_stackPages (mp : Nat → Option Word) : (stackPages mp).card ≤ 64 := by
  unfold stackPages
  rw [card_sum]
  have hone : ∀ p ∈ (univ : Finset Slot), (pageOf (mp (stackPage p))).card ≤ 1 := by
    intro p _
    cases mp (stackPage p) with
    | none => exact Nat.zero_le 1
    | some w => exact Nat.le_refl 1
  exact (sum_le_card_nsmul _ _ 1 hone).trans (by decide)

theorem stackPages_update {mp : Nat → Option Word} {p : Slot} {w : Word} (h : mp (stackPage p) = none) :
    stackPages (update mp (stackPage p) (some w)) = {PTE2PA w} + stackPages mp := by
  have hrest : ∑ q ∈ univ.erase p, pageOf (update mp (stackPage p) (some w) (stackPage q)) =
      ∑ q ∈ univ.erase p, pageOf (mp (stackPage q)) := by
    apply sum_congr rfl
    intro q hq
    rw [update_of_ne fun e => ne_of_mem_erase hq (stackPage_injective e)]
  have hold := add_sum_erase univ (fun q => pageOf (mp (stackPage q))) (mem_univ p)
  have hnew := add_sum_erase univ (fun q => pageOf (update mp (stackPage p) (some w) (stackPage q)))
    (mem_univ p)
  have hnone : pageOf none = 0 := rfl
  rw [h, hnone, zero_add] at hold
  rw [update_self, hrest, hold] at hnew
  exact hnew.symm

/-- The stacks of the processes `ps` are still to be mapped. -/
structure Stacked (L : Layout) (s : State) (ps : List Slot) (s' : State) : Prop where
  nodup : ps.Nodup
  eq : s' = s.setMem s'.mem
  table : ∃ mp, Grown L (stackPages mp) s'.mem s.kernelPagetable (401 - 2 * ps.length) mp ∧
    ∀ p, if p ∈ ps then mp (stackPage p) = none else ∃ w, mp (stackPage p) = some w

theorem procinit_spec (hL : L.Bootable) (h : Stacked L s (List.finRange NPROC) s) :
    wp procinit (fun _ s' => Stacked L s [] s') never s := by
  have hcard := hL.card_frames
  apply wp_each (fun ps s' => Stacked L s ps s') _ _ s h
  rintro p ps s₁ ⟨hnodup, heq, mp, ⟨hfails, T, ht, hpool, hT⟩, hmap⟩
  have hp : p.val < 64 := p.isLt
  have hlength : (p :: ps).length ≤ 64 := by
    have := hnodup.length_le_card
    rwa [Fintype.card_fin] at this
  rw [List.length_cons] at hT hlength
  have hB := card_stackPages mp
  have hnone : mp (stackPage p) = none := by simpa using hmap p
  rw [wp_bind, wp_onMem]
  apply wp_mono (kalloc_page hpool hfails (by rw [card_add]; omega)) _ fun _ _ h => h
  rintro pa m₁ ⟨hne, pool, same, hfails⟩
  rw [if_neg hne, wp_bind, wp_read, wp_onMem, heq]
  have hgrown : Grown L ({pa} + stackPages mp) m₁ s.kernelPagetable (401 - 2 * (ps.length + 1)) mp := by
    refine ⟨hfails, T, ht.congr same.left, pool.of_eq ?_, hT⟩
    rw [← singleton_add]
    abel
  have hpage : PTE2PA (PA2PTE pa ||| (PTE_R ||| PTE_W) ||| PTE_V) = pa :=
    PTE2PA_entry (pool.pageAddr (mem_cons_self _ _)) (by decide)
  have hva : (stackPage p + 0 + 1) * PGSIZE ≤ MAXVA := by
    rw [stackPage_eq, PGSIZE_eq, MAXVA_eq]
    omega
  have hfree : ∀ u, stackPage p ≤ u → u ≤ stackPage p + 0 → mp u = none := by
    intro u hu hu'
    rw [show u = stackPage p by omega]
    exact hnone
  have hroom : 401 - 2 * (ps.length + 1) + (2 * 0 + 2) + ({pa} + stackPages mp).card ≤ L.frames.card := by
    rw [Multiset.card_add, Multiset.card_singleton]
    omega
  apply wp_mono (kvmmap_spec (stackPage p) 0 0 hgrown (by rw [KSTACK_eq, stackPage_eq]) (by rw [Nat.zero_add, Nat.one_mul]) hva
    hfree (by omega) hroom) _ fun _ _ h => h
  · rintro _ m₂ ⟨hfails₂, T₂, ht₂, hpool₂, hT₂⟩
    rw [Nat.zero_add, mapRange_one] at ht₂
    refine ⟨hnodup.of_cons, rfl, _, ⟨hfails₂, T₂, ht₂, ?_, by omega⟩, fun q => ?_⟩
    · rw [stackPages_update hnone, hpage]
      exact hpool₂
    · by_cases hq : q = p
      · subst hq
        rw [if_neg (List.nodup_cons.mp hnodup).1, update_self]
        exact ⟨_, rfl⟩
      · rw [update_of_ne fun e => hq (stackPage_injective e)]
        have hold := hmap q
        simp only [List.mem_cons, hq, false_or] at hold
        exact hold

/-! ## Before the first process -/

/-- Memory belongs to the kernel or is free. -/
structure Booted (L : Layout) (s : State) : Prop where
  core : Core L s 0 0
  proc : s.proc = fun _ => .zero
  fails : s.mem.fails = []
  room : ∃ out, Pool L s.mem out ∧ out.card ≤ 465

theorem refs_zero (f : FileId) : refs (fun _ => Proc.zero) f = ∅ := by
  ext ⟨p, fd⟩
  unfold refs
  rw [mem_pointers]
  simp [Proc.zero]

theorem booted_of_stacked (hproc : s.proc = fun _ => .zero) (hfile : s.file = fun _ => .zero) {s' : State}
    (h : Stacked L s [] s') : Booted L s' := by
  obtain ⟨-, heq, mp, ⟨hfails, T, ht, hpool, hT⟩, hmap⟩ := h
  have hproc' : s'.proc = fun _ => .zero := heq ▸ hproc
  have hfile' : s'.file = fun _ => .zero := heq ▸ hfile
  have hroot : s'.kernelPagetable = s.kernelPagetable := heq ▸ rfl
  have hpipes : pipePages s'.file = ∅ := by
    rw [hfile']
    rfl
  have hB := card_stackPages mp
  have hnot : ∀ f page w, ¬ (s'.file f).IsEnd page w := by
    intro f page w hend
    rw [hfile'] at hend
    cases hend.1
  refine ⟨⟨⟨T + stackPages mp, ⟨fun _ => 0, T + stackPages mp, fun p => ?_, ⟨T, mp, ?_, fun p => ?_, rfl⟩, ?_⟩, ?_⟩, ⟨?_, ?_, ?_⟩, ?_⟩,
    hproc', hfails, _, hpool, ?_⟩
  · rw [layer, hproc']
    exact .nothing
  · rw [hroot]
    exact ht
  · exact hmap p
  · rw [hpipes, sum_const_zero]
    exact ((zero_add _).trans (add_zero _)).symm
  · rw [add_zero]
    exact hpool
  · intro f _
    rw [hfile']
    rfl
  · intro f g page w hend
    exact absurd hend (hnot f page w)
  · intro page hpage
    rw [hpipes] at hpage
    cases hpage
  · intro f
    rw [hproc', hfile', refs_zero]
    rfl
  · rw [card_add]
    simp only [List.length_nil] at hT
    omega

/-! ## The first process -/

/-- With enough frames `allocproc` finds a slot and what goes with it. -/
theorem allocproc_room {p : Slot} (hpool : Pool L s.mem out) (hfails : s.mem.fails = []) (hroom : out.card + 6 ≤ L.frames.card)
    (hp : (s.proc p).state = .unused) : wp (allocproc L) (fun r s' => r ≠ none ∧ s'.mem.fails = [] ∧
      ∃ out', Pool L s'.mem out' ∧ out'.card ≤ out.card + 6) never s := by
  unfold allocproc
  rw [wp_bind, wp_read]
  cases hfind : (List.finRange NPROC).find? fun p => (s.proc p).state = .unused with
  | none =>
    have hnot := List.find?_eq_none.mp hfind p (List.mem_finRange p)
    simp [hp] at hnot
  | some np =>
    show wp (allocpid >>= _) _ _ s
    rw [wp_bind, allocpid, wp_bind, wp_read, wp_bind, wp_change, wp_pure, wp_bind, assign, wp_change, wp_bind, wp_onMem]
    apply wp_mono (kalloc_page (m := s.mem) hpool hfails (by omega)) _ fun _ _ h => h
    rintro trapframe m₁ ⟨hne₁, pool, -, hfails₁⟩
    rw [wp_bind, assign, wp_change, if_neg hne₁, wp_bind, wp_onMem]
    apply wp_mono (procPagetable_spec (m := m₁) pool) _ fun _ _ h => h
    rintro pagetable m₂ (⟨-, -, -, hshort⟩ | ⟨hne, T, mp, hroom₂, hT, hfails₂⟩)
    · exact absurd hshort (not_short hfails₁ (by rw [Multiset.card_cons]; omega))
    · rw [wp_bind, assign, wp_change, if_neg hne, wp_pure]
      refine ⟨Option.some_ne_none np, hfails₂ hfails₁, _, hroom₂.pool, ?_⟩
      rw [pages_zero, zero_add, Multiset.card_add, Multiset.card_cons]
      omega

theorem ProcOk.zero {init : Option Slot} (p : Slot) : ProcOk init p .zero :=
  ⟨fun _ => rfl, fun h => absurd rfl h, fun _ _ => rfl, fun h => absurd rfl h⟩

/-- `init` is the only process, and most of memory is free. -/
structure Fresh (L : Layout) (s : State) (p : Slot) : Prop where
  inv : Inv L s
  init : s.initproc = some p
  run : (s.proc p).state = .runnable
  pid : (s.proc p).pid = 1
  killed : (s.proc p).killed = false
  sz : (s.proc p).sz = PGSIZE
  closed : ∀ fd, (s.proc p).ofile fd = none
  nextpid : s.nextpid = 2
  others : ∀ q, q ≠ p → s.proc q = .zero
  fails : s.mem.fails = []
  room : ∃ out, Pool L s.mem out ∧ out.card ≤ 474

theorem card_pages_one_le (mp : Nat → Option Word) : (Vm.pages mp 0 1).card ≤ 1 := by
  rw [pages_back, pages_zero, zero_add]
  cases mp (0 + 0) with
  | none => exact Nat.zero_le 1
  | some w => exact Nat.le_refl 1

/-- `init` as `userinit` leaves it. -/
def Proc.first (q : Proc) (root : Nat) : Proc :=
  ((q.setName "initcode".toUTF8.toList).setCwd (some root)).setState .runnable

theorem firstReturn_spec {p : Slot} {root : Nat} (h : Core L s 0 0) (hlive : (s.proc p).pagetable ≠ 0)
    (hpool : Pool L s.mem out) (hmem : (s.proc p).trapframe ∈ out) :
    wp (firstReturn p root) (fun _ s' => ∃ m', s' = (s.setMem m').setProc p ((s.proc p).first root) ∧ Core L s' 0 0 ∧
      m'.fails = s.mem.fails ∧ Pool L m' out) never s := by
  unfold firstReturn
  rw [wp_bind, wp_setReg, wp_bind, wp_setReg]
  have hcore₁ := h.writeTrapframe hlive (s.mem.setWord (s.proc p).trapframe TF_EPC (BitVec.ofNat 64 0)) rfl rfl
    fun q hq => Radix.set_of_ne hq
  have hpool₁ := hpool.setWord hmem TF_EPC (BitVec.ofNat 64 0)
  have hcore₂ := hcore₁.writeTrapframe hlive
    ((s.mem.setWord (s.proc p).trapframe TF_EPC (BitVec.ofNat 64 0)).setWord (s.proc p).trapframe TF_SP
      (BitVec.ofNat 64 PGSIZE)) rfl rfl fun q hq => Radix.set_of_ne hq
  have hpool₂ := hpool₁.setWord hmem TF_SP (BitVec.ofNat 64 PGSIZE)
  rw [wp_bind, assign, wp_change, wp_bind, assign, wp_change, assign, wp_change]
  simp only [setProc_proc, setProc_setProc]
  exact ⟨_, rfl, hcore₂.assign rfl rfl, rfl, hpool₂⟩

theorem userinit_spec (hL : L.Bootable) {root : Nat} (h : Booted L s) (hpid : s.nextpid = 1) :
    wp (userinit L root) (fun _ s' => ∃ p, Fresh L s' p) never s := by
  obtain ⟨hcore, hproc, hfails, out, hpool, hout⟩ := h
  have hcard := hL.card_frames
  have hzero : ∀ p, s.proc p = .zero := fun p => by rw [hproc]
  have hunused : ∀ p, (s.proc p).state = .unused → (s.proc p).layer = ⟨0, 0, 0⟩ := fun p _ => by
    rw [hzero]
    rfl
  have hboth := wp_and (allocproc_spec hcore hunused)
    (allocproc_room (p := ⟨0, by decide⟩) hpool hfails (by omega) (by rw [hzero]; rfl))
  unfold userinit
  apply wp_seq (wp_mono hboth (fun _ _ h => h) fun _ _ h => h.1)
  rintro r s₁ ⟨⟨hcore₁, ⟨rfl, -⟩ | ⟨p, m', pagetable, trapframe, rfl, hnew⟩⟩, hsome, hfails₁, out₁, hpool₁, hout₁⟩
  · exact absurd rfl hsome
  have hproc₁ : s₁.proc p = Proc.zero.start s.nextpid trapframe pagetable := by
    rw [hnew.eq, setProc_proc, hzero]
  have hothers : ∀ q, q ≠ p → s₁.proc q = .zero := by
    intro q hq
    rw [hnew.eq, setProc_of_ne _ _ hq]
    exact hzero q
  show wp (change (fun s => s.setInitproc (some p)) >>= _) _ _ s₁
  rw [wp_bind, wp_change, wp_bind, wp_read, wp_bind, wp_onMem]
  generalize hs₂ : s₁.setInitproc (some p) = s₂
  have hcore₂ : Core L s₂ 0 0 := by
    rw [← hs₂]
    exact hcore₁.of_fields rfl rfl rfl rfl fun _ => rfl
  have hproc₂ : s₂.proc = s₁.proc := hs₂ ▸ rfl
  have hmem₂ : s₂.mem = s₁.mem := hs₂ ▸ rfl
  have hinit₂ : s₂.initproc = some p := hs₂ ▸ rfl
  have hlive : (s₂.proc p).pagetable ≠ 0 := by
    rw [hproc₂, hproc₁]
    exact hnew.root
  have hsz : (s₂.proc p).sz = 0 := by
    rw [hproc₂, hproc₁]
    rfl
  obtain ⟨R, T, mp, htf, hroom, -, hback⟩ := hcore₂.room hlive
  rw [hsz] at hroom
  have hbytes : initcode.length < PGSIZE := by decide
  have hT : (T + ({(s₂.proc p).trapframe} + (R + 0))).card ≤ 471 := by
    have hsame := hroom.pool.unique (hmem₂ ▸ hpool₁)
    rw [show npages 0 = 0 from rfl, pages_zero, zero_add] at hsame
    rw [hsame]
    omega
  apply wp_mono (uvminit_spec hbytes hroom (hmem₂ ▸ hfails₁) (by omega)) _ fun _ _ h => h
  rintro _ m₃ ⟨T', mp', hroom₃, hT', hfails₃⟩
  have hpages : npages ((s₂.proc p).setSz PGSIZE).sz = 1 := by
    show npages PGSIZE = 1
    rw [npages, PGSIZE_eq]
  have hcore₃ := hback m₃ ((s₂.proc p).setSz PGSIZE) T' mp' rfl rfl rfl (hpages ▸ hroom₃)
  rw [wp_bind, assign, wp_change, setMem_proc]
  generalize hs₃ : (s₂.setMem m₃).setProc p ((s₂.proc p).setSz PGSIZE) = s₃ at hcore₃ ⊢
  have hproc₃ : s₃.proc p = (s₂.proc p).setSz PGSIZE := hs₃ ▸ setProc_proc ..
  have hinit₃ : s₃.initproc = some p := hs₃ ▸ hinit₂
  have hothers₃ : ∀ q, q ≠ p → s₃.proc q = .zero := by
    intro q hq
    rw [← hs₃, setProc_of_ne _ _ hq, setMem_proc, hproc₂]
    exact hothers q hq
  have hlive₃ : (s₃.proc p).pagetable ≠ 0 := by
    rw [hproc₃]
    exact hlive
  have hpool₃ : Pool L s₃.mem (T' + (Vm.pages mp' 0 1 + ({(s₂.proc p).trapframe} + (R + 0)))) := hs₃ ▸ hroom₃.pool
  have hmem₃ : (s₃.proc p).trapframe ∈ T' + (Vm.pages mp' 0 1 + ({(s₂.proc p).trapframe} + (R + 0))) := by
    rw [hproc₃]
    simp [Proc.setSz]
  apply wp_mono (firstReturn_spec hcore₃ hlive₃ hpool₃ hmem₃) _ fun _ _ => id
  rintro _ s₄ ⟨m₄, rfl, hcore₄, hfails₄, hpool₄⟩
  have hfirst : s₃.proc p = ((Proc.zero.start s.nextpid trapframe pagetable).setSz PGSIZE) := by
    rw [hproc₃, hproc₂, hproc₁]
  refine ⟨p, ⟨hcore₄, ?_, fun q => ?_⟩, hinit₃, ?_, ?_, ?_, ?_, fun fd => ?_, ?_, fun q hq => ?_, ?_, _, hpool₄, ?_⟩
  · show s₃.initproc ≠ none
    rw [hinit₃]
    exact Option.some_ne_none p
  · show ProcOk s₃.initproc q _
    rw [hinit₃]
    by_cases hq : q = p
    · subst hq
      rw [setProc_proc]
      exact .active (ProcState.noConfusion ·) (ProcState.noConfusion ·) hlive₃ fun h => absurd rfl h
    · rw [setProc_of_ne _ _ hq, setMem_proc, hothers₃ q hq]
      exact .zero q
  · rw [setProc_proc]
    rfl
  · rw [setProc_proc, hfirst, hpid]
    rfl
  · rw [setProc_proc, hfirst]
    rfl
  · rw [setProc_proc, hfirst]
    rfl
  · rw [setProc_proc, hfirst]
    rfl
  · show s₃.nextpid = 2
    rw [← hs₃, ← hs₂, hnew.eq]
    show s.nextpid + 1 = 2
    rw [hpid]
    rfl
  · rw [setProc_of_ne _ _ hq]
    exact hothers₃ q hq
  · show m₄.fails = []
    rw [hfails₄, ← hs₃]
    exact hfails₃
  · have hone := card_pages_one_le mp'
    rw [card_add] at hT
    rw [card_add, card_add]
    omega

/-- The kernel boots, and then the first process can run. -/
theorem boot_spec (hL : L.Bootable) (root : Nat) (word : Nat → Nat → Word) :
    wp (boot L root) (fun _ s => ∃ p, Fresh L s p) never (reset word) := by
  unfold boot
  rw [wp_bind, wp_onMem]
  apply wp_mono (kinit_spec rfl) _ fun _ _ h => h
  rintro _ m₁ ⟨hpool₁, hfails₁⟩
  rw [wp_bind, wp_onMem]
  apply wp_mono (kvminit_spec hL hpool₁ hfails₁) _ fun _ _ h => h
  rintro kernelPagetable m₂ ⟨mp, hgrown, hnone⟩
  rw [wp_bind, wp_change]
  have hfree : ∀ p, mp (stackPage p) = none := by
    intro p
    have hp : p.val < 64 := p.isLt
    rw [stackPage_eq]
    exact hnone _ (by omega) (by omega)
  have hstacks : stackPages mp = 0 := by
    unfold stackPages
    apply Finset.sum_eq_zero
    intro p _
    rw [hfree p]
    rfl
  apply wp_seq (procinit_spec hL ⟨List.nodup_finRange NPROC, rfl, mp, ?_, fun p => ?_⟩)
  · intro _ s₃ h₃
    have hpid : s₃.nextpid = 1 := h₃.eq ▸ rfl
    exact userinit_spec hL (booted_of_stacked rfl rfl h₃) hpid
  · rw [hstacks]
    exact hgrown
  · rw [if_pos (List.mem_finRange p)]
    exact hfree p

end Xv6.Kernel
