import Xv6.Kernel.Runs

/-!
# Who has which page

What `Inv` says about the pages and the address spaces, read off a state by following its pointers:
`freePages` follows the free list, `tablePages` and `userPages` follow a page table, and so on.
Between calls every frame is in one of these places, once. A failed `exec` has changed nothing but
pages that were free and are free again. Calls that overlap in time are not modelled.
-/

namespace Xv6.Kernel

open Prog Radix Vm Multiset

/-! ## Pages of a state -/

/-- Page numbers other than those of the trapframe and the trampoline. -/
def IsUser (v : Nat) : Prop := v < NPAGES ∧ v ≠ TFPAGE ∧ v ≠ TRPAGE

@[irreducible] def userNumbers : Finset Nat := ((Finset.range NPAGES).erase TFPAGE).erase TRPAGE

theorem mem_userNumbers {v : Nat} : v ∈ userNumbers ↔ IsUser v := by
  unfold userNumbers IsUser
  rw [Finset.mem_erase, Finset.mem_erase, Finset.mem_range]
  tauto

namespace State

variable (s : State) (p : Slot)

/-- The entry of a process's page table for a page number. -/
def entry (v : Nat) : Option Word := if (s.proc p).pagetable = 0 then none else sv39.leaf s.mem.word 2 (s.proc p).pagetable v

/-- The pages that a process's page table maps, except at `TRAPFRAME` and `TRAMPOLINE`. -/
def userPages : Multiset Nat := ∑ v ∈ userNumbers, pageOf (s.entry p v)

/-- The pages of a process's page table. -/
def tablePages : Multiset Nat := if (s.proc p).pagetable = 0 then 0 else sv39.tables s.mem.word 2 (s.proc p).pagetable

def trapframePages : Multiset Nat := if (s.proc p).trapframe = 0 then 0 else {(s.proc p).trapframe}

/-- What the kernel's page table maps at the address of a process's kernel stack. -/
def kernelStack : Multiset Nat := pageOf (sv39.leaf s.mem.word 2 s.kernelPagetable (stackPage p))

def kernelTables : Multiset Nat := sv39.tables s.mem.word 2 s.kernelPagetable

def pipeBuffers : Multiset Nat := (pipePages s.file).val

end State

variable {L : Layout} {s s' : State} {p : Slot} {F K : Multiset Nat}

theorem NPAGES_pos {v : Nat} (hv : v < 32769) : v < NPAGES := by
  have := NPAGES_eq
  omega

/-- The user's pages are those below the size. -/
theorem sum_pages_eq {word : Nat → Nat → Word} {root tf n : Nat} {T : Multiset Nat} {mp : Nat → Option Word} (hn : n ≤ 32768)
    (h : Space L word root tf n T mp) :
    ∑ v ∈ userNumbers, pageOf (sv39.leaf word 2 root v) = Vm.pages mp 0 n := by
  have htf := TFPAGE_eq
  have htr := TRPAGE_eq
  have hsub : Finset.range n ⊆ userNumbers := by
    intro v hv
    have hv := Finset.mem_range.mp hv
    exact mem_userNumbers.mpr ⟨NPAGES_pos (by omega), by omega, by omega⟩
  unfold Vm.pages
  rw [← Finset.sum_subset hsub]
  · apply Finset.sum_congr rfl
    intro v hv
    have hv := Finset.mem_range.mp hv
    rw [h.table.leaf v (NPAGES_pos (by omega)), zero_add]
  · intro v hv hnot
    obtain ⟨hlt, hvtf, hvtr⟩ := mem_userNumbers.mp hv
    rw [h.table.leaf v hlt, h.rest v hlt (Nat.not_lt.mp fun hv => hnot (Finset.mem_range.mpr hv)) hvtf hvtr]
    rfl

/-- What a process owns, as its pointers show it. -/
theorem owns_eq (h : Owns L s.mem.word (s.layer p) F) (hn : npages (s.proc p).sz ≤ 32768) :
    s.tablePages p + (s.userPages p + s.trapframePages p) = F := by
  have hx : s.layer p = ⟨(s.proc p).pagetable, (s.proc p).trapframe, (s.proc p).sz⟩ := rfl
  unfold State.tablePages State.userPages State.trapframePages State.entry
  generalize (s.proc p).pagetable = pagetable at hx ⊢
  generalize (s.proc p).trapframe = trapframe at hx ⊢
  generalize (s.proc p).sz = sz at hx hn
  rw [hx] at h
  have hempty : ∑ v ∈ userNumbers, pageOf none = 0 := Finset.sum_const_zero
  cases h with
  | nothing => simp only [if_true, hempty, zero_add]
  | bare _ htf => simp only [if_true, hempty, zero_add, if_neg htf]
  | space _ T mp hroot htf hspace =>
    simp only [if_neg hroot, if_neg htf]
    rw [hspace.table.tables, sum_pages_eq hn hspace]

theorem kernelPages_eq (h : KernelPages s.mem.word s.kernelPagetable K) :
    s.kernelTables + ∑ p, s.kernelStack p = K := by
  obtain ⟨T, mp, ht, -, rfl⟩ := h
  have hlt : ∀ p : Slot, stackPage p < NPAGES := by
    intro p
    have := NPAGES_eq
    rw [stackPage_eq]
    omega
  have hstack : ∀ p ∈ (Finset.univ : Finset Slot), s.kernelStack p = pageOf (mp (stackPage p)) := by
    intro p _
    rw [State.kernelStack, ht.leaf _ (hlt p)]
  rw [Finset.sum_congr rfl hstack, State.kernelTables, ht.tables]

/-- A space of more pages than there are frames cannot be. -/
theorem Core.npages_le {B : Multiset Nat} {held : FileId → Int} (h : Core L s B held) (p : Slot) :
    npages (s.proc p).sz ≤ 32768 := by
  obtain ⟨F, R, hpool, howns, -, -⟩ := h.focus p
  by_cases hlive : (s.proc p).pagetable = 0
  · have hsz : (s.proc p).sz = 0 := by
      have hx : s.layer p = ⟨(s.proc p).pagetable, (s.proc p).trapframe, (s.proc p).sz⟩ := rfl
      rw [hlive] at hx
      generalize (s.proc p).trapframe = trapframe at hx
      generalize (s.proc p).sz = sz at hx ⊢
      rw [hx] at howns
      cases howns with
      | nothing => rfl
      | bare => rfl
      | space _ _ _ hroot => exact absurd rfl hroot
    rw [hsz]
    decide
  · obtain ⟨R, T, mp, -, hroom, -⟩ := h.room hlive
    have := hroom.n_le
    omega

theorem Inv.frames_eq (h : Inv L s) : (freePages L s.mem : Multiset Nat) +
    (∑ p, (s.tablePages p + (s.userPages p + s.trapframePages p)) + (s.kernelTables + ∑ p, s.kernelStack p + s.pipeBuffers)) =
      L.frames := by
  obtain ⟨X, ⟨F, K, howns, hkernel, rfl⟩, hpool⟩ := h.core.frames
  rw [add_zero] at hpool
  rw [kernelPages_eq hkernel, Finset.sum_congr rfl fun p _ => owns_eq (howns p) (h.core.npages_le p)]
  exact hpool.freePages_add

theorem mem_userPages {v : Nat} {w : Word} (hv : IsUser v) (hw : s.entry p v = some w) : PTE2PA w ∈ s.userPages p := by
  apply mem_sum.mpr
  refine ⟨v, mem_userNumbers.mpr hv, ?_⟩
  rw [hw]
  exact mem_singleton_self _

/-- A page that the user's part of a page table maps is mapped there only. -/
theorem entry_injective {q : Slot} {u v : Nat} {w w' : Word} (hn : (∑ p, s.userPages p).Nodup) (hu : IsUser u) (hv : IsUser v)
    (hw : s.entry p u = some w) (hw' : s.entry q v = some w') (heq : PTE2PA w = PTE2PA w') : p = q ∧ u = v := by
  have hpq : p = q := by
    by_contra hne
    exact notMem_of_nodup_sum hn (Finset.mem_univ p) (Finset.mem_univ q) (Ne.symm hne) (mem_userPages hu hw)
      (heq ▸ mem_userPages hv hw')
  subst hpq
  refine ⟨rfl, ?_⟩
  have hle : s.userPages p ≤ ∑ p, s.userPages p :=
    Finset.single_le_sum (fun _ _ => Multiset.zero_le _) (Finset.mem_univ p)
  by_contra hne
  apply notMem_of_nodup_sum (nodup_of_le hle hn) (mem_userNumbers.mpr hu) (mem_userNumbers.mpr hv) (Ne.symm hne)
    (a := PTE2PA w)
  · rw [hw]
    exact mem_singleton_self _
  · rw [hw', heq]
    exact mem_singleton_self _

/-- A kernel of four pages. -/
def fourPages : Layout where
  kend := KERNBASE + 4 * PGSIZE
  trampoline := KERNBASE + 2 * PGSIZE
  kend_ge := by decide
  kend_le := by decide
  trampoline_page := ⟨by decide, by decide⟩
  trampoline_lt := by decide

theorem fourPages_bootable : fourPages.Bootable := ⟨by decide, by decide⟩

/-- Between the calls of a run, every frame has one use: it is free, or it belongs to a page table,
to the memory or to the trapframe of one process, to the kernel's page table, to a kernel stack or
to a pipe. No page of memory is mapped twice. -/
theorem frames_have_one_use (L : Layout) (hL : L.Bootable) (s : State) (h : Reached L s) :
    L.frames.Nodup ∧
    (freePages L s.mem : Multiset Nat) + (∑ p, (s.tablePages p + (s.userPages p + s.trapframePages p)) +
      (s.kernelTables + ∑ p, s.kernelStack p + s.pipeBuffers)) = L.frames ∧
    ∀ p q u v w w', IsUser u → IsUser v → s.entry p u = some w → s.entry q v = some w' → PTE2PA w = PTE2PA w' →
      p = q ∧ u = v := by
  have heq := (h.inv hL).frames_eq
  refine ⟨L.frames_nodup, heq, fun p q u v w w' hu hv hw hw' hpa => ?_⟩
  have hnodup := L.frames_nodup
  rw [← heq] at hnodup
  have hprocs := (nodup_add.mp (nodup_add.mp hnodup).2.1).1
  have hle : ∑ p, s.userPages p ≤ ∑ p, (s.tablePages p + (s.userPages p + s.trapframePages p)) :=
    Finset.sum_le_sum fun p _ => (Multiset.le_add_right _ _).trans (Multiset.le_add_left _ _)
  exact entry_injective (nodup_of_le hle hprocs) hu hv hw hw' hpa

/-- After a fork, and a pipe of the child for which there is no page. -/
theorem frames_have_one_use_forked : ∃ s₀ s p np, Fresh fourPages s₀ p ∧ np ≠ p ∧
    run (step fourPages) s₀ [⟨p, .fork, []⟩, ⟨np, .pipe 0, [true]⟩] = some (.ok s) ∧
    (freePages fourPages s.mem : Multiset Nat) + (∑ p, (s.tablePages p + (s.userPages p + s.trapframePages p)) +
      (s.kernelTables + ∑ p, s.kernelStack p + s.pipeBuffers)) = fourPages.frames := by
  obtain ⟨s₀, s₁, p, np, hboot, hfresh, hfork, hforked⟩ := exists_forked fourPages_bootable
  obtain ⟨hrun, -⟩ := hforked.run np (by simp)
  have hinv := hforked.inv.setFails [true]
  obtain ⟨r, s, hpipe, -⟩ := wp_returns (m := sysPipe fourPages np 0) (sysPipe_spec hinv.core (hinv.live hrun))
  have hrun₂ : run (step fourPages) s₀ [⟨p, .fork, []⟩, ⟨np, .pipe 0, [true]⟩] = some (.ok s) := by
    rw [run_cons_ok hfork, run_cons_ok (step_of_call rfl hrun hpipe)]
    rfl
  exact ⟨s₀, s, p, np, hfresh, hforked.ne, hrun₂,
    (frames_have_one_use fourPages fourPages_bootable s ⟨1, _, s₀, _, hboot, hrun₂⟩).2.1⟩

/-! ## Address spaces -/

/-- The entries of a space, as its page table shows them. -/
theorem space_entry {word : Nat → Nat → Word} {root tf n : Nat} {T : Multiset Nat} {mp : Nat → Option Word} {v : Nat}
    (hn : n ≤ 32768) (h : Space L word root tf n T mp) (hv : v < NPAGES) :
    ((∃ w, sv39.leaf word 2 root v = some w) ↔ v < n ∨ v = TFPAGE ∨ v = TRPAGE) ∧
      ∀ w, sv39.leaf word 2 root v = some w → isLeaf w = true ∧ (v = TFPAGE ∨ v = TRPAGE → w &&& PTE_U = 0) := by
  have htf := TFPAGE_eq
  have htr := TRPAGE_eq
  rw [h.table.leaf v hv]
  by_cases hvtf : v = TFPAGE
  · rw [hvtf, h.trapframe]
    refine ⟨⟨fun _ => .inr (.inl rfl), fun _ => ⟨_, rfl⟩⟩, fun w hw => ?_⟩
    cases hw
    rw [isLeaf_entry, entry_and _ _ (by decide)]
    exact ⟨by decide, fun _ => by decide⟩
  by_cases hvtr : v = TRPAGE
  · rw [hvtr, h.trampoline]
    refine ⟨⟨fun _ => .inr (.inr rfl), fun _ => ⟨_, rfl⟩⟩, fun w hw => ?_⟩
    cases hw
    rw [isLeaf_entry, entry_and _ _ (by decide)]
    exact ⟨by decide, fun _ => by decide⟩
  by_cases hvn : v < n
  · obtain ⟨w, hw, hleaf⟩ := h.user v hvn
    refine ⟨⟨fun _ => .inl hvn, fun _ => ⟨w, hw⟩⟩, fun w' hw' => ⟨?_, fun hspecial => ?_⟩⟩
    · cases hw.symm.trans hw'
      exact hleaf
    · rcases hspecial with hspecial | hspecial <;> omega
  · rw [h.rest v hv (Nat.not_lt.mp hvn) hvtf hvtr]
    refine ⟨⟨fun hsome => ?_, fun hor => ?_⟩, fun w hw => by cases hw⟩
    · obtain ⟨w, hw⟩ := hsome
      cases hw
    · rcases hor with hlt | heq | heq
      · exact absurd hlt hvn
      · exact absurd heq hvtf
      · exact absurd heq hvtr

theorem page_eq_iff {v k : Nat} : v * PGSIZE = k * PGSIZE ↔ v = k := Nat.mul_left_inj (by decide)

/-- Between the calls of a run, the page table of every process has the pages below its size, the
trapframe and the trampoline, the last two out of the user's reach; and no call panics, except that
`init` may not exit. -/
theorem address_space_shape (L : Layout) (hL : L.Bootable) (s : State) (h : Reached L s) :
    (∀ p, (s.proc p).state ≠ .unused → ∀ v, v < NPAGES →
      ((∃ w, s.entry p v = some w) ↔
        v * PGSIZE < PGROUNDUP (s.proc p).sz ∨ v * PGSIZE = TRAPFRAME ∨ v * PGSIZE = TRAMPOLINE) ∧
      ∀ w, s.entry p v = some w → isLeaf w = true ∧
        (v * PGSIZE = TRAPFRAME ∨ v * PGSIZE = TRAMPOLINE → w &&& PTE_U = 0)) ∧
    ∀ a e, step L s a = some (.error e) → e = .initExiting := by
  have hinv := h.inv hL
  refine ⟨fun p hp v hv => ?_, fun a e hstep => step_error hinv hstep⟩
  have hlive := hinv.status.live hp
  have hn := hinv.core.npages_le p
  obtain ⟨R, T, mp, -, hroom, -⟩ := hinv.core.room hlive
  have hsz : (s.proc p).sz < 2 ^ 63 := by
    rw [npages] at hn
    omega
  have hlt : v * PGSIZE < npages (s.proc p).sz * PGSIZE ↔ v < npages (s.proc p).sz := Nat.mul_lt_mul_right (by decide)
  rw [State.entry, if_neg hlive, PGROUNDUP_npages hsz, hlt, show TRAPFRAME = TFPAGE * PGSIZE from rfl,
    show TRAMPOLINE = TRPAGE * PGSIZE from rfl, page_eq_iff, page_eq_iff]
  exact space_entry hn hroom.space hv

/-- After a fork, and an `exec` of an empty file in the child. -/
theorem address_space_shape_forked : ∃ s₀ s p np, Fresh fourPages s₀ p ∧ np ≠ p ∧
    run (step fourPages) s₀ [⟨p, .fork, []⟩, ⟨np, .exec [] (some []) 0, []⟩] = some (.ok s) ∧
    (∃ w, s.entry p 0 = some w ∧ isLeaf w = true) ∧ ∃ w, s.entry p TFPAGE = some w ∧ w &&& PTE_U = 0 := by
  obtain ⟨s₀, s₁, p, np, hboot, hfresh, hfork, hforked⟩ := exists_forked fourPages_bootable
  obtain ⟨hrun, -⟩ := hforked.run np (by simp)
  have hinv := hforked.inv.setFails []
  obtain ⟨r, s, hexec, hexeced⟩ := wp_returns (wp_alone (m := sysExec fourPages (.ofBytes (some [])) np [] 0)
    (sysExec_spec hinv.core (hinv.live hrun)))
  have hrun₂ : run (step fourPages) s₀ [⟨p, .fork, []⟩, ⟨np, .exec [] (some []) 0, []⟩] = some (.ok s) := by
    rw [run_cons_ok hfork, run_cons_ok (step_of_call rfl hrun hexec)]
    rfl
  have hp : s.proc p = s₁.proc p := by
    cases hexeced with
    | failed _ hundone =>
      rw [hundone.eq]
      rfl
    | done => exact State.setProc_of_ne _ _ hforked.ne.symm
  obtain ⟨hstate, hsz⟩ := hforked.run p (by simp)
  have hshape := (address_space_shape fourPages fourPages_bootable s ⟨1, _, s₀, _, hboot, hrun₂⟩).1 p
    (by rw [hp, hstate]; decide)
  obtain ⟨w₀, hw₀⟩ := (hshape 0 (by decide)).1.mpr (.inl (by rw [hp, hsz]; decide))
  obtain ⟨w, hw⟩ := (hshape TFPAGE (by decide)).1.mpr (.inr (.inl rfl))
  exact ⟨s₀, s, p, np, hfresh, hforked.ne, hrun₂, ⟨w₀, hw₀, ((hshape 0 (by decide)).2 w₀ hw₀).1⟩,
    w, hw, ((hshape TFPAGE (by decide)).2 w hw).2 (.inl rfl)⟩

end Xv6.Kernel
