import Xv6.Kernel.Ownership
import Xv6.Vm.Isolate

/-!
# What processes share

Two processes share open files and no memory. What the one stores is not seen by the other. A file
counts the descriptors that point to it, whoever has them, and a pipe is there as long as there is a
descriptor of one of its ends.
-/

namespace Xv6.Kernel

open Prog Radix Vm Function Multiset

variable {L : Layout} {s : State}

/-- A process that has a page table. -/
abbrev Live (s : State) := {p : Slot // (s.proc p).state ≠ .unused}

/-- The pages of the processes, as the counts of `Core` have them. -/
theorem Inv.isolated (h : Inv L s) : ∃ T mp, Isolated s.mem
    (fun p : Live s => (s.proc p.1).pagetable) (fun p => npages (s.proc p.1).sz) T mp := by
  obtain ⟨X, ⟨F, K, howns, -, rfl⟩, hpool⟩ := h.core.frames
  choose T mp htf hspace hF using fun p : Live s => (howns p.1).live (h.status.live p.2)
  refine ⟨T, mp, fun p => (hspace p).table, fun p v hn hv => ?_, ?_⟩
  · have h1 := TFPAGE_eq
    have h2 := TRPAGE_eq
    have h3 := NPAGES_eq
    exact (hspace p).rest v (by omega) hn (by omega) (by omega)
  · have hall : (∑ p, F p).Nodup := by
      have hframes := L.frames_nodup
      rw [← hpool.freePages_add, add_zero] at hframes
      exact (nodup_add.mp (nodup_add.mp hframes).2.1).1
    apply nodup_of_le _ hall
    calc ∑ p, (T p + pages (mp p) 0 (npages (s.proc p.1).sz))
        ≤ ∑ p : Live s, F p.1 := Finset.sum_le_sum fun p _ => by
          rw [hF p, ← add_assoc]
          exact Multiset.le_add_right _ _
      _ = ∑ p with (s.proc p).state ≠ .unused, F p := (Finset.sum_subtype _ (by simp) F).symm
      _ ≤ ∑ p, F p := Finset.sum_le_sum_of_subset (Finset.filter_subset ..)

/-- Between the calls of a run, whatever processes store in their memory, in any order, each of them
loads what it has stored there last itself, or what was there before. -/
theorem processes_isolated (L : Layout) (hL : L.Bootable) (s : State) (h : Reached L s) (ws : List (Live s × Nat × UInt8))
    (hws : ∀ w ∈ ws, w.2.1 < TRAPFRAME) (p : Live s) (va : Nat) (hva : va < TRAPFRAME) :
    loadByte (storeBytes (fun q => (s.proc q.1).pagetable) s.mem ws) (s.proc p.1).pagetable va =
      Views.overwrites (loadByte s.mem (s.proc p.1).pagetable) p ws va := by
  obtain ⟨T, mp, hisolated⟩ := (h.inv hL).isolated
  exact hisolated.loadByte_storeBytes ws hws p hva

/-- A process can load what is below its size. -/
theorem Inv.loadByte_isSome (h : Inv L s) {p : Slot} (hp : (s.proc p).state ≠ .unused) {va : Nat} (hva : va < (s.proc p).sz)
    (hmax : va < TRAPFRAME) : ∃ b, loadByte s.mem (s.proc p).pagetable va = some b := by
  obtain ⟨R, T, mp, -, hroom, -⟩ := h.core.room (h.status.live hp)
  have hpage : va / PGSIZE < npages (s.proc p).sz := by
    unfold npages
    rw [PGSIZE_eq]
    omega
  obtain ⟨w, hw, -⟩ := hroom.space.user _ hpage
  rw [loadByte_of_table hroom.space.table hmax, hw]
  exact ⟨_, rfl⟩

/-- After a fork parent and child store at the same address, and each loads its own byte. -/
theorem processes_isolated_forked : ∃ s, ∃ p np : Live s, Reached fourPages s ∧ p ≠ np ∧
    loadByte (storeBytes (fun q => (s.proc q.1).pagetable) s.mem [(p, 0, 7), (np, 0, 9)]) (s.proc p.1).pagetable 0 = some 7 ∧
    loadByte (storeBytes (fun q => (s.proc q.1).pagetable) s.mem [(p, 0, 7), (np, 0, 9)]) (s.proc np.1).pagetable 0 = some 9 := by
  obtain ⟨s₀, s, p, np, hboot, -, hstep, hforked⟩ := exists_forked fourPages_bootable
  have hs : Reached fourPages s := ⟨1, _, s₀, [⟨p, .fork, []⟩], hboot, run_cons_ok hstep⟩
  have hlive : ∀ q ∈ [p, np], (s.proc q).state ≠ .unused := fun q hq h => by cases (hforked.run q hq).1.symm.trans h
  have hload : ∀ q ∈ [p, np], ∃ b, loadByte s.mem (s.proc q).pagetable 0 = some b := by
    intro q hq
    exact hforked.inv.loadByte_isSome (hlive q hq) (by rw [(hforked.run q hq).2]; decide) (by decide)
  obtain ⟨b, hb⟩ := hload p (by simp)
  obtain ⟨b', hb'⟩ := hload np (by simp)
  have hne : (⟨np, hlive np (by simp)⟩ : Live s) ≠ ⟨p, hlive p (by simp)⟩ := fun e => hforked.ne (congrArg Subtype.val e)
  refine ⟨s, ⟨p, hlive p (by simp)⟩, ⟨np, hlive np (by simp)⟩, hs, hne.symm, ?_, ?_⟩ <;>
    rw [processes_isolated fourPages fourPages_bootable s hs _ (by simp; decide) _ 0 (by decide)] <;>
    simp [Views.overwrites, Views.overwrite, hne, hne.symm, hb, hb']

/-- Some process has a descriptor of this end of the pipe. -/
def HasEnd (s : State) (page : Nat) (writable : Bool) : Prop := ∃ p fd f, (s.proc p).ofile fd = some f ∧ (s.file f).IsEnd page writable

/-- Between the calls of a run, a file's `ref` is the number of the descriptors that point to it. A
page is the buffer of a pipe while there is a descriptor of one of the pipe's ends, and the flag of
an end is set while there is one of that end. -/
theorem descriptors_counted (L : Layout) (hL : L.Bootable) (s : State) (h : Reached L s) :
    (∀ f, (s.file f).ref = (refs s.proc f).card) ∧ (∀ page, page ∈ s.pipeBuffers ↔ ∃ w, HasEnd s page w) ∧
      ∀ page ∈ s.pipeBuffers, ∀ w, IsOpen w (s.mem.word page PIPE_OPEN) ↔ HasEnd s page w := by
  obtain ⟨-, hpipes, hcounted⟩ := (h.inv hL).core
  have hcount : ∀ f, (s.file f).ref = (refs s.proc f).card := fun f => Int.ofNat_inj.mp ((hcounted f).trans (add_zero _))
  have hends : ∀ page w, (∃ f, (s.file f).IsEnd page w) ↔ HasEnd s page w := by
    intro page w
    constructor
    · rintro ⟨f, hend⟩
      -- it has a type, so it is in use
      have hne : (refs s.proc f).card ≠ 0 := fun hzero => by cases hend.1.symm.trans (hpipes.free f ((hcount f).trans hzero))
      obtain ⟨x, hx⟩ := Finset.card_ne_zero.mp hne
      have hfd := mem_pointers.mp hx
      exact ⟨x.1, x.2, f, hfd, hend⟩
    · rintro ⟨-, -, f, -, hend⟩
      exact ⟨f, hend⟩
  refine ⟨hcount, fun page => mem_pipePages.trans (exists_comm.trans (exists_congr (hends page))), fun page hpage w => ?_⟩
  exact (hpipes.flag page hpage w).trans (hends page w)

section

variable {p : Slot}

theorem find_some {n : Nat} {P : Fin n → Prop} [DecidablePred P] (h : ∃ x, P x) :
    ∃ x, (List.finRange n).find? (fun x => P x) = some x ∧ P x := by
  obtain ⟨x, hx⟩ := h
  cases hfind : (List.finRange n).find? fun x => P x with
  | none =>
    have hnot := List.find?_eq_none.mp hfind x (List.mem_finRange x)
    simp [hx] at hnot
  | some y => exact ⟨y, rfl, by simpa using List.find?_some hfind⟩

theorem sysOpen_some {device readable writable : Bool} {ip : Nat} (hfile : ∃ f, (s.file f).ref = 0)
    (hfd : ∃ fd, (s.proc p).ofile fd = none) : wp (sysOpen L p device readable writable ip) (fun _ s' => ∃ f fd,
      s'.proc p = (s.proc p).setOfile fd (some f) ∧ (s'.file f).ref = 1) never s := by
  obtain ⟨f, hf, -⟩ := find_some hfile
  obtain ⟨fd, hfd, -⟩ := find_some hfd
  have hfree : (List.finRange NOFILE).find? (fun fd => ((s.setFile f ((s.file f).setRef 1)).proc p).ofile fd = none) = some fd := hfd
  unfold sysOpen filealloc fdalloc
  rw [wp_bind, wp_bind, wp_read, hf]
  show wp (assignFile f _ >>= _) _ _ _
  rw [wp_bind, assignFile, wp_change, wp_pure, wp_bind, wp_bind, wp_read]
  rw [hfree]
  show wp (assign p _ >>= _) _ _ _
  rw [wp_bind, assign, wp_change, wp_pure, wp_bind, assignFile, wp_change, wp_pure]
  refine ⟨f, fd, ?_, ?_⟩ <;> simp [State.setFile, State.setProc, File.setInode, File.setRef]

theorem sysDup_some {fd : Desc} {f : FileId} (hfd : (s.proc p).ofile fd = some f) (hfree : ∃ fd, (s.proc p).ofile fd = none)
    (href : 0 < (s.file f).ref) : wp (sysDup p fd) (fun _ s' => ∃ fd', fd' ≠ fd ∧
      s'.proc p = (s.proc p).setOfile fd' (some f) ∧ (s'.file f).ref = (s.file f).ref + 1) never s := by
  obtain ⟨fd', hfd', hnone⟩ := find_some hfree
  unfold sysDup fdalloc filedup
  rw [wp_bind, wp_read, hfd]
  show wp ((read _ >>= _) >>= _) _ _ _
  rw [wp_bind, wp_bind, wp_read, hfd']
  show wp (assign p _ >>= _) _ _ _
  rw [wp_bind, assign, wp_change, wp_pure, wp_bind, wp_bind, wp_read]
  show wp (if (s.file f).ref < 1 then _ else _) _ _ _
  rw [if_neg (by omega), assignFile, wp_change, wp_pure]
  refine ⟨fd', fun e => ?_, ?_, ?_⟩
  · rw [e, hfd] at hnone
    cases hnone
  all_goals simp [State.setFile, State.setProc, File.setRef]

theorem sysClose_some {fd : Desc} {f : FileId} (hfd : (s.proc p).ofile fd = some f) (href : 1 < (s.file f).ref) :
    wp (sysClose L p fd) (fun _ s' => s'.proc p = (s.proc p).setOfile fd none ∧ (s'.file f).ref = (s.file f).ref - 1) never s := by
  unfold sysClose fileclose
  rw [wp_bind, wp_read, hfd]
  show wp (assign p _ >>= _) _ _ _
  rw [wp_bind, assign, wp_change, wp_bind, wp_bind, wp_read]
  show wp (if (s.file f).ref < 1 then _ else if 0 < (s.file f).ref - 1 then _ else _) _ _ _
  rw [if_neg (by omega), if_pos (by omega), assignFile, wp_change, wp_pure]
  constructor <;> simp [State.setFile, State.setProc, File.setRef]

end

/-- `init` opens a device, duplicates the descriptor and closes the first one: the file has one
descriptor left, and `ref` says so. -/
theorem descriptors_counted_closed : ∃ s₀ s p fd fd' f, Fresh fourPages s₀ p ∧ run (step fourPages) s₀
    [⟨p, .open true true true 0, []⟩, ⟨p, .dup fd, []⟩, ⟨p, .close fd, []⟩] = some (.ok s) ∧ (s.proc p).ofile fd = none ∧
    (s.proc p).ofile fd' = some f ∧ (s.file f).ref = 1 ∧ (refs s.proc f).card = 1 := by
  obtain ⟨s₀, p, hboot, hfresh⟩ := exists_fresh fourPages_bootable 1 fun _ _ => 0
  have hzero : (s₀.file ⟨0, by decide⟩).ref = 0 := by
    have hcount := hfresh.inv.core.counted ⟨0, by decide⟩
    have hnone : refs s₀.proc ⟨0, by decide⟩ = ∅ := by
      rw [Finset.eq_empty_iff_forall_notMem]
      rintro ⟨q, fd⟩ hx
      have hfd := mem_pointers.mp hx
      by_cases hq : q = p
      · subst hq
        cases (hfresh.closed fd).symm.trans hfd
      · rw [hfresh.others q hq] at hfd
        cases hfd
    rw [hnone] at hcount
    exact Int.ofNat_inj.mp (hcount.trans (add_zero _))
  obtain ⟨r₁, s₁, hopen, f, fd, hproc₁, href₁⟩ := wp_returns (m := sysOpen fourPages p true true true 0)
    (s := s₀.setMem (s₀.mem.setFails [])) (sysOpen_some ⟨_, hzero⟩ ⟨⟨0, by decide⟩, hfresh.closed _⟩)
  have hfd₁ : (s₁.proc p).ofile fd = some f := by
    rw [hproc₁]
    exact update_self ..
  have hfree : ∃ fd', (s₁.proc p).ofile fd' = none := by
    obtain ⟨fd', hne⟩ : ∃ fd' : Desc, fd' ≠ fd := @exists_ne (Fin 16) _ fd
    refine ⟨fd', ?_⟩
    rw [hproc₁]
    exact (update_of_ne hne ..).trans (hfresh.closed fd')
  have hrun₁ : (s₁.proc p).state = .runnable := by
    rw [hproc₁]
    exact hfresh.run
  obtain ⟨r₂, s₂, hdup, fd', hne, hproc₂, href₂⟩ := wp_returns (sysDup_some (s := s₁.setMem (s₁.mem.setFails [])) hfd₁ hfree
    (Nat.lt_of_lt_of_eq Nat.zero_lt_one href₁.symm))
  have href₂ : (s₂.file f).ref = 2 := href₂.trans (congrArg (· + 1) href₁)
  have hfd₂ : (s₂.proc p).ofile fd = some f := by
    rw [hproc₂]
    exact (update_of_ne hne.symm ..).trans hfd₁
  have hrun₂ : (s₂.proc p).state = .runnable := by
    rw [hproc₂]
    exact hrun₁
  obtain ⟨r₃, s₃, hclose, hproc₃, href₃⟩ := wp_returns (sysClose_some (L := fourPages) (s := s₂.setMem (s₂.mem.setFails [])) hfd₂
    (Nat.lt_of_lt_of_eq Nat.one_lt_two href₂.symm))
  have href₃ : (s₃.file f).ref = 1 := href₃.trans (congrArg (· - 1) href₂)
  have hrun : run (step fourPages) s₀ [⟨p, .open true true true 0, []⟩, ⟨p, .dup fd, []⟩, ⟨p, .close fd, []⟩] = some (.ok s₃) := by
    rw [run_cons_ok (step_of_call rfl hfresh.run hopen), run_cons_ok (step_of_call rfl hrun₁ hdup),
      run_cons_ok (step_of_call rfl hrun₂ hclose)]
    rfl
  have hcount := (descriptors_counted fourPages fourPages_bootable s₃ ⟨1, _, s₀, _, hboot, hrun⟩).1 f
  refine ⟨s₀, s₃, p, fd, fd', f, hfresh, hrun, ?_, ?_, href₃, hcount.symm.trans href₃⟩
  · rw [hproc₃]
    exact update_self ..
  · rw [hproc₃]
    show update (s₂.proc p).ofile fd none fd' = some f
    rw [update_of_ne hne, hproc₂]
    exact update_self ..

end Xv6.Kernel
