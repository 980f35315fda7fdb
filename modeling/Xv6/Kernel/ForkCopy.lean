import Xv6.Kernel.Ownership
import Xv6.Vm.Atomic
import Xv6.Vm.Isolate

/-!
# What `fork` does to memory

`uvmcopy` gives the child the pages of the parent, with the same flags and the same bytes, in frames
that were free. The two page tables have no page in common, so from then on parent and child each
see their own stores only. When a frame is missing, the child is left without pages of its own, and
`freeproc` takes back all that it has got.
-/

namespace Xv6.Kernel

open Prog Radix Vm Multiset

variable {L : Layout} {s : State} {p np : Slot} {m m' : Mem}
  {B T T₀ T' : Multiset Nat} {mp mp₀ mp' : Nat → Option Word} {old root N : Nat}

/-- The page tables of the parent and, with `true`, of the child. -/
def tablesOf (old root : Nat) (child : Bool) : Nat := bif child then root else old

/-- A parent, and a child with an address space without pages of the user. What else is out is `B`.
-/
structure Forking (L : Layout) (s : State) (p np : Slot) (B T₀ T : Multiset Nat) (mp₀ mp : Nat → Option Word) : Prop where
  parent : Space L s.mem.word (s.proc p).pagetable (s.proc p).trapframe (npages (s.proc p).sz) T₀ mp₀
  child : Space L s.mem.word (s.proc np).pagetable (s.proc np).trapframe 0 T mp
  empty : (s.proc np).sz = 0
  pool : Pool L s.mem (T + ({(s.proc np).trapframe} + (T₀ + (pages mp₀ 0 (npages (s.proc p).sz) + B))))

/-- This is how `fork` calls `uvmcopy`. -/
theorem Core.forking (h : Core L s 0 0) (hne : p ≠ np) (hp : (s.proc p).pagetable ≠ 0) (hnp : (s.proc np).pagetable ≠ 0)
    (hsz : (s.proc np).sz = 0) : ∃ B T₀ T mp₀ mp, Forking L s p np B T₀ T mp₀ mp := by
  obtain ⟨R, T, mp, htf, hroom, hothers, -⟩ := h.room hnp
  obtain ⟨G, hG, howns⟩ := hothers p hne
  obtain ⟨T₀, mp₀, -, hspace₀, rfl⟩ := howns.live hp
  obtain ⟨C, rfl⟩ := Multiset.le_iff_exists_add.mp hG
  rw [hsz] at hroom
  refine ⟨{(s.proc p).trapframe} + C, T₀, T, mp₀, mp, hspace₀, hroom.space, hsz, hroom.pool.of_eq ?_⟩
  rw [show npages 0 = 0 from rfl, pages_zero, zero_add, add_zero]
  show T + ({(s.proc np).trapframe} + (T₀ + (pages mp₀ 0 (npages (s.proc p).sz) + {(s.proc p).trapframe}) + C)) = _
  abel

/-- The child has a copy of the parent's memory. -/
structure MemCopied (L : Layout) (m m' : Mem) (old root : Nat) : Prop where
  parent : SpaceKept m m' old
  flags : ∀ v, v * PGSIZE < TRAPFRAME → (translate m' root v).map Prod.snd = (translate m old v).map Prod.snd
  bytes : ∀ va, va < TRAPFRAME → loadByte m' root va = loadByte m old va
  fresh : ∀ v pa flags, v * PGSIZE < TRAPFRAME → translate m' root v = some (pa, flags) → pa ∈ freePages L m
  stores : ∀ ws, (∀ w ∈ ws, w.2.1 < TRAPFRAME) → ∀ child va, va < TRAPFRAME →
    loadByte (storeBytes (tablesOf old root) m' ws) (tablesOf old root child) va = Views.overwrites (loadByte m old) child ws va

/-- The child has got tables only. -/
structure MemNotCopied (L : Layout) (m m' : Mem) (old root : Nat) : Prop where
  parent : SpaceKept m m' old
  child : ∀ v, v * PGSIZE < TRAPFRAME → translate m' root v = none
  frames : (freePages L m : Multiset Nat) = freePages L m' + (sv39.tables m'.word 2 root - sv39.tables m.word 2 root)

/-- What `uvmcopy` has copied to a page of the child. -/
theorem copied_entry {N : Nat} {tf : Nat} (h : Space L m.word old tf N T₀ mp₀)
    (hg : Extended L B m m' root 0 N (copyPerm mp₀) (copyRow m mp₀) T' mp mp') (hmp : ∀ v, v < TFPAGE → mp v = none) {v : Nat}
    (hv : v < TFPAGE) : (mp₀ v = none ∧ mp' v = none) ∨ ∃ w page, mp₀ v = some w ∧ v < N ∧
      mp' v = some (PA2PTE page ||| PTE_FLAGS w ||| PTE_V) ∧ PTE2PA (PA2PTE page ||| PTE_FLAGS w ||| PTE_V) = page ∧
      PTE_FLAGS (PA2PTE page ||| PTE_FLAGS w ||| PTE_V) = PTE_FLAGS w ∧ m'.word page = m.word (PTE2PA w) := by
  have h1 := TFPAGE_eq
  have h2 := TRPAGE_eq
  have h3 := NPAGES_eq
  by_cases hn : v < N
  · obtain ⟨w, hw, hleaf⟩ := h.user v hn
    obtain ⟨page, hpage, hw', hrow⟩ := hg.new v (Nat.zero_le v) (by omega)
    obtain ⟨q, -, -, hvalid⟩ := h.table.slot_of_some (by omega) hw
    unfold copyPerm at hw'
    unfold copyRow at hrow
    rw [hw, entryOr_some hleaf] at hw' hrow
    exact .inr ⟨w, page, hw, hn, hw', PTE2PA_entry hpage (PTE_FLAGS_lt w),
      (PTE_FLAGS_entry page (PTE_FLAGS_lt w)).trans (PTE_FLAGS_valid hvalid), hrow⟩
  · exact .inl ⟨h.rest v (by omega) (by omega) (by omega) (by omega), (hg.old v (by omega)).trans (hmp v hv)⟩

theorem MemCopied.of_extended {tf tf' : Nat} (h : Space L m.word old tf N T₀ mp₀) (hc : Space L m.word root tf' 0 T mp)
    (hpool : Pool L m (T + ({tf'} + (T₀ + (pages mp₀ 0 N + B)))))
    (hg : Extended L ({tf'} + (T₀ + (pages mp₀ 0 N + B))) m m' root 0 N (copyPerm mp₀) (copyRow m mp₀) T' mp mp') :
    MemCopied L m m' old root := by
  have h1 := TFPAGE_eq
  have h2 := TRPAGE_eq
  have h3 := NPAGES_eq
  have hmp : ∀ v, v < TFPAGE → mp v = none := fun v hv => hc.rest v (by omega) (Nat.zero_le v) (by omega) (by omega)
  have hentry : ∀ {v}, v < TFPAGE → _ := fun {v} hv => copied_entry h hg hmp hv
  have hkept : SpaceKept m m' old := .of_alone h fun a ha => hg.same a (by
    rw [← add_assoc T₀]
    simp only [mem_add] at ha ⊢
    tauto)
  have hbytes : ∀ va, va < TRAPFRAME → loadByte m' root va = loadByte m old va := by
    intro va hva
    rw [loadByte_of_table hg.table hva, loadByte_of_table h.table hva]
    rcases hentry (va_page hva).2 with ⟨hnone, hnone'⟩ | ⟨w, page, hw, -, hw', hpa, -, hrow⟩
    · rw [hnone, hnone']
      rfl
    · rw [hw, hw', Option.map_some, Option.map_some, hpa, hrow]
  -- the child's pages and the parent's are out, each once
  have hisolated : Isolated m' (tablesOf old root) (fun _ => N) (fun c => bif c then T' else T₀)
    (fun c => bif c then mp' else mp₀) := by
    refine ⟨fun c => ?_, fun c v hv htf => ?_, ?_⟩
    · cases c with
      | false => exact h.table.congr fun a ha => hg.same a (by simp [ha])
      | true => exact hg.table
    · cases c with
      | false => exact h.rest v (by omega) hv (by omega) (by omega)
      | true => exact (hg.old v (by omega)).trans (hmp v htf)
    · apply nodup_of_le _ hg.pool.nodup
      rw [Fintype.sum_bool, Multiset.le_iff_exists_add]
      refine ⟨{tf'} + B, ?_⟩
      show _ = T' + pages mp' 0 N + (T₀ + pages mp₀ 0 N) + ({tf'} + B)
      abel
  refine ⟨hkept, fun v hv => ?_, hbytes, fun v pa flags hv htr => ?_, fun ws hws child va hva => ?_⟩
  · have hva : v * PGSIZE < MAXVA := hv.trans (by decide)
    rw [translate_of_table hg.table hva, translate_of_table h.table hva]
    rcases hentry (page_lt hv) with ⟨hnone, hnone'⟩ | ⟨w, page, hw, -, hw', -, hflags, -⟩
    · rw [hnone, hnone']
    · rw [hw, hw', Option.map_some, Option.map_some, Option.map_some, Option.map_some, hflags]
  · rw [translate_of_table hg.table (hv.trans (by decide))] at htr
    rcases hentry (page_lt hv) with ⟨-, hnone'⟩ | ⟨w, page, -, hn, hw', -, -, -⟩
    · rw [hnone'] at htr
      cases htr
    · rw [hw'] at htr
      cases htr
      rw [← hc.table.tables] at hpool
      exact hg.was_free hpool (Nat.zero_le v) (by omega) hw'
  · rw [hisolated.loadByte_storeBytes ws hws child hva]
    apply Views.overwrites_congr
    cases child with
    | false => exact hkept.bytes va hva
    | true => exact hbytes va hva

/-- For every parent and every new child, and wherever `kalloc` fails: `uvmcopy` gives the child a
copy of the parent's memory that neither sees the other's stores, or it leaves the child without a
page, and then `freeproc` takes back all that the child has. It fails only when `kalloc` is to fail
or there are not three free frames for each page. -/
theorem fork_copies_memory (L : Layout) (s : State) (p np : Slot) (B T₀ T : Multiset Nat) (mp₀ mp : Nat → Option Word)
    (h : Forking L s p np B T₀ T mp₀ mp) :
    wp (onMem (uvmcopy L (s.proc p).pagetable (s.proc np).pagetable (s.proc p).sz)) (fun r s' => ∃ m', s' = s.setMem m' ∧
      ((r = 0 ∧ MemCopied L s.mem m' (s.proc p).pagetable (s.proc np).pagetable) ∨
       (r = -1 ∧ MemNotCopied L s.mem m' (s.proc p).pagetable (s.proc np).pagetable ∧
        Starved L s.mem (3 * npages (s.proc p).sz) ∧
        wp (freeproc L np) (fun _ s'' => SpaceKept s.mem s''.mem (s.proc p).pagetable ∧
          (freePages L s''.mem : Multiset Nat) =
            freePages L s.mem + (sv39.tables s.mem.word 2 (s.proc np).pagetable + {(s.proc np).trapframe})) never s'))) never s := by
  obtain ⟨hparent, hchild, hempty, hpool⟩ := h
  have h1 := TFPAGE_eq
  have h2 := TRPAGE_eq
  have h3 := NPAGES_eq
  have hsource : Source s.mem ({(s.proc np).trapframe} + (T₀ + (pages mp₀ 0 (npages (s.proc p).sz) + B))) (s.proc p).pagetable
      (npages (s.proc p).sz) T₀ mp₀ := by
    refine ⟨hparent.table, hparent.user, ?_⟩
    rw [← add_assoc T₀]
    exact (Multiset.le_add_right _ _).trans (Multiset.le_add_left _ _)
  have hroom : Room L ({(s.proc np).trapframe} + (T₀ + (pages mp₀ 0 (npages (s.proc p).sz) + B))) s.mem s.mem (s.proc np).pagetable
      (s.proc np).trapframe 0 T mp := by
    refine ⟨hchild, ?_, .refl _ _⟩
    rw [pages_zero, zero_add]
    exact hpool
  rw [wp_onMem]
  apply wp_mono (uvmcopy_grown (hroom.vacant _) hsource hchild.table hpool) _ fun _ _ => id
  rintro r m' ⟨T', ⟨rfl, mp', hg⟩ | ⟨rfl, hk, hgrew, hstarved⟩⟩
  · exact ⟨m', rfl, .inl ⟨rfl, .of_extended hparent hchild hpool hg⟩⟩
  · have hwf : WellFormed L s.mem (s.proc np).pagetable ({(s.proc np).trapframe} + (T₀ + (pages mp₀ 0 (npages (s.proc p).sz) + B))) :=
      ⟨hchild.table.nodes, hchild.table.tables ▸ hpool⟩
    have hkept : SpaceKept s.mem m' (s.proc p).pagetable := .of_alone hparent (hk.same.mono hsource.out)
    refine ⟨m', rfl, .inr ⟨rfl, ⟨hkept, fun v hv => ?_, hwf.frames_eq (.of_kept hk) (hk.table.tables ▸ hgrew)⟩, hstarved, ?_⟩⟩
    · have hlt := page_lt hv
      rw [translate_of_kept hk (hv.trans (by decide)), hchild.rest v (by omega) (Nat.zero_le v) (by omega) (by omega)]
      rfl
    · have hroom' : Room L ({((s.setMem m').proc np).trapframe} + (T₀ + (pages mp₀ 0 (npages (s.proc p).sz) + B))) (s.setMem m').mem
          (s.setMem m').mem ((s.setMem m').proc np).pagetable ((s.setMem m').proc np).trapframe
            (npages ((s.setMem m').proc np).sz) T' mp := by
        rw [State.setMem_proc, hempty]
        refine ⟨⟨hk.table, hchild.user, hchild.trapframe, hchild.trampoline, hchild.rest⟩, ?_, .refl _ _⟩
        rw [show npages 0 = 0 from rfl, pages_zero, zero_add]
        exact hk.pool
      apply wp_mono (freeproc_room hroom') _ fun _ _ => id
      rintro _ _ ⟨m'', rfl, hpool'', hsame''⟩
      have hle : T₀ + pages mp₀ 0 (npages (s.proc p).sz) ≤ T₀ + (pages mp₀ 0 (npages (s.proc p).sz) + B) := by
        rw [← add_assoc]
        exact Multiset.le_add_right _ _
      refine ⟨.of_alone hparent ((hk.same.mono hsource.out).trans (hsame''.mono hle)), ?_⟩
      have hframes := hpool''.freePages_add.trans hpool.freePages_add.symm
      rw [← add_assoc T, ← add_assoc (freePages L s.mem : Multiset Nat)] at hframes
      rw [hchild.table.tables]
      exact Multiset.add_left_inj.mp hframes

/-- The first process can fork. -/
theorem exists_forking : ∃ s p np B T₀ T mp₀ mp, Forking fourPages s p np B T₀ T mp₀ mp ∧
    ¬ Starved fourPages s.mem (3 * npages (s.proc p).sz) := by
  obtain ⟨s, p, -, hfresh⟩ := exists_reached fourPages_bootable
  obtain ⟨out, hpool, hout⟩ := hfresh.room
  have hcard := fourPages_bootable.card_frames
  obtain ⟨q, hq⟩ : ∃ q : Slot, q ≠ p := @exists_ne (Fin 64) _ p
  have hunused : (s.proc q).state = .unused := by
    rw [hfresh.others q hq]
    rfl
  obtain ⟨hcore, hst⟩ := hfresh.inv
  have hboth := wp_and (allocproc_spec hcore fun q => (hst.ok q).unused) (allocproc_room hpool hfresh.fails (by omega) hunused)
  obtain ⟨r, s₁, -, ⟨hcore₁, ⟨rfl, -⟩ | ⟨np, m', pagetable, trapframe, rfl, hnew⟩⟩, hsome, hfails, out', hpool', hout'⟩ :=
    wp_returns (wp_mono hboth (fun _ _ h => h) fun _ _ h => h.1)
  · exact absurd rfl hsome
  have hne : p ≠ np := fun e => by
    have hstate := hnew.unused
    rw [← e, hfresh.run] at hstate
    cases hstate
  have hproc₁ : s₁.proc np = (s.proc np).start s.nextpid trapframe pagetable := hnew.eq ▸ State.setProc_proc ..
  have hparent : s₁.proc p = s.proc p := hnew.eq ▸ State.setProc_of_ne _ _ hne
  have hp : (s.proc p).state ≠ .unused := fun h => by cases hfresh.run.symm.trans h
  obtain ⟨B, T₀, T, mp₀, mp, hforking⟩ := hcore₁.forking hne (by rw [hparent]; exact hst.live hp) (hproc₁ ▸ hnew.root)
    (hproc₁ ▸ congrArg Layer.sz hnew.layer)
  have hone : npages PGSIZE = 1 := by decide
  refine ⟨s₁, p, np, B, T₀, T, mp₀, mp, hforking, hpool'.fed hfails ?_⟩
  rw [hparent, hfresh.sz, hone]
  omega

theorem fork_copies_memory_first : ∃ s p np, (∃ B T₀ T mp₀ mp, Forking fourPages s p np B T₀ T mp₀ mp) ∧
    wp (onMem (uvmcopy fourPages (s.proc p).pagetable (s.proc np).pagetable (s.proc p).sz)) (fun r s' =>
      r = 0 ∧ MemCopied fourPages s.mem s'.mem (s.proc p).pagetable (s.proc np).pagetable) never s := by
  obtain ⟨s, p, np, B, T₀, T, mp₀, mp, h, hfed⟩ := exists_forking
  refine ⟨s, p, np, ⟨B, T₀, T, mp₀, mp, h⟩, ?_⟩
  apply wp_mono (fork_copies_memory fourPages s p np B T₀ T mp₀ mp h) _ fun _ _ => id
  rintro r _ ⟨m', rfl, hcopied | ⟨-, -, hstarved, -⟩⟩
  · exact hcopied
  · exact absurd hstarved hfed

end Xv6.Kernel
