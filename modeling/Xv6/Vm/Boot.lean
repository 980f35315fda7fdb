import Xv6.Vm.Table

/-!
# The allocator and the kernel's page table at boot

`kinit` frees every frame, one after the other. `kvminit` makes the kernel's page table, with a
direct map of the devices and of memory. It does not panic when the linker has left a few hundred
frames: a range of pages takes two new tables for every block of 512 pages at most.
-/

namespace Xv6.Vm

open Prog Radix Multiset

/-! ## The code -/

section

variable (L : Layout)

/-- `p` goes from `PGROUNDUP(pa_start)` on, as long as a whole page is left. -/
def freerange (paStart paEnd : Nat) : Call Unit :=
  each (fun k => kfree L (PGROUNDUP paStart + k * PGSIZE)) (List.range ((paEnd - PGROUNDUP paStart) / PGSIZE))

def kinit : Call Unit := freerange L L.kend PHYSTOP

/-- qemu puts UART registers here in physical memory. -/
def UART0 : Nat := 0x10000000
/-- virtio mmio interface -/
def VIRTIO0 : Nat := 0x10001000
/-- local interrupt controller, which contains the timer. -/
def CLINT : Nat := 0x2000000
/-- qemu puts programmable interrupt controller here. -/
def PLIC : Nat := 0x0c000000

/-- `kernel.ld` ends the text after the trampoline's page. -/
def Layout.etext : Nat := L.trampoline + PGSIZE

/-- add a mapping to the kernel page table. -/
def kvmmap (kernelPagetable va pa sz : Nat) (perm : Word) : Call Unit := do
  let r ← mappages kernelPagetable va sz pa perm
  onlyIf (r ≠ 0) (stop .kvmmap)

/-- create a direct-map page table for the kernel. -/
def kvminit : Call Nat := do
  let kernelPagetable ← kalloc
  -- the page is used without a look at whether there is one
  if kernelPagetable = 0 then stop .fault
  else
    memset kernelPagetable 0
    -- uart registers
    kvmmap kernelPagetable UART0 UART0 PGSIZE (PTE_R ||| PTE_W)
    -- virtio mmio disk interface
    kvmmap kernelPagetable VIRTIO0 VIRTIO0 PGSIZE (PTE_R ||| PTE_W)
    -- CLINT
    kvmmap kernelPagetable CLINT CLINT 0x10000 (PTE_R ||| PTE_W)
    -- PLIC
    kvmmap kernelPagetable PLIC PLIC 0x400000 (PTE_R ||| PTE_W)
    -- map kernel text executable and read-only.
    kvmmap kernelPagetable KERNBASE KERNBASE (L.etext - KERNBASE) (PTE_R ||| PTE_X)
    -- map kernel data and the physical RAM we'll make use of.
    kvmmap kernelPagetable L.etext L.etext (PHYSTOP - L.etext) (PTE_R ||| PTE_W)
    -- map the trampoline for trap entry/exit to the highest virtual address in the kernel.
    kvmmap kernelPagetable TRAMPOLINE L.trampoline PGSIZE (PTE_R ||| PTE_X)
    return kernelPagetable

end

/-! ## `kinit` -/

variable {L : Layout} {m m' : Mem} {B T : Multiset Nat} {root : Nat} {mp : Nat → Option Word}

theorem kfree_fails {pa : Nat} : wp (kfree L pa) (fun _ m' => m'.fails = m.fails) (fun _ _ => True) m := by
  unfold kfree
  apply wp_ite
  · intro _
    trivial
  · intro _
    rfl

/-- Every frame is free afterwards. -/
theorem kinit_spec (hfree : m.freelist = 0) : wp (kinit L) (fun _ m' => Pool L m' 0 ∧ m'.fails = m.fails) never m := by
  have hall : Pool L m (((List.range L.nframes).map fun k => PGROUNDUP L.kend + k * PGSIZE : List Nat) : Multiset Nat) :=
    ⟨[], hfree, zero_add _⟩
  apply wp_each (fun ks m' =>
    Pool L m' ((ks.map fun k => PGROUNDUP L.kend + k * PGSIZE : List Nat) : Multiset Nat) ∧ m'.fails = m.fails)
    _ _ m ⟨hall, rfl⟩
  rintro k ks m₁ ⟨hpool, hfails⟩
  rw [List.map_cons, ← cons_coe] at hpool
  apply wp_mono (wp_and (kfree_spec hpool) kfree_fails)
  · rintro _ m₂ ⟨⟨hpool₂, -⟩, hfails₂⟩
    exact ⟨hpool₂, hfails₂.trans hfails⟩
  · rintro _ _ ⟨h, -⟩
    exact h

/-! ## `kvminit` -/

/-- A page table with at most `k` tables, when nothing else is out and `kalloc` does not fail. -/
structure Grown (L : Layout) (B : Multiset Nat) (m : Mem) (root k : Nat) (mp : Nat → Option Word) : Prop where
  fails : m.fails = []
  grown : ∃ T, PageTable m.word root T mp ∧ Pool L m (T + B) ∧ T.card ≤ k

theorem missingFor_le {word : Nat → Nat → Word} {v n k : Nat} (h : (v + n) / 512 - v / 512 ≤ k) :
    missingFor word root v n ≤ 2 * k + 2 := by
  have := missing_le word root v
  unfold missingFor
  omega

/-- A range at page boundaries is mapped, as long as there are enough frames. -/
theorem kvmmap_spec (v n j : Nat) {va sz pa k : Nat} {perm : Word} (h : Grown L B m root k mp) (hv : va = v * PGSIZE)
    (hn : sz = (n + 1) * PGSIZE) (hva : (v + n + 1) * PGSIZE ≤ MAXVA) (hfree : ∀ u, v ≤ u → u ≤ v + n → mp u = none)
    (hj : (v + n) / 512 - v / 512 ≤ j) (hroom : k + (2 * j + 2) + B.card ≤ L.frames.card) :
    wp (kvmmap root va pa sz perm)
      (fun _ m' => Grown L B m' root (k + (2 * j + 2)) (mapRange mp v pa perm (n + 1))) never m := by
  subst hv hn
  obtain ⟨hfails, T, ht, hpool, hcard⟩ := h
  have hle : missingFor m.word root v n ≤ 2 * j + 2 := missingFor_le hj
  have hva' := hva
  rw [PGSIZE_eq, MAXVA_eq] at hva'
  have hend : v * PGSIZE + (n + 1) * PGSIZE ≤ MAXVA := by
    rw [← Nat.add_mul, ← add_assoc]
    exact hva
  have hpage : v * PGSIZE / PGSIZE = v := Nat.mul_div_cancel v (by decide)
  have hlast : (v * PGSIZE + (n + 1) * PGSIZE - 1) / PGSIZE - v = n := by
    rw [PGSIZE_eq]
    omega
  unfold kvmmap
  rw [mappages_range (by rw [PGSIZE_eq]; omega) hend, hpage, hlast]
  apply wp_seq (mapLoop_spec (by rw [PGSIZE_eq, MAXVA_eq]; omega) ht hpool hfree)
  rintro r m' ⟨T', k', hext, ⟨rfl, rfl⟩ | ⟨-, -, hshort⟩⟩
  · apply wp_onlyIf
    · intro hne
      exact absurd rfl hne
    · intro _
      have hcard' := hext.card
      exact ⟨hext.fails hfails, T', hext.table, hext.pool, by omega⟩
  · exact absurd hshort (not_short hfails (by rw [card_add]; omega))

/-- The linker puts the kernel at `KERNBASE`, and leaves memory for the first process. -/
structure Layout.Bootable (L : Layout) : Prop where
  text : KERNBASE ≤ L.trampoline
  room : 512 ≤ L.nframes

theorem mapRange_of_not {v pa k u : Nat} {perm : Word} (h : u < v ∨ v + k ≤ u) : mapRange mp v pa perm k u = mp u :=
  if_neg (by omega)

/-- The page number of the trampoline. -/
theorem Layout.Bootable.trampoline_eq (h : L.Bootable) : ∃ w, L.trampoline = w * PGSIZE ∧ 0x80000 ≤ w ∧ w + 2 ≤ 0x88000 := by
  have haligned := L.trampoline_page.aligned
  have hlt := L.trampoline_lt
  have hle := L.kend_le
  have htext := h.text
  have hroom := h.room
  rw [KERNBASE_eq] at htext
  rw [PHYSTOP_eq] at hle
  unfold Layout.nframes at hroom
  rw [PGROUNDUP_eq (by omega), PHYSTOP_eq, PGSIZE_eq] at hroom
  refine ⟨L.trampoline / PGSIZE, ?_, ?_, ?_⟩ <;> rw [PGSIZE_eq] at haligned ⊢ <;> omega

theorem Layout.Bootable.card_frames (h : L.Bootable) : 512 ≤ L.frames.card := by
  unfold Layout.frames
  rw [card_map, card_range]
  exact h.room

/-- The kernel's page table after `kvminit` has nothing at the pages below the trampoline. -/
theorem kvminit_spec (hL : L.Bootable) (hpool : Pool L m 0) (hfails : m.fails = []) :
    wp (kvminit L) (fun root m' => ∃ mp, Grown L 0 m' root 273 mp ∧ ∀ u, 0x88000 ≤ u → u < 0x3FFFFFF → mp u = none) never m := by
  obtain ⟨w, hw, hlo, hhi⟩ := hL.trampoline_eq
  have hcard := hL.card_frames
  have hetext : L.etext = (w + 1) * PGSIZE := by
    rw [Layout.etext, hw, Nat.succ_mul]
  have htext : L.etext - KERNBASE = (w - 0x80000 + 1) * PGSIZE := by
    rw [hetext, PGSIZE_eq, KERNBASE_eq]
    omega
  have hdata : PHYSTOP - L.etext = (0x88000 - (w + 2) + 1) * PGSIZE := by
    rw [hetext, PGSIZE_eq, PHYSTOP_eq]
    omega
  unfold kvminit
  apply wp_seq (kalloc_page hpool hfails (by rw [card_zero]; omega))
  rintro root m₁ ⟨hne, pool, -, hfails⟩
  rw [if_neg hne, wp_bind, memset, wp_change]
  have hzeroed : Pool L (m₁.setPage root fun _ => 0 * 0x0101010101010101) ({root} + 0) :=
    pool.setPage (mem_cons_self _ _) _
  have hblank : sv39.Blank (m₁.setPage root fun _ => 0 * 0x0101010101010101).word root := by
    intro j _
    rw [Mem.setPage_self]
    decide
  have hgrown : Grown L 0 (m₁.setPage root fun _ => 0 * 0x0101010101010101) root 1 fun _ => none :=
    ⟨hfails, {root}, .blank hblank, hzeroed, Nat.le_refl 1⟩
  apply wp_seq (kvmmap_spec 0x10000 0 0 hgrown rfl rfl (by decide) (fun _ _ _ => rfl) (by decide) (by simp; omega))
  intro _ m₂ hgrown
  refine wp_seq (kvmmap_spec 0x10001 0 0 hgrown rfl rfl (by decide) ?_ (by decide) (by simp; omega)) ?_
  · intro u hu _
    rw [mapRange_of_not (by omega)]
  intro _ m₃ hgrown
  refine wp_seq (kvmmap_spec 0x2000 15 0 hgrown rfl rfl (by decide) ?_ (by decide) (by simp; omega)) ?_
  · intro u hu hu'
    iterate 2 rw [mapRange_of_not (by omega)]
  intro _ m₄ hgrown
  refine wp_seq (kvmmap_spec 0xc000 1023 1 hgrown rfl rfl (by decide) ?_ (by decide) (by simp; omega)) ?_
  · intro u hu hu'
    iterate 3 rw [mapRange_of_not (by omega)]
  intro _ m₅ hgrown
  refine wp_seq (kvmmap_spec 0x80000 (w - 0x80000) 64 hgrown rfl htext ?_ ?_ (by omega) (by simp; omega)) ?_
  · rw [PGSIZE_eq, MAXVA_eq]
    omega
  · intro u hu hu'
    iterate 4 rw [mapRange_of_not (by omega)]
  intro _ m₆ hgrown
  refine wp_seq (kvmmap_spec (w + 1) (0x88000 - (w + 2)) 64 hgrown hetext hdata ?_ ?_ (by omega) (by simp; omega)) ?_
  · rw [PGSIZE_eq, MAXVA_eq]
    omega
  · intro u hu hu'
    iterate 5 rw [mapRange_of_not (by omega)]
  intro _ m₇ hgrown
  refine wp_seq (kvmmap_spec 0x3FFFFFF 0 0 hgrown rfl rfl (by decide) ?_ (by decide) (by simp; omega)) ?_
  · intro u hu hu'
    iterate 6 rw [mapRange_of_not (by omega)]
  intro _ m₈ hgrown
  refine ⟨_, hgrown, fun u hu hu' => ?_⟩
  iterate 7 rw [mapRange_of_not (by omega)]

end Xv6.Vm
