import Xv6.Vm.Space
import Xv6.Vm.Translate

/-!
# `uvmalloc` is all or nothing

Seen through `translate`, `uvmalloc` either adds all pages of its range, each a zeroed frame that
was free before, or none. `Added` and `Restored` say where the frames are in either case: after a
failure those that do not come back to the free list have become tables of the page table.
-/

namespace Xv6.Vm

open Prog Radix Multiset

variable {L : Layout} {m m' : Mem} {B T : Multiset Nat} {root lo n oldsz newsz : Nat} {mp₀ mp : Nat → Option Word}
  {perm : Nat → Word} {row : Nat → Nat → Word}

/-- The pages that `uvmalloc` is to add. -/
def InRange (oldsz newsz v : Nat) : Prop := PGROUNDUP oldsz ≤ v * PGSIZE ∧ v * PGSIZE < newsz

/-- The pages of the range have been added, and nothing else. -/
structure Added (L : Layout) (B : Multiset Nat) (m m' : Mem) (root oldsz newsz : Nat) : Prop where
  wellFormed : WellFormed L m' root (mappedPages m' root (npages oldsz) (npages newsz - npages oldsz) + B)
  new : ∀ v, InRange oldsz newsz v → ∃ page ∈ freePages L m, translate m' root v = some (page, userPerm ||| PTE_V) ∧
    ∀ i, m'.word page i = 0
  distinct : ∀ u v, InRange oldsz newsz u → InRange oldsz newsz v → u ≠ v →
    (translate m' root u).map Prod.fst ≠ (translate m' root v).map Prod.fst
  old : ∀ v, v * PGSIZE < MAXVA → ¬ InRange oldsz newsz v → translate m' root v = translate m root v
  same : SameOn B m.word m'.word

/-- Nothing has been added but tables. -/
structure Restored (L : Layout) (B : Multiset Nat) (m m' : Mem) (root : Nat) : Prop where
  wellFormed : WellFormed L m' root B
  translation : ∀ v, v * PGSIZE < MAXVA → translate m' root v = translate m root v
  tables : sv39.tables m.word 2 root ≤ sv39.tables m'.word 2 root
  frames : (freePages L m : Multiset Nat) = freePages L m' + (sv39.tables m'.word 2 root - sv39.tables m.word 2 root)
  same : SameOn B m.word m'.word

theorem inRange_iff {v : Nat} (h : oldsz < 2 ^ 63) : InRange oldsz newsz v ↔ npages oldsz ≤ v ∧ v < npages newsz := by
  unfold InRange
  rw [PGROUNDUP_npages h, PGSIZE_eq, npages, npages]
  omega

namespace Extended

/-- A new page was free before. -/
theorem was_free (hpool : Pool L m (sv39.tables m.word 2 root + B)) (h : Extended L B m m' root lo n perm row T mp₀ mp) {v : Nat}
    {w : Word} (hlo : lo ≤ v) (hv : v < lo + n) (hw : mp v = some w) : PTE2PA w ∈ freePages L m := by
  have hmem := mem_pages_from hlo hv hw
  have hframe : PTE2PA w ∈ L.frames := h.pool.mem_frames (by simp [hmem])
  have htable : PTE2PA w ∉ sv39.tables m.word 2 root := by
    intro htab
    exact h.pool.disjoint (mem_of_le h.grew htab) (mem_add.mpr (.inl hmem))
  have hout : PTE2PA w ∉ B :=
    disjoint_left.mp (nodup_add.mp (nodup_add.mp h.pool.nodup).2.1).2.2 hmem
  rw [← hpool.freePages_add] at hframe
  simpa [htable, hout] using hframe

theorem translate_eq (h : Extended L B m m' root lo n perm row T mp₀ mp) {v : Nat} (hv : v * PGSIZE < MAXVA) :
    translate m' root v = (mp v).map fun w => (PTE2PA w, PTE_FLAGS w) := by
  rw [Vm.translate_eq hv, h.table.leaf v (lt_NPAGES hv)]

end Extended

/-- What is neither out nor free is a table. -/
theorem WellFormed.frames_eq (h : WellFormed L m root B) (h' : WellFormed L m' root B)
    (hle : sv39.tables m.word 2 root ≤ sv39.tables m'.word 2 root) :
    (freePages L m : Multiset Nat) = freePages L m' + (sv39.tables m'.word 2 root - sv39.tables m.word 2 root) := by
  have hframes : (freePages L m : Multiset Nat) + (sv39.tables m.word 2 root + B) = freePages L m' +
    (sv39.tables m'.word 2 root + B) :=
    h.pool.freePages_add.trans h'.pool.freePages_add.symm
  rw [← add_assoc, ← add_assoc, Multiset.add_left_inj, ← Multiset.sub_add_cancel hle,
    ← add_assoc, Multiset.add_left_inj] at hframes
  exact hframes

theorem Added.of_extended (h : WellFormed L m root B) (hle : oldsz ≤ newsz) (hmax : newsz < TRAPFRAME)
    (hg : Extended L B m m' root (npages oldsz) (npages newsz - npages oldsz) (fun _ => userPerm) (fun _ => zeroRow) T
      (sv39.leaf m.word 2 root) mp) : Added L B m m' root oldsz newsz := by
  have hold : oldsz < 2 ^ 63 := hle.trans_lt (hmax.trans (by decide))
  have hmax : newsz < 0x3FFFFFE000 := hmax
  have hrange : ∀ {v}, InRange oldsz newsz v ↔ npages oldsz ≤ v ∧ v < npages oldsz + (npages newsz - npages oldsz) := by
    intro v
    rw [inRange_iff hold]
    omega
  have hva : ∀ {v}, InRange oldsz newsz v → v * PGSIZE < MAXVA := fun {v} hv => hv.2.trans (by rw [MAXVA_eq]; omega)
  -- the entry of a page of the range
  have hentry : ∀ {v}, InRange oldsz newsz v → ∃ page, PTE2PA (PA2PTE page ||| userPerm ||| PTE_V) = page ∧
      mp v = some (PA2PTE page ||| userPerm ||| PTE_V) ∧ m'.word page = zeroRow := by
    intro v hv
    obtain ⟨page, hpage, hw, hrow⟩ := hg.new v (hrange.mp hv).1 (hrange.mp hv).2
    exact ⟨page, PTE2PA_entry hpage userPerm_flags.bits, hw, hrow⟩
  refine ⟨⟨hg.table.nodes, ?_⟩, fun v hv => ?_, fun u v hu hv huv => ?_, fun v hv hnot => ?_, hg.same⟩
  · have hmapped : mappedPages m' root (npages oldsz) (npages newsz - npages oldsz) =
        pages mp (npages oldsz) (npages newsz - npages oldsz) := by
      apply pages_congr
      intro u _ hu
      apply hg.table.leaf
      rw [NPAGES_eq]
      unfold npages at hu
      omega
    rw [hmapped, hg.table.tables]
    exact hg.pool
  · obtain ⟨page, hpa, hw, hrow⟩ := hentry hv
    refine ⟨page, hpa ▸ hg.was_free h.pool (hrange.mp hv).1 (hrange.mp hv).2 hw, ?_, fun i => by rw [hrow]; rfl⟩
    rw [hg.translate_eq (hva hv), hw, Option.map_some, hpa, PTE_FLAGS_entry _ userPerm_flags.bits]
  · obtain ⟨pu, hpu, hwu, -⟩ := hentry hu
    obtain ⟨pv, hpv, hwv, -⟩ := hentry hv
    rw [hg.translate_eq (hva hu), hg.translate_eq (hva hv), hwu, hwv]
    intro heq
    have hnodup := (nodup_add.mp (nodup_add.mp hg.pool.nodup).2.1).1
    exact huv (pages_inj hnodup (hrange.mp hu) (hrange.mp hv) hwu hwv (Option.some.inj heq))
  · rw [hg.translate_eq hv, hg.old v fun hin => hnot (hrange.mpr hin), translate_eq hv]

/-- For every page table whose user's pages are those of the old size, and wherever `kalloc` fails,
`uvmalloc` adds all pages of the range and returns the new size, or it adds none and returns 0. It
returns 0 only when `kalloc` is to fail or there are not three free frames for each page. -/
theorem uvmalloc_atomic (L : Layout) (m : Mem) (root : Nat) (B : Multiset Nat) (oldsz newsz : Nat) (h : WellFormed L m root B)
    (huser : ∀ v, v * PGSIZE < TRAPFRAME → ((translate m root v).isSome ↔ v * PGSIZE < PGROUNDUP oldsz))
    (hle : oldsz ≤ newsz) (hmax : newsz < TRAPFRAME) :
    wp (uvmalloc L root oldsz newsz) (fun r m' =>
      (r = newsz ∧ Added L B m m' root oldsz newsz) ∨
        (r = 0 ∧ Restored L B m m' root ∧ Starved L m (3 * (npages newsz - npages oldsz))))
      never m := by
  have hlt : newsz < 0x3FFFFFE000 := hmax
  have hold : oldsz < 2 ^ 63 := hle.trans_lt (hmax.trans (by decide))
  have hup : PGROUNDUP oldsz ≤ MAXVA := by
    rw [PGROUNDUP_npages hold, PGSIZE_eq, MAXVA_eq, npages]
    omega
  have hvacant : Vacant (sv39.leaf m.word 2 root) (npages oldsz) (npages newsz - npages oldsz) := by
    intro i hi _
    have hva : (npages oldsz + i) * PGSIZE < TRAPFRAME := by
      show _ < 0x3FFFFFE000
      rw [PGSIZE_eq]
      unfold npages at hi ⊢
      omega
    have hva' : (npages oldsz + i) * PGSIZE < MAXVA := hva.trans (by decide)
    refine ⟨hva', ?_⟩
    have hnone : translate m root (npages oldsz + i) = none := by
      rw [← Option.not_isSome_iff_eq_none, huser _ hva, PGROUNDUP_npages hold, PGSIZE_eq]
      omega
    rw [translate_eq hva'] at hnone
    exact Option.map_eq_none_iff.mp hnone
  apply wp_mono (uvmalloc_grown hle hup hold hvacant h.table h.pool) _ fun _ _ => id
  rintro r m' ⟨T', ⟨rfl, mp', hg⟩ | ⟨rfl, hk, hgrew, hstarved⟩⟩
  · exact .inl ⟨rfl, .of_extended h hle hmax hg⟩
  · have hwf : WellFormed L m' root B := .of_kept hk
    have htab : sv39.tables m.word 2 root ≤ sv39.tables m'.word 2 root := hk.table.tables ▸ hgrew
    refine .inr ⟨rfl, ⟨hwf, fun v hv => ?_, htab, h.frames_eq hwf htab, hk.same⟩, hstarved⟩
    rw [translate_of_kept hk hv, translate_eq hv]

theorem uvmalloc_atomic_empty : WellFormed fourFrames emptyTable (PHYSTOP - PGSIZE) 0 ∧
    wp (uvmalloc fourFrames (PHYSTOP - PGSIZE) 0 PGSIZE) (fun r m' =>
      r = PGSIZE ∧ Added fourFrames 0 emptyTable m' (PHYSTOP - PGSIZE) 0 PGSIZE) never emptyTable := by
  refine ⟨emptyTable_wellFormed, ?_⟩
  refine wp_mono (uvmalloc_atomic fourFrames emptyTable _ 0 0 PGSIZE emptyTable_wellFormed (fun v hv => ?_) (by decide)
    (by decide)) ?_ fun _ _ => id
  · rw [emptyTable_translate (hv.trans (by decide))]
    exact ⟨nofun, fun h => absurd h (Nat.not_lt_zero _)⟩
  · rintro r m' (hadded | ⟨-, -, hstarved⟩)
    · exact hadded
    · exact absurd hstarved emptyTable_fed

end Xv6.Vm
