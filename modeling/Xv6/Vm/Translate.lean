import Xv6.Vm.Free

/-!
# A page table as a partial map

`translate` reads a page table the way its users do, through `walk`: the physical page and the flags
of a page number. A table is well formed when its pages form a tree without sharing and none of them
is free or in use for something else. The functions that change a table then change the map and
nothing besides: `mappages` adds a range, `uvmunmap` removes one, `walk` with `alloc` leaves the map
as it is, whether or not it finds memory.
-/

namespace Xv6.Vm

open Prog Radix

/-- The physical page and the flags at which the table at `root` maps page number `v`. -/
def translate (m : Mem) (root v : Nat) : Option (Nat × Word) :=
  match walk root (v * PGSIZE) false m with
  | .ok (some pte) _ =>
    if m.word pte.1 pte.2 &&& PTE_V = 0 then none
    else some (PTE2PA (m.word pte.1 pte.2), PTE_FLAGS (m.word pte.1 pte.2))
  | _ => none

/-- The tables below `root` form a tree; together with the pages `B`, which are out for other
purposes, and the free list they are all frames, each once. -/
structure WellFormed (L : Layout) (m : Mem) (root : Nat) (B : Multiset Nat) : Prop where
  nodes : sv39.Nodes m.word IsNode 2 root
  pool : Pool L m (sv39.tables m.word 2 root + B)

variable {L : Layout} {m m' : Mem} {B : Multiset Nat} {root : Nat}

theorem walk_false_eq {v : Nat} (hv : v * PGSIZE < MAXVA) :
    walk root (v * PGSIZE) false m = .ok (sv39.slot m.word 2 root v) m := by
  have hpage : v * PGSIZE / PGSIZE = v := Nat.mul_div_cancel v (by decide)
  have h : wp (walk root (v * PGSIZE) false) (fun r m' => r = sv39.slot m.word 2 root v ∧ m' = m) never m :=
    (wp_walk_lookup hv).mpr ⟨by rw [hpage], rfl⟩
  unfold wp at h
  cases hr : walk root (v * PGSIZE) false m with
  | ok r m' =>
    rw [hr] at h
    rw [h.1, h.2]
  | stop e m' =>
    rw [hr] at h
    exact h.elim

/-- The map is what stands in the tree. -/
theorem translate_eq {v : Nat} (hv : v * PGSIZE < MAXVA) :
    translate m root v = (sv39.leaf m.word 2 root v).map fun w => (PTE2PA w, PTE_FLAGS w) := by
  unfold translate
  rw [walk_false_eq hv]
  cases hs : sv39.slot m.word 2 root v with
  | none =>
    have hleaf : sv39.leaf m.word 2 root v = none := by
      unfold leaf
      rw [hs]
      rfl
    rw [hleaf]
    rfl
  | some q =>
    rw [leaf_of_slot hs]
    by_cases hvalid : sv39.valid (m.word q.1 q.2) = true
    · rw [if_pos hvalid]
      exact if_neg ((valid_iff _).mp hvalid)
    · rw [if_neg hvalid]
      exact if_pos ((not_valid_iff _).mp (Bool.eq_false_iff.mpr hvalid))

namespace WellFormed

theorem table (h : WellFormed L m root B) :
    PageTable m.word root (sv39.tables m.word 2 root) (sv39.leaf m.word 2 root) :=
  ⟨h.nodes, rfl, fun _ _ => rfl⟩

theorem of_kept {T : Multiset Nat} {mp : Nat → Option Word} (h : Kept L B m m' root T mp) : WellFormed L m' root B :=
  ⟨h.table.nodes, h.table.tables ▸ h.pool⟩

end WellFormed

theorem lt_NPAGES {v : Nat} (hv : v * PGSIZE < MAXVA) : v < NPAGES := by
  rw [PGSIZE_eq, MAXVA_eq] at hv
  rw [show NPAGES = 0x8000000 from rfl]
  omega

/-- What a table is after a call, read as a map. -/
theorem translate_of_kept {T : Multiset Nat} {mp : Nat → Option Word} (h : Kept L B m m' root T mp) {v : Nat}
    (hv : v * PGSIZE < MAXVA) : translate m' root v = (mp v).map fun w => (PTE2PA w, PTE_FLAGS w) := by
  rw [translate_eq hv, h.table.leaf v (lt_NPAGES hv)]

/-! ## `mappages` on a range -/

theorem mappages_translate {va size pa : Nat} {perm : Word} (h : WellFormed L m root B) (hsize : 0 < size)
    (hva : va + size ≤ MAXVA) (hpa : pa % PGSIZE = 0) (hlt : pa < 2 ^ 56) (hperm : perm.toNat < 2 ^ 10)
    (hfree : ∀ v, va / PGSIZE ≤ v → v ≤ (va + size - 1) / PGSIZE → translate m root v = none) :
    wp (mappages root va size pa perm) (fun r m' => WellFormed L m' root B ∧ SameOn B m.word m'.word ∧
      (r ≠ 0 → Starved L m (2 * ((va + size - 1) / PGSIZE / 512 - va / PGSIZE / 512 + 1))) ∧ (r = 0 →
      ∀ v, v * PGSIZE < MAXVA → translate m' root v =
        if va / PGSIZE ≤ v ∧ v ≤ (va + size - 1) / PGSIZE then
          some (pa + (v - va / PGSIZE) * PGSIZE, perm ||| PTE_V)
        else translate m root v)) never m := by
  have hva' := hva
  rw [MAXVA_eq] at hva'
  have hle : va / PGSIZE ≤ (va + size - 1) / PGSIZE := Nat.div_le_div_right (by omega)
  have hlast : (va + size - 1) / PGSIZE * PGSIZE < MAXVA := by
    rw [PGSIZE_eq, MAXVA_eq]
    omega
  have hrange : (va / PGSIZE + ((va + size - 1) / PGSIZE - va / PGSIZE)) * PGSIZE < MAXVA := by
    rw [Nat.add_sub_cancel' hle]
    exact hlast
  have hunmapped : ∀ u, va / PGSIZE ≤ u → u ≤ va / PGSIZE + ((va + size - 1) / PGSIZE - va / PGSIZE) →
      sv39.leaf m.word 2 root u = none := by
    intro u hu hu'
    have hu' : u ≤ (va + size - 1) / PGSIZE := by omega
    have hnone := hfree u hu hu'
    rw [translate_eq (lt_of_le_of_lt (Nat.mul_le_mul_right _ hu') hlast)] at hnone
    exact Option.map_eq_none_iff.mp hnone
  rw [mappages_range hsize hva]
  apply wp_mono (mapLoop_spec hrange h.table h.pool hunmapped) _ fun _ _ => id
  rintro r m' ⟨T', k, hext, hr⟩
  have hstarved : r ≠ 0 → Starved L m (2 * ((va + size - 1) / PGSIZE / 512 - va / PGSIZE / 512 + 1)) := by
    intro hne
    rcases hr with ⟨rfl, -⟩ | ⟨-, -, hshort⟩
    · exact absurd rfl hne
    · apply h.pool.starved (hshort.mono _)
      have hmissing := missing_le m.word root (va / PGSIZE)
      rw [missingFor, Nat.add_sub_cancel' hle]
      omega
  refine ⟨.of_kept hext.toKept, hext.same, hstarved, fun hzero v hv => ?_⟩
  have hk : k = (va + size - 1) / PGSIZE - va / PGSIZE + 1 := by
    rcases hr with ⟨-, hk⟩ | ⟨hr, -⟩
    · exact hk
    · rw [hr] at hzero
      cases hzero
  rw [translate_of_kept hext.toKept hv]
  unfold mapRange
  by_cases hin : va / PGSIZE ≤ v ∧ v ≤ (va + size - 1) / PGSIZE
  · have hpage : PageAddr (pa + (v - va / PGSIZE) * PGSIZE) := by
      rw [PGSIZE_eq] at hpa hin hv ⊢
      rw [MAXVA_eq] at hv
      refine ⟨by rw [PGSIZE_eq]; omega, by omega⟩
    rw [if_pos (by omega), if_pos hin, Option.map_some, PTE2PA_entry hpage hperm, PTE_FLAGS_entry _ hperm]
  · rw [if_neg (by omega), if_neg hin, translate_eq hv]

/-! ## `uvmunmap` and `walk` -/

/-- The pages a range maps, as `uvmunmap` with `do_free` gives them back. -/
def mappedPages (m : Mem) (root v n : Nat) : Multiset Nat := pages (sv39.leaf m.word 2 root) v n

theorem uvmunmap_translate {v n : Nat} {doFree : Bool} (h : WellFormed L m root ((if doFree then mappedPages m root v n else 0) + B))
    (hva : (v + n) * PGSIZE ≤ MAXVA)
    (hleaf : ∀ u, v ≤ u → u < v + n → ∃ pa flags, translate m root u = some (pa, flags) ∧ isLeaf flags = true) :
    wp (uvmunmap L root (v * PGSIZE) n doFree) (fun _ m' => WellFormed L m' root B ∧ SameOn B m.word m'.word ∧
      ∀ u, u * PGSIZE < MAXVA → translate m' root u = if v ≤ u ∧ u < v + n then none else translate m root u) never m := by
  have hmapped : ∀ u, v ≤ u → u < v + n → ∃ w, sv39.leaf m.word 2 root u = some w ∧ isLeaf w = true := by
    intro u hu hu'
    have hlt : u * PGSIZE < MAXVA :=
      lt_of_lt_of_le (Nat.mul_lt_mul_of_pos_right hu' (by decide)) hva
    obtain ⟨pa, flags, htr, hflags⟩ := hleaf u hu hu'
    rw [translate_eq hlt] at htr
    obtain ⟨w, hw, heq⟩ := Option.map_eq_some_iff.mp htr
    cases heq
    refine ⟨w, hw, ?_⟩
    rw [isLeaf_iff] at hflags ⊢
    unfold PTE_FLAGS at hflags
    rw [BitVec.and_assoc] at hflags
    exact hflags
  apply wp_mono (uvmunmap_spec hva h.table hmapped h.pool) _ fun _ _ => id
  intro _ m' hkept
  refine ⟨.of_kept hkept, hkept.same, fun u hu => ?_⟩
  rw [translate_of_kept hkept hu]
  unfold unmapRange
  split
  · rfl
  · rw [translate_eq hu]

theorem walk_translate {va : Nat} (h : WellFormed L m root B) (hva : va < MAXVA) :
    wp (walk root va true) (fun _ m' => WellFormed L m' root B ∧ SameOn B m.word m'.word ∧
      ∀ u, u * PGSIZE < MAXVA → translate m' root u = translate m root u) never m := by
  apply wp_mono (walk_spec hva h.table h.pool) _ fun _ _ => id
  rintro r m' ⟨T', hext, -, -⟩
  refine ⟨.of_kept hext.toKept, hext.same, fun u hu => ?_⟩
  rw [translate_of_kept hext.toKept hu, translate_eq hu]

theorem slot_ne {u v : Nat} (h : WellFormed L m root B) (hu : u * PGSIZE < MAXVA) (hv : v * PGSIZE < MAXVA) (huv : u ≠ v)
    {q q' : Pte} (hq : walk root (u * PGSIZE) false m = .ok (some q) m)
    (hq' : walk root (v * PGSIZE) false m = .ok (some q') m) : q ≠ q' := by
  rintro rfl
  rw [walk_false_eq hu] at hq
  rw [walk_false_eq hv] at hq'
  have hn := (Multiset.nodup_add.mp h.pool.nodup).1
  injection hq with hq _
  injection hq' with hq' _
  have hmod : u % NPAGES = v % NPAGES := slot_inj fan_pos hn hq hq'
  rw [Nat.mod_eq_of_lt (lt_NPAGES hu), Nat.mod_eq_of_lt (lt_NPAGES hv)] at hmod
  exact huv hmod

/-- On a well-formed table the functions of `vm.c` act on the map that `translate` reads: `mappages`
adds the pages of its range, `uvmunmap` removes the pages of its own, `walk` changes no translation,
and no two pages share a slot. Each leaves a well-formed table and the other pages' contents. -/
theorem page_table_refines_map (L : Layout) (m : Mem) (root : Nat) (B : Multiset Nat) (h : WellFormed L m root B) :
    (∀ va size pa (perm : Word), 0 < size → va + size ≤ MAXVA → pa % PGSIZE = 0 → pa < 2 ^ 56 → perm.toNat < 2 ^ 10 →
      (∀ v, va / PGSIZE ≤ v → v ≤ (va + size - 1) / PGSIZE → translate m root v = none) →
      wp (mappages root va size pa perm) (fun r m' => WellFormed L m' root B ∧ SameOn B m.word m'.word ∧
        (r ≠ 0 → Starved L m (2 * ((va + size - 1) / PGSIZE / 512 - va / PGSIZE / 512 + 1))) ∧ (r = 0 →
        ∀ v, v * PGSIZE < MAXVA → translate m' root v =
          if va / PGSIZE ≤ v ∧ v ≤ (va + size - 1) / PGSIZE then
            some (pa + (v - va / PGSIZE) * PGSIZE, perm ||| PTE_V)
          else translate m root v)) never m) ∧
    (∀ v n doFree B', (v + n) * PGSIZE ≤ MAXVA → B = (if doFree then mappedPages m root v n else 0) + B' →
      (∀ u, v ≤ u → u < v + n → ∃ pa flags, translate m root u = some (pa, flags) ∧ isLeaf flags = true) →
      wp (uvmunmap L root (v * PGSIZE) n doFree) (fun _ m' => WellFormed L m' root B' ∧ SameOn B' m.word m'.word ∧
        ∀ u, u * PGSIZE < MAXVA → translate m' root u = if v ≤ u ∧ u < v + n then none else translate m root u) never m) ∧
    (∀ va, va < MAXVA → wp (walk root va true) (fun _ m' => WellFormed L m' root B ∧ SameOn B m.word m'.word ∧
      ∀ u, u * PGSIZE < MAXVA → translate m' root u = translate m root u) never m) ∧
    ∀ u v q q', u * PGSIZE < MAXVA → v * PGSIZE < MAXVA → u ≠ v → walk root (u * PGSIZE) false m = .ok (some q) m →
      walk root (v * PGSIZE) false m = .ok (some q') m → q ≠ q' := by
  refine ⟨?_, ?_, ?_, ?_⟩
  · intro va size pa perm hsize hva hpa hlt hperm hfree
    exact mappages_translate h hsize hva hpa hlt hperm hfree
  · intro v n doFree B' hva hB hleaf
    rw [hB] at h
    exact uvmunmap_translate h hva hleaf
  · intro va hva
    exact walk_translate h hva
  · intro u v q q' hu hv huv hq hq'
    exact slot_ne h hu hv huv hq hq'

/-- A machine with four frames. -/
def fourFrames : Layout where
  kend := PHYSTOP - 4 * PGSIZE
  trampoline := KERNBASE
  kend_ge := by decide
  kend_le := by decide
  trampoline_page := ⟨by decide, by decide⟩
  trampoline_lt := by decide

/-- The last of the four frames is an empty page table, the other three are free. -/
def emptyTable : Mem where
  word p i :=
    if i = 0 ∧ p = PHYSTOP - 4 * PGSIZE then BitVec.ofNat 64 (PHYSTOP - 3 * PGSIZE)
    else if i = 0 ∧ p = PHYSTOP - 3 * PGSIZE then BitVec.ofNat 64 (PHYSTOP - 2 * PGSIZE)
    else 0
  freelist := PHYSTOP - 4 * PGSIZE
  fails := []

theorem emptyTable_blank : sv39.Blank emptyTable.word (PHYSTOP - PGSIZE) := by
  intro j _
  show sv39.valid (if _ ∧ _ then _ else if _ ∧ _ then _ else _) = false
  rw [if_neg (fun h => absurd h.2 (by decide)), if_neg (fun h => absurd h.2 (by decide))]
  decide

theorem emptyTable_wellFormed : WellFormed fourFrames emptyTable (PHYSTOP - PGSIZE) 0 := by
  refine ⟨nodes_blank emptyTable_blank _ _, ?_⟩
  rw [tables_blank emptyTable_blank]
  exact ⟨[PHYSTOP - 4 * PGSIZE, PHYSTOP - 3 * PGSIZE, PHYSTOP - 2 * PGSIZE],
    ⟨rfl, by decide, rfl, by decide, rfl, by decide, rfl⟩, by decide⟩

theorem emptyTable_fed : ¬ Starved fourFrames emptyTable 3 := by
  rintro (hne | hlt)
  · exact hne rfl
  · revert hlt
    decide

theorem emptyTable_translate {v : Nat} (hv : v * PGSIZE < MAXVA) : translate emptyTable (PHYSTOP - PGSIZE) v = none := by
  rw [translate_eq hv, leaf_blank fan_pos emptyTable_blank]
  rfl

theorem page_table_refines_map_empty : WellFormed fourFrames emptyTable (PHYSTOP - PGSIZE) 0 ∧
    wp (mappages (PHYSTOP - PGSIZE) 0 (2 * PGSIZE) KERNBASE PTE_R) (fun r m' => r = 0 ∧
      translate m' (PHYSTOP - PGSIZE) 1 = some (KERNBASE + PGSIZE, PTE_R ||| PTE_V)) never emptyTable := by
  refine ⟨emptyTable_wellFormed, ?_⟩
  have hnone : ∀ v, 0 / PGSIZE ≤ v → v ≤ (0 + 2 * PGSIZE - 1) / PGSIZE →
      translate emptyTable (PHYSTOP - PGSIZE) v = none := by
    intro v _ hv
    have hv : v ≤ 1 := hv
    exact emptyTable_translate (by rw [PGSIZE_eq, MAXVA_eq]; omega)
  apply wp_mono ((page_table_refines_map fourFrames emptyTable _ 0 emptyTable_wellFormed).1 0 (2 * PGSIZE) KERNBASE
    PTE_R (by decide) (by decide) (by decide) (by decide) (by decide) hnone) _ fun _ _ => id
  rintro r m' ⟨-, -, hstarved, hmap⟩
  have hr : r = 0 := by
    by_contra hne
    exact emptyTable_fed ((hstarved hne).imp_right fun hlt => hlt.trans (by decide))
  exact ⟨hr, (hmap hr 1 (by decide)).trans (if_pos (by decide))⟩

end Xv6.Vm
