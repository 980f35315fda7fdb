import Xv6.Vm.Space

/-!
# Access to the user's pages

`walkaddr` finds the pages a user may access, which in a space are among the first `n`. What is
copied to a user address therefore goes to these pages, and the space stays as it is. `uvmcopy`
copies them, page by page, to the same place in another space.
-/

namespace Xv6.Vm

open Prog Radix Function Multiset

variable {L : Layout} {m m' : Mem} {B T : Multiset Nat} {root tf n va : Nat} {mp : Nat → Option Word}

/-! ## `walkaddr` -/

/-- The page of an entry that the user may access, or 0. -/
def userPage : Option Word → Nat
  | none => 0
  | some w => if w &&& PTE_U = 0 then 0 else PTE2PA w

/-- `walkaddr` reads the entry at the end of its way through the tree. -/
theorem wp_walkaddr_leaf (hva : va < MAXVA) {Q : Nat → Mem → Prop} {E : Panic → Mem → Prop} :
    wp (walkaddr root va) Q E m ↔ Q (userPage (sv39.leaf m.word 2 root (va / PGSIZE))) m := by
  unfold walkaddr
  rw [if_neg (Nat.not_le.mpr hva), wp_bind, wp_walk_lookup hva]
  cases hq : sv39.slot m.word 2 root (va / PGSIZE) with
  | none =>
    have hnone : sv39.leaf m.word 2 root (va / PGSIZE) = none := by
      rw [leaf, hq]
      rfl
    rw [wp_pure, hnone, userPage]
  | some q =>
    rw [wp_bind, getPte, wp_read, leaf_of_slot hq]
    by_cases hvalid : sv39.valid (m.word q.1 q.2) = true
    · rw [if_neg ((valid_iff _).mp hvalid), if_pos hvalid, userPage]
      split <;> exact wp_pure
    · rw [if_pos ((not_valid_iff _).mp (Bool.eq_false_iff.mpr hvalid)), if_neg hvalid, userPage, wp_pure]

theorem wp_walkaddr (ht : PageTable m.word root T mp) (hva : va < MAXVA) {Q : Nat → Mem → Prop} {E : Panic → Mem → Prop} :
    wp (walkaddr root va) Q E m ↔ Q (userPage (mp (va / PGSIZE))) m := by
  rw [wp_walkaddr_leaf hva, ht.leaf _ (va_lt_NPAGES hva)]

variable {fuel len v : Nat} {src : List UInt8}

theorem mem_pages {w : Word} (hv : v < n) (hw : mp v = some w) : PTE2PA w ∈ pages mp 0 n := by
  unfold pages
  rw [mem_sum]
  exact ⟨v, Finset.mem_range.mpr hv, by rw [zero_add, hw]; exact mem_singleton_self _⟩

/-- What the user may access lies among the user's pages. -/
theorem Space.userPage_mem {word : Nat → Nat → Word} (h : Space L word root tf n T mp)
    (hv : v < NPAGES) (hne : userPage (mp v) ≠ 0) : userPage (mp v) ∈ pages mp 0 n := by
  have hlt : v < n := by
    by_contra hge
    by_cases htf : v = TFPAGE
    · rw [htf, h.trapframe, userPage, entry_and tf _ (by decide)] at hne
      exact hne (if_pos (by decide))
    by_cases htr : v = TRPAGE
    · rw [htr, h.trampoline, userPage, entry_and _ _ (by decide)] at hne
      exact hne (if_pos (by decide))
    rw [h.rest v hv (by omega) htf htr] at hne
    exact hne rfl
  obtain ⟨w, hw, -⟩ := h.user v hlt
  rw [hw, userPage] at hne ⊢
  split at hne
  · exact absurd rfl hne
  · rw [if_neg ‹_›]
    exact mem_pages hlt hw

/-- `walkaddr` finds nothing or a page of the user. -/
theorem Space.walkaddr_spec (h : Space L m.word root tf n T mp) :
    wp (walkaddr root va) (fun r m' => m' = m ∧ (r ≠ 0 → r ∈ pages mp 0 n)) never m := by
  by_cases hva : va < MAXVA
  · rw [wp_walkaddr h.table hva]
    exact ⟨rfl, h.userPage_mem (va_lt_NPAGES hva)⟩
  · unfold walkaddr
    rw [if_pos (Nat.le_of_not_lt hva), wp_pure]
    exact ⟨rfl, fun h => absurd rfl h⟩

/-! ## Copying to a user address -/

/-- A page of the user is written. -/
theorem Room.write (h : Room L B m m' root tf n T mp) {page : Nat} (hpage : page ∈ pages mp 0 n) (row : Nat → Word) :
    Room L B m (m'.setPage page row) root tf n T mp := by
  have hpage' : page ∈ T + (pages mp 0 n + B) := by simp [hpage]
  have hT : page ∉ T := fun hmem => h.pool.disjoint hmem (by simp [hpage])
  have hB : page ∉ B := by
    have hp : Pool L m' ((T + pages mp 0 n) + B) := h.pool.of_eq (by abel)
    exact hp.disjoint (by simp [hpage])
  exact ⟨h.space.congr (sameOn_setPage hT), h.pool.setPage hpage' row, h.same.trans (sameOn_setPage hB)⟩

theorem copyoutLoop_spec (h : Room L B m m' root tf n T mp) :
    wp (copyoutLoop root fuel va src) (fun _ m'' => Room L B m m'' root tf n T mp) never m' := by
  induction fuel generalizing m' va src with
  | zero => exact h
  | succ fuel ih =>
    rw [copyoutLoop]
    apply wp_ite
    · intro _
      exact h
    · intro _
      apply wp_seq h.space.walkaddr_spec
      rintro pa m₁ ⟨rfl, hpa⟩
      apply wp_ite
      · intro _
        exact h
      · intro hne
        rw [wp_bind, store, wp_change]
        exact ih (h.write (hpa hne) _)

theorem copyout_spec (h : Room L B m m' root tf n T mp) :
    wp (copyout root va src) (fun _ m'' => Room L B m m'' root tf n T mp) never m' :=
  copyoutLoop_spec h

/-! ## `uvminit` -/

/-- With enough frames the first page of a space is filled. -/
theorem uvminit_spec (hsrc : src.length < PGSIZE) (h : Room L B m m' root tf 0 T mp)
    (hfails : m'.fails = []) (hroom : (T + B).card + 3 ≤ L.frames.card) :
    wp (uvminit root src) (fun _ m'' => ∃ T' mp', Room L B m m'' root tf 1 T' mp' ∧ T'.card ≤ T.card + 2 ∧ m''.fails = [])
      never m' := by
  have hout : (T + (pages mp 0 0 + B)).card = (T + B).card := by rw [pages_zero, zero_add]
  unfold uvminit
  rw [if_neg (Nat.not_le.mpr hsrc)]
  apply wp_seq (kalloc_page h.pool hfails (by omega))
  rintro page m₁ ⟨hne, pool, same, hfails₁⟩
  rw [if_neg hne, wp_bind, memset, wp_change]
  obtain ⟨hp₂, hsame₂⟩ := fill_page pool same fun _ => 0 * 0x0101010101010101
  have hp₂ : Pool L (m₁.setPage page fun _ => 0 * 0x0101010101010101) (T + (pages mp 0 0 + ({page} + B))) := by
    apply hp₂.of_eq
    rw [← singleton_add]
    abel
  have hpage : PageAddr page := hp₂.pageAddr (by simp)
  have hbase := h.same.trans hsame₂.right.right
  have hperm : isLeaf (PTE_W ||| PTE_R ||| PTE_X ||| PTE_U) = true := by decide
  have hmap := (h.space.congr hsame₂.left).map_page hperm (by decide) hp₂
  rw [zero_mul] at hmap
  apply wp_seq hmap
  rintro r m₃ (⟨-, T', hroom₃, hcard₃, hfails₃⟩ | ⟨-, hshort, -⟩)
  · have hmem : PTE2PA (PA2PTE page ||| (PTE_W ||| PTE_R ||| PTE_X ||| PTE_U) ||| PTE_V) ∈ pages (update mp 0
        (some (PA2PTE page ||| (PTE_W ||| PTE_R ||| PTE_X ||| PTE_U) ||| PTE_V))) 0 (0 + 1) :=
      mem_pages Nat.zero_lt_one (update_self ..)
    rw [PTE2PA_entry hpage (by decide)] at hmem
    exact ⟨T', _, (Room.trans hbase hroom₃).write hmem _, hcard₃, hfails₃ hfails₁⟩
  · apply absurd hshort (not_short hfails₁ _)
    simp only [card_add, pages_zero, card_zero, card_singleton] at hroom ⊢
    omega

/-! ## Copying from a user address -/

section

variable (h : Space L m.word root tf n T mp)
include h

theorem copyinLoop_spec : wp (copyinLoop root fuel va len) (fun _ m' => m' = m) never m := by
  induction fuel generalizing va len with
  | zero => rfl
  | succ fuel ih =>
    rw [copyinLoop]
    apply wp_ite
    · intro _
      rfl
    · intro _
      apply wp_seq h.walkaddr_spec
      rintro pa m₁ ⟨rfl, -⟩
      apply wp_ite
      · intro _
        rfl
      · intro _
        rw [wp_bind, wp_read]
        apply wp_seq ih
        rintro rest m₂ rfl
        rfl

theorem copyin_spec : wp (copyin root va len) (fun _ m' => m' = m) never m :=
  copyinLoop_spec h

theorem copyinstrLoop_spec : wp (copyinstrLoop root fuel va len) (fun _ m' => m' = m) never m := by
  induction fuel generalizing va len with
  | zero => rfl
  | succ fuel ih =>
    rw [copyinstrLoop]
    apply wp_ite
    · intro _
      rfl
    · intro _
      apply wp_seq h.walkaddr_spec
      rintro pa m₁ ⟨rfl, -⟩
      apply wp_ite
      · intro _
        rfl
      · intro _
        rw [wp_bind, wp_read]
        apply wp_ite
        · intro _
          rfl
        · intro _
          apply wp_seq ih
          rintro rest m₂ rfl
          rfl

theorem copyinstr_spec : wp (copyinstr root va len) (fun _ m' => m' = m) never m :=
  copyinstrLoop_spec h

end

/-! ## `uvmclear` -/

/-- The user loses the access to a page; the page stays mapped. -/
theorem uvmclear_spec (hv : v < n) (h : Room L B m m' root tf n T mp) :
    wp (uvmclear root (v * PGSIZE)) (fun _ m'' => ∃ mp', Room L B m m'' root tf n T mp') never m' := by
  have hle := h.n_le
  have htf := TFPAGE_eq
  have htr := TRPAGE_eq
  have hva : v * PGSIZE < MAXVA := by
    rw [PGSIZE_eq, MAXVA_eq]
    omega
  have hpage : v * PGSIZE / PGSIZE = v := Nat.mul_div_cancel v (by decide)
  have hlt : v < NPAGES := hpage ▸ va_lt_NPAGES hva
  obtain ⟨w, hw, hleaf⟩ := h.space.user v hv
  obtain ⟨q, hq, hword, hvalid⟩ := h.space.table.slot_of_some hlt hw
  unfold uvmclear
  rw [wp_bind, wp_walk_lookup hva, hpage, hq]
  simp only [wp_bind, getPte, wp_read, setPte, wp_change]
  rw [hword]
  have hvalid' : sv39.valid (w &&& ~~~PTE_U) = true := by
    rw [valid_iff] at hvalid ⊢
    rwa [clear_and w (by decide)]
  have hleaf' : isLeaf (w &&& ~~~PTE_U) = true := by
    rw [isLeaf_iff] at hleaf ⊢
    rwa [clear_and w (by decide)]
  have hkept := (Kept.mk h.space.table h.pool (.refl _ m'.word)).setPte hlt hq (w &&& ~~~PTE_U)
  rw [if_pos hvalid'] at hkept
  have hpages : pages (update mp v (some (w &&& ~~~PTE_U))) 0 n = pages mp 0 n := by
    apply pages_update
    rw [hw, pageOf, pageOf, PTE2PA_clear]
  refine ⟨_, ⟨⟨hkept.table, fun u hu => ?_, ?_, ?_, fun u hu hnu htfu htru => ?_⟩, ?_, ?_⟩⟩
  · by_cases huv : u = v
    · exact ⟨_, by rw [huv, update_self], hleaf'⟩
    · rw [update_of_ne huv]
      exact h.space.user u hu
  · rw [update_of_ne (by omega)]
    exact h.space.trapframe
  · rw [update_of_ne (by omega)]
    exact h.space.trampoline
  · rw [update_of_ne (by omega)]
    exact h.space.rest u hu hnu htfu htru
  · rw [hpages]
    exact hkept.pool
  · exact h.same.trans hkept.same.right

/-! ## `uvmcopy` -/

section

variable {old tf₀ N : Nat} {T₀ : Multiset Nat} {mp₀ mpc : Nat → Option Word}

/-- The entry of a page to copy; the alternative is never used. -/
def entryOr (x : Option Word) : Word := (x.filter isLeaf).getD PTE_R

theorem isLeaf_entryOr (x : Option Word) : isLeaf (entryOr x) = true := by
  unfold entryOr
  cases hx : x.filter isLeaf with
  | none => decide
  | some w => exact (Option.filter_eq_some_iff.mp hx).2

theorem entryOr_some {w : Word} (h : isLeaf w = true) : entryOr (some w) = w := by
  unfold entryOr
  rw [Option.filter_some, if_pos h]
  rfl

/-- The flags with which `uvmcopy` maps a page, and what it copies to it. -/
def copyPerm (mp₀ : Nat → Option Word) (v : Nat) : Word := PTE_FLAGS (entryOr (mp₀ v))

def copyRow (m : Mem) (mp₀ : Nat → Option Word) (v : Nat) : Nat → Word := m.word (PTE2PA (entryOr (mp₀ v)))

theorem copyPerm_flags (mp₀ : Nat → Option Word) (v : Nat) : Flags (copyPerm mp₀ v) :=
  ⟨(isLeaf_PTE_FLAGS _).trans (isLeaf_entryOr _), PTE_FLAGS_lt _⟩

/-- The table to copy from, and its pages, are out for other purposes. -/
structure Source (m : Mem) (B : Multiset Nat) (old N : Nat) (T₀ : Multiset Nat) (mp₀ : Nat → Option Word) : Prop where
  table : PageTable m.word old T₀ mp₀
  user : ∀ v, v < N → ∃ w, mp₀ v = some w ∧ isLeaf w = true
  out : T₀ + pages mp₀ 0 N ≤ B

/-- A turn of `uvmcopy`. -/
theorem copyPage_grown (hn : n < N) (hva : n * PGSIZE < MAXVA) (hfree : mpc n = none) (hold : Source m B old N T₀ mp₀)
    (h : Extended L B m m' root 0 n (copyPerm mp₀) (copyRow m mp₀) T mpc mp) (hcost : Thrifty m m' root n T) :
    wp (copyPage L old root (n * PGSIZE)) (fun ok m'' => ∃ T' mp',
      (ok = true ∧ Extended L B m m'' root 0 (n + 1) (copyPerm mp₀) (copyRow m mp₀) T' mpc mp' ∧ Thrifty m m'' root (n + 1) T') ∨
      (ok = false ∧ Extended L B m m'' root 0 n (copyPerm mp₀) (copyRow m mp₀) T' mpc mp ∧
        Short L m (sv39.tables m.word 2 root + B) (3 * (n + 1)))) never m' := by
  have hpage : n * PGSIZE / PGSIZE = n := Nat.mul_div_cancel n (by decide)
  have hlt : n < NPAGES := hpage ▸ va_lt_NPAGES hva
  have hzero : 0 + n = n := zero_add n
  obtain ⟨w, hw, hleaf⟩ := hold.user n hn
  obtain ⟨q, hq, hword, hvalid⟩ := (hold.table.congr (h.same.mono ((Multiset.le_add_right _ _).trans hold.out))).slot_of_some hlt hw
  unfold copyPage
  rw [wp_bind, wp_walk_lookup hva, hpage, hq]
  have hget : wp (getPte q) (fun w' m₁ => w' = w ∧ m₁ = m') never m' := ⟨hword, rfl⟩
  apply wp_seq hget
  rintro w' m₁ ⟨hw', rfl⟩
  rw [hw', if_neg ((valid_iff w).mp hvalid)]
  apply wp_seq (kalloc_spec h.pool)
  intro page m₂ halloc
  cases halloc with
  | failed pool same short _ =>
    rw [if_pos rfl, wp_pure]
    exact ⟨T, mp, .inr ⟨rfl, h.unchanged (copyPerm_flags mp₀) hcost pool same short⟩⟩
  | page page pool same fails =>
    rw [if_neg (pool.ne_zero (mem_cons_self _ _)), wp_bind, wp_change]
    have hmem : PTE2PA w ∈ B := mem_of_le ((Multiset.le_add_left _ _).trans hold.out) (mem_pages hn hw)
    have hrow : copyRow m mp₀ (0 + n) = m₂.word (PTE2PA w) := by
      unfold copyRow
      rw [hzero, hw, entryOr_some hleaf, same _ (by simp [hmem]), h.same _ hmem]
    have hperm : copyPerm mp₀ (0 + n) = PTE_FLAGS w := by
      unfold copyPerm
      rw [hzero, hw, entryOr_some hleaf]
    have hadd := h.add_page hperm hrow (copyPerm_flags mp₀) (hzero.symm ▸ hva) (hzero.symm ▸ hfree) hcost pool same
      fails
    rw [hzero] at hadd
    exact hadd

theorem copyLoop_grown {k : Nat} (hk : n + k = N) (hvacant : Vacant mpc 0 N) (hold : Source m B old N T₀ mp₀)
    (h : Extended L B m m' root 0 n (copyPerm mp₀) (copyRow m mp₀) T mpc mp) (hcost : Thrifty m m' root n T) :
    wp (copyLoop L old root k (n * PGSIZE)) (fun r m'' => ∃ T',
      (r = 0 ∧ ∃ mp', Extended L B m m'' root 0 N (copyPerm mp₀) (copyRow m mp₀) T' mpc mp') ∨
      (r = -1 ∧ Kept L B m m'' root T' mpc ∧ sv39.tables m.word 2 root ≤ T' ∧
        Short L m (sv39.tables m.word 2 root + B) (3 * N))) never m' := by
  induction k generalizing n m' T mp with
  | zero =>
    rw [copyLoop, wp_pure]
    obtain rfl : n = N := by omega
    exact ⟨T, .inl ⟨rfl, mp, h⟩⟩
  | succ k ih =>
    have hle := h.n_le (copyPerm_flags mp₀)
    obtain ⟨hva, hfree⟩ := hvacant n (by omega) hle
    rw [zero_add] at hva hfree
    rw [copyLoop]
    apply wp_seq (copyPage_grown (by omega) hva hfree hold h hcost)
    rintro ok m₁ ⟨T', mp', ⟨rfl, hgrown, hcost'⟩ | ⟨rfl, hgrown, hshort⟩⟩
    · rw [if_pos rfl, show n * PGSIZE + PGSIZE = (n + 1) * PGSIZE from (Nat.succ_mul n PGSIZE).symm]
      exact ih (by omega) hgrown hcost'
    · rw [if_neg (by decide), Nat.mul_div_cancel n (by decide)]
      have hunmap := hgrown.unmap (copyPerm_flags mp₀) (hvacant.bound (by decide) (by omega) hle) fun v => hvacant.none (by omega) hle
      rw [zero_mul] at hunmap
      apply wp_seq hunmap
      intro _ m₂ hkept
      exact ⟨T', .inr ⟨rfl, hkept, hgrown.grew, hshort.mono (by omega)⟩⟩

/-- `uvmcopy` makes a copy of each page, or leaves the entries of the new table as they were. -/
theorem uvmcopy_grown {sz : Nat} (hvacant : Vacant mpc 0 (npages sz)) (hold : Source m B old (npages sz) T₀ mp₀)
    (ht : PageTable m.word root T mpc) (hp : Pool L m (T + B)) :
    wp (uvmcopy L old root sz) (fun r m' => ∃ T',
      (r = 0 ∧ ∃ mp', Extended L B m m' root 0 (npages sz) (copyPerm mp₀) (copyRow m mp₀) T' mpc mp') ∨
      (r = -1 ∧ Kept L B m m' root T' mpc ∧ sv39.tables m.word 2 root ≤ T' ∧
        Starved L m (3 * npages sz))) never m := by
  have hturns : pagesUpTo 0 sz = npages sz := by
    unfold pagesUpTo npages
    rw [PGSIZE_eq]
    omega
  unfold uvmcopy
  rw [hturns]
  have hloop := copyLoop_grown (zero_add _) hvacant hold (.start ht hp) (.start ht)
  rw [zero_mul] at hloop
  apply wp_mono hloop _ fun _ _ => id
  rintro r m' ⟨T', hgrown | ⟨rfl, hk, hgrew, hshort⟩⟩
  · exact ⟨T', .inl hgrown⟩
  · exact ⟨T', .inr ⟨rfl, hk, hgrew, hp.starved (ht.tables ▸ hshort)⟩⟩

theorem uvmcopy_spec {sz : Nat} (hold : Source m' B old (npages sz) T₀ mp₀) (h : Room L B m m' root tf 0 T mp) :
    wp (uvmcopy L old root sz) (fun r m'' => ∃ T' mp',
      (r = 0 ∧ Room L B m m'' root tf (npages sz) T' mp') ∨
      (r = -1 ∧ Room L B m m'' root tf 0 T' mp' ∧ Starved L m' (3 * npages sz))) never m' := by
  have hpool := h.pool
  rw [pages_zero, zero_add] at hpool
  apply wp_mono (uvmcopy_grown (h.vacant _) hold h.space.table hpool) _ fun _ _ => id
  rintro r m'' ⟨T', ⟨rfl, mp', hg⟩ | ⟨rfl, hk, -, hstarved⟩⟩
  · have hg : Extended L (pages mp 0 0 + B) m' m'' root 0 (npages sz) (copyPerm mp₀) (copyRow m' mp₀) T' mp mp' := by
      rw [pages_zero, zero_add]
      exact hg
    have hroom := h.grown (copyPerm_flags mp₀) hg
    rw [zero_add] at hroom
    exact ⟨T', mp', .inl ⟨rfl, hroom⟩⟩
  · have hk : Kept L (pages mp 0 0 + B) m' m'' root T' mp := by
      rw [pages_zero, zero_add]
      exact hk
    exact ⟨T', mp, .inr ⟨rfl, h.kept hk, hstarved⟩⟩

end

end Xv6.Vm
