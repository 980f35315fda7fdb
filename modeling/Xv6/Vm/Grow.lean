import Xv6.Vm.Free

/-!
# Growing a page table

`uvmalloc` and `uvmcopy` do the same thing page by page: they take a frame, fill it, and map it at
the next page number; when memory runs out they unmap what they have mapped. `Extended` is what
holds between two pages, with the permissions and the contents of the new pages as parameters. A
failure leaves the entries as they were before the first page; all that it keeps of the frames it
took are tables.
-/

namespace Xv6.Vm

open Prog Radix Function Multiset

variable {L : Layout} {m m' : Mem} {B T : Multiset Nat} {root lo n : Nat} {mp₀ mp : Nat → Option Word}
  {perm : Nat → Word} {row : Nat → Nat → Word}

/-- The pages that `sz` bytes take. -/
def npages (sz : Nat) : Nat := (sz + 4095) / 4096

theorem PGROUNDUP_npages {sz : Nat} (h : sz < 2 ^ 63) : PGROUNDUP sz = npages sz * PGSIZE := PGROUNDUP_eq h

theorem npages_mul (n : Nat) : npages (n * PGSIZE) = n := by
  rw [npages, PGSIZE_eq]
  omega

theorem card_pages {v : Nat} (h : ∀ u, v ≤ u → u < v + n → ∃ w, mp u = some w ∧ isLeaf w = true) : (pages mp v n).card = n := by
  induction n with
  | zero => rfl
  | succ n ih =>
    obtain ⟨w, hw, -⟩ := h (v + n) (by omega) (by omega)
    rw [pages_back, card_add, ih fun u hu hu' => h u hu (by omega), hw]
    rfl

theorem mem_pages_from {v : Nat} {w : Word} (hlo : lo ≤ v) (hv : v < lo + n) (hw : mp v = some w) : PTE2PA w ∈ pages mp lo n := by
  unfold pages
  rw [mem_sum]
  refine ⟨v - lo, Finset.mem_range.mpr (by omega), ?_⟩
  rw [Nat.add_sub_cancel' hlo, hw]
  exact mem_singleton_self _

/-- Where no page occurs twice, different page numbers have different pages. -/
theorem pages_inj (h : (pages mp lo n).Nodup) {u v : Nat} {wu wv : Word} (hu : lo ≤ u ∧ u < lo + n) (hv : lo ≤ v ∧ v < lo + n)
    (hwu : mp u = some wu) (hwv : mp v = some wv) (heq : PTE2PA wu = PTE2PA wv) : u = v := by
  unfold pages at h
  have hpu : PTE2PA wu ∈ pageOf (mp (lo + (u - lo))) := by
    rw [Nat.add_sub_cancel' hu.1, hwu]
    exact mem_singleton_self _
  have hpv : PTE2PA wu ∈ pageOf (mp (lo + (v - lo))) := by
    rw [Nat.add_sub_cancel' hv.1, hwv, heq]
    exact mem_singleton_self _
  by_contra huv
  exact notMem_of_nodup_sum h (Finset.mem_range.mpr (by omega)) (Finset.mem_range.mpr (by omega)) (by omega) hpu hpv

/-- From `m` to `m'`, the page numbers from `lo` on have got `n` new pages, with these permissions
and contents. The other entries are those of `mp₀`. -/
structure Extended (L : Layout) (B : Multiset Nat) (m m' : Mem) (root lo n : Nat) (perm : Nat → Word) (row : Nat → Nat → Word)
    (T : Multiset Nat) (mp₀ mp : Nat → Option Word) : Prop where
  table : PageTable m'.word root T mp
  pool : Pool L m' (T + (pages mp lo n + B))
  same : SameOn B m.word m'.word
  new : ∀ v, lo ≤ v → v < lo + n → ∃ page, PageAddr page ∧ mp v = some (PA2PTE page ||| perm v ||| PTE_V) ∧ m'.word page = row v
  old : ∀ v, ¬ (lo ≤ v ∧ v < lo + n) → mp v = mp₀ v
  grew : sv39.tables m.word 2 root ≤ T

/-- What `n` new pages cost: besides the pages, at most two tables each. -/
structure Thrifty (m m' : Mem) (root n : Nat) (T : Multiset Nat) : Prop where
  card : T.card ≤ (sv39.tables m.word 2 root).card + 2 * n
  fails : m.fails = [] → m'.fails = []

theorem Thrifty.start (ht : PageTable m.word root T mp) : Thrifty m m root 0 T := ⟨ht.tables ▸ le_rfl, id⟩

/-- A lack of frames for the next page is a lack of frames at the start. -/
theorem Thrifty.short {out : Multiset Nat} {k : Nat} {m₁ : Mem} (h : Thrifty m m' root n T)
    (hfails : m'.fails = [] → m₁.fails = []) (hs : Short L m₁ out k) (hout : out.card + k ≤ T.card + n + B.card + 3) :
    Short L m (sv39.tables m.word 2 root + B) (3 * (n + 1)) := by
  rcases hs with hne | hlt
  · exact .inl fun hnil => hne (hfails (h.fails hnil))
  · have hcard := h.card
    refine .inr ?_
    rw [card_add]
    omega

/-- The permissions make a leaf and nothing but flags. -/
structure Flags (perm : Word) : Prop where
  leaf : isLeaf perm = true
  bits : perm.toNat < 2 ^ 10

namespace Extended

theorem start (ht : PageTable m.word root T mp) (hp : Pool L m (T + B)) : Extended L B m m root lo 0 perm row T mp mp := by
  refine ⟨ht, ?_, .refl _ _, fun v hv hv' => by omega, fun _ _ => rfl, ht.tables ▸ le_rfl⟩
  rw [pages_zero, zero_add]
  exact hp

section

variable (hperm : ∀ v, Flags (perm v)) (h : Extended L B m m' root lo n perm row T mp₀ mp)
include hperm h

theorem leaves : ∀ u, lo ≤ u → u < lo + n → ∃ w, mp u = some w ∧ isLeaf w = true := by
  intro u hu hu'
  obtain ⟨page, -, hw, -⟩ := h.new u hu hu'
  exact ⟨_, hw, (isLeaf_entry page _).trans (hperm u).leaf⟩

/-- There are not enough frames for more. -/
theorem n_le : n ≤ 32768 := by
  have hcard := h.pool.card_le
  rw [card_add, card_add, card_pages (h.leaves hperm)] at hcard
  omega

/-- The new pages keep their contents when the pages that are out do. -/
theorem new_same {m'' : Mem} {mp' : Nat → Option Word} (hmp : ∀ v, v < lo + n → mp' v = mp v)
    (hsame : SameOn (pages mp lo n) m'.word m''.word) :
    ∀ v, lo ≤ v → v < lo + n → ∃ page, PageAddr page ∧ mp' v = some (PA2PTE page ||| perm v ||| PTE_V) ∧ m''.word page = row v := by
  intro v hv hv'
  obtain ⟨page, hpage, hw, hrow⟩ := h.new v hv hv'
  have hmem := mem_pages_from hv hv' hw
  rw [PTE2PA_entry hpage (hperm v).bits] at hmem
  exact ⟨page, hpage, (hmp v hv').trans hw, (hsame page hmem).trans hrow⟩

end

/-- A new page is filled and mapped, or given back. -/
theorem add_page {page : Nat} {m₁ : Mem} {p : Word} {r : Nat → Word} (hp' : perm (lo + n) = p) (hr : row (lo + n) = r)
    (hperm : ∀ v, Flags (perm v)) (hva : (lo + n) * PGSIZE < MAXVA) (hfree : mp₀ (lo + n) = none)
    (h : Extended L B m m' root lo n perm row T mp₀ mp) (hcost : Thrifty m m' root n T)
    (hp : Pool L m₁ (page ::ₘ (T + (pages mp lo n + B)))) (hsame : SameOn (T + (pages mp lo n + B)) m'.word m₁.word)
    (hfails : m'.fails = [] → m₁.fails = []) :
    wp (do
        let r ← mappages root ((lo + n) * PGSIZE) PGSIZE page p
        if r ≠ 0 then do
          kfree L page
          return false
        else return true) (fun ok m'' => ∃ T' mp',
      (ok = true ∧ Extended L B m m'' root lo (n + 1) perm row T' mp₀ mp' ∧ Thrifty m m'' root (n + 1) T') ∨
      (ok = false ∧ Extended L B m m'' root lo n perm row T' mp₀ mp ∧
        Short L m (sv39.tables m.word 2 root + B) (3 * (n + 1)))) never (m₁.setPage page r) := by
  subst hp' hr
  obtain ⟨hp₂, hsame₂⟩ := fill_page hp hsame (row (lo + n))
  have hpage : PageAddr page := hp.pageAddr (mem_cons_self _ _)
  have hp₂ : Pool L (m₁.setPage page (row (lo + n))) (T + ({page} + (pages mp lo n + B))) := by
    apply hp₂.of_eq
    rw [← singleton_add]
    abel
  have hnone : mp (lo + n) = none := (h.old (lo + n) (by omega)).trans hfree
  apply wp_seq (mappages_spec hva (h.table.congr hsame₂.left) hp₂ hnone)
  intro r m₃ hmapped
  cases hmapped with
  | done T' ext =>
    rw [if_neg (by decide), wp_pure]
    have hlow : ∀ v, v < lo + n → update mp (lo + n) (some (PA2PTE page ||| perm (lo + n) ||| PTE_V)) v = mp v :=
      fun v hv => update_of_ne (by omega) ..
    have hcard := ext.card
    have hcost' : Thrifty m m₃ root (n + 1) T' :=
      ⟨by have := hcost.card; omega, fun hnil => ext.fails (hfails (hcost.fails hnil))⟩
    refine ⟨T', _, .inl ⟨rfl, ⟨ext.table, ?_, ?_, ?_, ?_, h.grew.trans ext.grew⟩, hcost'⟩⟩
    · apply ext.pool.of_eq
      rw [pages_back, pages_congr fun u _ hu => hlow u hu, update_self, pageOf, PTE2PA_entry hpage (hperm _).bits]
      abel
    · exact h.same.trans (hsame₂.right.right.trans ext.same.right.right)
    · intro v hv hv'
      by_cases hlast : v = lo + n
      · refine ⟨page, hpage, by rw [hlast, update_self], ?_⟩
        rw [ext.same.left page (mem_singleton_self page), Mem.setPage_self, hlast]
      · exact h.new_same hperm hlow (hsame₂.right.left.trans ext.same.right.left) v hv (by omega)
    · intro v hv
      rw [update_of_ne (by omega)]
      exact h.old v (by omega)
  | failed T' ext short =>
    rw [if_pos (by decide)]
    have hp₃ : Pool L m₃ (page ::ₘ (T' + (pages mp lo n + B))) := by
      apply ext.pool.of_eq
      rw [← singleton_add]
      abel
    apply wp_seq (kfree_spec hp₃)
    rintro _ m₄ ⟨hp₄, hsame₄⟩
    refine ⟨T', mp, .inr ⟨rfl, ⟨ext.table.congr hsame₄.left, hp₄, ?_, ?_, h.old, h.grew.trans ext.grew⟩,
      hcost.short hfails short ?_⟩⟩
    · exact h.same.trans (hsame₂.right.right.trans (ext.same.right.right.trans hsame₄.right.right))
    · exact h.new_same hperm (fun _ _ => rfl) (hsame₂.right.left.trans (ext.same.right.left.trans hsame₄.right.left))
    · rw [card_add, card_add, card_add, card_singleton, card_pages (h.leaves hperm)]
      omega

/-- No page was to be had: all is as it was. -/
theorem unchanged (hperm : ∀ v, Flags (perm v)) (h : Extended L B m m' root lo n perm row T mp₀ mp) (hcost : Thrifty m m' root n T)
    {m₁ : Mem} (hp : Pool L m₁ (T + (pages mp lo n + B))) (hsame : m₁.word = m'.word)
    (hshort : Short L m' (T + (pages mp lo n + B)) 1) : Extended L B m m₁ root lo n perm row T mp₀ mp ∧
      Short L m (sv39.tables m.word 2 root + B) (3 * (n + 1)) := by
  refine ⟨⟨hsame ▸ h.table, hp, hsame ▸ h.same, ?_, h.old, h.grew⟩, hcost.short id hshort ?_⟩
  · rw [hsame]
    exact h.new
  · rw [card_add, card_add, card_pages (h.leaves hperm)]
    omega

/-- The new pages are unmapped and given back. -/
theorem unmap (hperm : ∀ v, Flags (perm v)) (hva : (lo + n) * PGSIZE ≤ MAXVA) (hfree : ∀ v, lo ≤ v → v < lo + n → mp₀ v = none)
    (h : Extended L B m m' root lo n perm row T mp₀ mp) :
    wp (uvmunmap L root (lo * PGSIZE) n true) (fun _ m'' => Kept L B m m'' root T mp₀) never m' := by
  have hback : unmapRange mp lo n = mp₀ := by
    funext v
    unfold unmapRange
    split
    next hv => exact (hfree v hv.1 hv.2).symm
    next hv => exact h.old v hv
  apply wp_mono (uvmunmap_spec hva h.table (h.leaves hperm) h.pool) _ fun _ _ => id
  intro _ m'' hkept
  rw [hback] at hkept
  exact ⟨hkept.table, hkept.pool, h.same.trans hkept.same⟩

end Extended

/-- The next page numbers have no entry, as far as the frames can reach. -/
def Vacant (mp₀ : Nat → Option Word) (lo total : Nat) : Prop :=
  ∀ i, i < total → i ≤ 32768 → (lo + i) * PGSIZE < MAXVA ∧ mp₀ (lo + i) = none

namespace Vacant

variable {total : Nat}

theorem bound (h : Vacant mp₀ lo total) (hlo : lo * PGSIZE ≤ MAXVA) (hn : n ≤ total)
    (hle : n ≤ 32768) : (lo + n) * PGSIZE ≤ MAXVA := by
  cases n with
  | zero => exact hlo
  | succ n =>
    have hlast : (lo + n) * 4096 < 0x4000000000 := (h n (by omega) (by omega)).1
    show (lo + (n + 1)) * 4096 ≤ 0x4000000000
    omega

theorem none (h : Vacant mp₀ lo total) (hn : n ≤ total) (hle : n ≤ 32768) {v : Nat} (hv : lo ≤ v)
    (hv' : v < lo + n) : mp₀ v = none := by
  have := (h (v - lo) (by omega) (by omega)).2
  rwa [Nat.add_sub_cancel' hv] at this

end Vacant

/-! ## `uvmalloc` -/

/-- What `uvmalloc` gives to its pages. -/
def userPerm : Word := PTE_W ||| PTE_X ||| PTE_R ||| PTE_U

theorem userPerm_flags : Flags userPerm := ⟨by decide, by decide⟩

/-- A page filled with 0. -/
def zeroRow : Nat → Word := fun _ => 0

theorem zeroRow_eq : (fun _ => 0 * 0x0101010101010101 : Nat → Word) = zeroRow := by
  funext _
  exact BitVec.zero_mul

theorem allocPage_grown (hva : (lo + n) * PGSIZE < MAXVA) (hfree : mp₀ (lo + n) = none)
    (h : Extended L B m m' root lo n (fun _ => userPerm) (fun _ => zeroRow) T mp₀ mp) (hcost : Thrifty m m' root n T) :
    wp (allocPage L root ((lo + n) * PGSIZE)) (fun ok m'' => ∃ T' mp',
      (ok = true ∧ Extended L B m m'' root lo (n + 1) (fun _ => userPerm) (fun _ => zeroRow) T' mp₀ mp' ∧
        Thrifty m m'' root (n + 1) T') ∨
      (ok = false ∧ Extended L B m m'' root lo n (fun _ => userPerm) (fun _ => zeroRow) T' mp₀ mp ∧
        Short L m (sv39.tables m.word 2 root + B) (3 * (n + 1)))) never m' := by
  unfold allocPage
  apply wp_seq (kalloc_spec h.pool)
  intro page m₁ halloc
  cases halloc with
  | failed pool same short _ =>
    rw [if_pos rfl, wp_pure]
    exact ⟨T, mp, .inr ⟨rfl, h.unchanged (fun _ => userPerm_flags) hcost pool same short⟩⟩
  | page page pool same fails =>
    rw [if_neg (pool.ne_zero (mem_cons_self _ _)), wp_bind, memset, wp_change, zeroRow_eq]
    exact h.add_page rfl rfl (fun _ => userPerm_flags) hva hfree hcost pool same fails

/-- What a failed `uvmalloc` does. -/
theorem Extended.dealloc (hperm : ∀ v, Flags (perm v)) (hva : (lo + n) * PGSIZE ≤ MAXVA)
    (hfree : ∀ v, lo ≤ v → v < lo + n → mp₀ v = none)
    (h : Extended L B m m' root lo n perm row T mp₀ mp) :
    wp (uvmdealloc L root ((lo + n) * PGSIZE) (lo * PGSIZE)) (fun _ m'' => Kept L B m m'' root T mp₀) never m' := by
  have hva' := hva
  rw [PGSIZE_eq, MAXVA_eq] at hva'
  have hup : PGROUNDUP ((lo + n) * PGSIZE) = (lo + n) * PGSIZE := by
    rw [PGROUNDUP_npages (by rw [PGSIZE_eq]; omega), npages_mul]
  have hlo : PGROUNDUP (lo * PGSIZE) = lo * PGSIZE := by
    rw [PGROUNDUP_npages (by rw [PGSIZE_eq]; omega), npages_mul]
  have hcount : ((lo + n) * PGSIZE - lo * PGSIZE) / PGSIZE = n := by
    rw [PGSIZE_eq]
    omega
  unfold uvmdealloc
  rw [hup, hlo, hcount]
  apply wp_ite
  · intro hle
    have hn : n = 0 := by
      rw [PGSIZE_eq] at hle
      omega
    subst hn
    have hpool := h.pool
    rw [pages_zero, zero_add] at hpool
    have hmp : mp = mp₀ := funext fun v => h.old v (by omega)
    exact ⟨hmp ▸ h.table, hpool, h.same⟩
  · intro hlt
    apply wp_seq (Q := fun _ m'' => Kept L B m m'' root T mp₀)
    · apply wp_onlyIf
      · intro _
        exact h.unmap hperm hva hfree
      · intro hge
        omega
    · intro _ m'' hkept
      exact hkept

theorem allocLoop_grown {newsz k total : Nat} (hk : n + k = total) (hlo : lo * PGSIZE ≤ MAXVA) (hvacant : Vacant mp₀ lo total)
    (h : Extended L B m m' root lo n (fun _ => userPerm) (fun _ => zeroRow) T mp₀ mp) (hcost : Thrifty m m' root n T) :
    wp (allocLoop L root (lo * PGSIZE) newsz k ((lo + n) * PGSIZE)) (fun r m'' => ∃ T',
      (r = newsz ∧ ∃ mp', Extended L B m m'' root lo total (fun _ => userPerm) (fun _ => zeroRow) T' mp₀ mp') ∨
      (r = 0 ∧ Kept L B m m'' root T' mp₀ ∧ sv39.tables m.word 2 root ≤ T' ∧
        Short L m (sv39.tables m.word 2 root + B) (3 * total))) never m' := by
  induction k generalizing n m' T mp with
  | zero =>
    rw [allocLoop, wp_pure]
    exact ⟨T, .inl ⟨rfl, mp, hk ▸ h⟩⟩
  | succ k ih =>
    have hle := h.n_le fun _ => userPerm_flags
    obtain ⟨hva, hfree⟩ := hvacant n (by omega) hle
    rw [allocLoop]
    apply wp_seq (allocPage_grown hva hfree h hcost)
    rintro ok m₁ ⟨T', mp', ⟨rfl, hgrown, hcost'⟩ | ⟨rfl, hgrown, hshort⟩⟩
    · rw [if_pos rfl, show (lo + n) * PGSIZE + PGSIZE = (lo + (n + 1)) * PGSIZE from (Nat.succ_mul (lo + n) PGSIZE).symm]
      exact ih (by omega) hgrown hcost'
    · rw [if_neg (by decide)]
      have hundo := hgrown.dealloc (fun _ => userPerm_flags) (hvacant.bound hlo (by omega) hle) fun v => hvacant.none (by omega) hle
      apply wp_seq hundo
      intro _ m₂ hkept
      exact ⟨T', .inr ⟨rfl, hkept, hgrown.grew, hshort.mono (by omega)⟩⟩

/-- `uvmalloc` adds the pages of its range, each zeroed, or leaves the entries as they are. -/
theorem uvmalloc_grown {oldsz newsz : Nat} (hle : oldsz ≤ newsz) (hmax : PGROUNDUP oldsz ≤ MAXVA) (hold : oldsz < 2 ^ 63)
    (hvacant : Vacant mp (npages oldsz) (npages newsz - npages oldsz)) (ht : PageTable m.word root T mp) (hp : Pool L m (T + B)) :
    wp (uvmalloc L root oldsz newsz) (fun r m' => ∃ T',
      (r = newsz ∧ ∃ mp', Extended L B m m' root (npages oldsz) (npages newsz - npages oldsz) (fun _ => userPerm) (fun _ => zeroRow)
        T' mp mp') ∨
      (r = 0 ∧ Kept L B m m' root T' mp ∧ sv39.tables m.word 2 root ≤ T' ∧
        Starved L m (3 * (npages newsz - npages oldsz)))) never m := by
  have hturns : pagesUpTo (npages oldsz * PGSIZE) newsz = npages newsz - npages oldsz := by
    unfold pagesUpTo npages
    rw [PGSIZE_eq]
    omega
  unfold uvmalloc
  rw [if_neg (by omega), PGROUNDUP_npages hold, hturns]
  rw [PGROUNDUP_npages hold] at hmax
  rw [show npages oldsz * PGSIZE = (npages oldsz + 0) * PGSIZE from rfl]
  apply wp_mono (allocLoop_grown (zero_add _) hmax hvacant (.start ht hp) (.start ht)) _ fun _ _ => id
  rintro r m' ⟨T', hgrown | ⟨rfl, hk, hgrew, hshort⟩⟩
  · exact ⟨T', .inl hgrown⟩
  · exact ⟨T', .inr ⟨rfl, hk, hgrew, hp.starved (ht.tables ▸ hshort)⟩⟩

end Xv6.Vm
