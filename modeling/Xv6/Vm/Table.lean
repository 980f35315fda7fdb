import Xv6.Vm.Alloc

/-!
# Page tables

`PageTable word root T mp`: the pages `T` hold a tree of three levels whose entries are `mp`, by
page number. The specifications are local: a function that works on one page table owns the pages
`T` of its tree, takes from and gives to the free list, and leaves alone the rows of the pages `B`
that are out for other purposes. Here are the functions that change one tree: `walk`, `mappages`,
`uvmunmap` and `freewalk`.
-/

namespace Xv6.Vm

open Prog Radix Function Multiset

/-- Page numbers of a page table, of which `walk` reaches the lower half. -/
def NPAGES : Nat := 512 ^ 3

/-- An entry above the last level is the address of a table and nothing else. -/
def IsNode (w : Word) : Prop := isLeaf w = false

structure PageTable (word : Nat → Nat → Word) (root : Nat) (T : Multiset Nat) (mp : Nat → Option Word) : Prop where
  nodes : sv39.Nodes word IsNode 2 root
  tables : sv39.tables word 2 root = T
  leaf : ∀ v, v < NPAGES → sv39.leaf word 2 root v = mp v

variable {L : Layout} {m m' : Mem} {B T : Multiset Nat} {root va : Nat} {mp : Nat → Option Word}
  {q : Pte} {Q : Option Pte → Mem → Prop} {E : Panic → Mem → Prop} {perm : Word} {pa : Nat}

namespace PageTable

variable {word word' : Nat → Nat → Word}

theorem congr (h : PageTable word root T mp) (hs : SameOn T word word') : PageTable word' root T mp := by
  have hs : SameOn (sv39.tables word 2 root) word word' := h.tables ▸ hs
  refine ⟨h.nodes.congr hs, (tables_congr hs).trans h.tables, fun v hv => ?_⟩
  rw [leaf_congr fan_pos hs]
  exact h.leaf v hv

/-- The word at a slot is the entry, or not valid. -/
theorem word_at (h : PageTable word root T mp) {v : Nat} (hv : v < NPAGES)
    (hq : sv39.slot word 2 root v = some q) :
    mp v = if sv39.valid (word q.1 q.2) then some (word q.1 q.2) else none := by
  rw [← h.leaf v hv]
  exact leaf_of_slot hq

theorem slot_of_some (h : PageTable word root T mp) {v : Nat} (hv : v < NPAGES) {w : Word} (hw : mp v = some w) :
    ∃ q : Pte, sv39.slot word 2 root v = some q ∧ word q.1 q.2 = w ∧ sv39.valid w = true := by
  rw [← h.leaf v hv] at hw
  obtain ⟨b, i, hs, hword, hvalid⟩ := slot_of_leaf hw
  exact ⟨(b, i), hs, hword, hvalid⟩

theorem slot_mem (h : PageTable word root T mp) {v : Nat} (hq : sv39.slot word 2 root v = some q) :
    q.1 ∈ T :=
  h.tables ▸ Radix.slot_mem fan_pos hq

/-- An entry is stored. -/
theorem set (h : PageTable word root T mp) (hT : T.Nodup) {v : Nat} (hv : v < NPAGES)
    (hq : sv39.slot word 2 root v = some q) (w : Word) :
    PageTable (Radix.set word q.1 q.2 w) root T
      (update mp v (if sv39.valid w then some w else none)) := by
  have hwritten := slotWritten fan_pos (h.tables.symm ▸ hT) hq w
  have hmod : ∀ u, u < NPAGES → u % sv39.fan ^ (2 + 1) = u := fun u hu => Nat.mod_eq_of_lt hu
  refine ⟨hwritten.nodes _ h.nodes, hwritten.tables.trans h.tables, fun u hu => ?_⟩
  by_cases huv : u = v
  · rw [huv, update_self]
    exact hwritten.leaf_self v rfl
  · rw [update_of_ne huv, ← h.leaf u hu]
    apply hwritten.leaf_of_ne
    rw [hmod u hu, hmod v hv]
    exact huv

theorem blank (h : sv39.Blank word root) : PageTable word root {root} fun _ => none :=
  ⟨nodes_blank h _ _, tables_blank h _, fun v _ => leaf_blank fan_pos h 2 v⟩

end PageTable

/-! ## `walk` -/

theorem va_lt_NPAGES (h : va < MAXVA) : va / PGSIZE < NPAGES := by
  rw [MAXVA_eq] at h
  rw [PGSIZE_eq, show NPAGES = 134217728 from rfl]
  omega

theorem wp_walkLevel_lookup {l a : Nat} :
    wp (walkLevel va false l a) Q E m ↔ Q (sv39.slot m.word l a (va / PGSIZE)) m := by
  induction l generalizing a with
  | zero =>
    have : PX 0 va = va / PGSIZE % sv39.fan := by
      rw [PX_eq_digit, digit, Nat.pow_zero, Nat.div_one]
    rw [walkLevel, wp_pure, slot, this]
  | succ l ih =>
    rw [walkLevel, wp_bind, getPte, wp_read, slot, ← PX_eq_digit]
    show wp (if m.word a (PX (l + 1) va) &&& PTE_V ≠ 0 then _ else _) Q E m ↔ _
    by_cases hv : sv39.valid (m.word a (PX (l + 1) va)) = true
    · rw [if_pos ((valid_iff _).mp hv), if_pos hv]
      exact ih
    · rw [if_neg (fun h => hv ((valid_iff _).mpr h)), if_neg hv, if_pos rfl, wp_pure]

/-- Without `alloc`, `walk` finds the slot. -/
theorem wp_walk_lookup (hva : va < MAXVA) :
    wp (walk root va false) Q E m ↔ Q (sv39.slot m.word 2 root (va / PGSIZE)) m := by
  unfold walk
  rw [if_neg (Nat.not_le.mpr hva)]
  exact wp_walkLevel_lookup

/-- What `walk` does to the tree below a table when it may allocate, with at most `k` new pages. -/
structure Walked (L : Layout) (B : Multiset Nat) (v k : Nat) (m m' : Mem) (l a : Nat) (r : Option Pte) : Prop where
  nodes : sv39.Nodes m'.word IsNode l a
  pool : Pool L m' (sv39.tables m'.word l a + B)
  same : SameOn B m.word m'.word
  leaf : ∀ u, sv39.leaf m'.word l a u = sv39.leaf m.word l a u
  slot : ∀ q, r = some q → sv39.slot m'.word l a v = some q
  card : (sv39.tables m'.word l a).card ≤ (sv39.tables m.word l a).card + k
  short : r = none → Short L m (sv39.tables m.word l a + B) k
  fails : m.fails = [] → m'.fails = []
  grew : sv39.tables m.word l a ≤ sv39.tables m'.word l a

namespace Walked

variable {v k l a : Nat} {r : Option Pte}

theorem mono {k' : Nat} (h : Walked L B v k m m' l a r) (hk : k ≤ k') : Walked L B v k' m m' l a r :=
  ⟨h.nodes, h.pool, h.same, h.leaf, h.slot, h.card.trans (by omega), fun hr => (h.short hr).mono hk, h.fails, h.grew⟩

/-- From the tree below a word of a table to the tree at the table. -/
theorem lift {d : Nat} (hd : sv39.digit (l + 1) v = d) (hn : sv39.Nodes m.word IsNode (l + 1) a)
    (hv : sv39.valid (m.word a d) = true)
    (h : Walked L (a ::ₘ sv39.siblings m.word l a d + B) v k m m' l (sv39.addr (m.word a d)) r) :
    Walked L B v k m m' (l + 1) a r := by
  have hlt : d < sv39.fan := hd ▸ digit_lt fan_pos (l + 1) v
  have hbes : Beside sv39 m.word m'.word l a d := beside_of_sameOn h.same.left
  have hrow : m'.word a = m.word a := h.same.left a (mem_cons_self _ _)
  have htab : sv39.tables m.word (l + 1) a =
      sv39.tables m.word l (sv39.addr (m.word a d)) + (a ::ₘ sv39.siblings m.word l a d) := by
    rw [tables_split hlt, under_of_valid hv]
  have htab' : sv39.tables m'.word (l + 1) a =
      sv39.tables m'.word l (sv39.addr (m.word a d)) + (a ::ₘ sv39.siblings m.word l a d) := by
    rw [hbes.tables_eq hlt, hrow, under_of_valid hv]
  refine ⟨?_, ?_, h.same.right, fun u => ?_, fun q hq => ?_, ?_, fun hr => ?_, h.fails, ?_⟩
  · apply hbes.nodes hn
    intro _
    rw [hrow]
    exact ⟨(hn.child hlt hv).1, h.nodes⟩
  · rw [htab', add_assoc]
    exact h.pool
  · by_cases hu : sv39.digit (l + 1) u = d
    · rw [leaf_succ, leaf_succ, hrow, hu, if_pos hv, if_pos hv]
      exact h.leaf u
    · exact hbes.leaf_eq fan_pos hu
  · rw [Radix.slot, hrow, hd, if_pos hv]
    exact h.slot q hq
  · rw [htab, htab', card_add, card_add]
    have := h.card
    omega
  · rw [htab, add_assoc]
    exact h.short hr
  · rw [htab, htab']
    exact Multiset.add_le_add_right h.grew

/-- After a first step that added a blank table. -/
theorem after_link {m₁ : Mem} {page : Nat} (h : Walked L B v k m₁ m' l a r)
    (htab : sv39.tables m₁.word l a = page ::ₘ sv39.tables m.word l a)
    (hleaf : ∀ u, sv39.leaf m₁.word l a u = sv39.leaf m.word l a u) (hsame : SameOn B m.word m₁.word)
    (hfails : m.fails = [] → m₁.fails = []) : Walked L B v (k + 1) m m' l a r := by
  refine ⟨h.nodes, h.pool, hsame.trans h.same, fun u => (h.leaf u).trans (hleaf u), h.slot, ?_, fun hr => ?_,
    fun hnil => h.fails (hfails hnil), ?_⟩
  · have hcard := h.card
    rw [htab, card_cons] at hcard
    omega
  · rcases h.short hr with hne | hlt
    · exact .inl fun hnil => hne (hfails hnil)
    · rw [htab, card_add, card_cons] at hlt
      refine .inr ?_
      rw [card_add]
      omega
  · apply le_trans _ h.grew
    rw [htab]
    exact le_cons_self _ _

end Walked

/-- The memory in which `walk` has hung a new page below word `d` of a table. -/
def linked (m : Mem) (a d page : Nat) : Mem :=
  (m.setPage page fun _ => 0 * 0x0101010101010101).setWord a d (PA2PTE page ||| PTE_V)

/-- `m₁` is the memory after `kalloc` returned the page. -/
theorem linked_spec {m₁ : Mem} {l a d page : Nat} (hd : d < sv39.fan) (hn : sv39.Nodes m.word IsNode (l + 1) a)
    (hv : sv39.valid (m.word a d) = false) (hp : Pool L m₁ (page ::ₘ (sv39.tables m.word (l + 1) a + B)))
    (hsame : SameOn (sv39.tables m.word (l + 1) a + B) m.word m₁.word) :
    sv39.tables (linked m₁ a d page).word (l + 1) a = page ::ₘ sv39.tables m.word (l + 1) a ∧
      (∀ u, sv39.leaf (linked m₁ a d page).word (l + 1) a u = sv39.leaf m.word (l + 1) a u) ∧
      sv39.Nodes (linked m₁ a d page).word IsNode (l + 1) a ∧
      Pool L (linked m₁ a d page) (page ::ₘ (sv39.tables m.word (l + 1) a + B)) ∧
      SameOn B m.word (linked m₁ a d page).word := by
  have hpage := hp.notMem_of_cons
  have hzeroed : SameOn (sv39.tables m.word (l + 1) a + B) m.word
      (m₁.setPage page fun _ => 0 * 0x0101010101010101).word := hsame.trans (sameOn_setPage hpage)
  have htab := tables_congr hzeroed.left
  have hrow := hzeroed a (mem_add.mpr (.inl (self_mem_tables _ a)))
  have hnodup : (sv39.tables m.word (l + 1) a).Nodup :=
    (nodup_add.mp (nodup_cons.mp hp.nodup).2).1
  have hblank : sv39.Blank (m₁.setPage page fun _ => 0 * 0x0101010101010101).word page := by
    intro j _
    rw [Mem.setPage_self]
    decide
  obtain ⟨htables, hleaf, hnodes⟩ := link (w := PA2PTE page ||| PTE_V) fan_pos hd (htab.symm ▸ hnodup) (hrow.symm ▸ hv)
    (htab.symm ▸ fun h => hpage (mem_add.mpr (.inl h))) hblank (valid_node page)
    (PTE2PA_node (hp.pageAddr (mem_cons_self _ _)))
  refine ⟨htables.trans (by rw [htab]), fun u => (hleaf u).trans (leaf_congr fan_pos hzeroed.left u),
    hnodes _ (isLeaf_node page) (hn.congr hzeroed.left), ?_, ?_⟩
  · apply (hp.setPage (mem_cons_self _ _) _).setWord
    exact mem_cons_of_mem (mem_add.mpr (.inl (self_mem_tables _ a)))
  · apply hzeroed.right.trans
    apply sameOn_set
    intro hB
    exact disjoint_left.mp (nodup_add.mp (nodup_cons.mp hp.nodup).2).2.2
      (self_mem_tables _ a) hB

theorem walkLevel_spec {l a : Nat} (hn : sv39.Nodes m.word IsNode l a) (hp : Pool L m (sv39.tables m.word l a + B)) :
    wp (walkLevel va true l a) (fun r m' => Walked L B (va / PGSIZE) l m m' l a r) never m := by
  induction l generalizing a m B with
  | zero =>
    rw [walkLevel, wp_pure]
    refine ⟨hn, hp, .refl _ _, fun _ => rfl, fun q hq => ?_, Nat.le_refl _, (fun hr => by cases hr), id, le_rfl⟩
    have hdigit : PX 0 va = va / PGSIZE % sv39.fan := by
      rw [PX_eq_digit, digit, Nat.pow_zero, Nat.div_one]
    rw [slot, ← hdigit]
    exact hq
  | succ l ih =>
    -- once the word is valid, the rest of the loop works below it
    have hbelow : ∀ m₁ : Mem, sv39.Nodes m₁.word IsNode (l + 1) a → Pool L m₁ (sv39.tables m₁.word (l + 1) a + B) →
        sv39.valid (m₁.word a (PX (l + 1) va)) = true →
        wp (walkLevel va true l (PTE2PA (m₁.word a (PX (l + 1) va))))
          (fun r m' => Walked L B (va / PGSIZE) l m₁ m' (l + 1) a r) never m₁ := by
      intro m₁ hn₁ hp₁ hv
      rw [tables_split (PX_lt _ _), under_of_valid hv, add_assoc] at hp₁
      apply wp_mono (ih (hn₁.child (PX_lt _ _) hv).2 hp₁) _ fun _ _ => id
      intro r m' h
      exact Walked.lift (PX_eq_digit (l + 1) va).symm hn₁ hv h
    rw [walkLevel, wp_bind, getPte, wp_read]
    apply wp_ite
    · intro hv
      exact wp_mono (hbelow m hn hp ((valid_iff _).mpr hv)) (fun _ _ h => h.mono (Nat.le_succ l)) fun _ _ => id
    · intro hv
      have hv := (not_valid_iff _).mpr (not_not.mp hv)
      rw [if_neg (by decide)]
      apply wp_seq (kalloc_spec hp)
      intro page m₁ halloc
      cases halloc with
      | failed pool same short fails =>
        rw [if_pos rfl, wp_pure]
        rw [← same] at hn pool
        refine ⟨hn, pool, fun _ _ => by rw [same], fun _ => by rw [same], (fun q hq => by cases hq), ?_,
          fun _ => short.mono (by omega), fails, by rw [same]⟩
        rw [same]
        omega
      | page page pool same fails =>
        rw [if_neg (pool.ne_zero (mem_cons_self _ _)), memset, setPte]
        simp only [wp_bind, wp_change]
        obtain ⟨htables, hleaf, hnodes, hpool, hsame⟩ := linked_spec (PX_lt (l + 1) va) hn hv pool same
        have hword : (linked m₁ a (PX (l + 1) va) page).word a (PX (l + 1) va) = PA2PTE page ||| PTE_V := set_self ..
        have hrest := hbelow (linked m₁ a (PX (l + 1) va) page) hnodes (by rw [htables, cons_add]; exact hpool)
          (hword ▸ valid_node page)
        rw [hword, PTE2PA_node (pool.pageAddr (mem_cons_self _ _))] at hrest
        exact wp_mono hrest (fun _ _ h => h.after_link htables hleaf hsame fails) fun _ _ => id

/-! ## A tree that may have grown -/

/-- The tree at `root` is now `mp`, in the pages `T`, and the rows of `B` are as they were. -/
structure Kept (L : Layout) (B : Multiset Nat) (m m' : Mem) (root : Nat) (T : Multiset Nat)
    (mp : Nat → Option Word) : Prop where
  table : PageTable m'.word root T mp
  pool : Pool L m' (T + B)
  same : SameOn B m.word m'.word

/-- From `m` to `m'` the tree has got at most `k` tables and lost none, and its entries are now
`mp`. -/
structure Extends (L : Layout) (B : Multiset Nat) (k : Nat) (m m' : Mem) (root : Nat) (T T' : Multiset Nat)
    (mp : Nat → Option Word) : Prop extends Kept L B m m' root T' mp where
  card : T'.card ≤ T.card + k
  fails : m.fails = [] → m'.fails = []
  grew : T ≤ T'

namespace Kept

variable {mp' : Nat → Option Word} {m'' : Mem} {T' : Multiset Nat}

theorem trans (h : Kept L B m m' root T mp) (h' : Kept L B m' m'' root T' mp') : Kept L B m m'' root T' mp' :=
  ⟨h'.table, h'.pool, h.same.trans h'.same⟩

/-- An entry is stored. -/
theorem setPte (h : Kept L B m m' root T mp) {v : Nat} (hv : v < NPAGES)
    (hq : sv39.slot m'.word 2 root v = some q) (w : Word) :
    Kept L B m (m'.setWord q.1 q.2 w) root T (update mp v (if sv39.valid w then some w else none)) := by
  have hmem := h.table.slot_mem hq
  have hnodup := (nodup_add.mp h.pool.nodup).1
  exact ⟨h.table.set hnodup hv hq w, h.pool.setWord (mem_add.mpr (.inl hmem)) q.2 w,
    h.same.trans (sameOn_set (h.pool.disjoint hmem))⟩

end Kept

namespace Extends

variable {k k' : Nat} {T' T'' : Multiset Nat} {mp' : Nat → Option Word} {m'' : Mem}

theorem trans (h : Extends L B k m m' root T T' mp) (h' : Extends L B k' m' m'' root T' T'' mp') :
    Extends L B (k + k') m m'' root T T'' mp' :=
  ⟨h.toKept.trans h'.toKept, h'.card.trans (by have := h.card; omega), fun hnil => h'.fails (h.fails hnil),
    h.grew.trans h'.grew⟩

theorem mono (h : Extends L B k m m' root T T' mp) (hk : k ≤ k') : Extends L B k' m m' root T T' mp :=
  ⟨h.toKept, h.card.trans (by omega), h.fails, h.grew⟩

/-- A lack of pages after a growth is a lack before it. -/
theorem short (h : Extends L B k m m' root T T' mp) (hs : Short L m' (T' + B) k') : Short L m (T + B) (k + k') := by
  rcases hs with hne | hlt
  · exact .inl fun hnil => hne (h.fails hnil)
  · refine .inr ?_
    have := h.card
    rw [card_add] at hlt ⊢
    omega

end Extends

theorem walk_spec (hva : va < MAXVA) (ht : PageTable m.word root T mp) (hp : Pool L m (T + B)) :
    wp (walk root va true) (fun r m' => ∃ T', Extends L B 2 m m' root T T' mp ∧
      (∀ q, r = some q → sv39.slot m'.word 2 root (va / PGSIZE) = some q) ∧
      (r = none → Short L m (T + B) 2)) never m := by
  have htab := ht.tables
  subst htab
  unfold walk
  rw [if_neg (Nat.not_le.mpr hva)]
  apply wp_mono (walkLevel_spec ht.nodes hp) _ fun _ _ => id
  intro r m' h
  refine ⟨_, ⟨⟨⟨h.nodes, rfl, fun v hv => ?_⟩, h.pool, h.same⟩, h.card, h.fails, h.grew⟩, h.slot, h.short⟩
  rw [h.leaf v]
  exact ht.leaf v hv

/-- The number of tables that may be missing for a page. -/
def missing (word : Nat → Nat → Word) (root v : Nat) : Nat := if (sv39.slot word 2 root v).isSome then 0 else 2

theorem missing_le (word : Nat → Nat → Word) (root v : Nat) : missing word root v ≤ 2 := by
  unfold missing
  split <;> omega

theorem missing_of_slot {word : Nat → Nat → Word} {v : Nat} (h : sv39.slot word 2 root v = some q) :
    missing word root v = 0 := by
  unfold missing
  rw [h]
  rfl

theorem wp_walkLevel_found {l a : Nat} (h : sv39.slot m.word l a (va / PGSIZE) = some q) :
    wp (walkLevel va true l a) Q E m ↔ Q (some q) m := by
  induction l generalizing a with
  | zero =>
    have hdigit : PX 0 va = va / PGSIZE % sv39.fan := by
      rw [PX_eq_digit, digit, Nat.pow_zero, Nat.div_one]
    rw [slot, ← hdigit] at h
    rw [walkLevel, wp_pure, h]
  | succ l ih =>
    rw [slot, ← PX_eq_digit] at h
    split at h
    next hv =>
      rw [walkLevel, wp_bind, getPte, wp_read]
      show wp (if m.word a (PX (l + 1) va) &&& PTE_V ≠ 0 then _ else _) Q E m ↔ _
      rw [if_pos ((valid_iff _).mp hv)]
      exact ih h
    next => cases h

/-- `walk` adds no table when none is missing. -/
theorem walk_missing_spec (hva : va < MAXVA) (ht : PageTable m.word root T mp) (hp : Pool L m (T + B)) :
    wp (walk root va true) (fun r m' => ∃ T', Extends L B (missing m.word root (va / PGSIZE)) m m' root T T' mp ∧
      (∀ q, r = some q → sv39.slot m'.word 2 root (va / PGSIZE) = some q) ∧
      (r = none → Short L m (T + B) (missing m.word root (va / PGSIZE)))) never m := by
  cases hslot : sv39.slot m.word 2 root (va / PGSIZE) with
  | none =>
    have hmissing : missing m.word root (va / PGSIZE) = 2 := by
      unfold missing
      rw [hslot]
      rfl
    rw [hmissing]
    exact walk_spec hva ht hp
  | some q =>
    rw [missing_of_slot hslot]
    unfold walk
    rw [if_neg (Nat.not_le.mpr hva), wp_walkLevel_found hslot]
    refine ⟨T, ⟨⟨ht, hp, .refl _ _⟩, Nat.le_refl _, id, le_rfl⟩, fun q' hq' => ?_, (fun hr => by cases hr)⟩
    cases hq'
    exact hslot

/-! ## `mappages` -/

/-- The entries after `k` pages from page number `v` have been mapped to the memory at `pa`. -/
def mapRange (mp : Nat → Option Word) (v pa : Nat) (perm : Word) (k : Nat) : Nat → Option Word := fun u =>
  if v ≤ u ∧ u < v + k then some (PA2PTE (pa + (u - v) * PGSIZE) ||| perm ||| PTE_V) else mp u

theorem mapRange_zero (mp : Nat → Option Word) (v pa : Nat) (perm : Word) : mapRange mp v pa perm 0 = mp := by
  funext u
  exact if_neg (by omega)

theorem mapRange_one (mp : Nat → Option Word) (v pa : Nat) (perm : Word) :
    mapRange mp v pa perm 1 = update mp v (some (PA2PTE pa ||| perm ||| PTE_V)) := by
  funext u
  unfold mapRange
  by_cases hu : u = v
  · rw [hu, if_pos (by omega), update_self, Nat.sub_self, Nat.zero_mul, Nat.add_zero]
  · rw [if_neg (by omega), update_of_ne hu]

theorem mapRange_succ (mp : Nat → Option Word) (v pa : Nat) (perm : Word) (k : Nat) :
    mapRange (mapRange mp v pa perm 1) (v + 1) (pa + PGSIZE) perm k = mapRange mp v pa perm (k + 1) := by
  funext u
  unfold mapRange
  by_cases hu : v + 1 ≤ u ∧ u < v + 1 + k
  · rw [if_pos hu, if_pos (by omega), PGSIZE_eq]
    congr 4
    omega
  · rw [if_neg hu]
    by_cases hu' : v ≤ u ∧ u < v + 1
    · rw [if_pos hu', if_pos (by omega)]
    · rw [if_neg hu', if_neg (by omega)]

/-- One turn of the loop: the page is mapped and the rest follows, or there was no table for it. -/
theorem mapLoop_turn {v : Nat} (hva : v * PGSIZE < MAXVA) (ht : PageTable m.word root T mp)
    (hp : Pool L m (T + B)) (hnone : mp v = none) {rest : Call Int} {Q : Int → Mem → Prop}
    (hrest : ∀ T' m' q, Extends L B (missing m.word root v) m m' root T T'
      (mapRange mp v pa perm 1) → sv39.slot m'.word 2 root v = some q → wp rest Q never m')
    (hfail : ∀ T' m', Extends L B (missing m.word root v) m m' root T T' mp → Short L m (T + B) (missing m.word root v) → Q (-1) m') :
    wp (do
      match ← walk root (v * PGSIZE) true with
      | none => return -1
      | some pte =>
        let w ← getPte pte
        if w &&& PTE_V ≠ 0 then stop .remap
        else
          setPte pte (PA2PTE pa ||| perm ||| PTE_V)
          rest) Q never m := by
  have hpage : v * PGSIZE / PGSIZE = v := Nat.mul_div_cancel v (by decide)
  have hv : v < NPAGES := hpage ▸ va_lt_NPAGES hva
  apply wp_seq (walk_missing_spec hva ht hp)
  rintro r m' ⟨T', hext, hslot, hshort⟩
  rw [hpage] at hext hslot hshort
  cases r with
  | none => exact hfail T' m' hext (hshort rfl)
  | some q =>
    have hq := hslot q rfl
    have hinvalid : sv39.valid (m'.word q.1 q.2) = false := by
      have hword := hext.table.word_at hv hq
      rw [hnone] at hword
      by_contra hvalid
      rw [Bool.not_eq_false] at hvalid
      rw [if_pos hvalid] at hword
      cases hword
    simp only [wp_bind, getPte, wp_read, setPte]
    rw [if_neg (not_not.mpr ((not_valid_iff _).mp hinvalid)), wp_bind, wp_change]
    have hset := hext.toKept.setPte hv hq (PA2PTE pa ||| perm ||| PTE_V)
    rw [if_pos (valid_entry pa perm), ← mapRange_one] at hset
    have hnodup : (sv39.tables m'.word 2 root).Nodup := by
      rw [hext.table.tables]
      exact (nodup_add.mp hext.pool.nodup).1
    have hslot' := (slotWritten fan_pos hnodup hq (PA2PTE pa ||| perm ||| PTE_V)).slot v
    exact hrest T' _ q ⟨hset, hext.card, hext.fails, hext.grew⟩ (hslot'.trans hq)

/-- The tables that are missing for a page and `n` pages after it: those for the first one, and two
for each block of 512 pages that the others reach. -/
def missingFor (word : Nat → Nat → Word) (root v n : Nat) : Nat := missing word root v + 2 * ((v + n) / 512 - v / 512)

theorem missingFor_succ {word word' : Nat → Nat → Word} {v n : Nat}
    (h : sv39.slot word' 2 root v = some q) :
    missing word root v + missingFor word' root (v + 1) n ≤ missingFor word root v (n + 1) := by
  have hle := missing_le word' root (v + 1)
  have hn : (v + 1) / 512 ≤ (v + 1 + n) / 512 := Nat.div_le_div_right (by omega)
  unfold missingFor
  rw [show v + (n + 1) = v + 1 + n by omega]
  by_cases hblock : v / 512 = (v + 1) / 512
  · obtain ⟨q', hq'⟩ := slot_of_div_eq (c := sv39) hblock h
    rw [missing_of_slot hq']
    omega
  · omega

theorem mapLoop_spec {n v : Nat} (hva : (v + n) * PGSIZE < MAXVA)
    (ht : PageTable m.word root T mp) (hp : Pool L m (T + B))
    (hfree : ∀ u, v ≤ u → u ≤ v + n → mp u = none) :
    wp (mapLoop root perm n (v * PGSIZE) pa) (fun r m' => ∃ T' k,
      Extends L B (missingFor m.word root v n) m m' root T T' (mapRange mp v pa perm k) ∧
      (r = 0 ∧ k = n + 1 ∨ r = -1 ∧ k ≤ n ∧ Short L m (T + B) (missingFor m.word root v n))) never m := by
  induction n generalizing v pa m T mp with
  | zero =>
    have hfor : missingFor m.word root v 0 = missing m.word root v := by
      unfold missingFor
      rw [Nat.add_zero, Nat.sub_self, Nat.mul_zero, Nat.add_zero]
    rw [hfor]
    unfold mapLoop
    apply mapLoop_turn hva ht hp (hfree v (by omega) (by omega))
    · intro T' m' q hext _
      exact ⟨T', 1, hext, .inl ⟨rfl, rfl⟩⟩
    · intro T' m' hext hshort
      refine ⟨T', 0, ?_, .inr ⟨rfl, Nat.le_refl 0, hshort⟩⟩
      rw [mapRange_zero]
      exact hext
  | succ n ih =>
    have hlt : v * PGSIZE < MAXVA := Nat.lt_of_le_of_lt (Nat.mul_le_mul_right _ (by omega)) hva
    unfold mapLoop
    apply mapLoop_turn hlt ht hp (hfree v (by omega) (by omega))
    · intro T' m' q hext hq
      have hnext : ∀ u, v + 1 ≤ u → u ≤ v + 1 + n → mapRange mp v pa perm 1 u = none := by
        intro u hu hu'
        rw [mapRange, if_neg (by omega)]
        exact hfree u (by omega) (by omega)
      have hmissing : missing m.word root v + missingFor m'.word root (v + 1) n ≤ missingFor m.word root v (n + 1) :=
        missingFor_succ hq
      rw [show v * PGSIZE + PGSIZE = (v + 1) * PGSIZE from (Nat.succ_mul v PGSIZE).symm]
      apply wp_mono (ih (by rw [Nat.add_right_comm]; exact hva) hext.table hext.pool hnext) _ fun _ _ => id
      rintro r m'' ⟨T'', k, hext', hr⟩
      rw [mapRange_succ] at hext'
      refine ⟨T'', k + 1, (hext.trans hext').mono hmissing, ?_⟩
      rcases hr with ⟨rfl, rfl⟩ | ⟨rfl, hk, hshort⟩
      · exact .inl ⟨rfl, rfl⟩
      · refine .inr ⟨rfl, by omega, ?_⟩
        exact (hext.short hshort).mono hmissing
    · intro T' m' hext hshort
      have hle : missing m.word root v ≤ missingFor m.word root v (n + 1) := Nat.le_add_right ..
      refine ⟨T', 0, ?_, .inr ⟨rfl, Nat.zero_le _, hshort.mono hle⟩⟩
      rw [mapRange_zero]
      exact hext.mono hle

/-- `mappages` of one page at a page boundary. -/
theorem mappages_page {v : Nat} (hva : v * PGSIZE < MAXVA) :
    mappages root (v * PGSIZE) PGSIZE pa perm = mapLoop root perm 0 (v * PGSIZE) pa := by
  rw [MAXVA_eq, PGSIZE_eq] at hva
  unfold mappages
  rw [PGSIZE_eq, PGROUNDDOWN_eq, PGROUNDDOWN_eq, Nat.mul_div_cancel v (by decide)]
  congr 1
  omega

/-- What `mappages` of one page leaves. -/
inductive Mapped (L : Layout) (B : Multiset Nat) (m m' : Mem) (root : Nat) (T : Multiset Nat) (mp : Nat → Option Word)
    (v pa : Nat) (perm : Word) : Int → Prop
  | done (T' : Multiset Nat)
    (ext : Extends L B 2 m m' root T T' (update mp v (some (PA2PTE pa ||| perm ||| PTE_V)))) :
    Mapped L B m m' root T mp v pa perm 0
  | failed (T' : Multiset Nat) (ext : Extends L B 2 m m' root T T' mp) (short : Short L m (T + B) 2) :
    Mapped L B m m' root T mp v pa perm (-1)

theorem mappages_spec {v : Nat} (hva : v * PGSIZE < MAXVA) (ht : PageTable m.word root T mp)
    (hp : Pool L m (T + B)) (hfree : mp v = none) :
    wp (mappages root (v * PGSIZE) PGSIZE pa perm) (fun r m' => Mapped L B m m' root T mp v pa perm r) never m := by
  rw [mappages_page hva]
  unfold mapLoop
  apply mapLoop_turn hva ht hp hfree
  · intro T' m' q hext _
    rw [mapRange_one] at hext
    exact .done T' (hext.mono (missing_le ..))
  · intro T' m' hext hshort
    exact .failed T' (hext.mono (missing_le ..)) (hshort.mono (missing_le ..))

/-- The turns of `mappages`: the pages from that of `va` to that of the last byte. -/
theorem mappages_range {va size : Nat} (hsize : 0 < size) (hva : va + size ≤ MAXVA) :
    mappages root va size pa perm =
      mapLoop root perm ((va + size - 1) / PGSIZE - va / PGSIZE) (va / PGSIZE * PGSIZE) pa := by
  rw [MAXVA_eq] at hva
  unfold mappages
  rw [PGSIZE_eq, PGROUNDDOWN_eq, PGROUNDDOWN_eq]
  congr 1
  omega

end Xv6.Vm
