import Xv6.Lib.Views
import Xv6.Vm.Bytes
import Xv6.Vm.Space
import Xv6.Vm.Translate

/-!
# Page tables without common pages

A load or store goes through a page table to a byte of memory. `Isolated` says of some page tables
that no page occurs twice, as a table or as a page of the user, in one of them or in two. Then each
of them is a map of its own: whatever is stored through the others, in any order, is not seen
through it.
-/

namespace Xv6.Vm

open Prog Radix Multiset

/-- The byte at a virtual address, whatever the flags of its page. -/
def loadByte (m : Mem) (root va : Nat) : Option UInt8 := (translate m root (va / PGSIZE)).map fun e => m.byte (e.1 + va % PGSIZE)

/-- A byte is stored at a virtual address, whatever the flags of its page. -/
def storeByte (m : Mem) (root va : Nat) (b : UInt8) : Mem :=
  match translate m root (va / PGSIZE) with
  | some e => m.putByte (e.1 + va % PGSIZE) b
  | none => m

/-! ## One page table -/

section

variable {L : Layout} {m m' : Mem} {T T' : Multiset Nat} {mp mp' : Nat → Option Word} {root tf N va v : Nat}

/-- The memory behind a page table is as it was. -/
structure SpaceKept (m m' : Mem) (root : Nat) : Prop where
  translation : ∀ v, v * PGSIZE < MAXVA → translate m' root v = translate m root v
  bytes : ∀ va, va < TRAPFRAME → loadByte m' root va = loadByte m root va

theorem va_page (hva : va < TRAPFRAME) : va / PGSIZE * PGSIZE < TRAPFRAME ∧ va / PGSIZE < TFPAGE := by
  have hva : va < 0x3FFFFFE000 := hva
  show _ < 0x3FFFFFE000 ∧ _
  rw [TFPAGE_eq, PGSIZE_eq]
  omega

theorem page_lt (hv : v * PGSIZE < TRAPFRAME) : v < TFPAGE := by
  have hv : v * 4096 < 0x3FFFFFE000 := hv
  rw [TFPAGE_eq]
  omega

theorem translate_of_table (ht : PageTable m.word root T mp) (hv : v * PGSIZE < MAXVA) :
    translate m root v = (mp v).map fun w => (PTE2PA w, PTE_FLAGS w) := by
  rw [translate_eq hv, ht.leaf v (lt_NPAGES hv)]

theorem loadByte_of_table (ht : PageTable m.word root T mp) (hva : va < TRAPFRAME) :
    loadByte m root va = (mp (va / PGSIZE)).map fun w => getByte (m.word (PTE2PA w)) (va % PGSIZE) := by
  unfold loadByte
  rw [translate_of_table ht ((va_page hva).1.trans (by decide)), Option.map_map]
  cases mp (va / PGSIZE) with
  | none => rfl
  | some w => exact congrArg some (byte_page (PTE2PA_mod w) (Nat.mod_lt va (by decide)))

theorem getByte_zeroRow (k : Nat) : getByte zeroRow k = 0 := by
  unfold getByte zeroRow
  rw [show (0 : Word) = 0#64 from rfl, BitVec.extractLsb'_zero]
  rfl

/-- A byte whose page has its entry and its contents. -/
theorem loadByte_congr (ht : PageTable m.word root T mp) (ht' : PageTable m'.word root T' mp') (hva : va < TRAPFRAME)
    (hmp : mp' (va / PGSIZE) = mp (va / PGSIZE)) (hrow : ∀ w, mp (va / PGSIZE) = some w → m'.word (PTE2PA w) = m.word (PTE2PA w)) :
    loadByte m' root va = loadByte m root va := by
  rw [loadByte_of_table ht' hva, loadByte_of_table ht hva, hmp]
  cases hw : mp (va / PGSIZE) with
  | none => rfl
  | some w => rw [Option.map_some, Option.map_some, hrow w hw]

/-- The page of an address that is mapped is one of the user's. -/
theorem Space.lt_of_some {word : Nat → Nat → Word} {w : Word} (h : Space L word root tf N T mp)
    (hv : v < TFPAGE) (hw : mp v = some w) :
    v < N := by
  have h1 := TFPAGE_eq
  have h2 := TRPAGE_eq
  have h3 := NPAGES_eq
  by_contra hge
  rw [h.rest v (by omega) (Nat.le_of_not_lt hge) (by omega) (by omega)] at hw
  cases hw

/-- A space with the same entries, whose pages have been left alone. -/
theorem SpaceKept.of_same (h : Space L m.word root tf N T mp) (ht' : PageTable m'.word root T' mp)
    (hsame : SameOn (pages mp 0 N) m.word m'.word) : SpaceKept m m' root := by
  refine ⟨fun v hv => ?_, fun va hva => loadByte_congr h.table ht' hva rfl fun w hw => ?_⟩
  · rw [translate_of_table ht' hv, translate_of_table h.table hv]
  · have hlt := h.lt_of_some (va_page hva).2 hw
    exact hsame _ (mem_pages_from (Nat.zero_le _) (by omega) hw)

/-- A space whose tables and pages have been left alone. -/
theorem SpaceKept.of_alone (h : Space L m.word root tf N T mp)
    (hsame : SameOn (T + pages mp 0 N) m.word m'.word) : SpaceKept m m' root :=
  .of_same h (h.table.congr hsame.left) hsame.right

end

/-! ## Several page tables -/

variable {I : Type} [Fintype I] [DecidableEq I] {m : Mem} {root n : I → Nat} {T : I → Multiset Nat} {mp : I → Nat → Option Word}

/-- Stores through several page tables: which one, the address and the byte. -/
def storeBytes (root : I → Nat) (m : Mem) (ws : List (I × Nat × UInt8)) : Mem :=
  ws.foldl (fun m w => storeByte m (root w.1) w.2.1 w.2.2) m

/-- The tables and the pages of the user are pairwise different. -/
structure Isolated (m : Mem) (root n : I → Nat) (T : I → Multiset Nat) (mp : I → Nat → Option Word) : Prop where
  table : ∀ i, PageTable m.word (root i) (T i) (mp i)
  rest : ∀ i v, n i ≤ v → v < TFPAGE → mp i v = none
  nodup : (∑ i, (T i + pages (mp i) 0 (n i))).Nodup

/-- Memory as a store of bytes. -/
def byteStore : Views.Store Mem Nat UInt8 where
  get := Mem.byte
  put := Mem.putByte
  get_self := Mem.byte_putByte_self
  get_ne m a c b h := Mem.byte_putByte_of_ne m a c b h

/-- Where the user's bytes are. -/
def viewAddr (mp : I → Nat → Option Word) (i : I) (va : Nat) : Option Nat :=
  if va < TRAPFRAME then (mp i (va / PGSIZE)).map fun w => PTE2PA w + va % PGSIZE else none

omit [Fintype I] [DecidableEq I] in
theorem viewAddr_some {i : I} {va a : Nat} (h : viewAddr mp i va = some a) :
    va / PGSIZE < TFPAGE ∧ ∃ w, mp i (va / PGSIZE) = some w ∧ a = PTE2PA w + va % PGSIZE := by
  unfold viewAddr at h
  split at h
  next hva =>
    obtain ⟨w, hw, rfl⟩ := Option.map_eq_some_iff.mp h
    have hva : va < 0x3FFFFFE000 := hva
    refine ⟨?_, w, hw, rfl⟩
    rw [TFPAGE_eq, PGSIZE_eq]
    omega
  next => cases h

namespace Isolated

omit [DecidableEq I] in
/-- The page of an address that the user has. -/
theorem page_mem (h : Isolated m root n T mp) {i : I} {v : Nat} {w : Word} (hv : v < TFPAGE) (hw : mp i v = some w) :
    v < n i ∧ PTE2PA w ∈ pages (mp i) 0 (n i) := by
  have hlt : v < n i := by
    by_contra hge
    rw [h.rest i v (Nat.le_of_not_lt hge) hv] at hw
    cases hw
  exact ⟨hlt, mem_pages_from (Nat.zero_le v) (by omega) hw⟩

omit [DecidableEq I] in
theorem nodup_of (h : Isolated m root n T mp) (i : I) : (T i + pages (mp i) 0 (n i)).Nodup := by
  have hle : T i + pages (mp i) 0 (n i) ≤ ∑ i, (T i + pages (mp i) 0 (n i)) :=
    Finset.single_le_sum (f := fun i => T i + pages (mp i) 0 (n i)) (fun _ _ => Multiset.zero_le _) (Finset.mem_univ i)
  exact nodup_of_le hle h.nodup

theorem pages_ne (h : Isolated m root n T mp) {i j : I} {a : Nat} (ha : a ∈ pages (mp i) 0 (n i))
    (ha' : a ∈ T j + pages (mp j) 0 (n j)) :
    j = i := by
  by_contra hij
  exact notMem_of_nodup_sum h.nodup (Finset.mem_univ i) (Finset.mem_univ j) hij (mem_add.mpr (.inr ha)) ha'

/-- A page of the user is no table. -/
theorem notMem_tables (h : Isolated m root n T mp) {i : I} {a : Nat} (ha : a ∈ pages (mp i) 0 (n i)) (j : I) : a ∉ T j := by
  intro hj
  have hji := h.pages_ne ha (mem_add.mpr (.inl hj))
  subst hji
  exact disjoint_left.mp (nodup_add.mp (h.nodup_of j)).2.2 hj ha

/-- No two addresses of the user, in one page table or in two, are the same byte. -/
theorem independent (h : Isolated m root n T mp) : Views.Independent (viewAddr mp) := by
  intro i j u v a hu hv
  obtain ⟨hlt, w, hw, rfl⟩ := viewAddr_some hu
  obtain ⟨hlt', w', hw', heq⟩ := viewAddr_some hv
  have hoff : u % PGSIZE < PGSIZE := Nat.mod_lt u (by decide)
  have hoff' : v % PGSIZE < PGSIZE := Nat.mod_lt v (by decide)
  have hpage : PTE2PA w = PTE2PA w' := by
    rw [← PGROUNDDOWN_page (PTE2PA_mod w) hoff, heq, PGROUNDDOWN_page (PTE2PA_mod w') hoff']
  obtain ⟨hn, hmem⟩ := h.page_mem hlt hw
  obtain ⟨hn', hmem'⟩ := h.page_mem hlt' hw'
  have hij : j = i := h.pages_ne hmem (mem_add.mpr (.inr (hpage ▸ hmem')))
  subst hij
  have hdiv : u / PGSIZE = v / PGSIZE := pages_inj (nodup_add.mp (h.nodup_of j)).2.1
    ⟨Nat.zero_le _, by omega⟩ ⟨Nat.zero_le _, by omega⟩ hw hw' hpage
  have hmod : u % PGSIZE = v % PGSIZE := by omega
  refine ⟨rfl, ?_⟩
  rw [← Nat.div_add_mod u PGSIZE, ← Nat.div_add_mod v PGSIZE, hdiv, hmod]

omit [DecidableEq I] in
theorem translate_eq (h : Isolated m root n T mp) (i : I) {va : Nat} (hva : va < TRAPFRAME) :
    translate m (root i) (va / PGSIZE) = (mp i (va / PGSIZE)).map fun w => (PTE2PA w, PTE_FLAGS w) := by
  have hlt : va / PGSIZE * PGSIZE < MAXVA := (Nat.div_mul_le_self va PGSIZE).trans_lt (hva.trans (by decide))
  rw [Vm.translate_eq hlt, (h.table i).leaf _ (lt_NPAGES hlt)]

omit [DecidableEq I] in
theorem loadByte_eq (h : Isolated m root n T mp) (i : I) {va : Nat} (hva : va < TRAPFRAME) :
    loadByte m (root i) va = Views.load byteStore (viewAddr mp) m i va := by
  unfold loadByte Views.load viewAddr
  rw [h.translate_eq i hva, if_pos hva, Option.map_map, Option.map_map]
  rfl

omit [DecidableEq I] in
theorem storeByte_eq (h : Isolated m root n T mp) (i : I) {va : Nat} (hva : va < TRAPFRAME) (b : UInt8) :
    storeByte m (root i) va b = Views.store byteStore (viewAddr mp) m i va b := by
  unfold storeByte Views.store viewAddr
  rw [h.translate_eq i hva, if_pos hva]
  cases mp i (va / PGSIZE) <;> rfl

/-- A store changes a page of the user only. -/
theorem store (h : Isolated m root n T mp) (i : I) (va : Nat) (b : UInt8) :
    Isolated (Views.store byteStore (viewAddr mp) m i va b) root n T mp := by
  refine ⟨fun j => (h.table j).congr ?_, h.rest, h.nodup⟩
  cases ha : viewAddr mp i va with
  | none =>
    rw [Views.store_none ha]
    exact .refl _ _
  | some a =>
    obtain ⟨hlt, w, hw, rfl⟩ := viewAddr_some ha
    rw [Views.store_some ha]
    apply sameOn_setPage
    rw [PGROUNDDOWN_page (PTE2PA_mod w) (Nat.mod_lt va (by decide))]
    exact h.notMem_tables (h.page_mem hlt hw).2 j

/-- A run of stores. -/
theorem storeBytes_eq (h : Isolated m root n T mp) (ws : List (I × Nat × UInt8)) (hws : ∀ w ∈ ws, w.2.1 < TRAPFRAME) :
    Isolated (storeBytes root m ws) root n T mp ∧ storeBytes root m ws = Views.run byteStore (viewAddr mp) m ws := by
  induction ws generalizing m with
  | nil => exact ⟨h, rfl⟩
  | cons w ws ih =>
    have hstep := h.storeByte_eq w.1 (hws w List.mem_cons_self) w.2.2
    have hnext := ih (h.store w.1 w.2.1 w.2.2) fun w' hw' => hws w' (List.mem_cons_of_mem w hw')
    rw [← hstep] at hnext
    exact ⟨hnext.1, hnext.2.trans (by rw [hstep]; rfl)⟩

/-- Through each page table only the stores through it are seen. -/
theorem loadByte_storeBytes (h : Isolated m root n T mp) (ws : List (I × Nat × UInt8)) (hws : ∀ w ∈ ws, w.2.1 < TRAPFRAME) (i : I)
    {va : Nat} (hva : va < TRAPFRAME) :
    loadByte (storeBytes root m ws) (root i) va = Views.overwrites (loadByte m (root i)) i ws va := by
  obtain ⟨hrun, heq⟩ := h.storeBytes_eq ws hws
  rw [hrun.loadByte_eq i hva, heq, Views.load_run h.independent]
  exact Views.overwrites_congr (h.loadByte_eq i hva).symm i ws

end Isolated

end Xv6.Vm
