import Xv6.Lib.FreeList
import Xv6.Vm.Code

/-!
# The page allocator

`frames` are the pages `kinit` hands to the allocator. `Pool L m out` says that the free list in
memory and the pages `out` make up the frames, each once. `kalloc` moves a page from the list to
`out`, `kfree` moves one back, and the rows of the pages that stay out are left alone. A failed
`kalloc` says that the environment made it fail or that fewer pages were free than it takes.
-/

namespace Xv6.Vm

open Prog Radix Function Multiset

namespace Layout

variable (L : Layout)

/-- The number of pages that `freerange(end, PHYSTOP)` frees. -/
def nframes : Nat := (PHYSTOP - PGROUNDUP L.kend) / PGSIZE

def frames : Multiset Nat := (range L.nframes).map fun k => PGROUNDUP L.kend + k * PGSIZE

theorem frames_nodup : L.frames.Nodup := by
  apply Multiset.Nodup.map _ (nodup_range _)
  intro a b h
  simp only [PGSIZE_eq] at h
  omega

theorem card_frames : L.frames.card ≤ 32768 := by
  have hge := L.kend_ge
  have hle := L.kend_le
  unfold frames nframes
  rw [KERNBASE_eq] at hge
  rw [PHYSTOP_eq] at hle
  rw [card_map, card_range, PGROUNDUP_eq (by omega), PHYSTOP_eq, PGSIZE_eq]
  omega

variable {L} {pa : Nat}

theorem mem_frames (h : pa ∈ L.frames) : pa % PGSIZE = 0 ∧ L.kend ≤ pa ∧ pa < PHYSTOP := by
  obtain ⟨k, hk, rfl⟩ := mem_map.mp h
  have hk := mem_range.mp hk
  have hle := L.kend_le
  rw [PHYSTOP_eq] at hle
  unfold nframes at hk
  rw [PGROUNDUP_eq (by omega), PHYSTOP_eq, PGSIZE_eq] at hk
  rw [PGROUNDUP_eq (by omega), PHYSTOP_eq, PGSIZE_eq]
  omega

theorem ne_zero_of_mem_frames (h : pa ∈ L.frames) : pa ≠ 0 := by
  have hge := L.kend_ge
  have hpa := (mem_frames h).2.1
  rw [KERNBASE_eq] at hge
  omega

theorem pageAddr_of_mem_frames (h : pa ∈ L.frames) : PageAddr pa := by
  obtain ⟨haligned, -, hlt⟩ := mem_frames h
  refine ⟨haligned, ?_⟩
  rw [PHYSTOP_eq] at hlt
  omega

end Layout

/-- The free list and the pages `out` make up the frames. -/
def Pool (L : Layout) (m : Mem) (out : Multiset Nat) : Prop :=
  Stock (fun r => (m.word r 0).toNat) 0 m.freelist L.frames out

/-- The pages on the free list. -/
def freePages (L : Layout) (m : Mem) : List Nat := follow (fun r => (m.word r 0).toNat) 0 L.nframes m.freelist

/-- Too few pages for `k` calls of `kalloc`, or an environment that fails some. -/
def Short (L : Layout) (m : Mem) (out : Multiset Nat) (k : Nat) : Prop :=
  m.fails ≠ [] ∨ L.frames.card < out.card + k

/-- The same without the pages that are out: `kalloc` is to fail, or fewer than `k` pages are free.
-/
def Starved (L : Layout) (m : Mem) (k : Nat) : Prop := m.fails ≠ [] ∨ (freePages L m).length < k

variable {L : Layout} {m m' : Mem} {out out' : Multiset Nat}

theorem Short.mono {k k' : Nat} (h : Short L m out k) (hk : k ≤ k') : Short L m out k' :=
  h.imp_right fun h => by omega

theorem not_short {k : Nat} (hfails : m.fails = []) (hroom : out.card + k ≤ L.frames.card) : ¬ Short L m out k := by
  rintro (hne | hlt)
  · exact hne hfails
  · omega

namespace Pool

theorem nodup (h : Pool L m out) : out.Nodup := Stock.nodup h L.frames_nodup

theorem mem_frames (h : Pool L m out) {pa : Nat} (hpa : pa ∈ out) : pa ∈ L.frames := Stock.mem h hpa

theorem pageAddr (h : Pool L m out) {pa : Nat} (hpa : pa ∈ out) : PageAddr pa :=
  Layout.pageAddr_of_mem_frames (h.mem_frames hpa)

theorem ne_zero (h : Pool L m out) {pa : Nat} (hpa : pa ∈ out) : pa ≠ 0 :=
  Layout.ne_zero_of_mem_frames (h.mem_frames hpa)

/-- Whatever is out is at most all frames. -/
theorem card_le (h : Pool L m out) : out.card ≤ 32768 :=
  (card_le_card (Stock.out_le h)).trans L.card_frames

theorem notMem_of_cons {pa : Nat} (h : Pool L m (pa ::ₘ out)) : pa ∉ out := (nodup_cons.mp h.nodup).1

/-- The pages of two parts are different. -/
theorem disjoint {pa : Nat} (h : Pool L m (out + out')) (hpa : pa ∈ out) : pa ∉ out' :=
  disjoint_left.mp (nodup_add.mp h.nodup).2.2 hpa

section

variable (h : Pool L m out)
include h

/-- Memory says which pages are out. -/
theorem unique (h' : Pool L m out') : out = out' := Stock.unique h h'

theorem of_eq (heq : out = out') : Pool L m out' := heq ▸ h

/-- A page that is out may be written. -/
theorem write {pa : Nat} (hpa : pa ∈ out) {word' : Nat → Nat → Word}
    (hword : ∀ p, p ≠ pa → word' p = m.word p) : Pool L { m with word := word' } out := by
  apply Stock.congr h L.frames_nodup
  intro p hp
  show (word' p 0).toNat = (m.word p 0).toNat
  rw [hword p fun e => hp (e ▸ hpa)]

theorem setWord {pa : Nat} (hpa : pa ∈ out) (i : Nat) (w : Word) : Pool L (m.setWord pa i w) out :=
  h.write hpa fun _ hp => Radix.set_of_ne hp

theorem setPage {pa : Nat} (hpa : pa ∈ out) (row : Nat → Word) : Pool L (m.setPage pa row) out :=
  h.write hpa fun _ hp => update_of_ne hp ..

/-- What is not free is out. -/
theorem freePages_add : (freePages L m : Multiset Nat) + out = L.frames := by
  obtain ⟨free, hfree, heq⟩ := h
  have hlen : free.length ≤ L.nframes := by
    have hcard := congrArg card heq
    rw [card_add, coe_card, Layout.frames, card_map, card_range] at hcard
    omega
  rw [freePages, hfree.follow_eq hlen]
  exact heq

end

theorem freelist_ne_zero (h : ¬ Starved L m 1) : m.freelist ≠ 0 := by
  intro hzero
  refine h (.inr ?_)
  have hnil : freePages L m = [] := by
    unfold freePages
    rw [hzero]
    cases L.nframes with
    | zero => rfl
    | succ n => exact if_pos rfl
  rw [hnil]
  exact Nat.zero_lt_one

theorem starved {k : Nat} (h : Pool L m out) (hs : Short L m out k) : Starved L m k := by
  apply hs.imp_right
  intro hlt
  have hcard := congrArg card h.freePages_add
  rw [card_add, coe_card] at hcard
  omega

theorem fed {k : Nat} (h : Pool L m out) (hfails : m.fails = []) (hcard : out.card + k ≤ L.frames.card) : ¬ Starved L m k := by
  rintro (hne | hlt)
  · exact hne hfails
  · rw [← h.freePages_add, card_add, coe_card] at hcard
    omega

end Pool

theorem sameOn_setPage {B : Multiset Nat} {pa : Nat} {row : Nat → Word} (h : pa ∉ B) :
    SameOn B m.word (m.setPage pa row).word :=
  fun _ hb => update_of_ne (ne_of_mem_of_not_mem hb h) ..

/-- What `kalloc` does to the pool. -/
inductive Alloc (L : Layout) (m m' : Mem) (out : Multiset Nat) : Nat → Prop
  | failed (pool : Pool L m' out) (same : m'.word = m.word) (short : Short L m out 1) (fails : m.fails = [] → m'.fails = []) :
    Alloc L m m' out 0
  | page (r : Nat) (pool : Pool L m' (r ::ₘ out)) (same : SameOn out m.word m'.word) (fails : m.fails = [] → m'.fails = []) :
    Alloc L m m' out r

theorem kalloc_spec (h : Pool L m out) : wp kalloc (fun r m' => Alloc L m m' out r) never m := by
  have hfails : m.fails = [] → m.fails.tail = [] := fun hnil => by rw [hnil]; rfl
  unfold kalloc
  simp only [wp_bind, wp_read, wp_change]
  apply wp_ite
  · rintro (hfail | hnull)
    · refine .failed h rfl (.inl ?_) hfails
      intro hnil
      rw [hnil] at hfail
      cases hfail
    · refine .failed h rfl (.inr ?_) hfails
      have hout : out = L.frames := by
        unfold Pool at h
        rw [show m.freelist = 0 from hnull] at h
        exact h.eq_of_null
      rw [hout]
      omega
  · intro hne
    have hne : m.freelist ≠ 0 := fun e => hne (.inr e)
    have htake : Pool L (m.setFreelist (m.word m.freelist 0).toNat) (m.freelist ::ₘ out) := Stock.take h hne
    exact .page m.freelist (htake.setPage (mem_cons_self _ _) _) (sameOn_setPage htake.notMem_of_cons) hfails

/-- With a page left, and where none is to fail, `kalloc` returns one. -/
theorem kalloc_page (h : Pool L m out) (hfails : m.fails = []) (hroom : out.card + 1 ≤ L.frames.card) :
    wp kalloc (fun r m' => r ≠ 0 ∧ Pool L m' (r ::ₘ out) ∧ SameOn out m.word m'.word ∧ m'.fails = []) never m := by
  apply wp_mono (kalloc_spec h) _ fun _ _ => id
  intro r m' halloc
  cases halloc with
  | failed _ _ short _ => exact absurd short (not_short hfails hroom)
  | page r pool same fails => exact ⟨pool.ne_zero (mem_cons_self _ _), pool, same, fails hfails⟩

/-- A new page is filled. -/
theorem fill_page {r : Nat} (hp : Pool L m' (r ::ₘ out)) (hsame : SameOn out m.word m'.word) (row : Nat → Word) :
    Pool L (m'.setPage r row) (r ::ₘ out) ∧ SameOn out m.word (m'.setPage r row).word :=
  ⟨hp.setPage (mem_cons_self _ _) row, hsame.trans (sameOn_setPage hp.notMem_of_cons)⟩

/-- A page that is out goes back to the free list. -/
theorem kfree_spec {pa : Nat} (h : Pool L m (pa ::ₘ out)) :
    wp (kfree L pa) (fun _ m' => Pool L m' out ∧ SameOn out m.word m'.word) never m := by
  obtain ⟨haligned, hge, hlt⟩ := Layout.mem_frames (h.mem_frames (mem_cons_self pa out))
  have hnot := h.notMem_of_cons
  unfold kfree
  apply wp_ite
  · intro hbad
    omega
  · intro _
    have hrest : ∀ p, p ≠ pa → Radix.set ((m.setPage pa fun _ => 1 * 0x0101010101010101).word) pa 0
        (BitVec.ofNat 64 m.freelist) p = m.word p := fun p hp => by
      rw [Radix.set_of_ne hp]
      exact update_of_ne hp ..
    refine ⟨?_, fun p hp => hrest p fun e => hnot (e ▸ hp)⟩
    apply Stock.put h L.frames_nodup (h.ne_zero (mem_cons_self pa out))
    · intro p _ hp
      exact congrArg (fun row : Nat → Word => (row 0).toNat) (hrest p hp)
    · show BitVec.toNat (Radix.set _ _ _ _ pa 0) = m.freelist
      rw [Radix.set_self, BitVec.toNat_ofNat]
      apply Nat.mod_eq_of_lt
      show m.freelist < 2 ^ 64
      rcases Stock.head_mem h with hnull | hmem
      · omega
      · have := (Layout.pageAddr_of_mem_frames hmem).lt
        omega

end Xv6.Vm
