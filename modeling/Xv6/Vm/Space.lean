import Xv6.Vm.Grow

/-!
# Address spaces

`Space L word root tf n T mp`: the page table at `root` maps the page numbers below `n`, the
trapframe `tf` and the trampoline, and nothing else. A process of size `sz` has a space of
`npages sz` pages. `Room` adds that the tables and the user's pages are out of the pool. Growing,
shrinking, copying and freeing keep these through every failure of `kalloc`; that a space cannot
reach up to the trapframe is a matter of counting, since there are fewer frames than that.
-/

namespace Xv6.Vm

open Prog Radix Function Multiset

variable {L : Layout} {m m' : Mem} {B T : Multiset Nat} {root tf n : Nat} {mp mp' : Nat → Option Word}

def TFPAGE : Nat := TRAPFRAME / PGSIZE
def TRPAGE : Nat := TRAMPOLINE / PGSIZE

theorem TFPAGE_eq : TFPAGE = 0x3FFFFFE := rfl

theorem TRPAGE_eq : TRPAGE = 0x3FFFFFF := rfl

theorem NPAGES_eq : NPAGES = 0x8000000 := rfl

structure Space (L : Layout) (word : Nat → Nat → Word) (root tf n : Nat) (T : Multiset Nat)
    (mp : Nat → Option Word) : Prop where
  table : PageTable word root T mp
  user : ∀ v, v < n → ∃ w, mp v = some w ∧ isLeaf w = true
  trapframe : mp TFPAGE = some (PA2PTE tf ||| (PTE_R ||| PTE_W) ||| PTE_V)
  trampoline : mp TRPAGE = some (PA2PTE L.trampoline ||| (PTE_R ||| PTE_X) ||| PTE_V)
  rest : ∀ v, v < NPAGES → n ≤ v → v ≠ TFPAGE → v ≠ TRPAGE → mp v = none

/-- The space at `root` after a call, its pages out of the pool and the rows of `B` left alone. -/
structure Room (L : Layout) (B : Multiset Nat) (m m' : Mem) (root tf n : Nat) (T : Multiset Nat)
    (mp : Nat → Option Word) : Prop where
  space : Space L m'.word root tf n T mp
  pool : Pool L m' (T + (pages mp 0 n + B))
  same : SameOn B m.word m'.word

/-- The user may access every page below `n`. -/
def AllUser (mp : Nat → Option Word) (n : Nat) : Prop := ∀ v w, v < n → mp v = some w → w &&& PTE_U ≠ 0

theorem Space.congr {word word' : Nat → Nat → Word} (h : Space L word root tf n T mp) (hs : SameOn T word word') :
    Space L word' root tf n T mp :=
  ⟨h.table.congr hs, h.user, h.trapframe, h.trampoline, h.rest⟩

variable {m'' : Mem} {k newsz oldsz : Nat} {T' : Multiset Nat}

namespace Room

variable {m₀ : Mem} {B' : Multiset Nat}

/-- There are not enough frames for a larger space. -/
theorem n_le (h : Room L B m m' root tf n T mp) : n + B.card ≤ 32768 := by
  have hcard := h.pool.card_le
  have hpages : (pages mp 0 n).card = n := card_pages fun u _ hu => h.space.user u (by omega)
  rw [card_add, card_add, hpages] at hcard
  omega

theorem sz_le {sz : Nat} (h : Room L B m m' root tf (npages sz) T mp) : sz ≤ 32768 * 4096 := by
  have hle := h.n_le
  unfold npages at hle
  omega

theorem trans (h : SameOn B m₀.word m.word) (h' : Room L B m m' root tf n T mp) : Room L B m₀ m' root tf n T mp :=
  ⟨h'.space, h'.pool, h.trans h'.same⟩

/-- The pages of `B'` are no longer out. -/
theorem restrict (h : Room L (B' + B) m m' root tf n T mp)
    (hp : Pool L m'' (T + (pages mp 0 n + B)))
    (hsame : SameOn (T + (pages mp 0 n + B)) m'.word m''.word) : Room L B m m'' root tf n T mp :=
  ⟨h.space.congr hsame.left, hp, h.same.right.trans hsame.right.right⟩

end Room

/-! ## `uvmdealloc` -/

/-- The last pages of a space are unmapped. -/
theorem Room.unmap_end (h : Room L B m m' root tf (n + k) T mp) :
    wp (uvmunmap L root (n * PGSIZE) k true) (fun _ m'' => Kept L (pages mp 0 n + B) m' m'' root T (unmapRange mp n k)) never m' := by
  have hle := h.n_le
  have hp : Pool L m' (T + (given true mp n k + (pages mp 0 n + B))) := by
    apply h.pool.of_eq
    rw [pages_add, Nat.zero_add]
    show _ = T + (pages mp n k + (pages mp 0 n + B))
    abel
  have hva : (n + k) * PGSIZE ≤ MAXVA := by
    rw [PGSIZE_eq, MAXVA_eq]
    omega
  exact uvmunmap_spec hva h.space.table (fun u _ hu => h.space.user u hu) hp

/-- What is left is a smaller space. -/
theorem Room.shrunk (h : Room L B m m' root tf (n + k) T mp)
    (hk : Kept L (pages mp 0 n + B) m' m'' root T (unmapRange mp n k)) :
    Room L B m m'' root tf n T (unmapRange mp n k) := by
  have hle := h.n_le
  have hlow : ∀ u, 0 ≤ u → u < 0 + n → unmapRange mp n k u = mp u := fun u _ hu => if_neg (by omega)
  have htf := TFPAGE_eq
  have htr := TRPAGE_eq
  refine ⟨⟨hk.table, fun v hv => ?_, ?_, ?_, fun v hv hnv htfv htrv => ?_⟩, ?_, h.same.trans hk.same.right⟩
  · rw [hlow v (Nat.zero_le v) (by omega)]
    exact h.space.user v (by omega)
  · rw [unmapRange, if_neg (by omega)]
    exact h.space.trapframe
  · rw [unmapRange, if_neg (by omega)]
    exact h.space.trampoline
  · unfold unmapRange
    split
    · rfl
    · exact h.space.rest v hv (by omega) htfv htrv
  · rw [pages_congr hlow]
    exact hk.pool

/-- What `uvmdealloc` does at the end of a space: it unmaps the pages that the smaller size does not
need. -/
theorem Room.uvmdealloc (h : Room L B m m' root tf (npages oldsz) T mp) :
    wp (uvmdealloc L root oldsz newsz) (fun r m'' => r = min oldsz newsz ∧
      Kept L (pages mp 0 (npages r) + B) m' m'' root T (unmapRange mp (npages r) (npages oldsz - npages r))) never m' := by
  have hold := h.sz_le
  have hsame : ∀ k, k = 0 → Kept L (pages mp 0 (npages oldsz) + B) m' m' root T (unmapRange mp (npages oldsz) k) := by
    intro k hk
    have hnone : unmapRange mp (npages oldsz) k = mp := funext fun v => if_neg (by omega)
    rw [hnone]
    exact ⟨h.space.table, h.pool, .refl _ _⟩
  unfold Vm.uvmdealloc
  apply wp_ite
  · intro hge
    exact ⟨by omega, hsame _ (Nat.sub_self _)⟩
  · intro hlt
    have hmin : min oldsz newsz = newsz := by omega
    rw [PGROUNDUP_npages (by omega), PGROUNDUP_npages (by omega)]
    have hmono : npages newsz ≤ npages oldsz := by
      unfold npages
      omega
    obtain ⟨k, hk⟩ := Nat.exists_eq_add_of_le hmono
    have hcount : (npages oldsz * PGSIZE - npages newsz * PGSIZE) / PGSIZE = k := by
      rw [hk, PGSIZE_eq]
      omega
    rw [hcount, hmin]
    apply wp_seq (Q := fun _ m'' => Kept L (pages mp 0 (npages newsz) + B) m' m'' root T
      (unmapRange mp (npages newsz) (npages oldsz - npages newsz)))
    · apply wp_onlyIf
      · intro _
        rw [show npages oldsz - npages newsz = k by omega]
        rw [hk] at h
        exact h.unmap_end
      · intro hge
        have heq : npages newsz = npages oldsz := by
          rw [PGSIZE_eq] at hge
          omega
        rw [heq]
        exact hsame _ (Nat.sub_self _)
    · intro _ m'' hkept
      exact ⟨rfl, hkept⟩

theorem uvmdealloc_spec (h : Room L B m m' root tf (npages oldsz) T mp) :
    wp (uvmdealloc L root oldsz newsz) (fun r m'' => r = min oldsz newsz ∧ ∃ mp',
      Room L B m m'' root tf (npages r) T mp' ∧ (AllUser mp (npages oldsz) → AllUser mp' (npages r))) never m' := by
  apply wp_mono h.uvmdealloc _ fun _ _ => id
  rintro r m'' ⟨hr, hk⟩
  have hmono : npages r ≤ npages oldsz := by
    unfold npages
    omega
  have hsplit : npages oldsz = npages r + (npages oldsz - npages r) := by omega
  refine ⟨hr, _, (hsplit ▸ h).shrunk hk, fun hall v w hv hw => hall v w (by omega) ?_⟩
  rwa [unmapRange, if_neg (by omega)] at hw

/-! ## `uvmalloc` -/

/-- A page that is out is mapped at the end of a space. -/
theorem Space.map_page {page : Nat} {perm : Word} (hperm : isLeaf perm = true) (hbits : perm.toNat < 2 ^ 10)
    (hs : Space L m.word root tf n T mp) (hp : Pool L m (T + (pages mp 0 n + ({page} + B)))) :
    wp (mappages root (n * PGSIZE) PGSIZE page perm) (fun r m' =>
      (r = 0 ∧ ∃ T', Room L B m m' root tf (n + 1) T' (update mp n (some (PA2PTE page ||| perm ||| PTE_V))) ∧
        T'.card ≤ T.card + 2 ∧ (m.fails = [] → m'.fails = [])) ∨
      (r = -1 ∧ Short L m (T + (pages mp 0 n + ({page} + B))) 2 ∧ ∃ T', Room L ({page} + B) m m' root tf n T' mp))
      never m := by
  have hle := (Room.mk hs hp (.refl _ m.word)).n_le
  have htf := TFPAGE_eq
  have htr := TRPAGE_eq
  have hnp := NPAGES_eq
  have hva : n * PGSIZE < MAXVA := by
    rw [PGSIZE_eq, MAXVA_eq]
    omega
  have hfree : mp n = none := hs.rest n (by omega) (Nat.le_refl n) (by omega) (by omega)
  apply wp_mono (mappages_spec hva hs.table hp hfree) _ fun _ _ => id
  intro r m' hmapped
  cases hmapped with
  | failed T' ext short =>
    exact .inr ⟨rfl, short, T', ⟨ext.table, hs.user, hs.trapframe, hs.trampoline, hs.rest⟩, ext.pool, ext.same.right⟩
  | done T' ext =>
    refine .inl ⟨rfl, T', ⟨⟨ext.table, fun v hv => ?_, ?_, ?_, fun v hv hnv htfv htrv => ?_⟩, ?_, ext.same.right.right⟩,
      ext.card, ext.fails⟩
    · by_cases hvn : v = n
      · exact ⟨_, by rw [hvn, update_self], (isLeaf_entry page perm).trans hperm⟩
      · rw [update_of_ne hvn]
        exact hs.user v (by omega)
    · rw [update_of_ne (by omega)]
      exact hs.trapframe
    · rw [update_of_ne (by omega)]
      exact hs.trampoline
    · rw [update_of_ne (by omega)]
      exact hs.rest v hv (by omega) htfv htrv
    · have hpage : PageAddr page := hp.pageAddr (by simp)
      have hlow : pages (update mp n (some (PA2PTE page ||| perm ||| PTE_V))) 0 n = pages mp 0 n :=
        pages_congr fun u _ hu => update_of_ne (by omega) ..
      apply ext.pool.of_eq
      rw [pages_back, hlow, Nat.zero_add, update_self, pageOf, PTE2PA_entry hpage hbits]
      abel

/-- A space with new pages at its end. -/
theorem Room.grown {perm : Nat → Word} {row : Nat → Nat → Word} (hperm : ∀ v, Flags (perm v))
    (h : Room L B m m' root tf n T mp)
    (hg : Extended L (pages mp 0 n + B) m' m'' root n k perm row T' mp mp') :
    Room L B m m'' root tf (n + k) T' mp' := by
  have hlow : ∀ u, u < n → mp' u = mp u := fun u hu => hg.old u (by omega)
  have hle : n + k ≤ 32768 := by
    have hcard := hg.pool.card_le
    have hpages : (pages mp 0 n).card = n := card_pages fun u _ hu => h.space.user u (by omega)
    rw [card_add, card_add, card_add, card_pages (hg.leaves hperm), hpages] at hcard
    omega
  have htf := TFPAGE_eq
  have htr := TRPAGE_eq
  refine ⟨⟨hg.table, fun v hv => ?_, ?_, ?_, fun v hv hnv htfv htrv => ?_⟩, ?_, h.same.trans hg.same.right⟩
  · by_cases hvn : v < n
    · rw [hlow v hvn]
      exact h.space.user v hvn
    · exact hg.leaves hperm v (by omega) hv
  · rw [hg.old TFPAGE (by omega)]
    exact h.space.trapframe
  · rw [hg.old TRPAGE (by omega)]
    exact h.space.trampoline
  · rw [hg.old v (by omega)]
    exact h.space.rest v hv (by omega) htfv htrv
  · have hpages : pages mp' 0 n = pages mp 0 n := pages_congr fun u _ hu => hlow u (by omega)
    apply hg.pool.of_eq
    rw [pages_add, Nat.zero_add, hpages]
    abel

/-- A space whose page table has got tables only. -/
theorem Room.kept (h : Room L B m m' root tf n T mp)
    (hk : Kept L (pages mp 0 n + B) m' m'' root T' mp) : Room L B m m'' root tf n T' mp :=
  ⟨⟨hk.table, h.space.user, h.space.trapframe, h.space.trampoline, h.space.rest⟩, hk.pool, h.same.trans hk.same.right⟩

/-- After the last page of a space nothing is mapped, as far as the frames can reach. -/
theorem Room.vacant (h : Room L B m m' root tf n T mp) (total : Nat) : Vacant mp n total := by
  have hle := h.n_le
  have htf := TFPAGE_eq
  have htr := TRPAGE_eq
  have hnp := NPAGES_eq
  intro i _ hi
  refine ⟨?_, h.space.rest (n + i) (by omega) (by omega) (by omega) (by omega)⟩
  rw [PGSIZE_eq, MAXVA_eq]
  omega

/-- The pages that `uvmalloc` adds are the user's. -/
theorem AllUser.grown {row : Nat → Nat → Word} (h : AllUser mp n)
    (hg : Extended L B m' m'' root n k (fun _ => userPerm) row T' mp mp') :
    AllUser mp' (n + k) := by
  intro v w hv hw
  by_cases hvn : v < n
  · rw [hg.old v (by omega)] at hw
    exact h v w hvn hw
  · obtain ⟨page, -, hnew, -⟩ := hg.new v (by omega) hv
    rw [hnew] at hw
    cases hw
    rw [entry_and page _ (by decide)]
    decide

/-- What `uvmalloc` does at the end of a space: it adds zeroed pages, or nothing. -/
theorem Room.uvmalloc (hle : oldsz ≤ newsz) (h : Room L B m m' root tf (npages oldsz) T mp) :
    wp (uvmalloc L root oldsz newsz) (fun r m'' => ∃ T',
      (r = newsz ∧ ∃ mp', Extended L (pages mp 0 (npages oldsz) + B) m' m'' root (npages oldsz) (npages newsz - npages oldsz)
        (fun _ => userPerm) (fun _ => zeroRow) T' mp mp') ∨
      (r = 0 ∧ Kept L (pages mp 0 (npages oldsz) + B) m' m'' root T' mp ∧ sv39.tables m'.word 2 root ≤ T' ∧
        Starved L m' (3 * (npages newsz - npages oldsz)))) never m' := by
  have hn := h.n_le
  have hold := h.sz_le
  have hmax : PGROUNDUP oldsz ≤ MAXVA := by
    rw [PGROUNDUP_npages (by omega), PGSIZE_eq, MAXVA_eq]
    omega
  exact uvmalloc_grown hle hmax (by omega) (h.vacant _) h.space.table h.pool

/-- What `uvmalloc` returns: 0 with the old space, or a size that covers the new one. -/
theorem uvmalloc_spec (h : Room L B m m' root tf (npages oldsz) T mp) :
    wp (uvmalloc L root oldsz newsz) (fun r m'' => ∃ T' mp' n',
      Room L B m m'' root tf n' T' mp' ∧ (AllUser mp (npages oldsz) → AllUser mp' n') ∧
      (r = 0 ∧ n' = npages oldsz ∨ r = max oldsz newsz ∧ n' = npages r)) never m' := by
  by_cases hlt : newsz < oldsz
  · unfold Vm.uvmalloc
    rw [if_pos hlt]
    exact ⟨T, mp, npages oldsz, h, id, .inr ⟨by omega, rfl⟩⟩
  · have hmono : npages oldsz ≤ npages newsz := by
      unfold npages
      omega
    apply wp_mono (h.uvmalloc (Nat.le_of_not_lt hlt)) _ fun _ _ => id
    rintro r m'' ⟨T', ⟨rfl, mp', hg⟩ | ⟨rfl, hk, -⟩⟩
    · refine ⟨T', mp', npages oldsz + (npages r - npages oldsz), h.grown
        (fun _ => userPerm_flags) hg, fun hall => hall.grown hg, .inr ⟨by omega, ?_⟩⟩
      omega
    · exact ⟨T', mp, npages oldsz, h.kept hk, id, .inl ⟨rfl, rfl⟩⟩

end Xv6.Vm
