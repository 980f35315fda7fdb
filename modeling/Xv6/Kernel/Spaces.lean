import Xv6.Kernel.Image
import Xv6.Vm.Space

/-!
# The life of an address space

`procPagetable` makes a space without user pages, `procFreepagetable` gives all its pages back, and
what is copied into a space goes to its user pages and nowhere else.
-/

namespace Xv6.Kernel

open Prog Radix Vm Function Multiset

variable {L : Layout} {m m' : Mem} {B T : Multiset Nat} {root tf n : Nat} {mp : Nat → Option Word}

/-! ## Freeing -/

/-- A table without entries has none at any page number. -/
theorem leaf_none {word : Nat → Nat → Word} (h : PageTable word root T mp) (hnone : ∀ v, v < NPAGES → mp v = none) (v : Nat) :
    sv39.leaf word 2 root v = none := by
  have hlt : v % NPAGES < NPAGES := Nat.mod_lt v (by decide)
  rw [leaf_mod (v := v % NPAGES) fan_pos (Nat.mod_mod v NPAGES).symm, h.leaf _ hlt]
  exact hnone _ hlt

theorem uvmfree_spec {sz : Nat} (hsz : npages sz = n) (ht : PageTable m.word root T mp)
    (huser : ∀ v, v < n → ∃ w, mp v = some w ∧ isLeaf w = true) (hrest : ∀ v, v < NPAGES → n ≤ v → mp v = none)
    (hp : Pool L m (T + (pages mp 0 n + B))) :
    wp (uvmfree L root sz) (fun _ m' => Pool L m' B ∧ SameOn B m.word m'.word) never m := by
  have hle : n ≤ 32768 := by
    have hcard := hp.card_le
    have hpages : (pages mp 0 n).card = n := card_pages fun u _ hu => huser u (by omega)
    rw [card_add, card_add, hpages] at hcard
    omega
  unfold uvmfree
  apply wp_seq (Q := fun _ m' => Kept L B m m' root T (unmapRange mp 0 n))
  · apply wp_onlyIf
    · intro _
      have hlt : sz < 2 ^ 63 := by
        rw [npages] at hsz
        omega
      rw [PGROUNDUP_npages hlt, hsz, Nat.mul_div_cancel n (by decide)]
      have hva : (0 + n) * PGSIZE ≤ MAXVA := by
        rw [PGSIZE_eq, MAXVA_eq]
        omega
      have hunmap : wp (uvmunmap L root (0 * PGSIZE) n true) _ never m :=
        uvmunmap_spec hva ht (fun u _ hu => huser u (by omega)) hp
      rw [zero_mul] at hunmap
      exact hunmap
    · intro hzero
      have hn : n = 0 := by
        rw [npages] at hsz
        omega
      subst hn
      rw [pages_zero, zero_add] at hp
      rw [unmapRange_zero]
      exact ⟨ht, hp, .refl _ _⟩
  · intro _ m₁ hkept
    have hnone : ∀ v, v < NPAGES → unmapRange mp 0 n v = none := by
      intro v hv
      unfold unmapRange
      split
      · rfl
      · exact hrest v hv (by omega)
    have htables := hkept.table.tables
    apply wp_mono (freewalk_spec hkept.table.nodes (leaf_none hkept.table hnone) (htables.symm ▸ hkept.pool)) _ fun _ _ => id
    rintro _ m₂ ⟨hp₂, hsame₂⟩
    exact ⟨hp₂, hkept.same.trans hsame₂⟩

/-- The entry of one page is removed, its page stays out. -/
theorem uvmunmap_one {v : Nat} {w : Word} (hva : (v + 1) * PGSIZE ≤ MAXVA) (ht : PageTable m.word root T mp)
    (hw : mp v = some w) (hleaf : isLeaf w = true) (hp : Pool L m (T + B)) :
    wp (uvmunmap L root (v * PGSIZE) 1 false) (fun _ m' => Kept L B m m' root T (unmapRange mp v 1)) never m := by
  apply uvmunmap_spec hva ht _ (by rw [given, if_neg (by decide), zero_add]; exact hp)
  intro u hu hu'
  have huv : u = v := by omega
  exact ⟨w, huv ▸ hw, hleaf⟩

theorem procFreepagetable_spec {sz : Nat} (hsz : npages sz = n) (h : Room L B m m' root tf n T mp) :
    wp (procFreepagetable L root sz) (fun _ m'' => Pool L m'' B ∧ SameOn B m.word m''.word) never m' := by
  have htf := TFPAGE_eq
  have htr := TRPAGE_eq
  have hle := h.n_le
  unfold procFreepagetable
  rw [show TRAMPOLINE = TRPAGE * PGSIZE from rfl, show TRAPFRAME = TFPAGE * PGSIZE from rfl]
  apply wp_seq (uvmunmap_one (by decide) h.space.table h.space.trampoline (by rw [isLeaf_entry]; decide) h.pool)
  intro _ m₁ h₁
  have htf₁ : unmapRange mp TRPAGE 1 TFPAGE = some (PA2PTE tf ||| (PTE_R ||| PTE_W) ||| PTE_V) := by
    rw [unmapRange, if_neg (by omega)]
    exact h.space.trapframe
  apply wp_seq (uvmunmap_one (by decide) h₁.table htf₁ (by rw [isLeaf_entry]; decide) h₁.pool)
  intro _ m₂ h₂
  have hlow : ∀ u, u < n → unmapRange (unmapRange mp TRPAGE 1) TFPAGE 1 u = mp u := by
    intro u hu
    rw [unmapRange, if_neg (by omega), unmapRange, if_neg (by omega)]
  have hp₂ : Pool L m₂ (T + (pages (unmapRange (unmapRange mp TRPAGE 1) TFPAGE 1) 0 n + B)) := by
    rw [pages_congr fun u _ hu => hlow u (by omega)]
    exact h₂.pool
  have huser : ∀ v, v < n → ∃ w, unmapRange (unmapRange mp TRPAGE 1) TFPAGE 1 v = some w ∧ isLeaf w = true := by
    intro v hv
    rw [hlow v hv]
    exact h.space.user v hv
  have hrest : ∀ v, v < NPAGES → n ≤ v → unmapRange (unmapRange mp TRPAGE 1) TFPAGE 1 v = none := by
    intro v hv hnv
    unfold unmapRange
    split
    · rfl
    · split
      · rfl
      · exact h.space.rest v hv hnv (by omega) (by omega)
  apply wp_mono (uvmfree_spec hsz h₂.table huser hrest hp₂) _ fun _ _ => id
  rintro _ m₃ ⟨hp₃, hsame₃⟩
  exact ⟨hp₃, h.same.trans (h₁.same.right.trans (h₂.same.right.trans hsame₃))⟩

/-! ## Making -/

theorem uvmcreate_spec (hp : Pool L m B) :
    wp uvmcreate (fun r m' => (r = 0 ∧ Pool L m' B ∧ SameOn B m.word m'.word ∧ Short L m B 1) ∨
      (r ≠ 0 ∧ Extends L B 1 m m' r 0 {r} fun _ => none)) never m := by
  unfold uvmcreate
  apply wp_seq (kalloc_spec hp)
  intro page m₁ halloc
  cases halloc with
  | failed pool same short _ =>
    rw [if_pos rfl, wp_pure]
    exact .inl ⟨rfl, pool, fun _ _ => by rw [same], short⟩
  | page page pool same fails =>
    have hne := pool.ne_zero (mem_cons_self _ _)
    obtain ⟨hp₂, hsame₂⟩ := fill_page pool same fun _ => 0 * 0x0101010101010101
    rw [if_neg hne, wp_bind, memset, wp_change, wp_pure]
    refine .inr ⟨hne, ⟨.blank fun j _ => ?_, ?_, hsame₂⟩, le_rfl, fails, Multiset.zero_le _⟩
    · rw [Mem.setPage_self]
      decide
    · rw [singleton_add]
      exact hp₂

theorem procPagetable_spec (hp : Pool L m B) :
    wp (procPagetable L tf) (fun r m' => (r = 0 ∧ Pool L m' B ∧ SameOn B m.word m'.word ∧ Short L m B 5) ∨
      (r ≠ 0 ∧ ∃ T mp, Room L B m m' r tf 0 T mp ∧ T.card ≤ 5 ∧ (m.fails = [] → m'.fails = []))) never m := by
  have htf := TFPAGE_eq
  have htr := TRPAGE_eq
  unfold procPagetable
  rw [show TRAMPOLINE = TRPAGE * PGSIZE from rfl, show TRAPFRAME = TFPAGE * PGSIZE from rfl]
  apply wp_seq (uvmcreate_spec hp)
  rintro root m₁ (⟨rfl, hp₁, hsame₁, hshort⟩ | ⟨hne, hext₁⟩)
  · rw [if_pos rfl, wp_pure]
    exact .inl ⟨rfl, hp₁, hsame₁, hshort.mono (by decide)⟩
  rw [if_neg hne]
  -- a table that could not be filled is given back
  have hfree : ∀ {T m₂} {mp : Nat → Option Word}, Kept L B m m₂ root T mp → (∀ v, v < NPAGES → mp v = none) →
      Short L m B 5 → wp (do uvmfree L root 0; return 0) (fun r m' =>
        (r = 0 ∧ Pool L m' B ∧ SameOn B m.word m'.word ∧ Short L m B 5) ∨
        (r ≠ 0 ∧ ∃ T mp, Room L B m m' r tf 0 T mp ∧ T.card ≤ 5 ∧ (m.fails = [] → m'.fails = []))) never m₂ := by
    intro T m₂ mp hkept hnone hshort
    have hp₂ : Pool L m₂ (T + (pages mp 0 0 + B)) := by
      rw [pages_zero, zero_add]
      exact hkept.pool
    apply wp_seq (uvmfree_spec (show npages 0 = 0 from rfl) hkept.table (fun v hv => absurd hv (Nat.not_lt_zero v))
      (fun v hv _ => hnone v hv) hp₂)
    rintro _ m₃ ⟨hp₃, hsame₃⟩
    exact .inl ⟨rfl, hp₃, hkept.same.trans hsame₃, hshort⟩
  apply wp_seq (mappages_spec (by decide) hext₁.table hext₁.pool rfl)
  intro r m₂ hmapped
  cases hmapped with
  | failed T₂ ext₂ short₂ =>
    rw [if_pos (by decide)]
    exact hfree (hext₁.toKept.trans ext₂.toKept) (fun _ _ => rfl)
      (Short.mono (by simpa [Short] using hext₁.short short₂) (by decide))
  | done T₂ ext₂ =>
    rw [if_neg (by decide)]
    have hfree₂ : update (fun _ => none) TRPAGE
        (some (PA2PTE L.trampoline ||| (PTE_R ||| PTE_X) ||| PTE_V)) TFPAGE = none := update_of_ne (by omega) ..
    apply wp_seq (mappages_spec (by decide) ext₂.table ext₂.pool hfree₂)
    intro r m₃ hmapped
    cases hmapped with
    | failed T₃ ext₃ short₃ =>
      rw [if_pos (by decide)]
      have hkept := (hext₁.toKept.trans ext₂.toKept).trans ext₃.toKept
      apply wp_seq (uvmunmap_one (by decide) hkept.table (update_self ..) (by rw [isLeaf_entry]; decide) hkept.pool)
      intro _ m₄ hkept₄
      apply hfree (hkept.trans hkept₄)
      · intro v _
        unfold unmapRange
        split
        · rfl
        · exact update_of_ne (by omega) ..
      · exact Short.mono (by simpa [Short] using (hext₁.trans ext₂).short short₃) (by decide)
    | done T₃ ext₃ =>
      rw [if_neg (by decide), wp_pure]
      have hext := (hext₁.trans ext₂).trans ext₃
      refine .inr ⟨hne, T₃, _, ⟨⟨hext.table, fun v hv => absurd hv (Nat.not_lt_zero v), update_self .., ?_, ?_⟩,
        ?_, hext.same⟩, by simpa using hext.card, hext.fails⟩
      · rw [update_of_ne (by omega), update_self]
      · intro v _ _ htfv htrv
        rw [update_of_ne htfv, update_of_ne htrv]
      · rw [pages_zero, zero_add]
        exact hext.pool

end Xv6.Kernel
