import Xv6.Kernel.Spaces
import Xv6.Vm.User

/-!
# What `exec` builds

Whatever the bytes of the file say, the space that `exec` is building has `npages sz` pages at each
of its exits, where `sz` is the size that the exit knows of. So `procFreepagetable` with that size
takes the whole space back. A segment is loaded only into pages that `uvmalloc` has just made sure
of: the checks on its header exclude that its end wraps, and a file size cut to 32 bits is not above
the memory size.
-/

namespace Xv6.Kernel

open Prog Radix Vm

variable {L : Layout} {m m' : Mem} {B T : Multiset Nat} {root tf n : Nat} {mp : Nat → Option Word}
  {φ ε ι : Type} {F : Files φ ε ι} {ip : ι} {f : φ}

/-! ## `loadseg` -/

variable {sp stackbase sz va : Nat} {argv : List Nat}

/-- `walkaddr` finds every page of a space that is all the user's. -/
theorem walkaddr_user (hva : va < n * PGSIZE) (hall : AllUser mp n)
    (h : Room L B m m' root tf n T mp) :
    wp (walkaddr root va) (fun r m'' => m'' = m' ∧ r ≠ 0 ∧ r ∈ pages mp 0 n) never m' := by
  have hle := h.n_le
  have hmax : va < MAXVA := by
    rw [PGSIZE_eq] at hva
    rw [MAXVA_eq]
    omega
  have hv : va / PGSIZE < n := Nat.div_lt_of_lt_mul (by rw [mul_comm]; exact hva)
  obtain ⟨w, hw, -⟩ := h.space.user _ hv
  have hmem : PTE2PA w ∈ pages mp 0 n := mem_pages hv hw
  rw [wp_walkaddr h.space.table hmax, hw, userPage, if_neg (hall _ w hv hw)]
  exact ⟨rfl, h.pool.ne_zero (by simp [hmem]), hmem⟩

theorem loadLoop_spec {offset k i : Nat} (hend : va + sz ≤ n * PGSIZE) (hk : k = pagesUpTo i sz)
    (hall : AllUser mp n) (h : Room L B m m' root tf n T mp) :
    wp (loadLoop F ip root va offset sz k i) (fun _ t => Room L B m t.1 root tf n T mp) inSecond (m', f) := by
  induction k generalizing i m' f with
  | zero => exact h
  | succ k ih =>
    unfold pagesUpTo at hk
    rw [PGSIZE_eq] at hk
    rw [loadLoop]
    apply wp_seq (wp_first (walkaddr_user (by omega) hall h))
    rintro pa ⟨m₁, f₁⟩ ⟨rfl, hne, hpa⟩
    rw [if_neg hne]
    apply wp_seq wp_second
    rintro bytes ⟨m₂, f₂⟩ rfl
    have hstore : wp (store pa 0 bytes) (fun _ m₃ => Room L B m m₃ root tf n T mp) never m₂ := h.write hpa _
    apply wp_seq (wp_first hstore)
    rintro _ ⟨m₃, f₃⟩ hroom
    apply wp_ite
    · intro _
      exact hroom
    · intro _
      apply ih _ hroom
      unfold pagesUpTo
      rw [PGSIZE_eq]
      omega

theorem loadseg_spec {offset : Nat} (haligned : va % PGSIZE = 0) (hend : va + sz ≤ n * PGSIZE)
    (hall : AllUser mp n) (h : Room L B m m' root tf n T mp) :
    wp (loadseg F ip root va offset sz) (fun _ t => Room L B m t.1 root tf n T mp) inSecond (m', f) := by
  unfold loadseg
  rw [if_neg (not_not.mpr haligned)]
  exact loadLoop_spec hend rfl hall h

/-! ## The program headers -/

/-- A space of `sz` bytes whose pages are all the user's. -/
def Loaded (L : Layout) (B : Multiset Nat) (m : Mem) (root tf : Nat) (r : Bool × Nat) (m' : Mem) : Prop :=
  ∃ T mp, Room L B m m' root tf (npages r.2) T mp ∧ AllUser mp (npages r.2)

/-- A header that passes the checks names bytes below the new size. -/
theorem segment_end {ph : Proghdr} {r : Nat} (hsize : ¬ ph.memsz < ph.filesz)
    (hwrap : ¬ (ph.vaddr + ph.memsz) % 2 ^ 64 < ph.vaddr)
    (hr : r = max sz ((ph.vaddr + ph.memsz) % 2 ^ 64)) (hv : ph.vaddr < 2 ^ 64)
    (hm : ph.memsz < 2 ^ 64) : ph.vaddr + ph.filesz % 2 ^ 32 ≤ npages r * PGSIZE := by
  have hmod : ph.filesz % 2 ^ 32 ≤ ph.filesz := Nat.mod_le ..
  unfold npages
  rw [PGSIZE_eq]
  omega

theorem loadSegment_spec {ph : Proghdr} (hv : ph.vaddr < 2 ^ 64) (hm : ph.memsz < 2 ^ 64)
    (h : Loaded L B m root tf (true, sz) m') :
    wp (loadSegment F ip L root ph sz) (fun r t => Loaded L B m root tf r t.1) inSecond (m', f) := by
  unfold loadSegment
  apply wp_ite
  · intro _
    exact h
  · intro _
    apply wp_ite
    · intro _
      exact h
    · intro hsize
      apply wp_ite
      · intro _
        exact h
      · intro hwrap
        obtain ⟨T, mp, hroom, hall⟩ := h
        apply wp_seq (wp_first (uvmalloc_spec hroom))
        rintro r ⟨m₁, f₁⟩ ⟨T₁, mp₁, n₁, hroom₁, hall₁, hr⟩
        have hall₁ := hall₁ hall
        apply wp_ite
        · intro hzero
          -- a size of 0 is a failure, or the old size was 0 as well
          have hn : n₁ = npages sz := by
            rcases hr with ⟨-, hn⟩ | ⟨hmax, hn⟩
            · exact hn
            · rw [hn, show r = sz by omega]
          subst hn
          exact ⟨T₁, mp₁, hroom₁, hall₁⟩
        · intro hne
          obtain ⟨hmax, rfl⟩ : r = max sz ((ph.vaddr + ph.memsz) % 2 ^ 64) ∧ n₁ = npages r :=
            hr.resolve_left fun hfail => hne hfail.1
          apply wp_ite
          · intro _
            exact ⟨T₁, mp₁, hroom₁, hall₁⟩
          · intro haligned
            apply wp_seq (loadseg_spec (not_not.mp haligned) (segment_end hsize hwrap hmax hv hm) hall₁ hroom₁)
            rintro _ ⟨m₂, f₂⟩ hroom₂
            exact ⟨T₁, mp₁, hroom₂, hall₁⟩

theorem ofBytesLE_lt (bytes : List UInt8) : ofBytesLE bytes < 256 ^ bytes.length := by
  induction bytes with
  | nil => decide
  | cons b bs ih =>
    have hb : b.toNat < 256 := b.toNat_lt
    rw [ofBytesLE, List.length_cons, Nat.pow_succ]
    omega

theorem field_lt (bytes : List UInt8) (off n : Nat) : field bytes off n < 256 ^ n :=
  (ofBytesLE_lt _).trans_le (Nat.pow_le_pow_right (by decide) (List.length_take_le ..))

theorem loadProgram_spec {k off : Nat} (h : Loaded L B m root tf (true, sz) m') :
    wp (loadProgram F ip L root k off sz) (fun r t => Loaded L B m root tf r t.1) inSecond (m', f) := by
  induction k generalizing off sz m' f with
  | zero => exact h
  | succ k ih =>
    rw [loadProgram]
    apply wp_seq wp_second
    rintro bytes ⟨_, f₁⟩ rfl
    apply wp_ite
    · intro _
      exact h
    · intro _
      apply wp_seq (loadSegment_spec (field_lt _ 16 8) (field_lt _ 40 8) h)
      rintro r ⟨m₁, f₂⟩ hloaded
      apply wp_ite
      · intro _
        exact ih hloaded
      · intro _
        exact hloaded

/-! ## The stack -/

section

variable (h : Room L B m m' root tf n T mp)
include h

theorem pushArg_spec {argc page : Nat} :
    wp (pushArg root stackbase argc page sp) (fun _ m'' => Room L B m m'' root tf n T mp) never m' := by
  unfold pushArg
  apply wp_ite
  · intro _
    exact h
  · intro _
    rw [wp_bind, wp_read]
    generalize pageString (m'.word page) = arg
    generalize pushed sp (arg.length + 1) = sp'
    apply wp_ite
    · intro _
      exact h
    · intro _
      apply wp_seq (copyout_spec h)
      intro r m₁ h₁
      apply wp_ite <;> exact fun _ => h₁

theorem pushArgs_spec {ustack : List Nat} :
    wp (pushArgs root stackbase argv sp ustack) (fun _ m'' => Room L B m m'' root tf n T mp) never m' := by
  induction argv generalizing sp ustack m' with
  | nil => exact h
  | cons page argv ih =>
    rw [pushArgs]
    apply wp_seq (pushArg_spec h)
    intro r m₁ h₁
    cases r with
    | none => exact h₁
    | some sp => exact ih h₁

theorem pushUstack_spec {ustack : List Nat} :
    wp (pushUstack root stackbase sp ustack) (fun _ m'' => Room L B m m'' root tf n T mp) never m' := by
  unfold pushUstack
  apply wp_ite
  · intro _
    exact h
  · intro _
    apply wp_seq (copyout_spec h)
    intro r m₁ h₁
    apply wp_ite <;> exact fun _ => h₁

theorem pushStack_spec :
    wp (pushStack root sz argv) (fun _ m'' => Room L B m m'' root tf n T mp) never m' := by
  unfold pushStack
  apply wp_seq (pushArgs_spec h)
  intro r m₁ h₁
  cases r with
  | none => exact h₁
  | some stack =>
    cases stack with
    | mk sp ustack =>
      generalize sz - PGSIZE = stackbase
      exact pushUstack_spec h₁

end

/-- The size of the space that is freed or becomes the process's. -/
def Image.size : Image → Nat
  | .bad sz => sz
  | .ready _ sz _ => sz

theorem buildImage_spec (h : Room L B m m' root tf (npages sz) T mp) :
    wp (buildImage L root sz argv) (fun image m'' => ∃ T mp, Room L B m m'' root tf (npages image.size) T mp)
      never m' := by
  unfold buildImage
  have hle : npages sz + B.card ≤ 32768 := h.n_le
  have hsz : sz ≤ 32768 * 4096 := by
    rw [npages] at hle
    omega
  have hround : PGROUNDUP sz = npages sz * PGSIZE := PGROUNDUP_npages (by omega)
  rw [hround, Nat.mod_eq_of_lt (by rw [PGSIZE_eq]; omega)]
  have hroom' : Room L B m m' root tf (npages (npages sz * PGSIZE)) T mp := (npages_mul (npages sz)).symm ▸ h
  apply wp_seq (uvmalloc_spec hroom')
  rintro r m₂ ⟨T₂, mp₂, n₂, hroom₂, -, hr⟩
  apply wp_ite
  · intro hzero
    have hn : n₂ = npages (npages sz * PGSIZE) := by
      rcases hr with ⟨-, hn⟩ | ⟨hmax, hn⟩
      · exact hn
      · rw [PGSIZE_eq] at hmax
        omega
    subst hn
    exact ⟨T₂, mp₂, hroom₂⟩
  · intro hne
    have hr := hr.resolve_left fun hfail => hne hfail.1
    have hn := hr.2
    have hmax := hr.1
    subst hn
    have hguard : r - 2 * PGSIZE = npages sz * PGSIZE := by omega
    have hlt : npages sz < npages r := by
      rw [PGSIZE_eq] at hmax
      rw [npages.eq_1 r]
      omega
    rw [hguard]
    apply wp_seq (uvmclear_spec hlt hroom₂)
    rintro _ m₃ ⟨mp₃, hroom₃⟩
    apply wp_seq (pushStack_spec hroom₃)
    intro stack m₄ hroom₄
    cases stack with
    | none => exact ⟨T₂, mp₃, hroom₄⟩
    | some top => exact ⟨T₂, mp₃, hroom₄⟩

end Xv6.Kernel
