import Xv6.Kernel.Ownership
import Xv6.Vm.Isolate

/-!
# What `sbrk` reports and what it does

`growproc` computes the new size in 32 bits. With enough memory below, `sbrk` returns the old size
and the size changes by `n`, with zeroed pages where it grew; when no memory is left it returns -1
and nothing changes. A decrement by more than the size wraps around to a size that is larger than
the old one: `uvmdealloc` then does nothing and `sbrk` reports success.
-/

namespace Xv6.Kernel

open Prog Radix Vm

variable {L : Layout} {s : State} {p : Slot} {m m' : Mem} {B T T' : Multiset Nat} {mp mp' : Nat → Option Word} {root tf sz sz' : Nat}

/-- The memory of a process of size `sz` has become one of size `sz'`. -/
structure Resized (m m' : Mem) (root sz sz' : Nat) : Prop where
  mapped : ∀ v, v * PGSIZE < TRAPFRAME → ((translate m' root v).isSome ↔ v * PGSIZE < PGROUNDUP sz')
  zero : ∀ va, PGROUNDUP sz ≤ va → va < PGROUNDUP sz' → loadByte m' root va = some 0
  kept : ∀ v, v * PGSIZE < PGROUNDUP sz → v * PGSIZE < PGROUNDUP sz' → translate m' root v = translate m root v
  bytes : ∀ va, va < PGROUNDUP sz → va < PGROUNDUP sz' → loadByte m' root va = loadByte m root va

section

variable (h : Room L B m m root tf (npages sz) T mp)
include h

/-- A change of size, from what the page table has before and after. -/
theorem Resized.of_rooms (h' : Room L B m m' root tf (npages sz') T' mp')
    (hmp : ∀ v, v < npages sz → v < npages sz' → mp' v = mp v)
    (hrow : ∀ v w, v < npages sz → v < npages sz' → mp v = some w → m'.word (PTE2PA w) = m.word (PTE2PA w))
    (hnew : ∀ v, npages sz ≤ v → v < npages sz' → ∃ w, mp' v = some w ∧ m'.word (PTE2PA w) = zeroRow) :
    Resized m m' root sz sz' := by
  have hsz := h.sz_le
  have hsz' := h'.sz_le
  have hup : PGROUNDUP sz = npages sz * PGSIZE := PGROUNDUP_npages (by omega)
  have hup' : PGROUNDUP sz' = npages sz' * PGSIZE := PGROUNDUP_npages (by omega)
  have hva : ∀ {va N}, va < npages N * PGSIZE → npages N ≤ 32768 → va < TRAPFRAME ∧ va / PGSIZE < npages N := by
    intro va N hva hN
    rw [PGSIZE_eq] at hva
    show va < 0x3FFFFFE000 ∧ _
    rw [PGSIZE_eq]
    omega
  have hv : ∀ {v N}, v * PGSIZE < npages N * PGSIZE ↔ v < npages N := Nat.mul_lt_mul_right (by decide)
  have hn := h.n_le
  have hn' := h'.n_le
  have htf := TFPAGE_eq
  refine ⟨fun v hvt => ?_, fun va hlo hhi => ?_, fun v hlo hhi => ?_, fun va hlo hhi => ?_⟩
  · rw [hup', hv, translate_of_table h'.space.table (hvt.trans (by decide)), Option.isSome_map]
    constructor
    · intro hsome
      obtain ⟨w, hw⟩ := Option.isSome_iff_exists.mp hsome
      exact h'.space.lt_of_some (page_lt hvt) hw
    · intro hlt
      obtain ⟨w, hw, -⟩ := h'.space.user v hlt
      rw [hw]
      rfl
  · rw [hup] at hlo
    rw [hup'] at hhi
    obtain ⟨hva, hlt⟩ := hva hhi (by omega)
    obtain ⟨w, hw, hrow⟩ := hnew (va / PGSIZE) ((Nat.le_div_iff_mul_le (by decide)).mpr hlo) hlt
    rw [loadByte_of_table h'.space.table hva, hw, Option.map_some, hrow, getByte_zeroRow]
  · rw [hup, hv] at hlo
    rw [hup', hv] at hhi
    have hmax : v * PGSIZE < MAXVA := by
      rw [PGSIZE_eq, MAXVA_eq]
      omega
    rw [translate_of_table h'.space.table hmax, translate_of_table h.space.table hmax, hmp v hlo hhi]
  · rw [hup] at hlo
    rw [hup'] at hhi
    obtain ⟨hva₁, hlt⟩ := hva hlo (by omega)
    obtain ⟨-, hlt'⟩ := hva hhi (by omega)
    exact loadByte_congr h.space.table h'.space.table hva₁ (hmp _ hlt hlt') fun w => hrow _ w hlt hlt'

theorem uvmalloc_resizes (hle : sz ≤ sz') :
    wp (uvmalloc L root sz sz') (fun r m' => (r = sz' ∧ Resized m m' root sz sz') ∨ (r = 0 ∧ SpaceKept m m' root)) never m := by
  have hmono : npages sz ≤ npages sz' := by
    unfold npages
    omega
  apply wp_mono (h.uvmalloc hle) _ fun _ _ => id
  rintro r m' ⟨T', ⟨rfl, mp', hg⟩ | ⟨rfl, hk, -⟩⟩
  · have hroom := h.grown (fun _ => userPerm_flags) hg
    rw [Nat.add_sub_cancel' hmono] at hroom
    refine .inl ⟨rfl, .of_rooms h hroom (fun v hv _ => hg.old v (by omega)) (fun v w hv _ hw => ?_) fun v hv hv' => ?_⟩
    · exact hg.same _ (Multiset.mem_add.mpr (.inl (mem_pages hv hw)))
    · obtain ⟨page, hpage, hw, hrow⟩ := hg.new v hv (by omega)
      refine ⟨_, hw, ?_⟩
      rw [PTE2PA_entry hpage userPerm_flags.bits]
      exact hrow
  · exact .inr ⟨rfl, .of_same h.space hk.table hk.same.left⟩

theorem uvmdealloc_resizes (hle : sz' ≤ sz) :
    wp (uvmdealloc L root sz sz') (fun r m' => r = sz' ∧ Resized m m' root sz sz') never m := by
  have hmono : npages sz' ≤ npages sz := by
    unfold npages
    omega
  have hsplit : npages sz = npages sz' + (npages sz - npages sz') := by omega
  apply wp_mono h.uvmdealloc _ fun _ _ => id
  rintro r m' ⟨hr, hk⟩
  rw [Nat.min_eq_right hle] at hr
  subst hr
  have hroom : Room L B m m' root tf (npages r) T (unmapRange mp (npages r) (npages sz - npages r)) := (hsplit ▸ h).shrunk hk
  refine ⟨rfl, .of_rooms h hroom (fun v _ hv => if_neg (by omega)) (fun v w _ hv hw => ?_) fun v hv hv' => by omega⟩
  exact hk.same _ (Multiset.mem_add.mpr (.inl (mem_pages hv hw)))

end

/-- `sz + n` in 32 bits. -/
theorem add_wraps (n : BitVec 32) {sz : Nat} (hsz : sz ≤ 32768 * 4096) (hn : 0 ≤ (sz : Int) + n.toInt) :
    (((sz + n.toNat) % 2 ^ 32 : Nat) : Int) = sz + n.toInt := by
  have hlt := n.isLt
  have hcond := BitVec.toInt_eq_toNat_cond n
  split at hcond
  next => rw [Nat.mod_eq_of_lt (by omega), hcond, Nat.cast_add]
  next =>
    rw [show sz + n.toNat = (sz + n.toNat - 2 ^ 32) + 2 ^ 32 by omega, Nat.add_mod_right, Nat.mod_eq_of_lt (by omega)]
    omega

theorem growproc_resizes {n : BitVec 32} (h : Room L B s.mem s.mem (s.proc p).pagetable
    (s.proc p).trapframe (npages (s.proc p).sz) T mp)
    (hn : 0 ≤ ((s.proc p).sz : Int) + n.toInt) :
    wp (growproc L p n) (fun r s' => ∃ m',
      (r = 0 ∧ ∃ sz' : Nat, (sz' : Int) = (s.proc p).sz + n.toInt ∧ s' = (s.setMem m').setProc p ((s.proc p).setSz sz') ∧
        Resized s.mem m' (s.proc p).pagetable (s.proc p).sz sz') ∨
      (r = -1 ∧ s' = s.setMem m' ∧ SpaceKept s.mem m' (s.proc p).pagetable)) never s := by
  have hsz := h.sz_le
  have hmod : (s.proc p).sz % 2 ^ 32 = (s.proc p).sz := Nat.mod_eq_of_lt (by omega)
  have hnew := add_wraps n hsz hn
  generalize hsum : ((s.proc p).sz + n.toNat) % 2 ^ 32 = sz' at hnew
  have hlt : sz' % 2 ^ 32 = sz' := by
    rw [← hsum]
    exact Nat.mod_mod _ _
  unfold growproc
  rw [wp_bind, wp_read, hmod, hsum]
  apply wp_ite
  · intro hpos
    rw [wp_bind, wp_onMem]
    apply wp_mono (uvmalloc_resizes h (by omega)) _ fun _ _ h => h
    rintro r m' (⟨rfl, hresized⟩ | ⟨rfl, hkept⟩)
    · rw [hlt, if_neg (by omega)]
      exact ⟨m', .inl ⟨rfl, r, hnew, rfl, hresized⟩⟩
    · exact ⟨m', .inr ⟨rfl, rfl, hkept⟩⟩
  · intro hnpos
    apply wp_ite
    · intro hneg
      rw [wp_bind, wp_onMem]
      apply wp_mono (uvmdealloc_resizes h (by omega)) _ fun _ _ h => h
      rintro r m' ⟨rfl, hresized⟩
      rw [hlt]
      exact ⟨m', .inl ⟨rfl, r, hnew, rfl, hresized⟩⟩
    · intro hnneg
      have hzero : (s.proc p).sz = sz' := by omega
      refine ⟨s.mem, .inl ⟨rfl, sz', hnew, ?_, ?_⟩⟩
      · show s.setProc p ((s.proc p).setSz ((s.proc p).sz % 2 ^ 32)) = _
        rw [hmod, hzero]
        rfl
      · rw [← hzero]
        exact .of_rooms h h (fun _ _ _ => rfl) (fun _ _ _ _ _ => rfl) fun v hv hv' => by omega

/-- What `sbrk` is to do: it returns the old size and has changed it by `n`, or it returns -1 and
has changed nothing. -/
def Reported (s : State) (p : Slot) (n : BitVec 32) (r : Int) (s' : State) : Prop :=
  ∃ m', (r = (s.proc p).sz ∧ ∃ sz' : Nat, (sz' : Int) = (s.proc p).sz + n.toInt ∧
      s' = (s.setMem m').setProc p ((s.proc p).setSz sz') ∧ Resized s.mem m' (s.proc p).pagetable (s.proc p).sz sz') ∨
    (r = -1 ∧ s' = s.setMem m' ∧ SpaceKept s.mem m' (s.proc p).pagetable)

/-- `sys_sbrk` returns the old size if `growproc` succeeds. -/
theorem wp_sysSbrk {n : BitVec 32} {Q : Int → State → Prop} {R : State → Prop} (hsz : (s.proc p).sz ≤ 32768 * 4096)
    (h : wp (growproc L p n) (fun r s' => r = 0 ∧ R s' ∨ r = -1 ∧ Q (-1) s') never s)
    (hR : ∀ s', R s' → Q (s.proc p).sz s') : wp (sysSbrk L p n) Q never s := by
  have haddr : (BitVec.ofNat 32 (s.proc p).sz).toInt = (s.proc p).sz := by
    rw [BitVec.toInt_eq_toNat_cond, BitVec.toNat_ofNat, Nat.mod_eq_of_lt (by omega), if_pos (by omega)]
  unfold sysSbrk
  rw [wp_bind, wp_read]
  apply wp_seq h
  rintro r s' (⟨rfl, hdone⟩ | ⟨rfl, hfailed⟩)
  · rw [if_neg (by decide), wp_pure, haddr]
    exact hR s' hdone
  · rw [if_pos (by decide), wp_pure]
    exact hfailed

/-- A decrement by more than the size does nothing. -/
theorem growproc_below_zero {n : BitVec 32} (hsz : (s.proc p).sz ≤ 32768 * 4096) (hn : ((s.proc p).sz : Int) + n.toInt < 0) :
    wp (growproc L p n) (fun r s' => r = 0 ∧ (s'.proc p).sz = (s.proc p).sz) never s := by
  have hlt := n.isLt
  have hcond := BitVec.toInt_eq_toNat_cond n
  have hmod : (s.proc p).sz % 2 ^ 32 = (s.proc p).sz := Nat.mod_eq_of_lt (by omega)
  rw [if_neg (by omega)] at hcond
  have hwrap : ((s.proc p).sz + n.toNat) % 2 ^ 32 = (s.proc p).sz + n.toNat := Nat.mod_eq_of_lt (by omega)
  unfold growproc
  rw [wp_bind, wp_read, if_neg (by omega), if_pos (by omega), hmod, hwrap, wp_bind, wp_onMem]
  unfold uvmdealloc
  rw [if_pos (by omega), wp_pure, hmod]
  refine ⟨rfl, ?_⟩
  show ((State.setProc _ p _).proc p).sz = _
  rw [State.setProc_proc]
  rfl

/-- So `sbrk` reports a decrement that it has not made. -/
theorem sysSbrk_below_zero {n : BitVec 32} (hsz : (s.proc p).sz ≤ 32768 * 4096) (hn : ((s.proc p).sz : Int) + n.toInt < 0) :
    wp (sysSbrk L p n) (fun r s' => 0 ≤ r ∧ (s'.proc p).sz = (s.proc p).sz) never s := by
  apply wp_sysSbrk (R := fun s' => (s'.proc p).sz = (s.proc p).sz) hsz
  · exact wp_mono (growproc_below_zero hsz hn) (fun _ _ => .inl) fun _ _ => id
  · exact fun s' hs' => ⟨Int.natCast_nonneg _, hs'⟩

/-- For every process, wherever `kalloc` fails, `sbrk` does what it reports if and only if the
increment leaves a size. -/
theorem sbrk_reports (L : Layout) (s : State) (p : Slot) (n : BitVec 32) (B T : Multiset Nat) (mp : Nat → Option Word)
    (h : Room L B s.mem s.mem (s.proc p).pagetable (s.proc p).trapframe (npages (s.proc p).sz) T mp) :
    wp (sysSbrk L p n) (Reported s p n) never s ↔ 0 ≤ ((s.proc p).sz : Int) + n.toInt := by
  constructor
  · intro hreported
    by_contra hn
    obtain ⟨r, s', heq, hr, hs'⟩ := wp_returns (sysSbrk_below_zero (L := L) (n := n) h.sz_le (by omega))
    obtain ⟨m', ⟨-, sz', hsz', rfl, -⟩ | ⟨rfl, -⟩⟩ := wp_ok hreported heq
    · omega
    · omega
  · intro hn
    apply wp_sysSbrk h.sz_le _ fun s' => id
    apply wp_mono (growproc_resizes h hn) _ fun _ _ => id
    rintro r s' ⟨m', ⟨rfl, hdone⟩ | ⟨rfl, hfailed⟩⟩
    · exact .inl ⟨rfl, m', .inl ⟨rfl, hdone⟩⟩
    · exact .inr ⟨rfl, m', .inr ⟨rfl, hfailed⟩⟩

/-- The first process has an address space. -/
theorem exists_room : ∃ (s : State) (p : Slot) (B T : Multiset Nat) (mp : Nat → Option Word),
    Room fourPages B s.mem s.mem (s.proc p).pagetable (s.proc p).trapframe (npages (s.proc p).sz) T mp := by
  obtain ⟨s, p, -, hfresh⟩ := exists_reached fourPages_bootable
  obtain ⟨hcore, hst⟩ := hfresh.inv
  have hlive := hst.live (p := p) fun h => by cases hfresh.run.symm.trans h
  obtain ⟨R, T, mp, -, hroom, -⟩ := hcore.room hlive
  exact ⟨s, p, _, T, mp, hroom⟩

theorem sbrk_reports_first : ∃ s p, wp (sysSbrk fourPages p 4096) (fun r s' =>
    (r = (s.proc p).sz ∧ (s'.proc p).sz = (s.proc p).sz + 4096) ∨ (r = -1 ∧ (s'.proc p).sz = (s.proc p).sz)) never s := by
  obtain ⟨s, p, B, T, mp, h⟩ := exists_room
  have hn : (4096 : BitVec 32).toInt = 4096 := by decide
  refine ⟨s, p, wp_mono ((sbrk_reports fourPages s p 4096 B T mp h).mpr (by omega)) ?_ fun _ _ => id⟩
  rintro r s' ⟨m', ⟨hr, sz', hsz', hs', -⟩ | ⟨hr, hs', -⟩⟩
  · refine .inl ⟨hr, ?_⟩
    rw [hs', State.setProc_proc]
    show sz' = _
    omega
  · refine .inr ⟨hr, ?_⟩
    rw [hs']
    rfl

/-- `sbrk(-2147483648)` right after boot. -/
theorem sbrk_below_zero : ∃ s p, (∃ B T mp, Room fourPages B s.mem s.mem (s.proc p).pagetable (s.proc p).trapframe
      (npages (s.proc p).sz) T mp) ∧
    ∃ r s', sysSbrk fourPages p 0x80000000 s = .ok r s' ∧ r ≠ -1 ∧
      ((s'.proc p).sz : Int) ≠ (s.proc p).sz + (0x80000000 : BitVec 32).toInt := by
  obtain ⟨s, p, B, T, mp, h⟩ := exists_room
  have hsz := h.sz_le
  have hn : (0x80000000 : BitVec 32).toInt = -2147483648 := by decide
  obtain ⟨r, s', heq, hr, hs'⟩ := wp_returns (sysSbrk_below_zero (L := fourPages) (n := 0x80000000) hsz (by omega))
  exact ⟨s, p, ⟨B, T, mp, h⟩, r, s', heq, by omega, by omega⟩

end Xv6.Kernel
