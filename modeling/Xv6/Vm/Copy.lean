import Xv6.Vm.Bytes
import Xv6.Vm.Translate
import Xv6.Vm.User

/-!
# `copyout`, `copyin` and `copyinstr`, byte by byte

Here the kernel's buffer is in memory too, as it is for the source: `copyout` reads it and the two
others write it. The functions go through the user's memory page by page; what they do is what a
copy of one byte after the other does, up to the first byte that the user may not access. So they
succeed when all bytes are accessible, and otherwise leave the copy of those before the first bad
page.
-/

namespace Xv6.Vm

open Prog Radix List

/-! ## What the user may access -/

/-- The frame of a page with `PTE_V` and `PTE_U` below `MAXVA`. -/
def userFrame (m : Mem) (root v : Nat) : Option Nat :=
  (translate m root v).bind fun x => if x.2 &&& PTE_U = 0 then none else some x.1

/-- The physical address of a byte that the user may access. -/
def userAddr (m : Mem) (root a : Nat) : Option Nat := Paged.addr PGSIZE (userFrame m root) a

/-- Where the byte at a user address is stored. -/
def place (m : Mem) (root a : Nat) : Nat := (userAddr m root a).getD 0

/-- The user's bytes from an address on. -/
def userBytes (m : Mem) (root va n : Nat) : List UInt8 := (range n).map fun i => m.byte (place m root (va + i))

/-- How many of `n` bytes the user may access, up to the first bad page. -/
def accessible (m : Mem) (root va n : Nat) : Nat := Paged.reach PGSIZE (userFrame m root) va n

/-- The frames that the user may access are not 0, and distinct from the pages of the page table. -/
structure Clear (m : Mem) (root : Nat) : Prop where
  nonzero : ∀ v pa, userFrame m root v = some pa → pa ≠ 0
  table : ∀ v pa, userFrame m root v = some pa → pa ∉ sv39.tables m.word 2 root

/-- They are also distinct from the pages of the kernel's buffer, which is not in the page table
either. -/
structure Apart (m : Mem) (root buf len : Nat) : Prop extends Clear m root where
  buffer : ∀ v pa i, userFrame m root v = some pa → i < len → PGROUNDDOWN (buf + i) ≠ pa
  kernel : ∀ i, i < len → PGROUNDDOWN (buf + i) ∉ sv39.tables m.word 2 root

/-! ## The functions of `vm.c` -/

namespace Buf

/-- `memmove(dst, src, n)` -/
def memmove (dst src n : Nat) : Call Unit := change fun m => m.putBytes dst (m.bytes src n)

def copyoutLoop (pagetable : Nat) : Nat → Nat → Nat → Nat → Call Int
  | 0, _, _, _ => return 0
  | fuel + 1, dstva, src, len =>
    if len = 0 then return 0
    else do
      let pa0 ← walkaddr pagetable (PGROUNDDOWN dstva)
      if pa0 = 0 then return -1
      else
        memmove (pa0 + (dstva - PGROUNDDOWN dstva)) src (min (PGSIZE - (dstva - PGROUNDDOWN dstva)) len)
        copyoutLoop pagetable fuel ((PGROUNDDOWN dstva + PGSIZE) % 2 ^ 64)
          (src + min (PGSIZE - (dstva - PGROUNDDOWN dstva)) len) (len - min (PGSIZE - (dstva - PGROUNDDOWN dstva)) len)

/-- Copy `len` bytes from `src` to virtual address `dstva` in a given page table. -/
def copyout (pagetable dstva src len : Nat) : Call Int := copyoutLoop pagetable len dstva src len

def copyinLoop (pagetable : Nat) : Nat → Nat → Nat → Nat → Call Int
  | 0, _, _, _ => return 0
  | fuel + 1, dst, srcva, len =>
    if len = 0 then return 0
    else do
      let pa0 ← walkaddr pagetable (PGROUNDDOWN srcva)
      if pa0 = 0 then return -1
      else
        memmove dst (pa0 + (srcva - PGROUNDDOWN srcva)) (min (PGSIZE - (srcva - PGROUNDDOWN srcva)) len)
        copyinLoop pagetable fuel (dst + min (PGSIZE - (srcva - PGROUNDDOWN srcva)) len)
          ((PGROUNDDOWN srcva + PGSIZE) % 2 ^ 64) (len - min (PGSIZE - (srcva - PGROUNDDOWN srcva)) len)

/-- Copy `len` bytes to `dst` from virtual address `srcva` in a given page table. -/
def copyin (pagetable dst srcva len : Nat) : Call Int := copyinLoop pagetable len dst srcva len

/-- The inner loop of `copyinstr`: `n` bytes from `p` to `dst`, up to a null. -/
def copyChars : Nat → Nat → Nat → Call Bool
  | 0, _, _ => return false
  | n + 1, p, dst => do
    let c ← read fun m => m.byte p
    if c = 0 then
      change fun m => m.putByte dst 0
      return true
    else
      change fun m => m.putByte dst c
      copyChars n (p + 1) (dst + 1)

/-- The loop of `copyinstr`, with the function that looks up a page. -/
def copyinstrLoop (lookup : Nat → Call Nat) : Nat → Nat → Nat → Nat → Call Int
  | 0, _, _, _ => return -1
  | fuel + 1, dst, srcva, max =>
    if max = 0 then return -1
    else do
      let pa0 ← lookup (PGROUNDDOWN srcva)
      if pa0 = 0 then return -1
      else
        let gotNull ← copyChars (min (PGSIZE - (srcva - PGROUNDDOWN srcva)) max) (pa0 + (srcva - PGROUNDDOWN srcva)) dst
        if gotNull = true then return 0
        else
          copyinstrLoop lookup fuel (dst + min (PGSIZE - (srcva - PGROUNDDOWN srcva)) max)
            ((PGROUNDDOWN srcva + PGSIZE) % 2 ^ 64) (max - min (PGSIZE - (srcva - PGROUNDDOWN srcva)) max)

/-- Copy bytes to `dst` from virtual address `srcva` in a given page table, until a null, or `max`.
-/
def copyinstr (pagetable dst srcva max : Nat) : Call Int := copyinstrLoop (walkaddr pagetable) max dst srcva max

end Buf

variable {m m' : Mem} {root va a v pa n : Nat}

/-! ## The walk for one page -/

theorem userFrame_leaf (hv : v * PGSIZE < MAXVA) :
    userFrame m root v = (sv39.leaf m.word 2 root v).bind fun w => if w &&& PTE_U = 0 then none else some (PTE2PA w) := by
  have hflags : ∀ w : Word, PTE_FLAGS w &&& PTE_U = w &&& PTE_U := fun w => by
    unfold PTE_FLAGS
    rw [BitVec.and_assoc]
    rfl
  unfold userFrame
  rw [translate_eq hv]
  cases sv39.leaf m.word 2 root v with
  | none => rfl
  | some w =>
    rw [Option.map_some, Option.bind_some, Option.bind_some, hflags]

theorem userFrame_high (hv : ¬ v * PGSIZE < MAXVA) : userFrame m root v = none := by
  unfold userFrame translate walk
  rw [if_pos (Nat.le_of_not_lt hv)]
  rfl

theorem userFrame_mod (h : userFrame m root v = some pa) : pa % PGSIZE = 0 := by
  unfold userFrame at h
  by_cases hv : v * PGSIZE < MAXVA
  · rw [translate_eq hv] at h
    obtain ⟨x, hx, hpa⟩ := Option.bind_eq_some_iff.mp h
    obtain ⟨w, -, rfl⟩ := Option.map_eq_some_iff.mp hx
    split at hpa
    next => cases hpa
    next =>
      cases hpa
      exact PTE2PA_mod w
  · rw [← userFrame, userFrame_high hv] at h
    cases h

theorem PGROUNDDOWN_div (a : Nat) : PGROUNDDOWN a / PGSIZE = a / PGSIZE := Nat.mul_div_cancel _ (by decide)

theorem userAddr_lt {a : Nat} (h : (userAddr m root a).isSome) : a < MAXVA := by
  by_contra hge
  have hpage : ¬ a / PGSIZE * PGSIZE < MAXVA := by
    rw [MAXVA_eq] at hge ⊢
    rw [PGSIZE_eq]
    omega
  rw [userAddr, Paged.addr_isSome, userFrame_high hpage] at h
  cases h

/-- What `walkaddr` returns for the page of an address. -/
theorem walkaddr_eq (a : Nat) :
    walkaddr root (PGROUNDDOWN a) m = .ok ((userFrame m root (a / PGSIZE)).getD 0) m := by
  have hspec : wp (walkaddr root (PGROUNDDOWN a)) (fun r m' => r = (userFrame m root (a / PGSIZE)).getD 0 ∧ m' = m) never m := by
    by_cases ha : PGROUNDDOWN a < MAXVA
    · rw [wp_walkaddr_leaf ha, PGROUNDDOWN_div, userFrame_leaf (v := a / PGSIZE) ha]
      refine ⟨?_, rfl⟩
      cases sv39.leaf m.word 2 root (a / PGSIZE) with
      | none => rfl
      | some w =>
        rw [userPage, Option.bind_some]
        split <;> rfl
    · rw [userFrame_high (v := a / PGSIZE) ha]
      unfold walkaddr
      rw [if_pos (Nat.le_of_not_lt ha)]
      exact ⟨rfl, rfl⟩
  obtain ⟨r, m', hok, rfl, rfl⟩ := wp_returns hspec
  exact hok

/-- What the user may access is decided by the page table alone. -/
theorem userFrame_congr (hs : SameOn (sv39.tables m.word 2 root) m.word m'.word) : userFrame m' root = userFrame m root := by
  funext v
  by_cases hv : v * PGSIZE < MAXVA
  · rw [userFrame_leaf hv, userFrame_leaf hv, leaf_congr fan_pos hs]
  · rw [userFrame_high hv, userFrame_high hv]

theorem Clear.congr (h : Clear m root) (hs : SameOn (sv39.tables m.word 2 root) m.word m'.word) : Clear m' root := by
  refine ⟨fun v pa hpa => ?_, fun v pa hpa => ?_⟩
  · rw [userFrame_congr hs] at hpa
    exact h.nonzero v pa hpa
  · rw [userFrame_congr hs] at hpa
    rw [tables_congr hs]
    exact h.table v pa hpa

theorem place_congr (hs : SameOn (sv39.tables m.word 2 root) m.word m'.word) : place m' root = place m root := by
  unfold place userAddr
  rw [userFrame_congr hs]

theorem accessible_congr (hs : SameOn (sv39.tables m.word 2 root) m.word m'.word) (va n : Nat) :
    accessible m' root va n = accessible m root va n := by
  unfold accessible
  rw [userFrame_congr hs]

variable {i k p : Nat} {bs xs : List UInt8}

/-- The bytes of a page stand side by side. -/
theorem place_page (hf : userFrame m root (va / PGSIZE) = some pa) (hi : i < PGSIZE - va % PGSIZE) :
    place m root (va + i) = pa + va % PGSIZE + i := by
  unfold place userAddr
  rw [Paged.addr_in_page hf hi]
  rfl

theorem accessible_le : accessible m root va n ≤ n := Paged.reach_le

theorem accessible_zero : accessible m root va 0 = 0 := rfl

theorem accessible_none (hf : userFrame m root (va / PGSIZE) = none) (n : Nat) : accessible m root va n = 0 := Paged.reach_none hf

theorem next_page (va : Nat) : PGROUNDDOWN va + PGSIZE = va + (PGSIZE - va % PGSIZE) := Paged.next_page (by decide)

/-- A page that is accessible, and what follows. -/
theorem accessible_page (hf : userFrame m root (va / PGSIZE) = some pa) (n : Nat) :
    accessible m root va n = min (PGSIZE - va % PGSIZE) n +
      accessible m root (PGROUNDDOWN va + PGSIZE) (n - min (PGSIZE - va % PGSIZE) n) := by
  unfold accessible
  rcases Nat.le_total n (PGSIZE - va % PGSIZE) with hn | hn
  · rw [Nat.min_eq_right hn, Nat.sub_self, Paged.reach_page hf hn]
    rfl
  · have hsplit := Paged.reach_add (k := n - (PGSIZE - va % PGSIZE)) (Paged.reach_page hf (Nat.le_refl (PGSIZE - va % PGSIZE)))
    rw [Nat.min_eq_left hn, next_page, ← hsplit, Nat.add_sub_cancel' hn]

/-! ## `copyout` -/

/-- What a store to a page of the user leaves of the page table. -/
theorem Clear.store (h : Clear m root) (hf : userFrame m root v = some pa) (row : Nat → Word) :
    SameOn (sv39.tables m.word 2 root) m.word (m.setPage pa row).word :=
  sameOn_setPage (h.table v pa hf)

/-- A turn stores the bytes of one page where the user sees them. -/
theorem scatter_page (hf : userFrame m root (va / PGSIZE) = some pa)
    (hbs : bs.length ≤ PGSIZE - va % PGSIZE) :
    Paged.scatter Mem.putByte (place m root) m va bs = m.setPage pa (setBytes (m.word pa) (va % PGSIZE) bs) := by
  have hoff : va % PGSIZE < PGSIZE := Nat.mod_lt va (by decide)
  rw [← putBytes_page (userFrame_mod hf) (by omega)]
  apply Paged.scatter_congr
  intro i hi
  exact place_page hf (by omega)

/-- The bytes of one page, then those of the next ones. -/
theorem take_page {src : List UInt8} {n : Nat} (hk : k ≤ src.length - min n src.length) :
    src.take (min n src.length + k) = src.take n ++ (src.drop n).take k := by
  rcases Nat.le_total src.length n with hn | hn
  · rw [Nat.min_eq_right hn] at hk ⊢
    rw [show k = 0 by omega, Nat.add_zero, take_length, take_of_length_le hn, take_zero, append_nil]
  · rw [Nat.min_eq_left hn, take_add]

theorem copyoutLoop_eq {fuel : Nat} {src : List UInt8} (hfuel : src.length ≤ fuel) (h : Clear m root) :
    copyoutLoop root fuel va src m =
      .ok (if accessible m root va src.length = src.length then 0 else -1)
        (Paged.scatter Mem.putByte (place m root) m va (src.take (accessible m root va src.length))) := by
  induction fuel generalizing m va src with
  | zero =>
    obtain rfl := length_eq_zero_iff.mp (Nat.le_zero.mp hfuel)
    rfl
  | succ fuel ih =>
    rw [copyoutLoop]
    split
    next hnil =>
      subst hnil
      rfl
    next hne =>
      have hpos : src.length ≠ 0 := fun hzero => hne (length_eq_zero_iff.mp hzero)
      rw [bind_of_ok (walkaddr_eq va)]
      cases hf : userFrame m root (va / PGSIZE) with
      | none =>
        rw [accessible_none hf, if_neg (Ne.symm hpos), take_zero]
        rfl
      | some pa =>
        have hpage : 0 < PGSIZE - va % PGSIZE := Paged.left_pos (by decide)
        have hchunk : (src.take (PGSIZE - va % PGSIZE)).length = min (PGSIZE - va % PGSIZE) src.length := length_take ..
        have hrest : (src.drop (PGSIZE - va % PGSIZE)).length = src.length - min (PGSIZE - va % PGSIZE) src.length := by
          rw [length_drop]
          omega
        have hlen : (src.take (PGSIZE - va % PGSIZE)).length ≤ PGSIZE - va % PGSIZE := length_take_le ..
        have hturn := scatter_page hf hlen
        have hsame := h.store hf (setBytes (m.word pa) (va % PGSIZE) (src.take (PGSIZE - va % PGSIZE)))
        rw [Option.getD_some, if_neg (h.nonzero _ pa hf)]
        show copyoutLoop root fuel (PGROUNDDOWN va + PGSIZE) (src.drop (PGSIZE - va % PGSIZE)) (m.setPage pa _) = _
        rw [ih (by omega) (h.congr hsame), place_congr hsame, accessible_congr hsame, ← hturn, hrest, accessible_page hf src.length]
        have hacc : accessible m root (PGROUNDDOWN va + PGSIZE) (src.length - min (PGSIZE - va % PGSIZE) src.length) ≤
            src.length - min (PGSIZE - va % PGSIZE) src.length := accessible_le
        generalize accessible m root (PGROUNDDOWN va + PGSIZE) (src.length - min (PGSIZE - va % PGSIZE) src.length) = k at hacc ⊢
        have hiff : k = src.length - min (PGSIZE - va % PGSIZE) src.length ↔ min
          (PGSIZE - va % PGSIZE) src.length + k = src.length := by
          omega
        rw [if_congr hiff rfl rfl, take_page hacc, Paged.scatter_append, hchunk]
        rcases Nat.le_total src.length (PGSIZE - va % PGSIZE) with hn | hn
        · rw [drop_eq_nil_of_le hn, take_nil]
          rfl
        · rw [Nat.min_eq_left hn, next_page]

variable {buf len fuel : Nat}

namespace Buf

theorem sub_PGROUNDDOWN (a : Nat) : a - PGROUNDDOWN a = a % PGSIZE := by
  have := Mem.PGROUNDDOWN_add_mod a
  omega

/-- The address of the next page is not cut, since the user may access this one. -/
theorem next_mod (hf : userFrame m root (va / PGSIZE) = some pa) : (PGROUNDDOWN va + PGSIZE) % 2 ^ 64 = PGROUNDDOWN va + PGSIZE := by
  have hlt : va / PGSIZE * PGSIZE < MAXVA := by
    by_contra hge
    rw [userFrame_high hge] at hf
    cases hf
  have hmax : MAXVA + PGSIZE < 2 ^ 64 := by decide
  exact Nat.mod_eq_of_lt (Nat.lt_trans (Nat.add_lt_add_right hlt PGSIZE) hmax)

end Buf

namespace Apart

/-- A part of the buffer. -/
theorem drop (h : Apart m root buf len) (hk : k ≤ len) : Apart m root (buf + k) (len - k) := by
  refine ⟨h.toClear, fun v pa i hpa hi => ?_, fun i hi => ?_⟩
  · rw [Nat.add_assoc]
    exact h.buffer v pa (k + i) hpa (by omega)
  · rw [Nat.add_assoc]
    exact h.kernel (k + i) (by omega)

theorem congr (h : Apart m root buf len) (hs : SameOn (sv39.tables m.word 2 root) m.word m'.word) : Apart m' root buf len := by
  refine ⟨h.toClear.congr hs, fun v pa i hpa hi => ?_, fun i hi => ?_⟩
  · rw [userFrame_congr hs] at hpa
    exact h.buffer v pa i hpa hi
  · rw [tables_congr hs]
    exact h.kernel i hi

end Apart

namespace Buf

/-- With the bytes of the buffer as a list. -/
theorem copyoutLoop_eq (h : Apart m root buf len) :
    copyoutLoop root fuel va buf len m = Vm.copyoutLoop root fuel va (m.bytes buf len) m := by
  induction fuel generalizing m va buf len with
  | zero => rfl
  | succ fuel ih =>
    rw [copyoutLoop, Vm.copyoutLoop]
    by_cases hlen : len = 0
    · rw [if_pos hlen, hlen]
      rfl
    · have hne : m.bytes buf len ≠ [] := fun hnil => hlen (by rw [← m.length_bytes buf len, hnil]; rfl)
      rw [if_neg hlen, if_neg hne, bind_of_ok (walkaddr_eq va), bind_of_ok (walkaddr_eq va)]
      cases hf : userFrame m root (va / PGSIZE) with
      | none => rfl
      | some pa =>
        have hpage : va % PGSIZE < PGSIZE := Nat.mod_lt va (by decide)
        rw [Option.getD_some, if_neg (h.nonzero _ pa hf), if_neg (h.nonzero _ pa hf), sub_PGROUNDDOWN, next_mod hf]
        show copyoutLoop root fuel _ _ _ (m.putBytes _ _) = Vm.copyoutLoop root fuel _ _ (m.setPage pa _)
        rw [putBytes_page (userFrame_mod hf) (by rw [Mem.length_bytes]; omega), Mem.take_bytes, Mem.drop_bytes]
        have hsame := h.store hf (setBytes (m.word pa) (va % PGSIZE) (m.bytes buf (min (PGSIZE - va % PGSIZE) len)))
        rw [ih ((h.drop (Nat.min_le_right _ _)).congr hsame)]
        congr 1
        apply Mem.bytes_congr
        intro i hi
        apply Mem.setPage_of_ne
        rw [Nat.add_assoc]
        exact h.buffer _ pa _ hf (by omega)

theorem copyout_eq (h : Apart m root buf len) :
    copyout root va buf len m = .ok (if accessible m root va len = len then 0 else -1)
      (Paged.scatter Mem.putByte (place m root) m va (m.bytes buf (accessible m root va len))) := by
  unfold copyout
  rw [copyoutLoop_eq h, Vm.copyoutLoop_eq (by rw [Mem.length_bytes]) h.toClear, Mem.length_bytes, Mem.take_bytes,
    Nat.min_eq_left accessible_le]

end Buf

/-! ## `copyin` -/

theorem length_userBytes : (userBytes m root va n).length = n := by
  rw [userBytes, length_map, length_range]

theorem userBytes_zero : userBytes m root va 0 = [] := rfl

theorem userBytes_add (k : Nat) : userBytes m root va (n + k) = userBytes m root va n ++ userBytes m root (va + n) k := by
  unfold userBytes
  rw [range_add, map_append, map_map]
  simp only [Function.comp_def, Nat.add_assoc]

theorem userBytes_page (hf : userFrame m root (va / PGSIZE) = some pa) (hn : n ≤ PGSIZE - va % PGSIZE) :
    userBytes m root va n = m.bytes (pa + va % PGSIZE) n := by
  apply map_congr_left
  intro i hi
  have hi := mem_range.mp hi
  rw [place_page hf (by omega)]

/-- A byte that is accessible stands in a frame of the user. -/
theorem place_mem (hi : i < accessible m root va n) : ∃ v pa, userFrame m root v = some pa ∧
    PGROUNDDOWN (place m root (va + i)) = pa := by
  obtain ⟨x, hx⟩ := Option.isSome_iff_exists.mp (Paged.addr_of_lt_reach hi)
  obtain ⟨pa, hpa, hsum⟩ := Option.map_eq_some_iff.mp hx
  refine ⟨_, pa, hpa, ?_⟩
  unfold place userAddr
  rw [hx, ← hsum]
  exact PGROUNDDOWN_page (userFrame_mod hpa) (Nat.mod_lt _ (by decide))

/-- The user's bytes change only with the page table and the user's frames. -/
theorem userBytes_congr (hs : SameOn (sv39.tables m.word 2 root) m.word m'.word)
    (hframes : ∀ v pa, userFrame m root v = some pa → m'.word pa = m.word pa) :
    userBytes m' root va (accessible m root va n) = userBytes m root va (accessible m root va n) := by
  apply map_congr_left
  intro i hi
  obtain ⟨v, pa, hpa, hplace⟩ := place_mem (mem_range.mp hi)
  rw [place_congr hs]
  unfold Mem.byte
  rw [hplace, hframes v pa hpa]

namespace Apart

/-- The buffer is written. -/
theorem table_same (h : Apart m root buf len) (hbs : bs.length ≤ len) :
    SameOn (sv39.tables m.word 2 root) m.word (m.putBytes buf bs).word := by
  intro p hp
  apply word_putBytes
  rintro i hi rfl
  exact h.kernel i (by omega) hp

theorem frame_same (h : Apart m root buf len) (hbs : bs.length ≤ len)
    (hpa : userFrame m root v = some pa) : (m.putBytes buf bs).word pa = m.word pa := by
  apply word_putBytes
  intro i hi
  exact (h.buffer v pa i hpa (by omega)).symm

/-- What a turn leaves when it has copied the bytes of one page to the buffer. -/
theorem turn (h : Apart m root buf len) (hbs : bs.length = min n len) :
    Apart (m.putBytes buf bs) root (buf + min n len) (len - min n len) ∧ place (m.putBytes buf bs) root = place m root ∧
      (∀ va n, accessible (m.putBytes buf bs) root va n = accessible m root va n) ∧
      ∀ va n, userBytes (m.putBytes buf bs) root va (accessible m root va n) = userBytes m root va (accessible m root va n) := by
  have hle : bs.length ≤ len := hbs.trans_le (Nat.min_le_right _ _)
  have hsame := h.table_same hle
  exact ⟨(h.drop (Nat.min_le_right _ _)).congr hsame, place_congr hsame, accessible_congr hsame,
    fun va n => userBytes_congr hsame fun v pa hpa => h.frame_same hle hpa⟩

/-- The bytes of a page are not where they are copied to. -/
theorem chars (h : Apart m root buf len) (hf : userFrame m root (va / PGSIZE) = some pa) (i j : Nat)
    (hi : i < min (PGSIZE - va % PGSIZE) len) (hj : j < min (PGSIZE - va % PGSIZE) len) : pa + va % PGSIZE + i ≠ buf + j := by
  intro heq
  have hoff : va % PGSIZE < PGSIZE := Nat.mod_lt va (by decide)
  have hdst := h.buffer _ pa j hf (by omega)
  rw [← heq, Nat.add_assoc, PGROUNDDOWN_page (userFrame_mod hf) (by omega)] at hdst
  exact hdst rfl

end Apart

/-- The bytes of a page and those of the next ones. -/
theorem userBytes_turn (hf : userFrame m root (va / PGSIZE) = some pa) (n : Nat) :
    userBytes m root va (accessible m root va n) = m.bytes (pa + va % PGSIZE) (min (PGSIZE - va % PGSIZE) n) ++
      userBytes m root (PGROUNDDOWN va + PGSIZE)
        (accessible m root (PGROUNDDOWN va + PGSIZE) (n - min (PGSIZE - va % PGSIZE) n)) := by
  rw [accessible_page hf, userBytes_add, userBytes_page hf (Nat.min_le_left _ _)]
  rcases Nat.le_total n (PGSIZE - va % PGSIZE) with hn | hn
  · rw [Nat.min_eq_right hn, Nat.sub_self, accessible_zero, userBytes_zero, userBytes_zero]
  · rw [Nat.min_eq_left hn, next_page]

namespace Buf

theorem copyinLoop_eq (hfuel : len ≤ fuel) (h : Apart m root buf len) :
    copyinLoop root fuel buf va len m = .ok (if accessible m root va len = len then 0 else -1)
      (m.putBytes buf (userBytes m root va (accessible m root va len))) := by
  induction fuel generalizing m va buf len with
  | zero =>
    obtain rfl := Nat.le_zero.mp hfuel
    rfl
  | succ fuel ih =>
    rw [copyinLoop]
    by_cases hlen : len = 0
    · rw [if_pos hlen, hlen]
      rfl
    · rw [if_neg hlen, bind_of_ok (walkaddr_eq va)]
      cases hf : userFrame m root (va / PGSIZE) with
      | none =>
        rw [accessible_none hf, if_neg (Ne.symm hlen)]
        rfl
      | some pa =>
        have hpage : 0 < PGSIZE - va % PGSIZE := Paged.left_pos (by decide)
        rw [Option.getD_some, if_neg (h.nonzero _ pa hf), sub_PGROUNDDOWN, next_mod hf]
        show copyinLoop root fuel _ _ _ (m.putBytes buf _) = _
        obtain ⟨hrest, -, hreach, hbytes⟩ := h.turn (m.length_bytes (pa + va % PGSIZE) (min (PGSIZE - va % PGSIZE) len))
        rw [ih (by omega) hrest, hreach, hbytes, userBytes_turn hf, Mem.putBytes_append, Mem.length_bytes]
        have hacc := accessible_page hf len
        have hiff : accessible m root (PGROUNDDOWN va + PGSIZE) (len - min (PGSIZE - va % PGSIZE) len) =
            len - min (PGSIZE - va % PGSIZE) len ↔ accessible m root va len = len := by
          omega
        rw [if_congr hiff rfl rfl]

end Buf

/-! ## `copyinstr` -/

theorem upToNull_append (xs ys : List UInt8) :
    upToNull (xs ++ ys) = if (upToNull xs).2 = true then upToNull xs else (xs ++ (upToNull ys).1, (upToNull ys).2) := by
  induction xs with
  | nil => rfl
  | cons x xs ih =>
    rw [cons_append, upToNull, upToNull, ih]
    split
    next => rfl
    next =>
      split
      next => rfl
      next => rfl

theorem length_upToNull_le (xs : List UInt8) : (upToNull xs).1.length ≤ xs.length := by
  induction xs with
  | nil => exact Nat.le_refl _
  | cons x xs ih =>
    rw [upToNull]
    split
    next => exact Nat.succ_le_succ (Nat.zero_le _)
    next => exact Nat.succ_le_succ ih

theorem upToNull_of_not (h : ¬ (upToNull xs).2 = true) : (upToNull xs).1 = xs := by
  induction xs with
  | nil => rfl
  | cons x xs ih =>
    rw [upToNull] at h ⊢
    split at h
    next => exact absurd rfl h
    next hx => rw [if_neg hx, ih h]

/-- What is stored ends at the first null. -/
theorem upToNull_of_null (h : (upToNull xs).2 = true) :
    ∃ i, ∃ hi : i < xs.length, xs[i] = 0 ∧ (∀ j, ∀ hj : j < i, xs[j] ≠ 0) ∧ (upToNull xs).1 = xs.take (i + 1) := by
  induction xs with
  | nil => cases h
  | cons x xs ih =>
    rw [upToNull] at h
    by_cases hx : x = 0
    · refine ⟨0, Nat.succ_pos _, hx, fun j hj => absurd hj (Nat.not_lt_zero j), ?_⟩
      rw [upToNull, if_pos hx]
      rfl
    · rw [if_neg hx] at h
      obtain ⟨i, hi, hnull, hfirst, htake⟩ := ih h
      refine ⟨i + 1, Nat.succ_lt_succ hi, hnull, fun j hj => ?_, ?_⟩
      · cases j with
        | zero => exact hx
        | succ j => exact hfirst j (by omega)
      · rw [upToNull, if_neg hx, take_succ_cons, htake]

theorem upToNull_iff : (upToNull xs).2 = true ↔ ∃ i, ∃ hi : i < xs.length, xs[i] = 0 := by
  constructor
  · intro h
    obtain ⟨i, hi, hnull, -⟩ := upToNull_of_null h
    exact ⟨i, hi, hnull⟩
  · rintro ⟨i, hi, hnull⟩
    induction xs generalizing i with
    | nil => cases hi
    | cons x xs ih =>
      rw [upToNull]
      split
      next => rfl
      next hx =>
        cases i with
        | zero => exact absurd hnull hx
        | succ i => exact ih i (Nat.lt_of_succ_lt_succ hi) hnull

namespace Buf

/-- The inner loop on bytes that are not where it stores. -/
theorem copyChars_eq {n dst : Nat} (h : ∀ i j, i < n → j < n → p + i ≠ dst + j) :
    copyChars n p dst m = .ok (upToNull (m.bytes p n)).2 (m.putBytes dst (upToNull (m.bytes p n)).1) := by
  induction n generalizing m p dst with
  | zero => rfl
  | succ n ih =>
    have hcons : m.bytes p (n + 1) = m.byte p :: m.bytes (p + 1) n := by
      rw [Nat.add_comm n 1, Mem.bytes_add]
      rfl
    rw [copyChars, hcons, upToNull]
    show (if m.byte p = 0 then _ else _ : Call Bool) m = _
    by_cases hnull : m.byte p = 0
    · rw [if_pos hnull, if_pos hnull, hnull]
      rfl
    · rw [if_neg hnull, if_neg hnull]
      show copyChars n (p + 1) (dst + 1) (m.putByte dst (m.byte p)) = _
      have hbytes : (m.putByte dst (m.byte p)).bytes (p + 1) n = m.bytes (p + 1) n := by
        apply map_congr_left
        intro i hi
        have hi := mem_range.mp hi
        apply Mem.byte_putByte_of_ne
        have := h (i + 1) 0 (by omega) (by omega)
        omega
      rw [ih, hbytes]
      · rfl
      · intro i j hi hj
        have := h (i + 1) (j + 1) (by omega) (by omega)
        omega

theorem copyinstrLoop_eq (hfuel : len ≤ fuel) (h : Apart m root buf len) :
    copyinstrLoop (walkaddr root) fuel buf va len m =
      .ok (if (upToNull (userBytes m root va (accessible m root va len))).2 = true then 0 else -1)
        (m.putBytes buf (upToNull (userBytes m root va (accessible m root va len))).1) := by
  induction fuel generalizing m va buf len with
  | zero =>
    obtain rfl := Nat.le_zero.mp hfuel
    rfl
  | succ fuel ih =>
    rw [copyinstrLoop]
    by_cases hlen : len = 0
    · rw [if_pos hlen, hlen]
      rfl
    · rw [if_neg hlen, bind_of_ok (walkaddr_eq va)]
      cases hf : userFrame m root (va / PGSIZE) with
      | none =>
        rw [accessible_none hf]
        rfl
      | some pa =>
        have hpage : 0 < PGSIZE - va % PGSIZE := Paged.left_pos (by decide)
        rw [Option.getD_some, if_neg (h.nonzero _ pa hf), sub_PGROUNDDOWN, next_mod hf,
          bind_of_ok (copyChars_eq (h.chars hf)), userBytes_turn hf, upToNull_append]
        split
        next hnull => rfl
        next hnull =>
          obtain ⟨hrest, -, hreach, hbytes⟩ := h.turn (m.length_bytes (pa + va % PGSIZE) (min (PGSIZE - va % PGSIZE) len))
          rw [upToNull_of_not hnull, ih (by omega) hrest, hreach, hbytes, Mem.putBytes_append, Mem.length_bytes]

/-- No page after that of the null is looked up: the result is the same whatever stands for these
pages. -/
theorem copyinstrLoop_lookup {lookup : Nat → Call Nat} (hi : i < accessible m root va len)
    (hnull : m.byte (place m root (va + i)) = 0)
    (hlookup : ∀ a, a ≤ PGROUNDDOWN (va + i) → lookup a = walkaddr root a)
    (h : Apart m root buf len) :
    copyinstrLoop lookup fuel buf va len m = copyinstrLoop (walkaddr root) fuel buf va len m := by
  induction fuel generalizing m va buf len i with
  | zero => rfl
  | succ fuel ih =>
    have hfirst : PGROUNDDOWN va ≤ PGROUNDDOWN (va + i) := Nat.mul_le_mul_right _ (Nat.div_le_div_right (Nat.le_add_right va i))
    rw [copyinstrLoop, copyinstrLoop, hlookup _ hfirst]
    split
    next => rfl
    next hlen =>
      rw [bind_of_ok (walkaddr_eq va), bind_of_ok (walkaddr_eq va)]
      cases hf : userFrame m root (va / PGSIZE) with
      | none =>
        rw [accessible_none hf] at hi
        cases hi
      | some pa =>
        have hoff : va % PGSIZE < PGSIZE := Nat.mod_lt va (by decide)
        rw [Option.getD_some, if_neg (h.nonzero _ pa hf), if_neg (h.nonzero _ pa hf), sub_PGROUNDDOWN, next_mod hf,
          bind_of_ok (copyChars_eq (h.chars hf)), bind_of_ok (copyChars_eq (h.chars hf))]
        split
        next => rfl
        next hnone =>
          -- the null is not in this page, so there is a next one
          have hout : min (PGSIZE - va % PGSIZE) len ≤ i := by
            by_contra hin
            apply hnone
            apply upToNull_iff.mpr
            refine ⟨i, by rw [Mem.length_bytes]; omega, ?_⟩
            rw [Mem.getElem_bytes, ← place_page hf (by omega)]
            exact hnull
          have hacc := accessible_page hf len
          have hle : accessible m root (PGROUNDDOWN va + PGSIZE) (len - min (PGSIZE - va % PGSIZE) len) ≤ _ := accessible_le
          have hleft : min (PGSIZE - va % PGSIZE) len = PGSIZE - va % PGSIZE := by omega
          have hva : PGROUNDDOWN va + PGSIZE + (i - min (PGSIZE - va % PGSIZE) len) = va + i := by
            have := next_page va
            omega
          obtain ⟨hrest, hplace, hreach, hbytes⟩ := h.turn (m.length_bytes (pa + va % PGSIZE) (min (PGSIZE - va % PGSIZE) len))
          rw [upToNull_of_not hnone]
          refine ih (i := i - min (PGSIZE - va % PGSIZE) len) ?_ ?_ (by rwa [hva]) hrest
          · rw [hreach]
            omega
          · have hbyte := map_inj_left.mp (hbytes va len) i (mem_range.mpr hi)
            rw [hva]
            exact hbyte.trans hnull

end Buf

/-! ## The specification -/

/-- The user may access the `n` bytes from `va` on. -/
def AllAccessible (m : Mem) (root va n : Nat) : Prop := ∀ i, i < n → (userAddr m root (va + i)).isSome

theorem accessible_eq_iff : accessible m root va n = n ↔ AllAccessible m root va n := Paged.reach_eq_iff

theorem allAccessible_accessible : AllAccessible m root va (accessible m root va n) := fun _ => Paged.addr_of_lt_reach

theorem AllAccessible.lt (h : AllAccessible m root va (i + 1)) (hi : i < n) :
    i < accessible m root va n := by
  by_contra hge
  have hlt : accessible m root va n < n := by omega
  have hnone := Paged.addr_reach hlt
  have hsome := h _ (show accessible m root va n < i + 1 by omega)
  unfold userAddr at hsome
  rw [show va + accessible m root va n = va + Paged.reach PGSIZE (userFrame m root) va n from rfl, hnone] at hsome
  cases hsome

/-- What `copyout` has done: the bytes of the buffer stand, one stored after the other, at the
user's addresses, up to the first that is not accessible. -/
structure CopiedOut (m : Mem) (root va buf len : Nat) (r : Int) (m' : Mem) : Prop where
  zero_iff : r = 0 ↔ AllAccessible m root va len
  copied : r = 0 → m' = Paged.scatter Mem.putByte (place m root) m va (m.bytes buf len)
  bad : r ≠ 0 → r = -1 ∧ ∃ k, k < len ∧ AllAccessible m root va k ∧ userAddr m root (va + k) = none ∧
    m' = Paged.scatter Mem.putByte (place m root) m va (m.bytes buf k)
  -- where no two of the addresses are aliases, the bytes read back
  seen : r = 0 → (∀ i j, i < j → j < len → place m root (va + i) ≠ place m root (va + j)) →
    userBytes m' root va len = m.bytes buf len
  rest : ∀ a, (∀ i, i < len → userAddr m root (va + i) ≠ some a) → m'.byte a = m.byte a

/-- What `copyin` has done. -/
structure CopiedIn (m : Mem) (root buf va len : Nat) (r : Int) (m' : Mem) : Prop where
  zero_iff : r = 0 ↔ AllAccessible m root va len
  copied : r = 0 → m'.bytes buf len = userBytes m root va len
  bad : r ≠ 0 → r = -1 ∧ ∃ k, k < len ∧ AllAccessible m root va k ∧ userAddr m root (va + k) = none ∧
    m' = m.putBytes buf (userBytes m root va k)
  rest : ∀ a, a < buf ∨ buf + len ≤ a → m'.byte a = m.byte a

/-- What `copyinstr` has done. -/
structure CopiedString (m : Mem) (root buf va max : Nat) (r : Int) (m' : Mem) : Prop where
  result : r = 0 ∨ r = -1
  zero_iff : r = 0 ↔ ∃ i, i < max ∧ AllAccessible m root va (i + 1) ∧ m.byte (place m root (va + i)) = 0
  copied : r = 0 → ∃ i, i < max ∧ m.byte (place m root (va + i)) = 0 ∧ (∀ j, j < i → m.byte (place m root (va + j)) ≠ 0) ∧
    m' = m.putBytes buf (userBytes m root va (i + 1))
  rest : ∀ a, a < buf ∨ buf + max ≤ a → m'.byte a = m.byte a

theorem getElem_userBytes (hi : i < (userBytes m root va n).length) :
    (userBytes m root va n)[i] = m.byte (place m root (va + i)) := by
  simp [userBytes]

theorem take_userBytes (hk : k ≤ n) : (userBytes m root va n).take k = userBytes m root va k := by
  unfold userBytes
  rw [← map_take, take_range, Nat.min_eq_left hk]

/-- Stores to the user's addresses leave the page table. -/
theorem Clear.scatter (h : Clear m root) (hbs : bs.length ≤ accessible m root va n) :
    SameOn (sv39.tables m.word 2 root) m.word (Paged.scatter Mem.putByte (place m root) m va bs).word := by
  intro p hp
  apply word_scatter
  rintro i hi rfl
  obtain ⟨v, pa, hpa, hplace⟩ := place_mem (show i < accessible m root va n by omega)
  rw [hplace] at hp
  exact h.table v pa hpa hp

/-- Where no two of the addresses are aliases, the bytes that have been stored read back. -/
theorem Clear.userBytes_scatter (h : Clear m root) (hlen : bs.length = n)
    (hacc : n ≤ accessible m root va n)
    (hdistinct : ∀ i j, i < j → j < n → place m root (va + i) ≠ place m root (va + j)) :
    userBytes (Paged.scatter Mem.putByte (place m root) m va bs) root va n = bs := by
  have hsame := h.scatter (hlen.le.trans hacc)
  apply ext_getElem
  · rw [length_userBytes, hlen]
  · intro i hi hi'
    rw [getElem_userBytes, place_congr hsame, Paged.get_scatter_self Mem.byte_putByte_self Mem.byte_putByte_of_ne bs hi']
    intro j hij hj
    exact hdistinct i j hij (by omega)

/-- The functions return 0 or -1. -/
theorem result_eq_zero (c : Prop) [Decidable c] : (if c then (0 : Int) else -1) = 0 ↔ c := by
  split <;> simp [*]

namespace Buf

theorem copyout_copied (h : Apart m root buf len) : wp (copyout root va buf len) (CopiedOut m root va buf len) never m := by
  apply wp_of_ok (copyout_eq h)
  have hle : accessible m root va len ≤ len := accessible_le
  have hzero := result_eq_zero (accessible m root va len = len)
  have hplace : ∀ i, i < accessible m root va len → userAddr m root (va + i) = some (place m root (va + i)) := by
    intro i hi
    obtain ⟨x, hx⟩ := Option.isSome_iff_exists.mp (allAccessible_accessible i hi)
    rw [place, hx]
    rfl
  refine ⟨?_, fun hr => ?_, fun hr => ?_, fun hr hdistinct => ?_, fun a ha => ?_⟩
  · rw [hzero, accessible_eq_iff]
  · have hall := hzero.mp hr
    rw [hall]
  · have hne : accessible m root va len ≠ len := fun heq => hr (if_pos heq)
    exact ⟨if_neg hne, accessible m root va len, by omega, allAccessible_accessible,
      Paged.addr_reach (by unfold accessible at hne hle; omega), rfl⟩
  · have hall := hzero.mp hr
    rw [hall]
    apply h.toClear.userBytes_scatter (Mem.length_bytes ..)
    · rw [hall]
    · exact hdistinct
  · apply Paged.get_scatter_of_ne Mem.byte_putByte_of_ne
    intro i hi
    rw [Mem.length_bytes] at hi
    rintro rfl
    exact ha i (by omega) (hplace i hi)

theorem copyin_copied (h : Apart m root buf len) : wp (copyin root buf va len) (CopiedIn m root buf va len) never m := by
  have hle : accessible m root va len ≤ len := accessible_le
  have hzero := result_eq_zero (accessible m root va len = len)
  apply wp_of_ok (copyinLoop_eq (Nat.le_refl len) h)
  refine ⟨?_, fun hr => ?_, fun hr => ?_, fun a ha => ?_⟩
  · rw [hzero, accessible_eq_iff]
  · have hall := hzero.mp hr
    rw [hall]
    exact Mem.bytes_putBytes length_userBytes.symm
  · have hne : accessible m root va len ≠ len := fun heq => hr (if_pos heq)
    exact ⟨if_neg hne, accessible m root va len, by omega, allAccessible_accessible,
      Paged.addr_reach (by unfold accessible at hne hle; omega), rfl⟩
  · apply Mem.byte_putBytes_of_not
    rw [length_userBytes]
    omega

theorem copyinstr_copied (h : Apart m root buf len) : wp (copyinstr root buf va len) (CopiedString m root buf va len) never m := by
  have hle : accessible m root va len ≤ len := accessible_le
  apply wp_of_ok (copyinstrLoop_eq (Nat.le_refl len) h)
  refine ⟨?_, ?_, fun hr => ?_, fun a ha => ?_⟩
  · split
    · exact .inl rfl
    · exact .inr rfl
  · have hfound : (upToNull (userBytes m root va (accessible m root va len))).2 = true ↔
        ∃ i, i < len ∧ AllAccessible m root va (i + 1) ∧ m.byte (place m root (va + i)) = 0 := by
      rw [upToNull_iff]
      constructor
      · rintro ⟨i, hi, hnull⟩
        rw [getElem_userBytes] at hnull
        rw [length_userBytes] at hi
        exact ⟨i, by omega, fun j hj => allAccessible_accessible (n := len) j (by omega), hnull⟩
      · rintro ⟨i, hi, hall, hnull⟩
        refine ⟨i, by rw [length_userBytes]; exact hall.lt hi, ?_⟩
        rw [getElem_userBytes]
        exact hnull
    rw [← hfound, result_eq_zero]
  · have hfound := (result_eq_zero _).mp hr
    obtain ⟨i, hi, hnull, hfirst, htake⟩ := upToNull_of_null hfound
    rw [getElem_userBytes] at hnull
    rw [length_userBytes] at hi
    refine ⟨i, by omega, hnull, fun j hj => ?_, by rw [htake, take_userBytes (by omega)]⟩
    have hne := hfirst j hj
    rwa [getElem_userBytes] at hne
  · have hlen := length_upToNull_le (userBytes m root va (accessible m root va len))
    apply Mem.byte_putBytes_of_not
    rw [length_userBytes] at hlen
    omega

end Buf

/-- For every page table whose accessible entries map frames other than 0, its own pages and the
kernel's buffer, the three functions are what a copy byte by byte is, at every address and for every
length. `copyinstr` looks up no page after the one with the null: whatever `lookup` does for these,
the result is the same. -/
theorem user_copies_bytewise (m : Mem) (root va buf len : Nat) (h : Apart m root buf len) :
    wp (Buf.copyout root va buf len) (CopiedOut m root va buf len) never m ∧
    wp (Buf.copyin root buf va len) (CopiedIn m root buf va len) never m ∧
    wp (Buf.copyinstr root buf va len) (CopiedString m root buf va len) never m ∧
    ∀ (lookup : Nat → Call Nat) i, i < len → AllAccessible m root va (i + 1) → m.byte (place m root (va + i)) = 0 →
      (∀ a, a ≤ PGROUNDDOWN (va + i) → lookup a = walkaddr root a) →
      Buf.copyinstrLoop lookup len buf va len m = Buf.copyinstr root buf va len m := by
  refine ⟨Buf.copyout_copied h, Buf.copyin_copied h, Buf.copyinstr_copied h, ?_⟩
  intro lookup i hi hall hnull hlookup
  exact Buf.copyinstrLoop_lookup (hall.lt hi) hnull hlookup h

/-- A page table at page 1 with tables at pages 2 and 3, which maps page 0 to the frame at page 4.
There are bytes at page 5. -/
def onePage : Mem where
  word p i :=
    if i = 0 then
      if p = 1 * PGSIZE then PA2PTE (2 * PGSIZE) ||| PTE_V
      else if p = 2 * PGSIZE then PA2PTE (3 * PGSIZE) ||| PTE_V
      else if p = 3 * PGSIZE then PA2PTE (4 * PGSIZE) ||| (PTE_R ||| PTE_W ||| PTE_U) ||| PTE_V
      else if p = 5 * PGSIZE then 0x030201
      else 0
    else 0
  freelist := 0
  fails := []

theorem onePage_invalid (hi : i ≠ 0) : sv39.valid (onePage.word p i) = false := by
  show sv39.valid (if i = 0 then _ else 0) = false
  rw [if_neg hi]
  decide

/-- A table whose first word alone is valid has the tables below that word. -/
theorem onePage_tables (l p : Nat) (hv : sv39.valid (onePage.word p 0) = true) :
    sv39.tables onePage.word (l + 1) p = p ::ₘ sv39.tables onePage.word l (sv39.addr (onePage.word p 0)) := by
  rw [tables_split (show 0 < sv39.fan by decide), under_of_valid hv, siblings, Finset.sum_eq_zero, Multiset.add_cons,
    Multiset.add_zero]
  intro i hi
  exact under_of_not (onePage_invalid (Finset.mem_erase.mp hi).1)

theorem onePage_tables_eq : sv39.tables onePage.word 2 (1 * PGSIZE) = {1 * PGSIZE, 2 * PGSIZE, 3 * PGSIZE} := by
  rw [onePage_tables 1 _ (by decide), show sv39.addr (onePage.word (1 * PGSIZE) 0) = 2 * PGSIZE by decide,
    onePage_tables 0 _ (by decide), show sv39.addr (onePage.word (2 * PGSIZE) 0) = 3 * PGSIZE by decide, tables_zero]
  rfl

/-- The way through a table goes through its first word. -/
theorem onePage_leaf {l v : Nat} {w : Word} (h : sv39.leaf onePage.word (l + 1) p v = some w) :
    sv39.leaf onePage.word l (sv39.addr (onePage.word p 0)) v = some w := by
  rw [leaf_succ] at h
  by_cases hd : sv39.digit (l + 1) v = 0
  · rw [hd] at h
    split at h
    · exact h
    · cases h
  · rw [onePage_invalid hd] at h
    cases h

theorem onePage_frame {v pa : Nat} (h : userFrame onePage (1 * PGSIZE) v = some pa) : pa = 4 * PGSIZE := by
  have hv : v * PGSIZE < MAXVA := by
    by_contra hge
    rw [userFrame_high hge] at h
    cases h
  rw [userFrame_leaf hv] at h
  obtain ⟨w, hw, hpa⟩ := Option.bind_eq_some_iff.mp h
  have hw := onePage_leaf (onePage_leaf hw)
  rw [leaf_zero] at hw
  by_cases hd : v % sv39.fan = 0
  · rw [hd] at hw
    split at hw
    · cases hw
      split at hpa
      · cases hpa
      · cases hpa
        decide
    · cases hw
  · rw [onePage_invalid hd] at hw
    cases hw

theorem onePage_apart (b : Nat) (hb : b = 5 ∨ b = 6) : Apart onePage (1 * PGSIZE) (b * PGSIZE) 3 := by
  have hbuf : ∀ i, i < 3 → PGROUNDDOWN (b * PGSIZE + i) = b * PGSIZE := fun i hi =>
    PGROUNDDOWN_page (Nat.mul_mod_left ..) (by rw [PGSIZE_eq]; omega)
  refine ⟨⟨fun v pa hpa => ?_, fun v pa hpa => ?_⟩, fun v pa i hpa hi => ?_, fun i hi => ?_⟩
  · rw [onePage_frame hpa]
    decide
  · rw [onePage_frame hpa, onePage_tables_eq]
    decide
  · rw [onePage_frame hpa, hbuf i hi]
    rcases hb with rfl | rfl <;> decide
  · rw [hbuf i hi, onePage_tables_eq]
    rcases hb with rfl | rfl <;> decide

theorem user_copies_bytewise_onePage : Apart onePage (1 * PGSIZE) (5 * PGSIZE) 3 ∧
    wp (Buf.copyout (1 * PGSIZE) 4093 (5 * PGSIZE) 3) (fun r _ => r = 0) never onePage ∧
    wp (Buf.copyout (1 * PGSIZE) 4094 (5 * PGSIZE) 3) (fun r _ => r = -1) never onePage := by
  have hfirst : userFrame onePage (1 * PGSIZE) 0 = some (4 * PGSIZE) := by decide
  have hsecond : userFrame onePage (1 * PGSIZE) 1 = none := by decide
  have hapart := onePage_apart 5 (.inl rfl)
  refine ⟨hapart, ?_, ?_⟩
  · apply wp_mono (user_copies_bytewise onePage (1 * PGSIZE) 4093 (5 * PGSIZE) 3 hapart).1 _ fun _ _ => id
    intro r m' hcopied
    apply hcopied.zero_iff.mpr
    apply accessible_eq_iff.mp
    exact Paged.reach_page hfirst (by decide)
  · apply wp_mono (user_copies_bytewise onePage (1 * PGSIZE) 4094 (5 * PGSIZE) 3 hapart).1 _ fun _ _ => id
    intro r m' hcopied
    apply (hcopied.bad fun hzero => _).1
    intro hzero
    have hlast := hcopied.zero_iff.mp hzero 2 (by decide)
    unfold userAddr Paged.addr at hlast
    rw [show (4094 + 2) / PGSIZE = 1 from rfl, hsecond] at hlast
    cases hlast

/-- What the kernel has put into a user's memory it gets back from there, into whichever buffer:
`copyin` after `copyout`. -/
theorem copyout_copyin (m : Mem) (root va buf buf' len : Nat) (h : Apart m root buf len) (h' : Apart m root buf' len)
    (hall : AllAccessible m root va len) (hdistinct : ∀ i j, i < j → j < len → place m root (va + i) ≠ place m root (va + j)) :
    wp (Buf.copyout root va buf len >>= fun r => Buf.copyin root buf' va len >>= fun r' => pure (r, r'))
      (fun r m' => r = (0, 0) ∧ m'.bytes buf' len = m.bytes buf len) never m := by
  apply wp_seq (Buf.copyout_copied h)
  intro r m₁ hout
  have hr := hout.zero_iff.mpr hall
  have hlen : (m.bytes buf len).length ≤ accessible m root va len := by rw [Mem.length_bytes, accessible_eq_iff.mpr hall]
  have hsame : SameOn (sv39.tables m.word 2 root) m.word m₁.word := by
    rw [hout.copied hr]
    exact h.toClear.scatter hlen
  apply wp_seq (Buf.copyin_copied (h'.congr hsame))
  intro r' m₂ hin
  have hall₁ : AllAccessible m₁ root va len := by rwa [← accessible_eq_iff, accessible_congr hsame, accessible_eq_iff]
  have hr' := hin.zero_iff.mpr hall₁
  exact ⟨by rw [hr, hr'], (hin.copied hr').trans (hout.seen hr hdistinct)⟩

/-- Three bytes from page 5 to page 6, through the end of the user's page 0. -/
theorem copyout_copyin_onePage :
    wp (Buf.copyout (1 * PGSIZE) 4093 (5 * PGSIZE) 3 >>= fun r => Buf.copyin (1 * PGSIZE)
      (6 * PGSIZE) 4093 3 >>= fun r' => pure (r, r'))
      (fun r m' => r = (0, 0) ∧ m'.bytes (6 * PGSIZE) 3 = [1, 2, 3]) never onePage := by
  have hfirst : userFrame onePage (1 * PGSIZE) 0 = some (4 * PGSIZE) := by decide
  rw [show [1, 2, 3] = onePage.bytes (5 * PGSIZE) 3 by decide]
  refine copyout_copyin _ _ _ _ _ _ (onePage_apart 5 (.inl rfl)) (onePage_apart 6 (.inr rfl))
    (accessible_eq_iff.mp (Paged.reach_page hfirst (by decide))) ?_
  intro i j hij hj
  have hpage : PGSIZE - 4093 % PGSIZE = 3 := by decide
  rw [place_page hfirst (by omega), place_page hfirst (by omega)]
  omega

end Xv6.Vm
