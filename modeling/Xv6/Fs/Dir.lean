import Xv6.Fs.Cache
import Xv6.Lib.Slots

/-!
# A directory is a finite map

The content of a directory is a table of slots of 16 bytes, each of them a `struct dirent`. A name
counts by its first `DIRSIZ` bytes, up to a NUL (`key`): that is what `strncmp` compares and what is
left of a name that `strncpy` has stored. `lookup` reads the table off the bytes; `dirlookup`,
`dirlink` and the clearing of an entry by `sys_unlink` are the operations of a table of slots
(`Slots`) on it.
-/

namespace Xv6.Fs

open Prog Slots
open Function (update update_self update_of_ne update_idem update_eq_self update_eq_self_iff)
open Bitmap (Roomy)

/-! ## Names -/

/-- The string in the first `n` bytes of a buffer. -/
def cname : Nat → Sector → List Byte
  | 0, _ => []
  | n + 1, p => if p 0 = 0 then [] else p 0 :: cname n fun i => p (i + 1)

/-- What a name counts by. -/
def key (name : List Byte) : List Byte := cname DIRSIZ (cstr name)

theorem cname_congr {n : Nat} {p q : Sector} (h : ∀ i, i < n → p i = q i) : cname n p = cname n q := by
  induction n generalizing p q with
  | zero => rfl
  | succ n ih =>
    unfold cname
    rw [h 0 (Nat.zero_lt_succ n), ih fun i hi => h (i + 1) (Nat.succ_lt_succ hi)]

theorem strncmp_eq_zero {n : Nat} {p q : Sector} : strncmp n p q = 0 ↔ cname n p = cname n q := by
  induction n generalizing p q with
  | zero => exact ⟨fun _ => rfl, fun _ => rfl⟩
  | succ n ih =>
    unfold strncmp cname
    by_cases hp : p 0 = 0
    · rw [if_neg (fun h => h.1 hp), if_pos hp, hp]
      by_cases hq : q 0 = 0
      · rw [if_pos hq, hq]
        exact ⟨fun _ => rfl, fun _ => rfl⟩
      · rw [if_neg hq]
        constructor
        · intro h
          exact absurd (BitVec.eq_of_toNat_eq (by simp only [BitVec.ofNat_eq_ofNat, BitVec.toNat_ofNat] at h ⊢; omega)) hq
        · intro h
          cases h
    · by_cases heq : p 0 = q 0
      · rw [if_pos ⟨hp, heq⟩, if_neg hp, if_neg (by rw [← heq]; exact hp), ih, heq, List.cons_inj_right]
      · rw [if_neg (fun h => heq h.2), if_neg hp]
        constructor
        · intro h
          exact absurd (BitVec.eq_of_toNat_eq (by omega)) heq
        · intro h
          split at h
          next => cases h
          next => exact absurd (List.cons.inj h).1 heq

/-! ## Slots -/

/-- A used entry: its name and its inode number. -/
def entryOf (de : Sector) : Option (List Byte × Nat) :=
  if direntInum de = 0 then none else some (cname DIRSIZ (direntName de), direntInum de)

def slotAt (c : List Byte) (j : Nat) : Sector := fun i => c.getD (16 * j + i) 0

/-- The table of slots in the content of a directory. -/
def entries (c : List Byte) (j : Nat) : Option (List Byte × Nat) := entryOf (slotAt c j)

/-- The inode number and the offset of a name. -/
def lookup (c : List Byte) (name : List Byte) : Option (Nat × Nat) :=
  (find (entries c) (c.length / 16) (key name)).map fun j => (direntInum (slotAt c j), 16 * j)

/-- An entry is stored. -/
def putEntry (c : List Byte) (j : Nat) (de : Sector) : List Byte := overwrite c (16 * j) ((List.range 16).map de)

/-- Where a new entry goes. -/
def emptySlot (c : List Byte) : Nat := vacant (entries c) (c.length / 16)

section

variable {c : List Byte} {j : Nat} {de de' : Sector} {name name' : List Byte} {inum : Nat}

theorem direntInum_congr (h : ∀ i, i < 16 → de i = de' i) : direntInum de = direntInum de' := by
  unfold direntInum
  rw [Sector.u16_congr (h 0 (by decide)) (h 1 (by decide))]

theorem entryOf_congr (h : ∀ i, i < 16 → de i = de' i) : entryOf de = entryOf de' := by
  unfold entryOf
  rw [direntInum_congr h, cname_congr (n := DIRSIZ) (p := direntName de)
    (q := direntName de') fun i hi => h (i + 2) (by unfold DIRSIZ at hi; omega)]

theorem direntInum_dirent (hinum : inum < 2 ^ 16) : direntInum (dirent inum name) = inum := by
  unfold direntInum dirent
  rw [Sector.u16_putU16, BitVec.toNat_ofNat, Nat.mod_eq_of_lt hinum]

/-- The name that is stored counts like the name that was given. -/
theorem key_dirent : cname DIRSIZ (direntName (dirent inum name)) = key name := by
  apply cname_congr
  intro i hi
  unfold direntName dirent
  rw [Sector.putU16_byte _ _ (by omega)]
  unfold cstr
  rw [Nat.add_sub_cancel, List.getD_eq_getElem?_getD, List.getD_eq_getElem?_getD, List.getElem?_take_of_lt hi]

theorem entryOf_dirent (hpos : 0 < inum) (hinum : inum < 2 ^ 16) : entryOf (dirent inum name) = some (key name, inum) := by
  unfold entryOf
  rw [direntInum_dirent hinum, key_dirent, if_neg (by omega)]

theorem slotAt_put (hlen : c.length % 16 = 0) (hj : j ≤ c.length / 16) (j' : Nat) {i : Nat} (hi : i < 16) :
    slotAt (putEntry c j de) j' i = if j' = j then de i else slotAt c j' i := by
  unfold slotAt putEntry
  rw [List.getD_eq_getElem?_getD, List.getD_eq_getElem?_getD, getElem?_overwrite (by omega), List.length_map, List.length_range]
  by_cases hjj : j' = j
  · subst hjj
    rw [if_pos rfl, if_pos (by omega), getElem?_map_range, if_pos (by omega), Nat.add_sub_cancel_left]
    rfl
  · rw [if_neg hjj, if_neg (by omega)]

theorem entries_put (hlen : c.length % 16 = 0) (hj : j ≤ c.length / 16) :
    entries (putEntry c j de) = update (entries c) j (entryOf de) := by
  funext j'
  unfold entries
  by_cases hjj : j' = j
  · rw [hjj, update_self]
    apply entryOf_congr
    intro i hi
    rw [slotAt_put hlen hj j hi, if_pos rfl]
  · rw [update_of_ne hjj]
    apply entryOf_congr
    intro i hi
    rw [slotAt_put hlen hj j' hi, if_neg hjj]

theorem length_put (hj : j ≤ c.length / 16) : (putEntry c j de).length = max c.length (16 * j + 16) := by
  unfold putEntry
  rw [length_overwrite (by omega), List.length_map, List.length_range]

theorem length_put_div (hlen : c.length % 16 = 0) (hj : j ≤ c.length / 16) :
    (putEntry c j de).length / 16 = max (c.length / 16) (j + 1) := by
  rw [length_put hj]
  omega

theorem emptySlot_le (c : List Byte) : emptySlot c ≤ c.length / 16 := vacant_le

/-- The inode number of a slot that holds a name. -/
theorem entries_of_holds {t : List Byte} (h : holds (entries c) t j = true) : entries c j = some (t, direntInum (slotAt c j)) := by
  unfold holds at h
  unfold entries entryOf at h ⊢
  split
  next hzero =>
    rw [if_pos hzero] at h
    cases h
  next hne =>
    rw [if_neg hne] at h
    have hname : cname DIRSIZ (direntName (slotAt c j)) = t := of_decide_eq_true h
    rw [hname]

theorem direntInum_put_of_ne (hlen : c.length % 16 = 0) (hj : j ≤ c.length / 16) {j' : Nat} (hne : j' ≠ j) :
    direntInum (slotAt (putEntry c j de) j') = direntInum (slotAt c j') := by
  apply direntInum_congr
  intro i hi
  rw [slotAt_put hlen hj j' hi, if_neg hne]

theorem lookup_eq_some {t off : Nat} (h : lookup c name = some (t, off)) :
    ∃ j, off = 16 * j ∧ t = direntInum (slotAt c j) ∧ find (entries c) (c.length / 16) (key name) = some j := by
  obtain ⟨j, hfind, heq⟩ := Option.map_eq_some_iff.mp h
  cases heq
  exact ⟨j, rfl, rfl, hfind⟩

/-- `dirlink` adds a binding, wherever it puts it. -/
theorem lookup_put (hlen : c.length % 16 = 0) (hpos : 0 < inum) (hinum : inum < 2 ^ 16) (hnew : lookup c name = none) :
    lookup (putEntry c (emptySlot c) (dirent inum name)) name' =
      if key name' = key name then some (inum, 16 * emptySlot c) else lookup c name' := by
  have hj := emptySlot_le c
  have hfind : find (entries c) (c.length / 16) (key name) = none := Option.map_eq_none_iff.mp hnew
  unfold lookup
  rw [entries_put hlen hj, length_put_div hlen hj, entryOf_dirent hpos hinum]
  split
  next hkey =>
    rw [hkey, find_put_self hfind hj, Option.map_some]
    have hslot : direntInum (slotAt (putEntry c (emptySlot c) (dirent inum name)) (emptySlot c)) = inum := by
      have hbytes : ∀ i, i < 16 → slotAt (putEntry c (emptySlot c) (dirent inum name))
        (emptySlot c) i = dirent inum name i := fun i hi => by
        rw [slotAt_put hlen hj _ hi, if_pos rfl]
      rw [direntInum_congr hbytes, direntInum_dirent hinum]
    rw [hslot]
  next hkey =>
    rw [find_put_other (Ne.symm hkey) hj vacant_empty]
    cases hfind' : find (entries c) (c.length / 16) (key name') with
    | none => rfl
    | some j =>
      obtain ⟨hlt, hholds, -⟩ := find_eq_some.mp hfind'
      have hne : j ≠ emptySlot c := by
        intro e
        have hused := entries_of_holds hholds
        rw [e] at hused hlt
        have hempty : entries c (emptySlot c) = none := vacant_empty hlt
        rw [hempty] at hused
        cases hused
      rw [Option.map_some, Option.map_some, direntInum_put_of_ne hlen hj hne]

/-- `sys_unlink` removes a binding. -/
theorem lookup_clear (hlen : c.length % 16 = 0) (hdistinct : Slots.Distinct (entries c) (c.length / 16)) {t off : Nat}
    (hfind : lookup c name = some (t, off)) :
    lookup (putEntry c (off / 16) fun _ => 0) name' = if key name' = key name then none else lookup c name' := by
  obtain ⟨j, rfl, -, hfind⟩ := lookup_eq_some hfind
  obtain ⟨hlt, hholds, -⟩ := find_eq_some.mp hfind
  have hj : j ≤ c.length / 16 := le_of_lt hlt
  have hsame : max (c.length / 16) (j + 1) = c.length / 16 := by omega
  have hnone : entryOf (fun _ => 0) = none := by decide
  unfold lookup
  rw [Nat.mul_div_cancel_left j (by decide), entries_put hlen hj, length_put_div hlen hj, hsame, hnone]
  split
  next hkey => rw [hkey, find_clear_self hdistinct hfind, Option.map_none]
  next hkey =>
    rw [find_clear_other (Ne.symm hkey) hfind]
    cases hfind' : find (entries c) (c.length / 16) (key name') with
    | none => rfl
    | some j' =>
      have hne : j' ≠ j := by
        rintro rfl
        exact hkey (holds_inj (find_eq_some.mp hfind').2.1 hholds)
      rw [Option.map_some, Option.map_some, direntInum_put_of_ne hlen hj hne]

end

/-! ## The code -/

section

variable {P : Type} {sb : Super} {s s' : State P} {k : Fin NINODE} {name : List Byte}

/-- The inode in slot `k` is a directory with this content. -/
structure IsDir (sb : Super) (k : Fin NINODE) (c : List Byte) (s : State P) : Prop where
  loaded : Loaded sb k s
  type : (s.icache k).din.type = T_DIR
  content : content sb (table sb s k) s.disk (s.icache k).inum = c
  length : c.length % 16 = 0

variable {c : List Byte}

theorem IsDir.size (h : IsDir sb k c s) : (s.icache k).din.size.toNat = c.length := by
  have hlen := congrArg List.length h.content
  rwa [length_content, table_self] at hlen

theorem IsDir.length_le (h : IsDir sb k c s) : c.length ≤ MAXFILE * BSIZE := by
  have hle := h.loaded.rep.size_le _ h.loaded.inum h.loaded.table_type
  rwa [table_self, h.size] at hle

/-- An entry is read. -/
theorem IsDir.readi (h : IsDir sb k c s) {j : Nat} (hj : j < c.length / 16) :
    ∃ de, readi sb k (fun _ => true) (16 * j) 16 s = .ok (16, de) s ∧ ∀ i, i < 16 → de i = slotAt c j i := by
  have hmax : MAXFILE * BSIZE < 2 ^ 32 - 16 := by decide
  have hle := h.length_le
  obtain ⟨r, s', hok, rfl, hcount, hbytes⟩ := wp_returns
    (readi_spec h.loaded (show 16 * j < 2 ^ 32 by omega) (show 16 < 2 ^ 32 by decide)
    fun _ _ => rfl)
  have hr : r.1 = 16 := by
    rw [hcount, h.size]
    unfold readCount
    rw [if_pos (by omega)]
    omega
  obtain ⟨n, de⟩ := r
  obtain rfl : n = 16 := hr
  refine ⟨de, hok, fun i hi => (hbytes i hi).trans ?_⟩
  unfold slotAt
  rw [← h.content, List.getD_eq_getElem?_getD, getElem?_content, table_self, h.size, if_pos (by omega)]
  rfl

theorem slots_length (h : c.length % 16 = 0) : slots c.length = List.range (c.length / 16) := by
  unfold slots
  congr 1
  omega

theorem dirlookupLoop_eq (h : IsDir sb k c s) {js : List Nat} (hjs : ∀ j ∈ js, j < c.length / 16) :
    dirlookupLoop sb k name js s =
      .ok ((js.find? (holds (entries c) (key name))).map fun j => (direntInum (slotAt c j), 16 * j)) s := by
  induction js with
  | nil => rfl
  | cons j js ih =>
    obtain ⟨de, hread, hde⟩ := h.readi (hjs j List.mem_cons_self)
    have hinum := direntInum_congr hde
    have hentry : entryOf de = entries c j := entryOf_congr hde
    have hrest := ih fun j' hj' => hjs j' (List.mem_cons_of_mem j hj')
    unfold dirlookupLoop
    rw [bind_of_ok hread]
    show (if (16 : Nat) ≠ 16 then _ else _ : Kern P _) s = _
    rw [if_neg (fun hne => hne rfl), List.find?_cons]
    unfold holds at hrest ⊢
    rw [← hentry]
    unfold entryOf
    by_cases hzero : direntInum de = 0
    · rw [if_pos hzero, if_pos hzero]
      exact hrest
    · rw [if_neg hzero, if_neg hzero]
      have hcmp : namecmp (cstr name) (direntName de) = 0 ↔ cname DIRSIZ (direntName de) = key name := by
        unfold namecmp
        rw [strncmp_eq_zero]
        exact eq_comm
      by_cases hname : cname DIRSIZ (direntName de) = key name
      · rw [if_pos (hcmp.mpr hname)]
        simp only [Option.any_some, hname, decide_true, Option.map_some, hinum]
        rfl
      · rw [if_neg (fun e => hname (hcmp.mp e))]
        simp only [Option.any_some, hname, decide_false]
        exact hrest

/-- `dirlookup` looks the name up, and gets the inode. -/
theorem wp_dirlookup (h : IsDir sb k c s) {Q : Option (Fin NINODE × Nat) → State P → Prop} {E : Stop → State P → Prop} :
    wp (dirlookup sb k name) Q E s ↔
      match lookup c name with
      | none => Q none s
      | some (t, off) => wp (iget t) (fun ip s' => Q (some (ip, off)) s') E s := by
  have hloop : dirlookupLoop sb k name (List.range (c.length / 16)) s = _ := dirlookupLoop_eq h fun j hj => List.mem_range.mp hj
  unfold dirlookup din
  rw [wp_bind, wp_read, if_neg (fun hne => hne h.type), h.size, slots_length h.length, wp_congr (bind_of_ok hloop)]
  unfold lookup find
  cases (List.range (c.length / 16)).find? (holds (entries c) (key name)) with
  | none => exact Iff.rfl
  | some j =>
    simp only [Option.map_some, wp_bind, wp_pure]

theorem emptyLoop_eq (h : IsDir sb k c s) {js : List Nat} (hjs : ∀ j ∈ js, j < c.length / 16) (last : Nat) :
    emptyLoop sb k last js s = .ok (((js.find? fun j => (entries c j).isNone).map fun j => 16 * j).getD last) s := by
  induction js with
  | nil => rfl
  | cons j js ih =>
    obtain ⟨de, hread, hde⟩ := h.readi (hjs j List.mem_cons_self)
    have hentry : entryOf de = entries c j := entryOf_congr hde
    have hrest := ih fun j' hj' => hjs j' (List.mem_cons_of_mem j hj')
    unfold emptyLoop
    rw [bind_of_ok hread]
    show (if (16 : Nat) ≠ 16 then _ else _ : Kern P _) s = _
    rw [if_neg (fun hne => hne rfl), List.find?_cons, ← hentry]
    unfold entryOf
    by_cases hzero : direntInum de = 0
    · rw [if_pos hzero, if_pos hzero]
      rfl
    · rw [if_neg hzero, if_neg hzero]
      exact hrest

/-- `dirlink` of a name that is there, and of one that is not. -/
theorem wp_dirlink (h : IsDir sb k c s) (inum : Nat) {Q : Bool → State P → Prop} {E : Stop → State P → Prop} :
    wp (dirlink sb k name inum) Q E s ↔
      match lookup c name with
      | some (t, _) => wp (iget t) (fun ip s₁ => wp (iput sb ip) (fun _ s₂ => Q false s₂) E s₁) E s
      | none => wp (writei sb k (fun i => some (dirent inum name i)) (16 * emptySlot c) 16)
        (fun r s₁ => if r ≠ some 16 then E .dirlink s₁ else Q true s₁) E s := by
  unfold dirlink
  rw [wp_bind, wp_dirlookup h]
  cases hfind : lookup c name with
  | some b => simp only [wp_bind, wp_pure]
  | none =>
    have hlast : 16 * ((c.length + 15) / 16) = 16 * (c.length / 16) := by
      have := h.length
      omega
    have hempty : emptyLoop sb k (16 * (c.length / 16)) (List.range (c.length / 16)) s = _ :=
      emptyLoop_eq h (fun j hj => List.mem_range.mp hj) _
    have hslot : (((List.range (c.length / 16)).find? fun j => (entries c j).isNone).map fun j => 16 * j).getD (16 * (c.length / 16)) =
        16 * emptySlot c := by
      unfold emptySlot vacant
      cases (List.range (c.length / 16)).find? fun j => (entries c j).isNone with
      | none => rfl
      | some j => rfl
    rw [hslot] at hempty
    rw [wp_bind, wp_read, h.size, slots_length h.length, hlast, wp_congr (bind_of_ok hempty), wp_bind]
    constructor
    · intro hwrite
      apply wp_mono hwrite
      · intro r s₁ hr
        split
        next hne =>
          rw [if_pos hne] at hr
          exact hr
        next heq =>
          rw [if_neg heq] at hr
          exact hr
      · exact fun _ _ => id
    · intro hwrite
      apply wp_mono hwrite
      · intro r s₁ hr
        apply wp_ite
        · intro hne
          rw [if_pos hne] at hr
          exact hr
        · intro heq
          rw [if_neg heq] at hr
          exact hr
      · exact fun _ _ => id

/-- Nothing that is in use has changed. -/
structure Unchanged (s s' : State P) : Prop where
  disk : s'.disk = s.disk
  log : s'.log = s.log
  ops : s'.ops = s.ops
  ftable : s'.ftable = s.ftable
  proc : s'.proc = s.proc
  ref : ∀ k, (s'.icache k).ref = (s.icache k).ref
  used : ∀ k, (s.icache k).ref ≠ 0 → s'.icache k = s.icache k

/-- `iget` takes the entry of the inode, else one that is not in use. -/
theorem iget_cases (hspare : 0 < spare s) (t : Nat) :
    ∃ ip e, iget t s = .ok ip (s.setInode ip e) ∧ e.inum = t ∧ 0 < e.ref ∧
      (e = (s.icache ip).setRef ((s.icache ip).ref + 1) ∧ 0 < (s.icache ip).ref ∨
        e = (s.icache ip).recycle t ∧ (s.icache ip).ref = 0) := by
  unfold iget
  cases hcached : cached s.icache t with
  | some ip =>
    obtain ⟨hpos, hinum⟩ := cached_some hcached
    exact ⟨ip, _, rfl, hinum, Int.lt_add_one_of_le (Int.le_of_lt hpos), .inl ⟨rfl, hpos⟩⟩
  | none =>
    cases hempty : empty s.icache with
    | some ip => exact ⟨ip, _, rfl, rfl, Int.zero_lt_one, .inr ⟨rfl, empty_some hempty⟩⟩
    | none =>
      rw [empty_none hempty] at hspare
      exact absurd hspare (lt_irrefl 0)

/-- `iput` of an inode that has other references or has not been read. -/
theorem wp_iput_keep {ip : Fin NINODE} {e : Inode} (hno : ¬ (e.ref = 1 ∧ e.valid = true)) :
    wp (iput sb ip) (fun _ s₂ => s₂ = s.setInode ip (e.setRef (e.ref - 1))) never (s.setInode ip e) := by
  have hself : (s.setInode ip e).icache ip = e := update_self ..
  unfold iput
  simp only [wp_bind, wp_read]
  rw [hself]
  apply wp_onlyIf
  · intro hlast
    exact absurd ⟨hlast.1, hlast.2.1⟩ hno
  · intro _
    rw [wp_change, hself]
    unfold State.setInode
    rw [update_idem]

/-- `iget` and `iput` of an inode: it is not freed, for either it was in use before or it has not
been read. -/
theorem wp_iget_iput (t : Nat) (hspare : 0 < spare s) :
    wp (iget t) (fun ip s₁ => wp (iput sb ip) (fun _ s₂ => Unchanged s s₂) never s₁) never s := by
  obtain ⟨ip, e, hok, -, -, hcase⟩ := iget_cases hspare t
  apply wp_of_ok hok
  rcases hcase with ⟨rfl, hpos⟩ | ⟨rfl, hzero⟩
  · apply wp_mono (wp_iput_keep fun h => by
      have : (s.icache ip).ref + 1 = 1 := h.1
      omega)
    · intro _ s₂ hs₂
      have hback : s₂ = s := by
        rw [hs₂]
        unfold State.setInode Inode.setRef
        rw [Int.add_sub_cancel, update_eq_self]
      rw [hback]
      exact ⟨rfl, rfl, rfl, rfl, rfl, fun _ => rfl, fun _ _ => rfl⟩
    · exact fun _ _ => id
  · apply wp_mono (wp_iput_keep fun h => Bool.false_ne_true h.2)
    · intro _ s₂ hs₂
      subst hs₂
      refine ⟨rfl, rfl, rfl, rfl, rfl, fun k' => ?_, fun k' hk' => ?_⟩
      · show (update s.icache ip _ k').ref = _
        by_cases hk : k' = ip
        · rw [hk, update_self, hzero]
          rfl
        · rw [update_of_ne hk]
      · show update s.icache ip _ k' = _
        rw [update_of_ne]
        rintro rfl
        exact hk' hzero
    · exact fun _ _ => id

/-- `dirlookup` finds this, an inode number and an offset. -/
def Finds (sb : Super) (k : Fin NINODE) (name : List Byte) (r : Option (Nat × Nat)) (s : State P) : Prop :=
  wp (dirlookup sb k name) (fun x s' => s'.disk = s.disk ∧
    match r with
    | none => x = none
    | some (t, off) => ∃ ip, x = some (ip, off) ∧ 0 < (s'.icache ip).ref ∧ (s'.icache ip).inum = t) never s

theorem IsDir.finds (h : IsDir sb k c s) (name : List Byte) (hspare : lookup c name ≠ none → 0 < spare s) :
    Finds sb k name (lookup c name) s := by
  unfold Finds
  rw [wp_dirlookup h]
  cases hfind : lookup c name with
  | none => exact ⟨rfl, rfl⟩
  | some b =>
    obtain ⟨t, off⟩ := b
    obtain ⟨ip, e, hok, hinum, hpos, -⟩ := iget_cases (hspare (by rw [hfind]; exact Option.some_ne_none _)) t
    have hself : (s.setInode ip e).icache ip = e := update_self ..
    apply wp_of_ok hok
    exact ⟨rfl, ip, rfl, by rw [hself]; exact hpos, by rw [hself]; exact hinum⟩

/-- An entry is in one block. -/
theorem turns_entry (j : Nat) : turns (16 * j) 16 = 1 := by
  unfold turns BSIZE
  rw [if_neg (by decide)]
  omega

/-- An entry is written. -/
theorem IsDir.put (h : IsDir sb k c s) {j : Nat} (hj : j ≤ c.length / 16) {de : Sector}
    (hw : Wrote sb k (16 * j) ((List.range 16).map de) s s') : IsDir sb k (putEntry c j de) s' := by
  refine ⟨hw.loaded, ?_, ?_, ?_⟩
  · rw [hw.din]
    exact h.type
  · rw [hw.on.inum, hw.content h.loaded, h.content]
    rfl
  · rw [length_put hj]
    have := h.length
    omega

theorem spare_congr (h : OnInode k s s') : spare s' = spare s := by
  have href : ∀ j, (s'.icache j).ref = (s.icache j).ref := by
    intro j
    rw [h.icache]
    by_cases hj : j = k
    · rw [hj, update_self]
      rfl
    · rw [update_of_ne hj]
  unfold spare
  simp only [href]

/-- `writei` of one entry, with room for it. -/
theorem IsDir.writei (h : IsDir sb k c s) {j : Nat} (hj : j ≤ c.length / 16) (hroom : 16 * j + 16 ≤ MAXFILE * BSIZE)
    (henough : Enough sb s k (needed (16 * j) 16)) (hlog : Roomy s.log (cost sb s k (needed (16 * j) 16))) (de : Sector) :
    wp (writei sb k (fun i => some (de i)) (16 * j) 16)
      (fun r s' => r = some 16 ∧ IsDir sb k (putEntry c j de) s' ∧ spare s' = spare s) never s := by
  have hfits : Fits (s.icache k).din.size.toNat (16 * j) 16 := by
    have hmax : MAXFILE * BSIZE < 2 ^ 32 := by decide
    rw [h.size]
    exact ⟨by omega, by omega, hroom⟩
  have hsrc : ∀ j, j < 16 → some (de j) = some (de j) := fun _ _ => rfl
  apply wp_mono (writei_spec h.loaded hlog.1 (by decide) (fun _ => hsrc) (reaches_needed (16 * j) 16))
  · intro r s' hr
    obtain ⟨hr, hw⟩ := hr.1 hfits
    exact ⟨hr, h.put hj hw, spare_congr hw.on⟩
  · intro e s' he
    rcases he.2 with ⟨-, hno⟩ | ⟨-, hfilled, W, hcard, hlogged⟩
    · exact hno henough
    · exact hlogged.not_roomy hfilled hcard hlog

/-- A directory is a finite map from names to inode numbers, of which `dirlookup` finds a binding,
`dirlink` adds one and clearing an entry removes one. A binding that is found takes an entry of the
inode cache, and one that is added or removed takes room in the log. -/
theorem directory_is_map (sb : Super) (k : Fin NINODE) (s : State P) (c : List Byte) (h : IsDir sb k c s)
    (hdistinct : Slots.Distinct (entries c) (c.length / 16)) :
    (∀ name, (lookup c name ≠ none → 0 < spare s) → Finds sb k name (lookup c name) s) ∧
    (∀ name inum, 0 < inum → inum < 2 ^ 16 → (lookup c name ≠ none → 0 < spare s) →
      (lookup c name = none → 16 * emptySlot c + 16 ≤ MAXFILE * BSIZE ∧ Enough sb s k (needed (16 * emptySlot c) 16) ∧
        Roomy s.log (cost sb s k (needed (16 * emptySlot c) 16))) →
      wp (dirlink sb k name inum) (fun r s' => (r = false ↔ lookup c name ≠ none) ∧ (r = false → Unchanged s s') ∧
        (r = true → 0 < spare s →
          ∀ name', Finds sb k name' (if key name' = key name then some (inum, 16 * emptySlot c) else lookup c name') s')) never s) ∧
    ∀ name t off, lookup c name = some (t, off) → Roomy s.log (cost sb s k (needed off 16)) →
      wp (writei sb k (fun _ => some 0) off 16) (fun r s' => r = some 16 ∧ (0 < spare s →
        ∀ name', Finds sb k name' (if key name' = key name then none else lookup c name') s')) never s := by
  refine ⟨h.finds, fun name inum hpos hinum hspare hroom => ?_, fun name t off hfind hlog => ?_⟩
  · rw [wp_dirlink h]
    cases hfind : lookup c name with
    | some b =>
      obtain ⟨t, off⟩ := b
      have hboth : wp (iget t) (fun ip s₁ => wp (iput sb ip) (fun _ s₂ => Unchanged s s₂) never s₁) never s :=
        wp_iget_iput t (hspare (by rw [hfind]; exact Option.some_ne_none _))
      apply wp_mono hboth
      · intro ip s₁ hput
        apply wp_mono hput
        · intro _ s₂ hsame
          refine ⟨⟨fun _ => Option.some_ne_none _, fun _ => rfl⟩, fun _ => hsame, fun htrue => ?_⟩
          cases htrue
        · exact fun _ _ => id
      · exact fun _ _ => id
    | none =>
      obtain ⟨hroom, henough, hlog⟩ := hroom hfind
      apply wp_mono (h.writei (emptySlot_le c) hroom henough hlog (dirent inum name))
      · intro r s' hr
        obtain ⟨rfl, hdir, hsp⟩ := hr
        rw [if_neg (fun hne => hne rfl)]
        refine ⟨⟨fun hfalse => ?_, fun hne => absurd rfl hne⟩, fun hfalse => ?_, fun _ hspare name' => ?_⟩
        · cases hfalse
        · cases hfalse
        · rw [← lookup_put h.length hpos hinum hfind]
          exact hdir.finds name' fun _ => hsp ▸ hspare
      · exact fun _ _ => id
  · have hcopy := hfind
    obtain ⟨j, rfl, -, hslot⟩ := lookup_eq_some hcopy
    obtain ⟨hlt, -, -⟩ := find_eq_some.mp hslot
    have hle := h.length_le
    have henough : Enough sb s k (needed (16 * j) 16) := enough_below h.loaded (by rw [h.size]; omega)
    apply wp_mono (h.writei (le_of_lt hlt) (by omega) henough hlog fun _ => 0)
    · intro r s' hr
      obtain ⟨rfl, hdir, hsp⟩ := hr
      refine ⟨rfl, fun hspare name' => ?_⟩
      rw [← lookup_clear h.length hdistinct hfind, Nat.mul_div_cancel_left j (by decide)]
      exact hdir.finds name' fun _ => hsp ▸ hspare
    · exact fun _ _ => id

end

/-! ## The root directory of an empty disk -/

section

theorem length_rootContent : rootContent.length = 1024 := by
  unfold rootContent
  rw [List.length_map, List.length_range]
  rfl

theorem isDir_mounted (size outstanding : Int) : IsDir mkfsSuper slot0 rootContent (mounted () size outstanding slot0) := by
  have hloaded := loaded_mounted () size outstanding slot0
  have hino : inode mkfsSuper image ROOTINO = rootInode := (inode_image (by decide)).trans (if_pos rfl)
  have hself : update (inode mkfsSuper image) ROOTINO rootInode = inode mkfsSuper image :=
    update_eq_self_iff.mpr hino.symm
  refine ⟨hloaded, rfl, ?_, by rw [length_rootContent]⟩
  show content mkfsSuper (update (inode mkfsSuper image) ROOTINO rootInode) image ROOTINO = rootContent
  rw [hself, content_image]

theorem entries_rootContent {j : Nat} (hj : j < 64) :
    entries rootContent j = if j = 0 then some ([46], 1) else if j = 1 then some ([46, 46], 1) else none := by
  have hslot : entries rootContent j = entryOf fun i => imageRoot (16 * j + i) := by
    apply entryOf_congr
    intro i hi
    unfold slotAt rootContent
    rw [List.getD_eq_getElem?_getD, getElem?_map_range, if_pos (by unfold BSIZE; omega)]
    rfl
  rw [hslot]
  revert j
  decide +kernel

theorem holds_rootContent {j : Nat} {t : List Byte} (hj : j < rootContent.length / 16) (h : holds (entries rootContent) t j = true) :
    j = 0 ∧ t = [46] ∨ j = 1 ∧ t = [46, 46] := by
  rw [length_rootContent] at hj
  have hentry := entries_of_holds h
  rw [entries_rootContent hj] at hentry
  split at hentry
  next hzero => exact .inl ⟨hzero, (Prod.mk.inj (Option.some.inj hentry)).1.symm⟩
  next =>
    split at hentry
    next hone => exact .inr ⟨hone, (Prod.mk.inj (Option.some.inj hentry)).1.symm⟩
    next => cases hentry

theorem distinct_rootContent : Slots.Distinct (entries rootContent) (rootContent.length / 16) := by
  intro i j t hi hj hti htj
  rcases holds_rootContent hi hti with ⟨rfl, rfl⟩ | ⟨rfl, rfl⟩
  · rcases holds_rootContent hj htj with ⟨rfl, -⟩ | ⟨-, h⟩
    · rfl
    · cases h
  · rcases holds_rootContent hj htj with ⟨-, h⟩ | ⟨rfl, -⟩
    · cases h
    · rfl

/-- "x" is added to the root directory of an empty disk, and ".." is removed from it. -/
theorem directory_is_map_root :
    Finds mkfsSuper slot0 [46, 46] (some (1, 16)) (mounted () LOGSIZE 1 slot0) ∧
    wp (dirlink mkfsSuper slot0 [120] 7) (fun r s' => r = true → Finds mkfsSuper slot0 [120] (some (7, 32)) s') never
      (mounted () LOGSIZE 1 slot0) ∧
    wp (writei mkfsSuper slot0 (fun _ => some 0) 16 16) (fun _ s' => Finds mkfsSuper slot0 [46, 46] none s') never
      (mounted () LOGSIZE 1 slot0) := by
  have hdotdot : lookup rootContent [46, 46] = some (1, 16) := by decide +kernel
  have hslot : emptySlot rootContent = 2 := by decide +kernel
  have hspare : 0 < spare (mounted () LOGSIZE 1 slot0) := by decide +kernel
  have hroom : ∀ j, Roomy (mounted () LOGSIZE 1 slot0).log (cost mkfsSuper (mounted () LOGSIZE 1 slot0) slot0 (needed (16 * j) 16)) :=
    fun j => Roomy.mono (n := 5) ⟨by decide, by decide, by decide⟩ ((cost_le ..).trans (by rw [turns_entry]))
  obtain ⟨hfind, hlink, hclear⟩ := directory_is_map mkfsSuper slot0
    (mounted () LOGSIZE 1 slot0) rootContent (isDir_mounted _ _) distinct_rootContent
  refine ⟨?_, ?_, ?_⟩
  · rw [← hdotdot]
    exact hfind [46, 46] fun _ => hspare
  · have henough : Enough mkfsSuper (mounted () LOGSIZE 1 slot0) slot0 (needed (16 * emptySlot rootContent) 16) :=
      enough_mounted _ _ _ _ (by rw [turns_entry]; decide)
    apply wp_mono (hlink [120] 7 (by decide) (by decide) (fun _ => hspare) fun _ => ⟨by rw [hslot]; decide, henough, hroom _⟩)
    · intro r s' hr htrue
      have hx := hr.2.2 htrue hspare [120]
      rwa [if_pos rfl, hslot] at hx
    · exact fun _ _ => id
  · apply wp_mono (hclear [46, 46] 1 16 hdotdot (hroom 1))
    · intro r s' hr
      have hx := hr.2 hspare [46, 46]
      rwa [if_pos rfl] at hx
    · exact fun _ _ => id

/-- A transaction that has logged as many blocks as there is room for. -/
def fullLog : State Unit :=
  (mounted () LOGSIZE 1 slot0).setLog { start := 2, size := LOGSIZE, outstanding := 1, committing := false, lh := List.range 29 }

/-- A new name is not added when the log is full: `dirlink` panics. -/
theorem dirlink_overflows_log :
    IsDir mkfsSuper slot0 rootContent fullLog ∧ Slots.Distinct (entries rootContent) (rootContent.length / 16) ∧
      lookup rootContent [120] = none ∧ emptySlot rootContent < rootContent.length / 16 ∧
      (dirlink mkfsSuper slot0 [120] 7 fullLog).stopped = some (.log .tooBig) := by
  have hdir := isDir_mounted LOGSIZE 1
  have hnone : find (entries rootContent) (rootContent.length / 16) (key [120]) = none := by
    rw [find_eq_none]
    intro j hj
    cases h : holds (entries rootContent) (key [120]) j with
    | false => rfl
    | true =>
      rcases holds_rootContent hj h with ⟨-, h⟩ | ⟨-, h⟩
      · exact absurd h (by decide)
      · exact absurd h (by decide)
  refine ⟨⟨⟨hdir.loaded.rep, hdir.loaded.inum, hdir.loaded.type⟩, hdir.type, hdir.content,
    hdir.length⟩, distinct_rootContent, ?_, ?_, ?_⟩
  · unfold lookup
    rw [hnone]
    rfl
  · rw [length_rootContent]
    decide +kernel
  · decide +kernel

end

end Xv6.Fs
