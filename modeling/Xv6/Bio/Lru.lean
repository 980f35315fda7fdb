import Xv6.Bio.Counted
import Xv6.Lib.Links

/-!
# The list of buffers

`bio.c` with the links that `Xv6.Bio` leaves out: `binit`, `bget`, `brelse`, `bpin` and `bunpin`,
pointer write by pointer write, for every device. Each critical section of `bcache.lock` is one
step, and so is each use of a buffer's sleep lock. So `bread` takes three steps (find the buffer,
lock it, look at `valid`) and `brelse` two (unlock it, give the reference back), with the steps of
any number of other processes between them.

`waiting`, `dropping`, `pinned`, `used` and `freed` are not in the source. They record who refers to
a buffer, whether `bget` ever returned it, and when its count was last released to zero. No step
depends on what `pinned`, `used` and `freed` say.

What the list is for is `Before`: the buffers stand in the order of their last release, the last one
first. The list `L` itself is found again in every state (`Listed`), so that the two loops of `bget`
are searches in `L` and in its reverse.
-/

namespace Xv6.Lru

open Function List

/-- `struct buf`, without its data. `lock` is the sleep lock: the process that holds it. -/
structure Buf (P : Type) where
  valid : Bool
  dev : BitVec 32
  blockno : BitVec 32
  lock : Option P
  refcnt : BitVec 32
  /-- in `bget`, past `bcache.lock`, waiting for the sleep lock -/
  waiting : List P
  /-- in `brelse`, the sleep lock released, about to acquire `bcache.lock` -/
  dropping : List P
  /-- the calls of `bpin` that no `bunpin` has undone -/
  pinned : Nat
  used : Bool
  /-- the time of the last release to zero; 0 if there was none -/
  freed : Nat

inductive Panic
  | noBuffers
  | brelse
  deriving DecidableEq, Repr

namespace Buf

variable {P : Type} (x : Buf P)

/-- The test of `bget`'s first loop. -/
def holds (dev blockno : BitVec 32) : Bool := x.dev == dev && x.blockno == blockno

/-- `refcnt++` in `bget`. -/
def found (p : P) : Buf P := { x with refcnt := x.refcnt + 1, waiting := p :: x.waiting, used := true }

/-- The buffer taken for another block. -/
def recycle (p : P) (dev blockno : BitVec 32) : Buf P :=
  { x with dev := dev, blockno := blockno, valid := false, refcnt := 1, waiting := p :: x.waiting, used := true }

def pin : Buf P := { x with refcnt := x.refcnt + 1, pinned := x.pinned + 1 }

def unpin : Buf P := { x with refcnt := x.refcnt - 1, pinned := x.pinned - 1 }

def release (p : P) : Buf P := { x with lock := none, dropping := p :: x.dropping }

section

variable [DecidableEq P]

def acquire (p : P) : Buf P := { x with lock := some p, waiting := x.waiting.erase p }

/-- `refcnt--` in `brelse`. -/
def drop (p : P) : Buf P := { x with refcnt := x.refcnt - 1, dropping := x.dropping.erase p }

end

/-- The references that were taken and not given back. -/
def references : Nat := x.waiting.length + x.lock.toList.length + x.dropping.length + x.pinned

end Buf

structure Cache (P : Type) where
  links : Links (Fin NBUF)
  buf : Fin NBUF → Buf P
  clock : Nat

/-- What `bget`'s loops end with. -/
inductive Found
  | cached (i : Fin NBUF)
  | recycled (i : Fin NBUF)
  | nothing
  deriving DecidableEq, Repr

namespace Cache

variable {P : Type} (s : Cache P)

def setBuf (i : Fin NBUF) (x : Buf P) : Cache P := { s with buf := update s.buf i x }

/-- The loops of `bget`. There is no result where one of them does not end. -/
def find (dev blockno : BitVec 32) : Option Found :=
  match Links.scan s.links.next (fun i => (s.buf i).holds dev blockno) (NBUF + 1) (s.links.next none) with
  | none => none
  | some (some i) => some (.cached i)
  | some none =>
    match Links.scan s.links.prev (fun i => (s.buf i).refcnt == 0) (NBUF + 1) (s.links.prev none) with
    | none => none
    | some (some i) => some (.recycled i)
    | some none => some .nothing

/-- `bget`, up to `acquiresleep`. -/
def bget (p : P) (dev blockno : BitVec 32) : Option (Except Panic (Cache P)) :=
  match s.find dev blockno with
  | none => none
  | some (.cached i) => some (.ok (s.setBuf i ((s.buf i).found p)))
  | some (.recycled i) => some (.ok (s.setBuf i ((s.buf i).recycle p dev blockno)))
  | some .nothing => some (.error .noBuffers)

variable [DecidableEq P]

/-- `brelse`, up to `releasesleep`. -/
def brelse (p : P) (i : Fin NBUF) : Except Panic (Cache P) :=
  if (s.buf i).lock = some p then .ok (s.setBuf i ((s.buf i).release p)) else .error .brelse

/-- The rest of `brelse`: a buffer that no one is waiting for moves to the front of the list. -/
def drop (p : P) (i : Fin NBUF) : Cache P :=
  if ((s.buf i).drop p).refcnt = 0 then
    { links := (s.links.unlink i).pushFront i
      buf := update s.buf i { (s.buf i).drop p with freed := s.clock + 1 }
      clock := s.clock + 1 }
  else s.setBuf i ((s.buf i).drop p)

end Cache

/-- The cache at boot: all zero, then `binit`. -/
def binit (P : Type) : Cache P where
  links := (finRange NBUF).foldl Links.pushFront ⟨fun _ => none, fun _ => none⟩
  buf := fun _ => ⟨false, 0, 0, none, 0, [], [], 0, false, 0⟩
  clock := 0

inductive Action (P : Type)
  | bget (p : P) (dev blockno : BitVec 32)
  | acquiresleep (p : P) (i : Fin NBUF)
  /-- the rest of `bread` -/
  | fill (p : P) (i : Fin NBUF)
  | brelse (p : P) (i : Fin NBUF)
  /-- the rest of `brelse` -/
  | drop (p : P) (i : Fin NBUF)
  | bpin (p : P) (i : Fin NBUF)
  | bunpin (p : P) (i : Fin NBUF)

section

variable {P : Type} [DecidableEq P]

def step (s : Cache P) : Action P → Option (Except Panic (Cache P))
  | .bget p dev blockno => s.bget p dev blockno
  | .acquiresleep p i =>
    if (s.buf i).waiting.contains p = true ∧ (s.buf i).lock = none then some (.ok (s.setBuf i ((s.buf i).acquire p)))
    else none
  | .fill p i => if (s.buf i).lock = some p then some (.ok (s.setBuf i { s.buf i with valid := true })) else none
  | .brelse p i => some (s.brelse p i)
  | .drop p i => if (s.buf i).dropping.contains p = true then some (.ok (s.drop p i)) else none
  | .bpin _ i => some (.ok (s.setBuf i (s.buf i).pin))
  | .bunpin _ i => some (.ok (s.setBuf i (s.buf i).unpin))

/-- A client unpins a buffer that it holds, and each pin once. That each reference of `bget` is
released once needs no condition: `brelse` asks for the sleep lock. -/
def Proper (s : Cache P) : Action P → Prop
  | .bunpin p i => (s.buf i).lock = some p ∧ 0 < (s.buf i).pinned
  | _ => True

instance (s : Cache P) (a : Action P) : Decidable (Proper s a) :=
  match a with
  | .bunpin _ _ => inferInstanceAs (Decidable (_ ∧ _))
  | .bget _ _ _ | .acquiresleep _ _ | .fill _ _ | .brelse _ _ | .drop _ _ | .bpin _ _ => .isTrue trivial

end

/-! ## The invariant -/

section

variable {P : Type}

/-- The first buffer was released later, or neither was ever released. And a buffer that was never
used does not hide the block of one that was. -/
structure Before (x y : Buf P) : Prop where
  later : y.freed < x.freed ∨ x.freed = 0 ∧ y.freed = 0
  seen : x.used = false → y.used = true → y.holds x.dev x.blockno = false

/-- What a buffer's fields say of each other. -/
structure Sound (clock : Nat) (x : Buf P) : Prop where
  refcnt : x.refcnt = BitVec.ofNat 32 x.references
  past : x.freed ≤ clock
  unused : x.used = false → x.freed = 0 ∧ x.waiting = [] ∧ x.lock = none ∧ x.dropping = []
  released : x.used = true → x.references = 0 → 0 < x.freed

/-- The links go through all buffers in the order `L`. -/
structure Listed (s : Cache P) (L : List (Fin NBUF)) : Prop where
  nodup : L.Nodup
  all : ∀ i, i ∈ L
  path : s.links.Path none L none
  sorted : L.Pairwise fun i j => Before (s.buf i) (s.buf j)

structure Inv (s : Cache P) : Prop where
  listed : ∃ L, Listed s L
  sound : ∀ i, Sound s.clock (s.buf i)
  keys : ∀ i j, (s.buf i).used = true → (s.buf j).used = true → (s.buf i).holds (s.buf j).dev (s.buf j).blockno = true → i = j

variable {blockno dev : BitVec 32} {A B : List (Fin NBUF)}

theorem Buf.holds_iff {x : Buf P} :
    x.holds dev blockno = true ↔ x.dev = dev ∧ x.blockno = blockno := by
  simp [Buf.holds]

theorem inv_binit : Inv (binit P) where
  listed := by
    have hnodup : ((finRange NBUF).reverse ++ []).Nodup := by
      rw [append_nil, nodup_reverse]
      exact nodup_finRange NBUF
    refine ⟨(finRange NBUF).reverse ++ [], hnodup, fun i => ?_, Links.Path.pushAll ⟨rfl, rfl⟩ hnodup, ?_⟩
    · rw [append_nil, mem_reverse]
      exact mem_finRange i
    · apply pairwise_of_forall
      exact fun i j => ⟨.inr ⟨rfl, rfl⟩, nofun⟩
  sound := fun i => ⟨rfl, le_rfl, fun _ => ⟨rfl, rfl, rfl, rfl⟩, nofun⟩
  keys := nofun

/-! ## The loops -/

variable {s : Cache P} {L : List (Fin NBUF)} {i : Fin NBUF}

theorem Listed.length (h : Listed s L) : L.length = NBUF := by
  have hperm : L.Perm (finRange NBUF) :=
    (perm_ext_iff_of_nodup h.nodup (nodup_finRange NBUF)).mpr fun i => ⟨fun _ => mem_finRange i, fun _ => h.all i⟩
  rw [hperm.length_eq, length_finRange]

/-- The loops as searches in the list. -/
theorem Listed.find_eq (h : Listed s L) (dev blockno : BitVec 32) :
    s.find dev blockno =
      match L.find? fun i => (s.buf i).holds dev blockno with
      | some i => some (.cached i)
      | none =>
        match L.reverse.find? fun i => (s.buf i).refcnt == 0 with
        | some i => some (.recycled i)
        | none => some .nothing := by
  have hnext := h.path.scan_next fun i => (s.buf i).holds dev blockno
  have hprev := h.path.scan_prev fun i => (s.buf i).refcnt == 0
  rw [h.length] at hnext hprev
  rw [Cache.find, hnext, hprev]
  cases L.find? fun i => (s.buf i).holds dev blockno with
  | some i => rfl
  | none => cases L.reverse.find? fun i => (s.buf i).refcnt == 0 <;> rfl

/-- The buffer that `bget` finds is the first one with the block. -/
theorem Listed.of_cached (h : Listed s L) (hfind : s.find dev blockno = some (.cached i)) :
    (s.buf i).holds dev blockno = true ∧ ∃ A B, L = A ++ i :: B ∧ ∀ a ∈ A, (s.buf a).holds dev blockno = false := by
  rw [h.find_eq] at hfind
  split at hfind
  next j hj =>
    cases hfind
    obtain ⟨hi, A, B, hL, hA⟩ := find?_eq_some_iff_append.mp hj
    exact ⟨hi, A, B, hL, fun a ha => by simpa using hA a ha⟩
  next => split at hfind <;> cases hfind

/-- The buffer that `bget` recycles is the last one that nothing refers to. -/
theorem Listed.of_recycled (h : Listed s L) (hfind : s.find dev blockno = some (.recycled i)) :
    (∀ a, (s.buf a).holds dev blockno = false) ∧ (s.buf i).refcnt = 0 ∧
      ∃ A B, L = A ++ i :: B ∧ ∀ a ∈ B, (s.buf a).refcnt ≠ 0 := by
  rw [h.find_eq] at hfind
  split at hfind
  next => cases hfind
  next hnone =>
    split at hfind
    next j hj =>
      cases hfind
      obtain ⟨hi, B, A, hL, hB⟩ := find?_eq_some_iff_append.mp hj
      refine ⟨fun a => ?_, by simpa using hi, A.reverse, B.reverse, ?_, fun a ha => ?_⟩
      · simpa using find?_eq_none.mp hnone a (h.all a)
      · rw [← reverse_reverse L, hL]
        simp
      · simpa using hB a (mem_reverse.mp ha)
    next => cases hfind

theorem Inv.find_ne_none (h : Inv s) (dev blockno : BitVec 32) : s.find dev blockno ≠ none := by
  obtain ⟨L, hL⟩ := h.listed
  rw [hL.find_eq]
  split
  next => nofun
  next => split <;> nofun

theorem Listed.split (h : Listed s L) (hL : L = A ++ i :: B) :
    (∀ a ∈ A, Before (s.buf a) (s.buf i)) ∧ ∀ b ∈ B, Before (s.buf i) (s.buf b) := by
  have hsorted := h.sorted
  rw [hL, pairwise_append, pairwise_cons] at hsorted
  exact ⟨fun a ha => hsorted.2.2 a ha i mem_cons_self, hsorted.2.1.1⟩

/-- The recycled buffer was released before every other one that nothing refers to. -/
theorem Inv.oldest (h : Inv s) (hfind : s.find dev blockno = some (.recycled i)) :
    (s.buf i).refcnt = 0 ∧ ∀ j, j ≠ i → (s.buf j).refcnt = 0 →
      (s.buf i).freed < (s.buf j).freed ∨ (s.buf i).freed = 0 ∧ (s.buf j).freed = 0 := by
  obtain ⟨L, hL⟩ := h.listed
  obtain ⟨-, hzero, A, B, hAB, hB⟩ := hL.of_recycled hfind
  refine ⟨hzero, fun j hj hjzero => ?_⟩
  have hmem := hL.all j
  rw [hAB, mem_append, mem_cons] at hmem
  rcases hmem with hmem | rfl | hmem
  · rcases ((hL.split hAB).1 j hmem).later with hlt | ⟨h1, h2⟩
    · exact .inl hlt
    · exact .inr ⟨h2, h1⟩
  · exact absurd rfl hj
  · exact absurd hjzero (hB j hmem)

/-! ## What a step keeps -/

/-- One buffer changes where it stands. -/
theorem pairwise_update {buf : Fin NBUF → Buf P} {x : Buf P} (hnodup : (A ++ i :: B).Nodup)
    (h : (A ++ i :: B).Pairwise fun a b => Before (buf a) (buf b))
    (hA : ∀ a ∈ A, Before (buf a) x) (hB : ∀ b ∈ B, Before x (buf b)) :
    (A ++ i :: B).Pairwise fun a b => Before (update buf i x a) (update buf i x b) := by
  have hout : ∀ a, a ∈ A ∨ a ∈ B → update buf i x a = buf a := by
    rw [nodup_middle, nodup_cons, mem_append] at hnodup
    intro a ha
    apply update_of_ne
    rintro rfl
    exact hnodup.1 ha
  rw [pairwise_append, pairwise_cons] at h ⊢
  obtain ⟨hAA, ⟨-, hBB⟩, hAB⟩ := h
  refine ⟨hAA.imp_of_mem fun ha hb hab => ?_, ⟨fun b hb => ?_, hBB.imp_of_mem fun ha hb hab => ?_⟩, fun a ha b hb => ?_⟩
  · rw [hout _ (.inl ha), hout _ (.inl hb)]
    exact hab
  · rw [update_self, hout b (.inr hb)]
    exact hB b hb
  · rw [hout _ (.inr ha), hout _ (.inr hb)]
    exact hab
  · rw [hout a (.inl ha)]
    rcases mem_cons.mp hb with rfl | hb
    · rw [update_self]
      exact hA a ha
    · rw [hout b (.inr hb)]
      exact hAB a ha b (mem_cons_of_mem _ hb)

/-- A buffer that stays where it is. -/
theorem Listed.setBuf (h : Listed s L) {x : Buf P} (hL : L = A ++ i :: B)
    (hA : ∀ a ∈ A, Before (s.buf a) x) (hB : ∀ b ∈ B, Before x (s.buf b)) :
    Listed (s.setBuf i x) L where
  nodup := h.nodup
  all := h.all
  path := h.path
  sorted := by
    subst hL
    exact pairwise_update h.nodup h.sorted hA hB

theorem Inv.keys_update (h : Inv s) {x : Buf P} (hdev : x.dev = (s.buf i).dev) (hblock : x.blockno = (s.buf i).blockno)
    (hused : x.used = (s.buf i).used) (j k : Fin NBUF) :
    (update s.buf i x j).used = true → (update s.buf i x k).used = true →
      (update s.buf i x j).holds (update s.buf i x k).dev (update s.buf i x k).blockno = true → j = k := by
  have hsame : ∀ j, (update s.buf i x j).dev = (s.buf j).dev ∧ (update s.buf i x j).blockno = (s.buf j).blockno ∧
      (update s.buf i x j).used = (s.buf j).used :=
    forall_update (C := fun j (y : Buf P) => y.dev = (s.buf j).dev ∧ y.blockno = (s.buf j).blockno ∧ y.used = (s.buf j).used)
      ⟨hdev, hblock, hused⟩ fun _ _ => ⟨rfl, rfl, rfl⟩
  rw [Buf.holds, (hsame j).1, (hsame j).2.1, (hsame j).2.2, (hsame k).1, (hsame k).2.1, (hsame k).2.2]
  exact h.keys j k

/-- A change of the fields that the order does not read. -/
theorem Inv.setBuf (h : Inv s) {x : Buf P} (hdev : x.dev = (s.buf i).dev) (hblock : x.blockno = (s.buf i).blockno)
    (hused : x.used = (s.buf i).used) (hfreed : x.freed = (s.buf i).freed) (hx : Sound s.clock x) : Inv (s.setBuf i x) where
  listed := by
    obtain ⟨L, hL⟩ := h.listed
    obtain ⟨A, B, hAB⟩ := append_of_mem (hL.all i)
    obtain ⟨hA, hB⟩ := hL.split hAB
    refine ⟨L, hL.setBuf hAB (fun a ha => ?_) fun b hb => ?_⟩
    · obtain ⟨hlater, hseen⟩ := hA a ha
      refine ⟨by rw [hfreed]; exact hlater, ?_⟩
      rw [hused, Buf.holds, hdev, hblock]
      exact hseen
    · obtain ⟨hlater, hseen⟩ := hB b hb
      refine ⟨by rw [hfreed]; exact hlater, ?_⟩
      rw [hused, hdev, hblock]
      exact hseen
  sound := forall_update (C := fun _ => Sound s.clock) hx fun j _ => h.sound j
  keys := h.keys_update hdev hblock hused

/-- A buffer that is given to a process. No other buffer that was used has its block. -/
theorem Inv.give (h : Inv s) {x : Buf P} (hL : Listed (s.setBuf i x) L) (hx : Sound s.clock x)
    (hother : ∀ j, j ≠ i → (s.buf j).used = true → (s.buf j).holds x.dev x.blockno = false) : Inv (s.setBuf i x) where
  listed := ⟨L, hL⟩
  sound := forall_update (C := fun _ => Sound s.clock) hx fun j _ => h.sound j
  keys := by
    intro j k hj hk hjk
    simp only [Cache.setBuf, update_apply] at hj hk hjk
    split_ifs at hj hk hjk with hji hki hki
    · rw [hji, hki]
    · have := hother k hki hk
      rw [Buf.holds_iff] at hjk
      rw [hjk.1, hjk.2] at this
      simp [Buf.holds] at this
    · rw [hother j hji hj] at hjk
      cases hjk
    · exact h.keys j k hj hk hjk

/-! ### References -/

section

variable {x : Buf P} {clock : Nat} {p : P}

section

variable (h : Sound clock x)
include h

theorem Sound.of_refs {y : Buf P} (hrefcnt : y.refcnt = BitVec.ofNat 32 y.references)
    (hfreed : y.freed = x.freed) (hused : y.used = true) (hrefs : 0 < y.references) :
    Sound clock y where
  refcnt := hrefcnt
  past := hfreed ▸ h.past
  unused := by
    rw [hused]
    nofun
  released := fun _ hzero => by omega

theorem Sound.found : Sound clock (x.found p) := by
  have hrefs : (x.found p).references = x.references + 1 := by
    simp only [Buf.found, Buf.references, length_cons]
    omega
  refine h.of_refs ?_ rfl rfl (by omega)
  rw [hrefs, BitVec.ofNat_add, ← h.refcnt]
  rfl

theorem Sound.recycle (hzero : x.refcnt = 0) (dev blockno : BitVec 32) :
    Sound clock (x.recycle p dev blockno) := by
  have hrefs : (x.recycle p dev blockno).references = x.references + 1 := by
    simp only [Buf.recycle, Buf.references, length_cons]
    omega
  refine h.of_refs ?_ rfl rfl (by omega)
  rw [hrefs, BitVec.ofNat_add, ← h.refcnt, hzero]
  rfl

theorem Sound.pin : Sound clock x.pin where
  refcnt := by
    have hrefs : x.pin.references = x.references + 1 := rfl
    rw [hrefs, BitVec.ofNat_add, ← h.refcnt]
    rfl
  past := h.past
  unused := h.unused
  released := nofun

theorem Sound.used_of_lock (hlock : x.lock = some p) : x.used = true := by
  cases hused : x.used with
  | true => rfl
  | false => rw [(h.unused hused).2.2.1] at hlock; cases hlock

theorem Sound.unpin (hlock : x.lock = some p) (hpinned : 0 < x.pinned) : Sound clock x.unpin := by
  have hrefs : x.references = x.unpin.references + 1 ∧ 0 < x.unpin.references := by
    simp only [Buf.unpin, Buf.references, hlock, Option.toList_some, length_singleton]
    omega
  refine h.of_refs ?_ rfl (h.used_of_lock hlock) hrefs.2
  rw [← Bio.ofNat_succ_sub_one, ← hrefs.1, ← h.refcnt]
  rfl

theorem Sound.fill :
    Sound clock { x with valid := true } := ⟨h.refcnt, h.past, h.unused, h.released⟩

theorem Sound.release (hlock : x.lock = some p) : Sound clock (x.release p) := by
  have hrefs : (x.release p).references = x.references ∧ 0 < x.references := by
    simp only [Buf.release, Buf.references, hlock, Option.toList_some, Option.toList_none, length_cons, length_nil]
    omega
  refine h.of_refs ?_ rfl (h.used_of_lock hlock) (by omega)
  rw [hrefs.1]
  exact h.refcnt

end

variable [DecidableEq P]

theorem Sound.acquire (h : Sound clock x) (hwaiting : p ∈ x.waiting) (hlock : x.lock = none) : Sound clock (x.acquire p) := by
  have hpos := length_pos_of_mem hwaiting
  have hrefs : (x.acquire p).references = x.references ∧ 0 < x.references := by
    simp only [Buf.acquire, Buf.references, hlock, Option.toList_some, Option.toList_none, length_cons, length_nil,
      length_erase_of_mem hwaiting]
    omega
  have hused : x.used = true := by
    cases hused : x.used with
    | true => rfl
    | false => rw [(h.unused hused).2.1] at hwaiting; cases hwaiting
  refine h.of_refs ?_ rfl hused (by omega)
  rw [hrefs.1]
  exact h.refcnt

/-- `refcnt--`, by a process that has a reference. -/
theorem Sound.drop (h : Sound clock x) (hp : p ∈ x.dropping) :
    x.used = true ∧ (x.drop p).refcnt = BitVec.ofNat 32 (x.drop p).references := by
  have hpos := length_pos_of_mem hp
  have hrefs : x.references = (x.drop p).references + 1 := by
    simp only [Buf.drop, Buf.references, length_erase_of_mem hp]
    omega
  refine ⟨?_, ?_⟩
  · cases hused : x.used with
    | true => rfl
    | false => rw [(h.unused hused).2.2.2] at hp; cases hp
  · rw [← Bio.ofNat_succ_sub_one, ← hrefs, ← h.refcnt]
    rfl

end

/-! ### The steps -/

theorem Inv.bget (h : Inv s) {p : P} {s' : Cache P} (hs : s.bget p dev blockno = some (.ok s')) :
    Inv s' := by
  obtain ⟨L, hL⟩ := h.listed
  unfold Cache.bget at hs
  split at hs
  next => cases hs
  next i hfind =>
    cases hs
    obtain ⟨hi, A, B, hAB, hfirst⟩ := hL.of_cached hfind
    obtain ⟨hA, hB⟩ := hL.split hAB
    rw [Buf.holds_iff] at hi
    obtain ⟨rfl, rfl⟩ := hi
    have hL' : Listed (s.setBuf i ((s.buf i).found p)) L := by
      refine hL.setBuf hAB (fun a ha => ⟨(hA a ha).later, fun _ _ => ?_⟩) fun b hb => ⟨(hB b hb).later, nofun⟩
      -- a buffer before the first one with the block has another block
      have := hfirst a ha
      simp only [Buf.holds, Buf.found] at this ⊢
      rw [BEq.comm (a := (s.buf i).dev), BEq.comm (a := (s.buf i).blockno)]
      exact this
    refine h.give hL' (h.sound i).found fun j hj hused => ?_
    -- a used buffer with the block is after `i`, which therefore is used too
    show (s.buf j).holds (s.buf i).dev (s.buf i).blockno = false
    by_contra hne
    have hholds := eq_true_of_ne_false hne
    have hjB : j ∈ B := by
      have hmem := hL.all j
      rw [hAB, mem_append, mem_cons] at hmem
      rcases hmem with hmem | rfl | hmem
      · rw [hfirst j hmem] at hholds
        cases hholds
      · exact absurd rfl hj
      · exact hmem
    cases hi : (s.buf i).used with
    | true => exact hj (h.keys j i hused hi hholds)
    | false =>
      rw [(hB j hjB).seen hi hused] at hholds
      cases hholds
  next i hfind =>
    cases hs
    obtain ⟨hnone, hzero, A, B, hAB, -⟩ := hL.of_recycled hfind
    obtain ⟨hA, hB⟩ := hL.split hAB
    have hL' : Listed (s.setBuf i ((s.buf i).recycle p dev blockno)) L := by
      refine hL.setBuf hAB (fun a ha => ⟨(hA a ha).later, fun _ _ => ?_⟩) fun b hb => ⟨(hB b hb).later, nofun⟩
      have := hnone a
      simp only [Buf.holds, Buf.recycle] at this ⊢
      rw [BEq.comm (a := dev), BEq.comm (a := blockno)]
      exact this
    exact h.give hL' ((h.sound i).recycle hzero dev blockno) fun j _ _ => hnone j
  next => cases hs

variable [DecidableEq P]

/-- The buffer moves to the front. -/
theorem Inv.drop (h : Inv s) {p : P} (hp : p ∈ (s.buf i).dropping) : Inv (s.drop p i) := by
  obtain ⟨hused, hrefcnt⟩ := (h.sound i).drop hp
  unfold Cache.drop
  split_ifs with hzero
  · obtain ⟨L, hL⟩ := h.listed
    obtain ⟨A, B, hAB⟩ := append_of_mem (hL.all i)
    subst hAB
    have hnodup : (i :: (A ++ B)).Nodup := nodup_middle.mp hL.nodup
    obtain ⟨hi, hrest⟩ := nodup_cons.mp hnodup
    have hother : ∀ j ∈ A ++ B, update s.buf i { (s.buf i).drop p with freed := s.clock + 1 } j = s.buf j :=
      fun j hj => update_of_ne (ne_of_mem_of_not_mem hj hi) ..
    refine ⟨⟨i :: (A ++ B), hnodup, fun j => ?_, (hL.path.unlink hL.nodup).pushFront hrest hi, ?_⟩, ?_, ?_⟩
    · exact perm_middle.mem_iff.mp (hL.all j)
    · refine pairwise_cons.mpr ⟨fun b hb => ?_, ?_⟩
      · show Before (update s.buf i _ i) (update s.buf i _ b)
        rw [update_self, hother b hb]
        refine ⟨.inl (Nat.lt_succ_of_le (h.sound b).past), fun hno => ?_⟩
        cases hused.symm.trans hno
      · have hsub : (A ++ B).Sublist (A ++ i :: B) := (sublist_cons_self i B).append_left A
        refine (hL.sorted.sublist hsub).imp_of_mem fun ha hb hab => ?_
        show Before (update s.buf i _ _) (update s.buf i _ _)
        rw [hother _ ha, hother _ hb]
        exact hab
    · refine forall_update (C := fun _ => Sound (s.clock + 1)) ⟨hrefcnt, le_rfl, ?_, fun _ _ => Nat.succ_pos _⟩ fun j _ => ?_
      · intro hno
        cases hused.symm.trans hno
      · obtain ⟨h1, h2, h3, h4⟩ := h.sound j
        exact ⟨h1, Nat.le_succ_of_le h2, h3, h4⟩
    · exact h.keys_update rfl rfl rfl
  · refine h.setBuf rfl rfl rfl rfl ⟨hrefcnt, (h.sound i).past, fun hno => ?_, fun _ hrefs => ?_⟩
    · cases hused.symm.trans hno
    · rw [hrefs] at hrefcnt
      exact absurd hrefcnt hzero

theorem Inv.step (h : Inv s) {a : Action P} {s' : Cache P} (ha : Proper s a) (hs : Lru.step s a = some (.ok s')) : Inv s' := by
  cases a with
  | bget p dev blockno => exact h.bget hs
  | acquiresleep p i =>
    simp only [Lru.step, contains_iff_mem] at hs
    split_ifs at hs with hok
    cases hs
    exact h.setBuf rfl rfl rfl rfl ((h.sound i).acquire hok.1 hok.2)
  | fill p i =>
    simp only [Lru.step] at hs
    split_ifs at hs
    cases hs
    exact h.setBuf rfl rfl rfl rfl (h.sound i).fill
  | brelse p i =>
    simp only [Lru.step, Cache.brelse] at hs
    split_ifs at hs with hlock <;> cases hs
    exact h.setBuf rfl rfl rfl rfl ((h.sound i).release hlock)
  | drop p i =>
    simp only [Lru.step, contains_iff_mem] at hs
    split_ifs at hs with hp
    cases hs
    exact h.drop hp
  | bpin p i =>
    cases hs
    exact h.setBuf rfl rfl rfl rfl (h.sound i).pin
  | bunpin p i =>
    cases hs
    exact h.setBuf rfl rfl rfl rfl ((h.sound i).unpin ha.1 ha.2)

/-- After every run, the links are a circular list through the head and all buffers, each once, and
`next` and `prev` are inverse to each other. Two buffers that `bget` returned hold different blocks.
The loops of `bget` end, and the buffer that `bget` recycles is the one whose last release to zero
is the oldest among those with `refcnt` 0, where those that were never released come first: of the
buffers that nothing refers to, these are the ones that were never used. -/
theorem buffers_lru (as : List (Action P)) (has : EachStep Lru.step Proper (binit P) as) (s : Cache P)
    (hrun : run Lru.step (binit P) as = some (.ok s)) :
    (∃ L : List (Fin NBUF), L.Nodup ∧ (∀ i, i ∈ L) ∧ s.links.Path none L none) ∧
    (∀ a, s.links.prev (s.links.next a) = a ∧ s.links.next (s.links.prev a) = a) ∧
    (∀ i j, (s.buf i).used = true → (s.buf j).used = true → (s.buf i).dev = (s.buf j).dev →
      (s.buf i).blockno = (s.buf j).blockno → i = j) ∧
    ∀ dev blockno, s.find dev blockno ≠ none ∧ ∀ i, s.find dev blockno = some (.recycled i) →
      (s.buf i).refcnt = 0 ∧
      (∀ j, j ≠ i → (s.buf j).refcnt = 0 →
        (s.buf i).freed < (s.buf j).freed ∨ (s.buf i).freed = 0 ∧ (s.buf j).freed = 0) ∧
      ∀ j, (s.buf j).references = 0 → ((s.buf j).freed = 0 ↔ (s.buf j).used = false) := by
  have hinv : Inv s := run_invariant (fun _ _ _ h ha hs => h.step ha hs) inv_binit has hrun
  obtain ⟨L, hL⟩ := hinv.listed
  refine ⟨⟨L, hL.nodup, hL.all, hL.path⟩, hL.path.inverse hL.all, fun i j hi hj hdev hblock => ?_, fun dev blockno => ?_⟩
  · exact hinv.keys i j hi hj (Buf.holds_iff.mpr ⟨hdev, hblock⟩)
  · refine ⟨hinv.find_ne_none dev blockno, fun i hfind => ?_⟩
    obtain ⟨hzero, hoth⟩ := hinv.oldest hfind
    refine ⟨hzero, hoth, fun j hrefs => ⟨fun hfreed => ?_, fun hused => ((hinv.sound j).unused hused).1⟩⟩
    cases hused : (s.buf j).used with
    | false => rfl
    | true =>
      have := (hinv.sound j).released hused hrefs
      omega

/-- A buffer is used, pinned and released; its next user unpins and releases it. -/
def pinning (i : Fin NBUF) : List (Action Unit) :=
  [.bget () 1 5, .acquiresleep () i, .fill () i, .bpin () i, .brelse () i, .drop () i,
    .bget () 1 5, .acquiresleep () i, .bunpin () i, .brelse () i, .drop () i]

/-- Another block then takes a buffer that was never used. -/
theorem buffers_lru_pinned :
    ∃ i j s, run Lru.step (binit Unit) (pinning i) = some (.ok s) ∧ s.find 1 6 = some (.recycled j) ∧ (s.buf i).refcnt = 0 ∧
      (s.buf j).freed < (s.buf i).freed := by
  obtain ⟨s, hrun, hfind, hzero, hfreed⟩ := exists_of_endsIn
    (P := fun s : Cache Unit => s.find 1 6 = some (.recycled ⟨1, by decide⟩) ∧ (s.buf ⟨0, by decide⟩).refcnt = 0 ∧
      (s.buf ⟨0, by decide⟩).freed = 1)
    (r := run Lru.step (binit Unit) (pinning ⟨0, by decide⟩)) (by decide +kernel)
  refine ⟨⟨0, by decide⟩, ⟨1, by decide⟩, s, hrun, hfind, hzero, ?_⟩
  obtain ⟨-, holdest, -⟩ := ((buffers_lru _ (by decide +kernel) s hrun).2.2.2 1 6).2 _ hfind
  rcases holdest ⟨0, by decide⟩ (by decide) hzero with hlt | ⟨-, hnever⟩
  · exact hlt
  · rw [hfreed] at hnever
    cases hnever

end

end Xv6.Lru
