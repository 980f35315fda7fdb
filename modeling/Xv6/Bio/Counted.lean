import Xv6.Bio.Machine
import Xv6.Lib.Update

/-!
# What a reference count counts

A reference to a buffer is what `bget` hands out and `brelse` takes back. At any time it is held by
the process that has the buffer's sleep lock, or by one that waits for it, or by one that has
released it and is about to decrement the count. `Counted` says that every count is the number of
these references, and one more for a pin, all as 32-bit words. Each function of `bio.c` keeps it.

The words do not wrap while there are fewer processes than words: then a count of 0 means no
reference and no pin (`Counted.unreferenced`), which is what `bget` relies on.
-/

namespace Xv6.Bio

open Function Finset

/-- The stages in which a process refers to a buffer without its lock. -/
def Stage.Refers (i : Fin NBUF) (st : Stage) : Prop := st = .waiting i ∨ st = .dropping i

instance (i : Fin NBUF) (st : Stage) : Decidable (st.Refers i) := inferInstanceAs (Decidable (_ ∨ _))

/-- The buffer holds block `b`. -/
def Buf.Holds {P : Type} (x : Buf P) (b : Nat) : Prop := x.dev = ROOTDEV ∧ x.blockno = b

instance {P : Type} (x : Buf P) (b : Nat) : Decidable (x.Holds b) := inferInstanceAs (Decidable (_ ∧ _))

/-- The buffer's block is pinned. -/
def Buf.Pinned {P : Type} (x : Buf P) (pins : List Nat) : Prop := x.dev = ROOTDEV ∧ x.blockno ∈ pins

instance {P : Type} (x : Buf P) (pins : List Nat) : Decidable (x.Pinned pins) := inferInstanceAs (Decidable (_ ∧ _))

variable {P : Type} [DecidableEq P] [Fintype P]

/-- The references to a buffer that `bread` handed out and `brelse` has not taken back. -/
def refs (buf : Fin NBUF → Buf P) (stage : P → Stage) (i : Fin NBUF) : Nat :=
  (if (buf i).lock = none then 0 else 1) + (univ.filter fun p => (stage p).Refers i).card

def pin (buf : Fin NBUF → Buf P) (pins : List Nat) (i : Fin NBUF) : Nat :=
  if (buf i).Pinned pins then 1 else 0

/-- What a process's stage says of the buffer it is about. -/
def StageOk (buf : Fin NBUF → Buf P) (p : P) : Stage → Prop
  | .idle => True
  | .waiting i | .dropping i => (buf i).dev = ROOTDEV
  | .filling i | .logging i => (buf i).lock = some p

structure Counted (buf : Fin NBUF → Buf P) (order : List (Fin NBUF)) (stage : P → Stage) (pins : List Nat) :
    Prop where
  listed : ∀ i, i ∈ order
  unique : ∀ i j, (buf i).dev = ROOTDEV → (buf j).dev = ROOTDEV → (buf i).blockno = (buf j).blockno → i = j
  locks : ∀ i, (buf i).lock ≠ none → (buf i).dev = ROOTDEV
  stages : ∀ p, StageOk buf p (stage p)
  /-- a buffer that `bread` has returned is valid -/
  filled : ∀ i p, (buf i).lock = some p → stage p = .filling i ∨ (buf i).valid = true
  nodup : pins.Nodup
  cached : ∀ b ∈ pins, ∃ i, (buf i).Holds b ∧ (buf i).valid = true
  count : ∀ i, (buf i).refcnt = BitVec.ofNat 32 (refs buf stage i + pin buf pins i)

section

variable {buf : Fin NBUF → Buf P} {order order' : List (Fin NBUF)} {stage : P → Stage} {pins : List Nat}
  {i : Fin NBUF} {x : Buf P} {p : P} {st : Stage}

/-! ## Counting references -/

omit [DecidableEq P] [Fintype P] in
theorem pin_le_one (i : Fin NBUF) : pin buf pins i ≤ 1 := by
  unfold pin
  split <;> omega

omit [DecidableEq P] in
theorem refs_le (i : Fin NBUF) : refs buf stage i ≤ Fintype.card P + 1 := by
  have := card_filter_le univ fun p => (stage p).Refers i
  unfold refs
  rw [card_univ] at this
  split <;> omega

/-- Another buffer's references are what they were, if the process's stages are about this one. -/
theorem refs_update_of_ne {j : Fin NBUF} (hj : j ≠ i) (hold : ¬ (stage p).Refers j) (hnew : ¬ st.Refers j) :
    refs (update buf i x) (update stage p st) j = refs buf stage j := by
  have := card_update (fun st : Stage => st.Refers j) stage p st
  rw [if_neg hold, if_neg hnew] at this
  unfold refs
  rw [update_of_ne hj]
  omega

theorem refs_update_self (hst : st.Refers i ↔ (stage p).Refers i) (hx : x.lock = none ↔ (buf i).lock = none) :
    refs (update buf i x) (update stage p st) i = refs buf stage i := by
  have := card_update (fun st : Stage => st.Refers i) stage p st
  simp only [hst] at this
  unfold refs
  simp only [update_self, hx]
  omega

/-- The stage of the process comes to refer to the buffer. -/
theorem refs_update_enter (hst : st.Refers i) (hold : ¬ (stage p).Refers i) (hx : x.lock = none ↔ (buf i).lock = none) :
    refs (update buf i x) (update stage p st) i = refs buf stage i + 1 := by
  have := card_update (fun st : Stage => st.Refers i) stage p st
  rw [if_pos hst, if_neg hold] at this
  unfold refs
  simp only [update_self, hx]
  omega

/-- The stage of the process ceases to refer to the buffer. -/
theorem refs_update_leave (hst : ¬ st.Refers i) (hold : (stage p).Refers i) (hx : x.lock = none ↔ (buf i).lock = none) :
    refs (update buf i x) (update stage p st) i + 1 = refs buf stage i := by
  have := card_update (fun st : Stage => st.Refers i) stage p st
  rw [if_neg hst, if_pos hold] at this
  unfold refs
  simp only [update_self, hx]
  omega

/-- The reference goes from the waiting process to the holder of the lock. -/
theorem refs_update_lock (hst : ¬ st.Refers i) (hold : (stage p).Refers i) (hx : x.lock ≠ none)
    (hfree : (buf i).lock = none) :
    refs (update buf i x) (update stage p st) i = refs buf stage i := by
  have := card_update (fun st : Stage => st.Refers i) stage p st
  rw [if_neg hst, if_pos hold] at this
  unfold refs
  rw [update_self, if_neg hx, if_pos hfree]
  omega

/-- The reference stays with the process that gives up the lock. -/
theorem refs_update_unlock (hst : st.Refers i) (hold : ¬ (stage p).Refers i) (hx : x.lock = none)
    (hheld : (buf i).lock ≠ none) :
    refs (update buf i x) (update stage p st) i = refs buf stage i := by
  have := card_update (fun st : Stage => st.Refers i) stage p st
  rw [if_pos hst, if_neg hold] at this
  unfold refs
  rw [update_self, if_pos hx, if_neg hheld]
  omega

omit [DecidableEq P] in
theorem Counted.toNat_refcnt (h : Counted buf order stage pins) (hP : Fintype.card P + 2 < 2 ^ 32) (i : Fin NBUF) :
    (buf i).refcnt.toNat = refs buf stage i + pin buf pins i := by
  have hrefs : refs buf stage i ≤ _ := refs_le i
  have hpin : pin buf pins i ≤ 1 := pin_le_one i
  rw [h.count i, BitVec.toNat_ofNat]
  omega

omit [DecidableEq P] in
/-- With fewer processes than words, a count of 0 means that nothing refers to the buffer. -/
theorem Counted.unreferenced (h : Counted buf order stage pins) (hP : Fintype.card P + 2 < 2 ^ 32) (hi : (buf i).refcnt = 0) :
    (buf i).lock = none ∧ (∀ p, ¬ (stage p).Refers i) ∧ ¬ (buf i).Pinned pins := by
  have hzero := h.toNat_refcnt hP i
  rw [hi, show (0 : BitVec 32).toNat = 0 from rfl] at hzero
  unfold refs pin at hzero
  refine ⟨?_, fun p hp => ?_, fun hpin => ?_⟩
  · by_contra hlock
    rw [if_neg hlock] at hzero
    omega
  · have : 0 < (univ.filter fun p => (stage p).Refers i).card :=
      card_pos.mpr ⟨p, mem_filter.mpr ⟨mem_univ p, hp⟩⟩
    omega
  · rw [if_pos hpin] at hzero
    omega

/-! ## One buffer and one process change -/

omit [DecidableEq P] [Fintype P] in
theorem StageOk.congr {buf' : Fin NBUF → Buf P} {q : P} {st : Stage} (h : StageOk buf q st)
    (hdev : ∀ j, (buf j).dev = ROOTDEV → (buf' j).dev = ROOTDEV)
    (hlock : ∀ j, (buf j).lock = some q → (buf' j).lock = some q) : StageOk buf' q st := by
  cases st with
  | idle => trivial
  | waiting j => exact hdev j h
  | filling j => exact hlock j h
  | logging j => exact hlock j h
  | dropping j => exact hdev j h

/-- The stage is about no buffer but `i`. -/
def Stage.About (i : Fin NBUF) : Stage → Prop
  | .idle => True
  | .waiting j | .filling j | .logging j | .dropping j => j = i

theorem Stage.About.not_refers {st : Stage} {i j : Fin NBUF} (h : st.About i) (hj : j ≠ i) : ¬ st.Refers j := by
  rintro (rfl | rfl) <;> exact hj h

/-- A buffer keeps its block, and one process its interest in that buffer: what is left to show is
the new count. -/
theorem Counted.set (h : Counted buf order stage pins) (hdev : x.dev = (buf i).dev)
    (hblock : x.blockno = (buf i).blockno) (hvalid : (buf i).valid = true → x.valid = true)
    (hold : (stage p).About i) (hnew : st.About i) (hlock : x.lock ≠ none → (buf i).dev = ROOTDEV)
    (hkeep : ∀ q, q ≠ p → ((buf i).lock = some q ↔ x.lock = some q))
    (hst : StageOk (update buf i x) p st) (hfilled : x.lock = some p → st = .filling i ∨ x.valid = true)
    (horder : ∀ j, j ∈ order')
    (hcount : x.refcnt =
      BitVec.ofNat 32 (refs (update buf i x) (update stage p st) i + pin buf pins i)) :
    Counted (update buf i x) order' (update stage p st) pins := by
  have hdevs : ∀ j, (update buf i x j).dev = (buf j).dev :=
    forall_update (C := fun j (y : Buf P) => y.dev = (buf j).dev) hdev fun _ _ => rfl
  have hblocks : ∀ j, (update buf i x j).blockno = (buf j).blockno :=
    forall_update (C := fun j (y : Buf P) => y.blockno = (buf j).blockno) hblock fun _ _ => rfl
  have hpin : ∀ j, pin (update buf i x) pins j = pin buf pins j := fun j => by
    have : (update buf i x j).Pinned pins ↔ (buf j).Pinned pins := by
      rw [Buf.Pinned, Buf.Pinned, hdevs, hblocks]
    simp only [pin, this]
  refine ⟨horder, ?_, ?_, ?_, ?_, h.nodup, ?_, ?_⟩
  · intro j k
    rw [hdevs, hdevs, hblocks, hblocks]
    exact h.unique j k
  · intro j
    rw [hdevs]
    exact forall_update (C := fun j (y : Buf P) => y.lock ≠ none → (buf j).dev = ROOTDEV) hlock (fun j _ => h.locks j) j
  · refine forall_update (C := fun q st => StageOk (update buf i x) q st) hst fun q hq => ?_
    refine (h.stages q).congr (fun j => by rw [hdevs]; exact id) ?_
    exact forall_update (C := fun j (y : Buf P) => (buf j).lock = some q → y.lock = some q) (hkeep q hq).mp
      fun _ _ => id
  · intro j q hj
    by_cases hq : q = p
    · subst hq
      rw [update_self]
      by_cases hji : j = i
      · subst hji
        rw [update_self] at hj ⊢
        exact hfilled hj
      · rw [update_of_ne hji] at hj ⊢
        refine .inr ((h.filled j q hj).resolve_left fun e => hji ?_)
        rw [e] at hold
        exact hold
    · rw [update_of_ne hq]
      by_cases hji : j = i
      · subst hji
        rw [update_self] at hj ⊢
        exact (h.filled j q ((hkeep q hq).mpr hj)).imp_right hvalid
      · rw [update_of_ne hji] at hj ⊢
        exact h.filled j q hj
  · intro b hb
    obtain ⟨j, hj, hv⟩ := h.cached b hb
    refine ⟨j, ?_, ?_⟩
    · rw [Buf.Holds, hdevs, hblocks]
      exact hj
    · exact forall_update (C := fun j (y : Buf P) => (buf j).valid = true → y.valid = true) hvalid (fun _ _ => id) j hv
  · refine forall_update (C := fun j (y : Buf P) => y.refcnt = BitVec.ofNat 32
      (refs (update buf i x) (update stage p st) j + pin (update buf i x) pins j)) ?_ ?_
    · rw [hpin]
      exact hcount
    · intro j hj
      rw [hpin, refs_update_of_ne hj (hold.not_refers hj) (hnew.not_refers hj)]
      exact h.count j

theorem not_refers_idle (j : Fin NBUF) : ¬ Stage.idle.Refers j := by
  rintro (h | h) <;> cases h

section

variable (h : Counted buf order stage pins)
include h

/-- `bget` finds the block cached. -/
theorem Counted.hit (hidle : stage p = .idle) (hdev : (buf i).dev = ROOTDEV) :
    Counted (update buf i (buf i).ref) order
      (update stage p (.waiting i)) pins := by
  have hnot : ∀ j, ¬ (stage p).Refers j := fun j => by rw [hidle]; exact not_refers_idle j
  refine h.set rfl rfl id (by rw [hidle]; trivial) rfl (h.locks i) (fun q _ => Iff.rfl) ?_ ?_ h.listed ?_
  · show (update buf i _ i).dev = ROOTDEV
    rw [update_self]
    exact hdev
  · intro hheld
    refine .inr ((h.filled i p hheld).resolve_left ?_)
    rw [hidle]
    nofun
  · have henter : refs (update buf i (buf i).ref) (update stage p (.waiting i)) i =
        refs buf stage i + 1 := refs_update_enter (.inl rfl) (hnot i) Iff.rfl
    rw [henter, add_right_comm, BitVec.ofNat_add, ← h.count i]
    rfl

/-- `acquiresleep` of a free lock. -/
theorem Counted.acquire (hwait : stage p = .waiting i) (hfree : (buf i).lock = none) :
    Counted (update buf i ((buf i).setLock (some p))) order (update stage p (.filling i)) pins := by
  have hdev : (buf i).dev = ROOTDEV := by have := h.stages p; rwa [hwait] at this
  refine h.set rfl rfl id (by rw [hwait]; rfl) rfl (fun _ => hdev) ?_ ?_ (fun _ => .inl rfl) h.listed ?_
  · intro q hq
    rw [hfree]
    exact ⟨nofun, fun e => absurd (Option.some.inj e).symm hq⟩
  · show (update buf i _ i).lock = some p
    rw [update_self]
    rfl
  · rw [refs_update_lock (by rintro (e | e) <;> cases e) (by rw [hwait]; exact .inl rfl) (Option.some_ne_none p) hfree]
    exact h.count i

/-- The process's stage changes without a reference, and the buffer's data. -/
theorem Counted.settle (hold : (stage p).About i) (hnew : st.About i)
    (hrefers : st.Refers i ↔ (stage p).Refers i) (hst : StageOk (update buf i x) p st)
    (hdev : x.dev = (buf i).dev) (hblock : x.blockno = (buf i).blockno)
    (hvalid : (buf i).valid = true → x.valid = true) (hlock : x.lock = (buf i).lock)
    (hfilled : x.lock = some p → st = .filling i ∨ x.valid = true)
    (hcnt : x.refcnt = (buf i).refcnt) :
    Counted (update buf i x) order (update stage p st) pins := by
  refine h.set hdev hblock hvalid hold hnew ?_ ?_ hst hfilled h.listed ?_
  · rw [hlock]
    exact h.locks i
  · rw [hlock]
    exact fun _ _ => Iff.rfl
  · rw [refs_update_self hrefers (by rw [hlock]), hcnt]
    exact h.count i

/-- `brelse` releases the lock. -/
theorem Counted.release (hidle : stage p = .idle) (hheld : (buf i).lock = some p) :
    Counted (update buf i ((buf i).setLock none)) order (update stage p (.dropping i)) pins := by
  have hnot : ∀ j, ¬ (stage p).Refers j := fun j => by rw [hidle]; exact not_refers_idle j
  have hlocked : (buf i).lock ≠ none := by rw [hheld]; nofun
  refine h.set rfl rfl id (by rw [hidle]; trivial) rfl (fun hn => absurd rfl hn) ?_ ?_ nofun h.listed ?_
  · intro q hq
    rw [hheld]
    exact ⟨fun e => absurd (Option.some.inj e).symm hq, nofun⟩
  · show (update buf i _ i).dev = ROOTDEV
    rw [update_self]
    exact h.locks i hlocked
  · rw [refs_update_unlock (.inr rfl) (hnot i) rfl hlocked]
    exact h.count i

end

theorem ofNat_succ_sub_one (n : Nat) : BitVec.ofNat 32 (n + 1) - 1 = BitVec.ofNat 32 n := by
  rw [BitVec.ofNat_add]
  exact BitVec.add_sub_cancel _ _

/-- The rest of `brelse`. -/
theorem Counted.drop (h : Counted buf order stage pins) (hdrop : stage p = .dropping i) (horder : ∀ j, j ∈ order') :
    Counted (update buf i (buf i).unref) order'
      (update stage p .idle) pins := by
  refine h.set rfl rfl id (by rw [hdrop]; rfl) trivial (h.locks i) (fun q _ => Iff.rfl) trivial ?_ horder ?_
  · intro hheld
    refine .inr ((h.filled i p hheld).resolve_left ?_)
    rw [hdrop]
    nofun
  · have hrefers : (stage p).Refers i := by rw [hdrop]; exact .inr rfl
    have hleave : refs (update buf i (buf i).unref) (update stage p .idle) i + 1 = refs buf stage i :=
      refs_update_leave (not_refers_idle i) hrefers Iff.rfl
    rw [← ofNat_succ_sub_one, add_right_comm, hleave, ← h.count i]
    rfl

/-- `bget` takes an unused buffer for a block that is not cached. -/
theorem Counted.recycle (h : Counted buf order stage pins) (hP : Fintype.card P + 2 < 2 ^ 32) (hidle : stage p = .idle)
    (hfree : (buf i).refcnt = 0) {b : Nat} (hnone : ∀ j, ¬ (buf j).Holds b) :
    Counted (update buf i ((buf i).recycle b)) order (update stage p (.waiting i)) pins := by
  obtain ⟨hlock, hrefers, hpin⟩ := h.unreferenced hP hfree
  have hnot : ∀ j, ¬ (stage p).Refers j := fun j => by rw [hidle]; exact not_refers_idle j
  refine ⟨h.listed, ?_, ?_, ?_, ?_, h.nodup, ?_, ?_⟩
  · intro j k
    by_cases hj : j = i <;> by_cases hk : k = i
    · exact fun _ _ _ => hj.trans hk.symm
    · rw [hj, update_self, update_of_ne hk]
      exact fun _ hdev e => absurd ⟨hdev, e.symm⟩ (hnone k)
    · rw [hk, update_self, update_of_ne hj]
      exact fun hdev _ e => absurd ⟨hdev, e⟩ (hnone j)
    · rw [update_of_ne hj, update_of_ne hk]
      exact h.unique j k
  · exact forall_update (C := fun _ (y : Buf P) => y.lock ≠ none → y.dev = ROOTDEV) (fun _ => rfl) fun j _ => h.locks j
  · refine forall_update (C := fun q st => StageOk (update buf i ((buf i).recycle b)) q st) ?_ fun q _ => ?_
    · show (update buf i _ i).dev = ROOTDEV
      rw [update_self]
      rfl
    · refine (h.stages q).congr ?_ ?_
      · exact forall_update (C := fun j (y : Buf P) => (buf j).dev = ROOTDEV → y.dev = ROOTDEV) (fun _ => rfl) fun _ _ => id
      · exact forall_update (C := fun j (y : Buf P) => (buf j).lock = some q → y.lock = some q) id fun _ _ => id
  · intro j q hj
    have hji : j ≠ i := by
      rintro rfl
      rw [update_self] at hj
      cases hlock.symm.trans hj
    rw [update_of_ne hji] at hj ⊢
    have hvalid := h.filled j q hj
    by_cases hq : q = p
    · subst hq
      exact .inr (hvalid.resolve_left (by rw [hidle]; nofun))
    · rw [update_of_ne hq]
      exact hvalid
  · intro b' hb'
    obtain ⟨j, hj, hv⟩ := h.cached b' hb'
    have hji : j ≠ i := fun e => hpin (by rw [← e]; exact ⟨hj.1, by rw [hj.2]; exact hb'⟩)
    rw [← update_of_ne hji ((buf i).recycle b) buf] at hj hv
    exact ⟨j, hj, hv⟩
  · refine forall_update (C := fun j (y : Buf P) => y.refcnt = BitVec.ofNat 32
      (refs (update buf i ((buf i).recycle b)) (update stage p (.waiting i)) j +
        pin (update buf i ((buf i).recycle b)) pins j)) ?_ ?_
    · have henter : refs (update buf i ((buf i).recycle b)) (update stage p (.waiting i)) i =
          refs buf stage i + 1 := refs_update_enter (.inl rfl) (hnot i) Iff.rfl
      have hzero : refs buf stage i = 0 := by
        have := h.toNat_refcnt hP i
        rw [hfree, show (0 : BitVec 32).toNat = 0 from rfl] at this
        omega
      have hunpinned : ¬ (update buf i ((buf i).recycle b) i).Pinned pins := by
        rw [update_self]
        rintro ⟨-, hb⟩
        obtain ⟨j, hj, -⟩ := h.cached b hb
        exact hnone j hj
      rw [henter, hzero, pin, if_neg hunpinned]
      rfl
    · intro j hj
      have hother : ¬ (Stage.waiting i).Refers j := by
        rintro (e | e) <;> cases e
        exact hj rfl
      rw [refs_update_of_ne hj (hnot j) hother, pin, update_of_ne hj]
      exact h.count j

/-! ## Pins -/

omit [DecidableEq P] in
/-- One buffer's pin and count change. -/
theorem Counted.repin {pins' : List Nat} (h : Counted buf order stage pins) (hdev : (buf i).dev = ROOTDEV)
    (hvalid : (buf i).valid = true) (hxdev : x.dev = (buf i).dev) (hxblock : x.blockno = (buf i).blockno)
    (hxlock : x.lock = (buf i).lock) (hxvalid : x.valid = (buf i).valid)
    (hnodup : pins'.Nodup) (hmem : ∀ b, b ≠ (buf i).blockno → (b ∈ pins' ↔ b ∈ pins))
    (hcount : x.refcnt = BitVec.ofNat 32 (refs buf stage i + if (buf i).blockno ∈ pins' then 1 else 0)) :
    Counted (update buf i x) order stage pins' := by
  have hdevs : ∀ j, (update buf i x j).dev = (buf j).dev :=
    forall_update (C := fun j (y : Buf P) => y.dev = (buf j).dev) hxdev fun _ _ => rfl
  have hblocks : ∀ j, (update buf i x j).blockno = (buf j).blockno :=
    forall_update (C := fun j (y : Buf P) => y.blockno = (buf j).blockno) hxblock fun _ _ => rfl
  have hlocks : ∀ j, (update buf i x j).lock = (buf j).lock :=
    forall_update (C := fun j (y : Buf P) => y.lock = (buf j).lock) hxlock fun _ _ => rfl
  have hvalids : ∀ j, (update buf i x j).valid = (buf j).valid :=
    forall_update (C := fun j (y : Buf P) => y.valid = (buf j).valid) hxvalid fun _ _ => rfl
  have hrefs : ∀ j, refs (update buf i x) stage j = refs buf stage j := fun j => by
    rw [refs, hlocks]
    rfl
  refine ⟨h.listed, ?_, ?_, ?_, ?_, hnodup, ?_, ?_⟩
  · intro j k
    rw [hdevs, hdevs, hblocks, hblocks]
    exact h.unique j k
  · intro j
    rw [hlocks, hdevs]
    exact h.locks j
  · exact fun q => (h.stages q).congr (fun j => by rw [hdevs]; exact id) (fun j => by rw [hlocks]; exact id)
  · intro j q
    rw [hlocks, hvalids]
    exact h.filled j q
  · intro b hb
    simp only [Buf.Holds, hdevs, hblocks, hvalids]
    by_cases e : b = (buf i).blockno
    · exact ⟨i, ⟨hdev, e.symm⟩, hvalid⟩
    · exact h.cached b ((hmem b e).mp hb)
  · intro j
    rw [hrefs]
    by_cases hj : j = i
    · subst hj
      have : (update buf j x j).Pinned pins' ↔ (buf j).blockno ∈ pins' := by
        rw [Buf.Pinned, hdevs, hblocks]
        exact ⟨fun h => h.2, fun h => ⟨hdev, h⟩⟩
      simp only [pin, this]
      rw [update_self]
      exact hcount
    · -- no other buffer holds this block
      have : (update buf i x j).Pinned pins' ↔ (buf j).Pinned pins := by
        rw [update_of_ne hj, Buf.Pinned, Buf.Pinned]
        refine and_congr_right fun hjdev => hmem _ fun e => hj (h.unique j i hjdev hdev e)
      simp only [pin, this]
      rw [update_of_ne hj]
      exact h.count j

omit [DecidableEq P] in
theorem Counted.bpin (h : Counted buf order stage pins) (hdev : (buf i).dev = ROOTDEV) (hvalid : (buf i).valid = true)
    (hnew : (buf i).blockno ∉ pins) :
    Counted (update buf i (buf i).ref) order stage (pins ++ [(buf i).blockno]) := by
  refine h.repin hdev hvalid rfl rfl rfl rfl ?_ ?_ ?_
  · exact List.Nodup.append h.nodup (List.nodup_singleton _) (by simpa using hnew)
  · intro b hb
    simp [hb]
  · have hcount := h.count i
    rw [pin, if_neg fun hp => hnew hp.2] at hcount
    rw [if_pos (by simp), BitVec.ofNat_add]
    exact congrArg (· + 1) hcount

omit [DecidableEq P] in
theorem Counted.bunpin (h : Counted buf order stage pins) (hdev : (buf i).dev = ROOTDEV) (hvalid : (buf i).valid = true)
    (hin : (buf i).blockno ∈ pins) :
    Counted (update buf i (buf i).unref) order stage (pins.erase (buf i).blockno) := by
  refine h.repin hdev hvalid rfl rfl rfl rfl (h.nodup.erase _) ?_ ?_
  · exact fun b hb => List.mem_erase_of_ne hb
  · have hcount := h.count i
    rw [pin, if_pos ⟨hdev, hin⟩] at hcount
    rw [if_neg fun hm => (h.nodup.mem_erase_iff.mp hm).1 rfl, add_zero, ← ofNat_succ_sub_one, ← hcount]
    rfl

end

end Xv6.Bio
