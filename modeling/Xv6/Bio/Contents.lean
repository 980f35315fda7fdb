import Xv6.Bio.Protocol
import Xv6.Bio.Steps

/-!
# What `bread` returns

`Sees buf disk c` says that `c` is the disk as seen through the cache: a block's content is its
valid buffer's data, else what is on the disk. `Contents` relates that view to a plain array of
blocks `T`. Outside the log the view is `T`, except for a block that its holder has changed and not
logged yet. And where the view differs from the disk, the block is pinned, or so changed, or it is
the one that the log's code is about to write; in each case its buffer is referred to, so that
`bget` does not take it and the view survives every eviction.
-/

namespace Xv6.Bio

open Function
open Log (Instr LogState)

variable {P : Type}

/-- The disk as seen through the cache. -/
structure Sees (buf : Fin NBUF → Buf P) (disk c : Disk) : Prop where
  cached : ∀ i, (buf i).dev = ROOTDEV → (buf i).valid = true → c (buf i).blockno = (buf i).data
  uncached : ∀ k, (∀ i, (buf i).Holds k → (buf i).valid = false) → c k = disk k

/-- The block's buffer has been changed and not logged. -/
def Dirty (buf : Fin NBUF → Buf P) (k : Nat) : Prop := ∃ i, (buf i).Holds k ∧ (buf i).dirty = true

/-- The log's code holds the block's buffer and is about to write it. -/
def Pending (buf : Fin NBUF → Buf P) (code : P → List Instr) (k : Nat) : Prop :=
  ∃ i p, (buf i).Holds k ∧ (buf i).lock = some p ∧ (code p).head? = some (.bwrite k)

structure Contents (start : Nat) (T c : Disk) (s : System P) : Prop where
  sees : Sees s.buf s.disk c
  clean : ∀ k, k ∈ s.pins ∨ Dirty s.buf k ∨ Pending s.buf s.code k ∨ s.disk k = c k
  spec : ∀ k, ¬ Log.InLog start LOGSIZE k → ¬ Dirty s.buf k → c k = T k
  owner : ∀ i, (s.buf i).dirty = true → ∃ p, (s.buf i).lock = some p ∧ s.mode p = .inOp
  home : ∀ i, (s.buf i).dirty = true → ¬ Log.InLog start LOGSIZE (s.buf i).blockno
  filling : ∀ p i, s.stage p = .filling i → (s.buf i).dirty = false
  logging : ∀ p i, s.stage p = .logging i → ¬ Log.InLog start LOGSIZE (s.buf i).blockno
  away : ∀ b ∈ s.pins, ¬ Log.InLog start LOGSIZE b

variable {start : Nat} {T c : Disk} {s s' : System P} {i : Fin NBUF} {x : Buf P}

/-! ## Buffers that keep what they hold -/

/-- Two tables of buffers with the same blocks in the same buffers. -/
def SameHolds (buf buf' : Fin NBUF → Buf P) : Prop :=
  ∀ j, (buf' j).dev = (buf j).dev ∧ (buf' j).blockno = (buf j).blockno

variable {buf : Fin NBUF → Buf P} {disk : Disk}

theorem SameHolds.holds {buf' : Fin NBUF → Buf P} (h : SameHolds buf buf') (j : Fin NBUF)
    (k : Nat) : (buf' j).Holds k ↔ (buf j).Holds k := by
  rw [Buf.Holds, Buf.Holds, (h j).1, (h j).2]

theorem sameHolds_update (hdev : x.dev = (buf i).dev) (hblock : x.blockno = (buf i).blockno) :
    SameHolds buf (update buf i x) :=
  forall_update (C := fun j (y : Buf P) => y.dev = (buf j).dev ∧ y.blockno = (buf j).blockno) ⟨hdev, hblock⟩
    fun _ _ => ⟨rfl, rfl⟩

/-- Nothing that the view depends on changes. -/
theorem Sees.touch (h : Sees buf disk c)
    (hx : x.dev = (buf i).dev ∧ x.blockno = (buf i).blockno ∧ x.valid = (buf i).valid ∧ x.data = (buf i).data) :
    Sees (update buf i x) disk c := by
  have hholds := sameHolds_update hx.1 hx.2.1
  have hvalids : ∀ j, (update buf i x j).valid = (buf j).valid :=
    forall_update (C := fun j (y : Buf P) => y.valid = (buf j).valid) hx.2.2.1 fun _ _ => rfl
  have hdatas : ∀ j, (update buf i x j).data = (buf j).data :=
    forall_update (C := fun j (y : Buf P) => y.data = (buf j).data) hx.2.2.2 fun _ _ => rfl
  refine ⟨fun j => ?_, fun k hk => ?_⟩
  · rw [(hholds j).1, (hholds j).2, hvalids, hdatas]
    exact h.cached j
  · refine h.uncached k fun j hj => ?_
    rw [← hvalids]
    exact hk j ((hholds.holds j k).mpr hj)

/-- One buffer changes, but not its block, nor the view, nor whether it is dirty. -/
theorem Contents.touch (h : Contents start T c s) (hbuf : s'.buf = update s.buf i x)
    (hx : x.dev = (s.buf i).dev ∧ x.blockno = (s.buf i).blockno ∧ x.dirty = (s.buf i).dirty)
    (hsees : Sees (update s.buf i x) s.disk c)
    (hlock : ∀ p, (s.buf i).lock = some p → x.lock = some p ∨
      (s.buf i).dirty = false ∧ (s.code p).head? ≠ some (.bwrite (s.buf i).blockno))
    (hs : s.SameLog s') (hdisk : s'.disk = s.disk)
    (hfilling : ∀ p j, s'.stage p = .filling j → s.stage p = .filling j ∨ (s.buf j).dirty = false) :
    Contents start T c s' := by
  obtain ⟨hdev, hblock, hdirty⟩ := hx
  have hholds : SameHolds s.buf s'.buf := by
    rw [hbuf]
    exact sameHolds_update hdev hblock
  have hdirtys : ∀ j, (s'.buf j).dirty = (s.buf j).dirty := by
    rw [hbuf]
    exact forall_update (C := fun j (y : Buf P) => y.dirty = (s.buf j).dirty) hdirty fun _ _ => rfl
  have hlocks : ∀ j p, (s.buf j).lock = some p → (s'.buf j).lock = some p ∨
      (s.buf j).dirty = false ∧ (s.code p).head? ≠ some (.bwrite (s.buf j).blockno) := by
    rw [hbuf]
    exact forall_update (C := fun j (y : Buf P) => ∀ p, (s.buf j).lock = some p → y.lock = some p ∨
      (s.buf j).dirty = false ∧ (s.code p).head? ≠ some (.bwrite (s.buf j).blockno)) hlock fun _ _ _ => .inl
  have hDirty : ∀ k, Dirty s'.buf k ↔ Dirty s.buf k := fun k => by
    simp only [Dirty, hholds.holds, hdirtys]
  refine ⟨by rw [hbuf, hdisk]; exact hsees, fun k => ?_, fun k hk hd => ?_, fun j hj => ?_, fun j hj => ?_,
    fun p j hp => ?_, fun p j hp => ?_, ?_⟩
  · rw [hs.pins, hDirty, hdisk]
    refine (h.clean k).imp_right fun e => e.imp_right fun e => e.imp_left ?_
    rintro ⟨j, p, hj, hp, hcode⟩
    refine ⟨j, p, (hholds.holds j k).mpr hj, (hlocks j p hp).resolve_right fun hn => hn.2 ?_, by rw [hs.code]; exact hcode⟩
    rw [hj.2]
    exact hcode
  · exact h.spec k hk fun e => hd ((hDirty k).mpr e)
  · rw [hdirtys] at hj
    obtain ⟨p, hp, hmode⟩ := h.owner j hj
    refine ⟨p, (hlocks j p hp).resolve_right fun hn => ?_, by rw [hs.mode]; exact hmode⟩
    cases hn.1.symm.trans hj
  · rw [hdirtys] at hj
    rw [(hholds j).2]
    exact h.home j hj
  · rw [hdirtys]
    exact (hfilling p j hp).elim (h.filling p j) id
  · rw [(hholds j).2]
    exact h.logging p j (hs.logging p j hp)
  · rw [hs.pins]
    exact h.away

/-- A step that changes neither the buffers nor the disk. -/
theorem Contents.congr (h : Contents start T c s) (hbuf : s'.buf = s.buf) (hdisk : s'.disk = s.disk)
    (hpins : s'.pins = s.pins) (hstage : s'.stage = s.stage)
    (hcode : ∀ q k, (s.code q).head? = some (.bwrite k) → s'.code q = s.code q)
    (howner : ∀ q, s.mode q = .inOp → s'.mode q = .inOp ∨ ∀ i, (s.buf i).lock = some q → (s.buf i).dirty = false) :
    Contents start T c s' := by
  refine ⟨?_, fun k => ?_, ?_, fun j hj => ?_, ?_, ?_, ?_, ?_⟩
  · rw [hbuf, hdisk]
    exact h.sees
  · rw [hpins, hbuf, hdisk]
    refine (h.clean k).imp_right fun e => e.imp_right fun e => e.imp_left ?_
    rintro ⟨j, q, hj, hq, hbw⟩
    exact ⟨j, q, hj, hq, by rw [hcode q k hbw]; exact hbw⟩
  · rw [hbuf]
    exact h.spec
  · rw [hbuf] at hj ⊢
    obtain ⟨q, hq, hop⟩ := h.owner j hj
    refine ⟨q, hq, (howner q hop).resolve_right fun hn => ?_⟩
    cases (hn j hq).symm.trans hj
  · rw [hbuf]
    exact h.home
  · rw [hbuf, hstage]
    exact h.filling
  · rw [hbuf, hstage]
    exact h.logging
  · rw [hpins]
    exact h.away

/-! ## The functions of `bio.c` -/

theorem Contents.not_dirty_of_free (h : Contents start T c s) (hfree : (s.buf i).lock = none) : (s.buf i).dirty = false := by
  by_contra hd
  obtain ⟨p, hp, -⟩ := h.owner i (by simpa using hd)
  cases hfree.symm.trans hp

section

variable [Fintype P]

/-- The only buffer of its block. -/
theorem System.Counted.eq_of_holds (h : s.Counted) {j : Fin NBUF} {k : Nat} (hi : (s.buf i).Holds k)
    (hj : (s.buf j).Holds k) : j = i :=
  h.unique j i hj.1 hi.1 (hj.2.trans hi.2.symm)

/-- A buffer that `bget` may take has its block on the disk. -/
theorem Contents.evict (h : Contents start T c s) (hc : s.Counted) (hP : Fintype.card P + 2 < 2 ^ 32)
    (hfree : (s.buf i).refcnt = 0) (hdev : (s.buf i).dev = ROOTDEV) : s.disk (s.buf i).blockno = c (s.buf i).blockno := by
  obtain ⟨hlock, -, hpin⟩ := hc.unreferenced hP hfree
  rcases h.clean (s.buf i).blockno with hp | ⟨j, hj, hd⟩ | ⟨j, q, hj, hq, -⟩ | e
  · exact absurd ⟨hdev, hp⟩ hpin
  · rw [hc.eq_of_holds ⟨hdev, rfl⟩ hj] at hd
    cases (h.not_dirty_of_free hlock).symm.trans hd
  · rw [hc.eq_of_holds ⟨hdev, rfl⟩ hj] at hq
    cases hlock.symm.trans hq
  · exact e

omit [Fintype P] in
/-- A buffer is given to another block. -/
theorem Sees.recycle (h : Sees buf disk c) {b : Nat}
    (hunique : (buf i).dev = ROOTDEV → ∀ j, (buf j).Holds (buf i).blockno → j = i)
    (hevict : (buf i).dev = ROOTDEV → disk (buf i).blockno = c (buf i).blockno) :
    Sees (update buf i ((buf i).recycle b)) disk c := by
  refine ⟨fun j => ?_, fun k hk => ?_⟩
  · by_cases hji : j = i
    · rw [hji, update_self]
      nofun
    · rw [update_of_ne hji]
      exact h.cached j
  · by_cases hi : (buf i).Holds k
    · rw [← hi.2]
      exact (hevict hi.1).symm
    · refine h.uncached k fun j hj => ?_
      have hji : j ≠ i := by
        rintro rfl
        exact hi hj
      have := hk j
      rw [update_of_ne hji] at this
      exact this hj

/-- `bget` takes an unused buffer. -/
theorem Contents.recycle (h : Contents start T c s) (hc : s.Counted) (hP : Fintype.card P + 2 < 2 ^ 32)
    (hfree : (s.buf i).refcnt = 0) {b : Nat} (hbuf : s'.buf = update s.buf i ((s.buf i).recycle b))
    (hs : s.SameLog s') (hdisk : s'.disk = s.disk) (hfilling : ∀ p j, s'.stage p = .filling j → s.stage p = .filling j) :
    Contents start T c s' := by
  obtain ⟨hlock, -, -⟩ := hc.unreferenced hP hfree
  have hclean := h.not_dirty_of_free hlock
  have hself : s'.buf i = (s.buf i).recycle b := by rw [hbuf, update_self]
  have hne : ∀ j, j ≠ i → s'.buf j = s.buf j := fun j hj => by rw [hbuf, update_of_ne hj]
  have hdirty : ∀ j, (s'.buf j).dirty = true → j ≠ i ∧ (s.buf j).dirty = true := by
    intro j hj
    by_cases hji : j = i
    · rw [hji, hself] at hj
      cases hclean.symm.trans hj
    · exact ⟨hji, by rwa [hne j hji] at hj⟩
  have hlocked : ∀ j p, (s.buf j).lock = some p → s'.buf j = s.buf j := fun j p hp => hne j (by
    rintro rfl
    cases hlock.symm.trans hp)
  have hDirty : ∀ k, Dirty s.buf k → Dirty s'.buf k := by
    rintro k ⟨j, hj, hd⟩
    obtain ⟨p, hp, -⟩ := h.owner j hd
    exact ⟨j, by rw [hlocked j p hp]; exact ⟨hj, hd⟩⟩
  refine ⟨?_, fun k => ?_, fun k hk hd => h.spec k hk fun e => hd (hDirty k e), fun j hj => ?_,
    fun j hj => ?_, fun q j hq => ?_, fun q j hq => ?_, by rw [hs.pins]; exact h.away⟩
  · rw [hbuf, hdisk]
    exact h.sees.recycle (fun hdev j hj => hc.eq_of_holds ⟨hdev, rfl⟩ hj) (h.evict hc hP hfree)
  · rw [hs.pins, hs.code, hdisk]
    refine (h.clean k).imp_right fun e => Or.imp (hDirty k) (fun e => Or.imp_left ?_ e) e
    rintro ⟨j, q, hj, hq, hcode⟩
    refine ⟨j, q, ?_⟩
    rw [hlocked j q hq]
    exact ⟨hj, hq, hcode⟩
  · obtain ⟨hji, hj⟩ := hdirty j hj
    rw [hne j hji, hs.mode]
    exact h.owner j hj
  · obtain ⟨hji, hj⟩ := hdirty j hj
    rw [hne j hji]
    exact h.home j hj
  · by_contra hd
    obtain ⟨-, hd⟩ := hdirty j (by simpa using hd)
    cases (h.filling q j (hfilling q j hq)).symm.trans hd
  · have hq' := hs.logging q j hq
    have hheld : (s.buf j).lock = some q := by
      have := hc.stages q
      rwa [hq'] at this
    rw [hlocked j q hheld]
    exact h.logging q j hq'

omit [Fintype P] in
/-- The contents of one valid buffer change, and with them the view. -/
theorem Sees.store (h : Sees buf disk c) (hunique : ∀ j, (buf j).Holds (buf i).blockno → j = i)
    (hdev : (buf i).dev = ROOTDEV) (hxdev : x.dev = (buf i).dev)
    (hxblock : x.blockno = (buf i).blockno) (hxvalid : x.valid = true) :
    Sees (update buf i x) disk (update c (buf i).blockno x.data) := by
  have hother : ∀ j, j ≠ i → (buf j).dev = ROOTDEV → (buf j).blockno ≠ (buf i).blockno := fun j hj hdev e =>
    hj (hunique j ⟨hdev, e⟩)
  refine ⟨fun j => ?_, fun k hk => ?_⟩
  · by_cases hj : j = i
    · subst hj
      rw [update_self, hxblock, update_self]
      exact fun _ _ => rfl
    · rw [update_of_ne hj]
      intro hjdev hv
      rw [update_of_ne (hother j hj hjdev)]
      exact h.cached j hjdev hv
  · have hki : k ≠ (buf i).blockno := by
      rintro rfl
      have := hk i
      rw [update_self] at this
      cases hxvalid.symm.trans (this ⟨hxdev.trans hdev, hxblock⟩)
    rw [update_of_ne hki]
    refine h.uncached k fun j hj => ?_
    have hji : j ≠ i := by
      rintro rfl
      exact hki hj.2.symm
    have := hk j
    rw [update_of_ne hji] at this
    exact this hj

variable {p : P}

/-- `bread` reads the block. What it finds is what the view has. -/
theorem Contents.fill_data (h : Contents start T c s) (hc : s.Counted)
    (hfill : s.stage p = .filling i) : ((s.buf i).fill s.disk).data = c (s.buf i).blockno := by
  have hheld : (s.buf i).lock = some p := by
    have := hc.stages p
    rwa [hfill] at this
  have hdev : (s.buf i).dev = ROOTDEV := hc.locks i (by rw [hheld]; nofun)
  unfold Buf.fill
  split
  next hv => exact (h.sees.cached i hdev hv).symm
  next hv =>
    refine (h.sees.uncached _ fun j hj => ?_).symm
    rw [hc.eq_of_holds ⟨hdev, rfl⟩ hj]
    simpa using hv

theorem Contents.fill (h : Contents start T c s) (hc : s.Counted) (hfill : s.stage p = .filling i)
    (hbuf : s'.buf = update s.buf i ((s.buf i).fill s.disk)) (hs : s.SameLog s')
    (hdisk : s'.disk = s.disk)
    (hfilling : ∀ p j, s'.stage p = .filling j → s.stage p = .filling j) :
    Contents start T c s' := by
  have hheld : (s.buf i).lock = some p := by
    have := hc.stages p
    rwa [hfill] at this
  have hdev : (s.buf i).dev = ROOTDEV := hc.locks i (by rw [hheld]; nofun)
  have hkey : ((s.buf i).fill s.disk).dev = (s.buf i).dev ∧ ((s.buf i).fill s.disk).blockno = (s.buf i).blockno ∧
      ((s.buf i).fill s.disk).dirty = (s.buf i).dirty ∧ ((s.buf i).fill s.disk).lock = (s.buf i).lock ∧
      ((s.buf i).fill s.disk).valid = true := by
    unfold Buf.fill
    split
    next hv => exact ⟨rfl, rfl, rfl, rfl, hv⟩
    next => exact ⟨rfl, rfl, rfl, rfl, rfl⟩
  have hsees := h.sees.store (fun j hj => hc.eq_of_holds ⟨hdev, rfl⟩ hj) hdev hkey.1 hkey.2.1 hkey.2.2.2.2
  rw [h.fill_data hc hfill, update_eq_self] at hsees
  exact h.touch hbuf ⟨hkey.1, hkey.2.1, hkey.2.2.1⟩ hsees (fun p hp => .inl (hkey.2.2.2.1.trans hp)) hs hdisk
    fun p j hp => .inl (hfilling p j hp)

omit [Fintype P] in
theorem Sees.bwrite (h : Sees buf disk c) (hdev : (buf i).dev = ROOTDEV)
    (hv : (buf i).valid = true) :
    Sees buf (update disk (buf i).blockno (buf i).data) c := by
  refine ⟨h.cached, fun k hk => ?_⟩
  have hki : k ≠ (buf i).blockno := by
    rintro rfl
    cases hv.symm.trans (hk i ⟨hdev, rfl⟩)
  rw [update_of_ne hki]
  exact h.uncached k hk

omit [Fintype P] in
/-- A held buffer is written to the disk. -/
theorem Contents.bwrite (h : Contents start T c s) (hdev : (s.buf i).dev = ROOTDEV) (hv : (s.buf i).valid = true) :
    Contents start T c { s with disk := update s.disk (s.buf i).blockno (s.buf i).data } := by
  have hdata := h.sees.cached i hdev hv
  refine ⟨h.sees.bwrite hdev hv, fun k => ?_, h.spec, h.owner, h.home, h.filling, h.logging, h.away⟩
  · show _ ∨ _ ∨ _ ∨ update s.disk _ _ k = c k
    by_cases hki : k = (s.buf i).blockno
    · rw [hki, update_self]
      exact .inr (.inr (.inr hdata.symm))
    · rw [update_of_ne hki]
      exact h.clean k

/-- A process in an operation changes a block that it holds. -/
theorem Contents.modify (h : Contents start T c s) (hc : s.Counted)
    (hheld : (s.buf i).lock = some p) (hidle : s.stage p = .idle) (hop : s.mode p = .inOp)
    (hout : ¬ Log.InLog start LOGSIZE (s.buf i).blockno) {data : Block} :
    Contents start T (update c (s.buf i).blockno data) (s.setBuf i ((s.buf i).modify data)) := by
  have hdev : (s.buf i).dev = ROOTDEV := hc.locks i (by rw [hheld]; nofun)
  have hv : (s.buf i).valid = true := (hc.filled i p hheld).resolve_left (by rw [hidle]; nofun)
  have hholds : SameHolds s.buf (s.setBuf i ((s.buf i).modify data)).buf := sameHolds_update rfl rfl
  have hself : (s.setBuf i ((s.buf i).modify data)).buf i = (s.buf i).modify data := update_self ..
  have hne : ∀ j, j ≠ i → (s.setBuf i ((s.buf i).modify data)).buf j = s.buf j := fun j hj => update_of_ne hj ..
  have hdirty : ∀ k, k ≠ (s.buf i).blockno →
      (Dirty (s.setBuf i ((s.buf i).modify data)).buf k ↔ Dirty s.buf k) := by
    refine fun k hk => exists_congr fun j => ?_
    rw [hholds.holds]
    refine and_congr_right fun hj => ?_
    rw [hne j (by rintro rfl; exact hk hj.2.symm)]
  have hnow : Dirty (s.setBuf i ((s.buf i).modify data)).buf (s.buf i).blockno :=
    ⟨i, (hholds.holds i _).mpr ⟨hdev, rfl⟩, by rw [hself]; rfl⟩
  refine ⟨h.sees.store (fun j hj => hc.eq_of_holds ⟨hdev, rfl⟩ hj) hdev rfl rfl hv, fun k => ?_, fun k hk hd => ?_,
    fun j hj => ?_, fun j hj => ?_, fun q j hq => ?_, fun q j hq => ?_, h.away⟩
  · by_cases hk : k = (s.buf i).blockno
    · exact .inr (.inl (by rw [hk]; exact hnow))
    · rw [hdirty k hk, update_of_ne hk]
      refine (h.clean k).imp_right fun e => e.imp_right fun e => e.imp_left ?_
      rintro ⟨j, q, hj, hq, hcode⟩
      refine ⟨j, q, (hholds.holds j k).mpr hj, ?_, hcode⟩
      rw [hne j (by rintro rfl; exact hk hj.2.symm)]
      exact hq
  · have hki : k ≠ (s.buf i).blockno := by
      rintro rfl
      exact hd hnow
    rw [update_of_ne hki]
    exact h.spec k hk fun e => hd ((hdirty k hki).mpr e)
  · by_cases hji : j = i
    · subst hji
      exact ⟨p, by rw [hself]; exact hheld, hop⟩
    · rw [hne j hji] at hj ⊢
      exact h.owner j hj
  · by_cases hji : j = i
    · rw [hji, hself]
      exact hout
    · rw [hne j hji] at hj ⊢
      exact h.home j hj
  · have hji : j ≠ i := by
      rintro rfl
      have hq' := hc.stages q
      rw [show s.stage q = _ from hq] at hq'
      cases hheld.symm.trans hq'
      cases hidle.symm.trans hq
    rw [hne j hji]
    exact h.filling q j hq
  · rw [(hholds j).2]
    exact h.logging q j hq

/-- `log_write` makes the changed block the array's. -/
theorem Contents.logWrite (h : Contents start T c s) (hc : s.Counted)
    (hlog : s.stage p = .logging i) (hbuf : s'.buf = update s.buf i x)
    (hx : x.dev = (s.buf i).dev ∧ x.blockno = (s.buf i).blockno ∧ x.valid = (s.buf i).valid ∧
      x.data = (s.buf i).data ∧ x.lock = (s.buf i).lock ∧ x.dirty = false)
    (hpins : ∀ b, b ∈ s'.pins ↔ b ∈ s.pins ∨ b = (s.buf i).blockno) (hdisk : s'.disk = s.disk)
    (hmode : s'.mode = s.mode) (hcode : s'.code = s.code)
    (hstage : ∀ q, s'.stage q = s.stage q ∨ s'.stage q = .idle) :
    Contents start (update T (s.buf i).blockno (s.buf i).data) c s' := by
  obtain ⟨hxdev, hxblock, hxvalid, hxdata, hxlock, hxdirty⟩ := hx
  have hheld : (s.buf i).lock = some p := by
    have := hc.stages p
    rwa [hlog] at this
  have hdev : (s.buf i).dev = ROOTDEV := hc.locks i (by rw [hheld]; nofun)
  have hv : (s.buf i).valid = true := (hc.filled i p hheld).resolve_left (by rw [hlog]; nofun)
  have hholds : SameHolds s.buf s'.buf := by
    rw [hbuf]
    exact sameHolds_update hxdev hxblock
  have hself : s'.buf i = x := by rw [hbuf, update_self]
  have hne : ∀ j, j ≠ i → s'.buf j = s.buf j := fun j hj => by rw [hbuf, update_of_ne hj]
  have hlocks : ∀ j, (s'.buf j).lock = (s.buf j).lock := by
    rw [hbuf]
    exact forall_update (C := fun j (y : Buf P) => y.lock = (s.buf j).lock) hxlock fun _ _ => rfl
  have hdirty : ∀ j, (s'.buf j).dirty = true → (s.buf j).dirty = true := by
    rw [hbuf]
    exact forall_update (C := fun j (y : Buf P) => y.dirty = true → (s.buf j).dirty = true)
      (fun e => by cases hxdirty.symm.trans e) fun _ _ => id
  have hDirty : ∀ k, k ≠ (s.buf i).blockno → Dirty s.buf k → Dirty s'.buf k := by
    rintro k hk ⟨j, hj, hd⟩
    have hji : j ≠ i := by
      rintro rfl
      exact hk hj.2.symm
    exact ⟨j, by rw [hne j hji]; exact ⟨hj, hd⟩⟩
  refine ⟨by rw [hbuf, hdisk]; exact h.sees.touch ⟨hxdev, hxblock, hxvalid, hxdata⟩, fun k => ?_, fun k hk hd => ?_,
    fun j hj => ?_, fun j hj => ?_, fun q j hq => ?_, fun q j hq => ?_, fun b hb => ?_⟩
  · rw [hpins, hdisk, hcode]
    by_cases hk : k = (s.buf i).blockno
    · exact .inl (.inr hk)
    · refine Or.imp .inl (fun e => Or.imp (hDirty k hk) (fun e => Or.imp_left ?_ e) e) (h.clean k)
      rintro ⟨j, q, hj, hq, hbw⟩
      exact ⟨j, q, (hholds.holds j k).mpr hj, (hlocks j).trans hq, hbw⟩
  · by_cases hki : k = (s.buf i).blockno
    · rw [hki, update_self]
      exact h.sees.cached i hdev hv
    · rw [update_of_ne hki]
      exact h.spec k hk fun e => hd (hDirty k hki e)
  · obtain ⟨q, hq, hop⟩ := h.owner j (hdirty j hj)
    exact ⟨q, (hlocks j).trans hq, by rw [hmode]; exact hop⟩
  · rw [(hholds j).2]
    exact h.home j (hdirty j hj)
  · have hq' : s.stage q = .filling j := by
      rcases hstage q with e | e
      · exact e.symm.trans hq
      · cases e.symm.trans hq
    by_contra hd
    cases (h.filling q j hq').symm.trans (hdirty j (by simpa using hd))
  · rw [(hholds j).2]
    rcases hstage q with e | e
    · exact h.logging q j (e.symm.trans hq)
    · cases e.symm.trans hq
  · rcases (hpins b).mp hb with hb | rfl
    · exact h.away b hb
    · exact h.logging p i hlog

end

end Xv6.Bio
