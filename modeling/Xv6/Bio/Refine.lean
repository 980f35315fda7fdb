import Xv6.Bio.Contents
import Xv6.Bio.Refcnt

/-!
# The cache and the log refine an array of blocks

The abstract machine is an array: `log_write` stores a block, `bread` returns what was stored last,
or what the disk had at the boot. Its runs are read off the trace of the concrete machine
(`latest`, `Legal`).

The concrete machine keeps `Sound`: the view through the cache is the array, except where a holder
has changed a block and not logged it yet, and the process that commits or boots is at a point of
its code from which the view stays what it is. Evictions, absorptions and commits are steps that
leave the view alone.
-/

namespace Xv6.Bio

open Function
open Log (Instr LogState)

variable {P : Type}

/-! ## The array -/

/-- The array after a trace: what was logged last for each block, else what the disk had. -/
def latest (init : Disk) : List (Event P) → Disk
  | [] => init
  | .logWrite _ b data :: earlier => update (latest init earlier) b data
  | .bread _ _ _ :: earlier => latest init earlier

/-- Each `bread` of a block outside the log returns what the array has. -/
def Legal (start : Nat) (init : Disk) (trace : List (Event P)) : Prop :=
  ∀ later p b data earlier, trace = later ++ .bread p b data :: earlier →
    ¬ Log.InLog start LOGSIZE b → data = latest init earlier b

theorem Legal.cons {start : Nat} {init : Disk} {trace : List (Event P)} {e : Event P} (h : Legal start init trace)
    (he : ∀ p b data, e = .bread p b data → ¬ Log.InLog start LOGSIZE b → data = latest init trace b) :
    Legal start init (e :: trace) := by
  intro later p b data earlier htrace
  rcases List.cons_eq_append_iff.mp htrace with ⟨-, heq⟩ | ⟨later', -, htrace'⟩
  · cases heq
    exact he p b data rfl
  · exact h later' p b data earlier htrace'

/-! ## The clients -/

/-- A client changes a buffer only inside an operation, logs it before it releases it, and before
its operation ends. (That it holds the buffer is what the step itself asks for.) -/
def Promise (s : System P) : Act P → Prop
  | .modify p _ _ => s.mode p = .inOp
  | .brelse p i => (s.buf i).lock = some p → (s.buf i).dirty = false
  | .endOp p => ∀ i, (s.buf i).lock = some p → (s.buf i).dirty = false
  | _ => True

instance [DecidableEq P] (s : System P) : ∀ a, Decidable (Promise s a)
  | .modify p _ _ => inferInstanceAs (Decidable (s.mode p = .inOp))
  | .brelse p i => inferInstanceAs (Decidable ((s.buf i).lock = some p → (s.buf i).dirty = false))
  | .endOp p => inferInstanceAs (Decidable (∀ i, (s.buf i).lock = some p → (s.buf i).dirty = false))
  | .beginOp _ | .tryBegin _ | .kill _ | .finish _ | .bread _ _ | .acquiresleep _ | .fill _ | .bwrite _ _ | .logCheck _ _
  | .logWrite _ | .drop _ | .instr _ => .isTrue trivial

/-- A client leaves the log's own blocks to the log. -/
def OutsideLog (s : System P) : Act P → Prop
  | .modify _ i _ | .logCheck _ i => ¬ Log.InLog s.log.start LOGSIZE (s.buf i).blockno
  | _ => True

instance (s : System P) : ∀ a, Decidable (OutsideLog s a)
  | .modify _ i _ | .logCheck _ i => inferInstanceAs (Decidable (¬ (_ ≤ (s.buf i).blockno ∧ (s.buf i).blockno < _)))
  | .beginOp _ | .tryBegin _ | .kill _ | .endOp _ | .finish _ | .bread _ _ | .acquiresleep _ | .fill _ | .bwrite _ _
  | .logWrite _ | .brelse _ _ | .drop _ | .instr _ => .isTrue trivial

/-! ## The process that runs the log's code -/

def Mode.Busy (m : Mode) : Prop := m = .committing ∨ m = .booting

instance (m : Mode) : Decidable m.Busy := inferInstanceAs (Decidable (_ ∨ _))

/-- The log holds a block for every buffer: all of them are pinned, and `write_log` finds no buffer
for its first log block. -/
structure Stuck (start : Nat) (s : System P) (p : P) : Prop where
  full : s.log.lh.length = NBUF
  pins : s.pins = s.log.lh
  idle : s.stage p = .idle
  code : ∃ rest, s.code p = .commit :: rest ∨ s.code p = .writeLog 0 :: rest ∨ s.code p = .bread (start + 1) :: rest

/-- The code left to run keeps the view `c` on the array `T`, or is about to find no buffer. -/
def Work (start : Nat) (T c : Disk) (s : System P) (p : P) : Prop :=
  (∃ v : View, v.lh = s.log.lh ∧ v.pins = s.pins ∧ v.cache = c ∧ v.disk = s.disk ∧
    Wp (View.exec start) (Keeps start T) (fun v => Good start T none v.cache v.disk v.pins) (s.code p) v) ∨
  Stuck start s p

theorem Work.congr {start : Nat} {T c : Disk} {s s' : System P} {p : P} (h : Work start T c s p)
    (hlh : s'.log.lh = s.log.lh) (hpins : s'.pins = s.pins) (hcode : s'.code p = s.code p)
    (hdisk : s'.disk = s.disk) (hidle : s.stage p = .idle → s'.stage p = .idle) : Work start T c s' p := by
  rcases h with ⟨v, hvlh, hvpins, hcache, hd, hv⟩ | h
  · refine .inl ⟨v, hvlh.trans hlh.symm, hvpins.trans hpins.symm, hcache, hd.trans hdisk.symm, ?_⟩
    rw [hcode]
    exact hv
  · refine .inr ⟨?_, ?_, hidle h.idle, ?_⟩
    · rw [hlh]
      exact h.full
    · rw [hlh, hpins]
      exact h.pins
    · rw [hcode]
      exact h.code

/-- Other processes may write home blocks of the array meanwhile. -/
theorem Work.write {start : Nat} {T c : Disk} {s : System P} {p : P} (h : Work start T c s p)
    {b : Nat} (hb : ¬ Log.InLog start LOGSIZE b) : Work start T c { s with disk := update s.disk b (T b) } p := by
  rcases h with ⟨v, hlh, hpins, hcache, hd, hv⟩ | h
  · refine .inl ⟨{ v with disk := update v.disk b (T b) }, hlh, hpins, hcache, by rw [hd], ?_⟩
    refine hv.stable (R := Interfered start T) (fun i _ _ hR => hR.exec i) (fun i _ _ hR hG => hR.keeps hG)
      (fun _ _ hR hQ => hR.good hQ) ⟨rfl, rfl, rfl, ?_⟩
    exact forall_update (C := fun k x => x = v.disk k ∨ ¬ Log.InLog start LOGSIZE k ∧ x = T k) (.inr ⟨hb, rfl⟩)
      fun _ _ => .inl rfl
  · exact .inr ⟨h.full, h.pins, h.idle, h.code⟩

/-! ## An instruction acts on the view as `View.exec` does -/

section

variable [DecidableEq P] [Fintype P] {start : Nat} {T c : Disk} {s s' : System P} {p : P}

/-- The buffer that the process has read, and its data. -/
theorem held_data (hc : s.Counted) (hidle : s.stage p = .idle) {cache : Disk} (h : Sees s.buf s.disk cache) {b : Nat}
    {j : Fin NBUF} (hj : s.held p b = some j) :
    (s.buf j).Holds b ∧ (s.buf j).lock = some p ∧ (s.buf j).valid = true ∧ (s.buf j).data = cache b := by
  obtain ⟨hholds, hlock⟩ := System.holds_of_held hj
  have hv := (hc.filled j p hlock).resolve_left (by rw [hidle]; nofun)
  refine ⟨hholds, hlock, hv, ?_⟩
  rw [← hholds.2]
  exact (h.cached j hholds.1 hv).symm

variable {i : Instr}

theorem exec_sees (hc : s.Counted) (hidle : s.stage p = .idle) {v : View} (hlh : v.lh = s.log.lh)
    (hdisk : v.disk = s.disk) (h : Sees s.buf s.disk v.cache)
    (hevict : ∀ i, (s.buf i).refcnt = 0 → (s.buf i).dev = ROOTDEV → s.disk (s.buf i).blockno = v.cache (s.buf i).blockno)
    (hs : s.exec p i = some (.ok s')) :
    Sees s'.buf s'.disk (View.exec start i v).1.cache ∧ s'.disk = (View.exec start i v).1.disk := by
  have hone : ∀ {j}, (s.buf j).dev = ROOTDEV → ∀ l, (s.buf l).Holds (s.buf j).blockno → l = j :=
    fun hdev l hl => hc.eq_of_holds ⟨hdev, rfl⟩ hl
  cases System.exec_ran hs with
  | bread hs =>
    obtain ⟨j, x, rfl, ⟨rfl, -⟩ | ⟨rfl, hfree, -⟩⟩ := System.bget_ok hs
    · exact ⟨h.touch ⟨rfl, rfl, rfl, rfl⟩, hdisk.symm⟩
    · exact ⟨h.recycle hone (hevict j hfree), hdisk.symm⟩
  | brelse | bunpin => exact ⟨h.touch ⟨rfl, rfl, rfl, rfl⟩, hdisk.symm⟩
  | @bwrite b j hj =>
    obtain ⟨hholds, -, hv, hdata⟩ := held_data hc hidle h hj
    refine ⟨h.bwrite hholds.1 hv, ?_⟩
    show update s.disk (s.buf j).blockno (s.buf j).data = update v.disk b (v.cache b)
    rw [hdata, hholds.2, hdisk]
  | @memmove _ _ j l hj hl =>
    obtain ⟨hholds, -, hv, -⟩ := held_data hc hidle h hj
    obtain ⟨-, -, -, hdata⟩ := held_data hc hidle h hl
    have := h.store (x := (s.buf j).setData (s.buf l).data) (hone hholds.1) hholds.1 rfl rfl hv
    rw [hholds.2, show ((s.buf j).setData (s.buf l).data).data = _ from hdata] at this
    exact ⟨this, hdisk.symm⟩
  | @storeHead b j hj =>
    obtain ⟨hholds, -, hv, hdata⟩ := held_data hc hidle h hj
    have := h.store (x := (s.buf j).setData (Log.putHead s.log.lh (s.buf j).data)) (hone hholds.1) hholds.1 rfl rfl hv
    rw [hholds.2, show ((s.buf j).setData (Log.putHead s.log.lh (s.buf j).data)).data = _ from
      congrArg (Log.putHead s.log.lh) hdata] at this
    refine ⟨?_, hdisk.symm⟩
    show Sees _ s.disk (update v.cache b (Log.putHead v.lh (v.cache b)))
    rw [hlh]
    exact this
  | _ => exact ⟨h, hdisk.symm⟩

/-- The log, the pins and the code, for `loadHead` as well. -/
theorem exec_execs_of_sees (hc : s.Counted) (hidle : s.stage p = .idle) {v : View}
    (hlh : v.lh = s.log.lh) (hpins : v.pins = s.pins) (h : Sees s.buf s.disk v.cache)
    (hs : s.exec p i = some (.ok s')) : System.Execs s s' p i v := by
  by_cases hload : ∃ b, i = .loadHead b
  · obtain ⟨b, rfl⟩ := hload
    cases System.exec_ran hs with
    | @loadHead _ j hj =>
      obtain ⟨-, -, -, hdata⟩ := held_data hc hidle h hj
      refine ⟨?_, hpins.symm, rfl, (update_eq_self p s.code).symm, rfl, fun _ _ => id⟩
      show { s.log with lh := Log.headOf (s.buf j).data } = { s.log with lh := Log.headOf (v.cache b) }
      rw [hdata]
  · exact System.exec_execs hlh hpins (fun b e => hload ⟨b, e⟩) hs

omit [Fintype P] in
/-- The buffer that an instruction overwrites is its process's. -/
theorem exec_storesTo {k : Nat} (hs : s.exec p i = some (.ok s')) (hi : storesTo i = some k) :
    ∃ j, (s'.buf j).Holds k ∧ (s'.buf j).lock = some p := by
  have hstored : ∀ {j : Fin NBUF} {data : Block}, s.held p k = some j →
      ∃ j', ((s.setBuf j ((s.buf j).setData data)).buf j').Holds k ∧ ((s.setBuf j ((s.buf j).setData data)).buf j').lock = some p := by
    intro j data hj
    refine ⟨j, ?_⟩
    rw [show (s.setBuf j ((s.buf j).setData data)).buf j = _ from update_self ..]
    exact System.holds_of_held hj
  cases System.exec_ran hs with
  | memmove hj | storeHead hj => cases hi; exact hstored hj
  | _ => cases hi

omit [Fintype P] in
/-- No instruction makes a buffer dirty. -/
theorem exec_dirty (hs : s.exec p i = some (.ok s')) (j : Fin NBUF) :
    (s'.buf j).dirty = (s.buf j).dirty := by
  have hupdate : ∀ {l : Fin NBUF} {x : Buf P}, x.dirty = (s.buf l).dirty → s'.buf = update s.buf l x →
      (s'.buf j).dirty = (s.buf j).dirty := by
    intro l x hx hbuf
    rw [hbuf]
    exact forall_update (C := fun j (y : Buf P) => y.dirty = (s.buf j).dirty) hx (fun _ _ => rfl) j
  cases System.exec_ran hs with
  | bread hs =>
    obtain ⟨l, x, rfl, ⟨rfl, -⟩ | ⟨rfl, -⟩⟩ := System.bget_ok hs
    · exact hupdate (x := (s.buf l).ref) rfl rfl
    · exact hupdate (x := (s.buf l).recycle _) rfl rfl
  | @brelse _ l => exact hupdate (x := (s.buf l).setLock none) rfl rfl
  | @bunpin _ l => exact hupdate (x := (s.buf l).unref) rfl rfl
  | @memmove _ _ l k => exact hupdate (x := (s.buf l).setData (s.buf k).data) rfl rfl
  | @storeHead _ l => exact hupdate (x := (s.buf l).setData (Log.putHead s.log.lh (s.buf l).data)) rfl rfl
  | _ => rfl

omit [Fintype P] in
theorem exec_trace (hs : s.exec p i = some (.ok s')) : s'.trace = s.trace := by
  cases System.exec_ran hs with
  | bread hs =>
    obtain ⟨l, x, rfl, -⟩ := System.bget_ok hs
    rfl
  | _ => rfl

end

end Xv6.Bio
