import Xv6.Bio.Refine

/-!
# Every run refines the array

A read gives what was last written, in every run that has not panicked. That `bget` finds a buffer
is not shown, nor what a crash leaves: that is `Xv6.Log.Recovery`.
-/

namespace Xv6.Bio

open Function Finset Bio.System
open Log (Instr LogState)

variable {P : Type} [Fintype P]

/-! ## Who is busy -/

section

variable {s : System P} {p q : P}

/-- While the log's code runs no operation is in progress. -/
theorem Inv.no_op_of_busy (h : Inv s) (hp : (s.mode p).Busy) (q : P) : s.mode q ≠ .inOp := by
  intro hq
  rcases h.phase with ⟨r, hr⟩ | ⟨-, hrun⟩
  · by_cases hqr : q = r
    · rw [hqr] at hq
      cases hr.mode.symm.trans hq
    · have : s.mode q = .outside := by
        show (s.thread q).mode = _
        rw [hr.others q hqr]
      cases this.symm.trans hq
  · exact hp.elim (hrun.no_commit hq p) (hrun.booted p)

theorem Inv.code_nil (h : Inv s) (hq : ¬ (s.mode q).Busy) : s.code q = [] := by
  rcases h.phase with ⟨r, hr⟩ | ⟨-, hrun⟩
  · have hqr : q ≠ r := by
      rintro rfl
      exact hq (.inr hr.mode)
    show (s.thread q).code = _
    rw [hr.others q hqr]
  · exact hrun.idle q fun e => hq (.inl e)

theorem Inv.busy_eq (h : Inv s) (hp : (s.mode p).Busy) (hq : (s.mode q).Busy) : p = q := by
  rcases h.phase with ⟨r, hr⟩ | ⟨-, hrun⟩
  · have hone : ∀ x, (s.mode x).Busy → x = r := by
      intro x hx
      by_contra hne
      have : s.mode x = .outside := by
        show (s.thread x).mode = _
        rw [hr.others x hne]
      rw [this] at hx
      rcases hx with e | e <;> cases e
    exact (hone p hp).trans (hone q hq).symm
  · exact hrun.one p q (hp.resolve_right (hrun.booted p)) (hq.resolve_right (hrun.booted q))

/-- Pinned blocks are in different buffers. -/
theorem System.Counted.pins_le (h : s.Counted) :
    s.pins.length ≤ (univ.filter fun i => (s.buf i).Pinned s.pins).card := by
  have hsub : s.pins.toFinset ⊆ (univ.filter fun i => (s.buf i).Pinned s.pins).image fun i => (s.buf i).blockno := by
    intro b hb
    obtain ⟨i, hi, -⟩ := h.cached b (List.mem_toFinset.mp hb)
    refine mem_image.mpr ⟨i, mem_filter.mpr ⟨mem_univ i, hi.1, ?_⟩, hi.2⟩
    rw [hi.2]
    exact List.mem_toFinset.mp hb
  calc s.pins.length = s.pins.toFinset.card := (List.toFinset_card_of_nodup h.nodup).symm
    _ ≤ _ := card_le_card hsub
    _ ≤ _ := card_image_le

theorem System.Counted.pins_le_nbuf (h : s.Counted) : s.pins.length ≤ NBUF := by
  have := card_filter_le univ fun i => (s.buf i).Pinned s.pins
  rw [card_univ, Fintype.card_fin] at this
  exact Nat.le_trans h.pins_le this

/-- With as many pinned blocks as buffers, no buffer is left. -/
theorem System.Counted.all_pinned (h : s.Counted) (hfull : s.pins.length = NBUF) (i : Fin NBUF) :
    (s.buf i).Pinned s.pins := by
  have hcard : (univ.filter fun i => (s.buf i).Pinned s.pins) = univ := by
    refine eq_univ_of_card _ (Nat.le_antisymm (card_le_univ _) ?_)
    rw [Fintype.card_fin]
    exact Nat.le_trans (Nat.le_of_eq hfull.symm) h.pins_le
  have hi := mem_univ i
  rw [← hcard] at hi
  exact (mem_filter.mp hi).2

end

/-! ## The invariant of a run -/

/-- The view through the cache is the array, and the log's code keeps it so. -/
structure Sound (init : Disk) (start : Nat) (s : System P) : Prop where
  inv : Inv s
  begins : s.log.start = start
  legal : Legal start init s.trace
  contents : ∃ c, Contents start (latest init s.trace) c s ∧
    ∀ p, (s.mode p).Busy → Work start (latest init s.trace) c s p

namespace Sound

variable {init : Disk} {start : Nat} {s s' : System P} {p : P}

/-- A step on the buffers that leaves the view alone. -/
theorem same (h : Sound init start s) (hI : Inv s') (hs : s.SameLog s') (hdisk : s'.disk = s.disk)
    (htrace : s'.trace = s.trace) (hidle : ∀ q, (s.mode q).Busy → s.stage q = .idle → s'.stage q = .idle)
    (hcontents : ∀ c, Contents start (latest init s.trace) c s → Contents start (latest init s.trace) c s') :
    Sound init start s' := by
  obtain ⟨c, hc, hwork⟩ := h.contents
  refine ⟨hI, by rw [hs.log]; exact h.begins, by rw [htrace]; exact h.legal, c, ?_⟩
  rw [htrace]
  refine ⟨hcontents c hc, fun q hq => ?_⟩
  rw [hs.mode] at hq
  exact (hwork q hq).congr (by rw [hs.log]) hs.pins (by rw [hs.code]) hdisk (hidle q hq)

section

variable [DecidableEq P]

omit [Fintype P] in
/-- A step of the process itself is no step of a busy process at rest. -/
theorem setStage_idle {st : Stage} (hstage : s'.stage = update s.stage p st)
    (hp : ¬ (s.mode p).Busy ∨ s.stage p ≠ .idle) (q : P) (hq : (s.mode q).Busy) (hidle : s.stage q = .idle) :
    s'.stage q = .idle := by
  have hqp : q ≠ p := by
    rintro rfl
    exact hp.elim (absurd hq) (absurd hidle)
  rw [hstage, update_of_ne hqp]
  exact hidle

omit [Fintype P] in
theorem filling_setStage {st : Stage} (hstage : s'.stage = update s.stage p st) (hst : ∀ i, st ≠ .filling i)
    (q : P) (j : Fin NBUF) (hq : s'.stage q = .filling j) : s.stage q = .filling j := by
  rw [hstage] at hq
  by_cases hqp : q = p
  · rw [hqp, update_self] at hq
    exact absurd hq (hst j)
  · rwa [update_of_ne hqp] at hq

omit [DecidableEq P] [Fintype P] in
theorem not_busy_of_client (hp : s.Client p) : ¬ (s.mode p).Busy := by
  rintro (e | e) <;> rcases hp.1 with ⟨h, -⟩ | h <;> cases h.symm.trans e

theorem bread (h : Sound init start s) (hI : Inv s') (hP : Fintype.card P + 2 < 2 ^ 32) (hp : s.Client p) {b : Nat}
    (hs : s.bget p b = .ok s') : Sound init start s' := by
  have hsame := sameLog_bget hs
  obtain ⟨i, x, rfl, hx⟩ := bget_ok hs
  have hstage : ((s.setBuf i x).setStage p (.waiting i)).stage = update s.stage p (.waiting i) :=
    setStage_stage _
  refine h.same hI hsame rfl rfl (setStage_idle hstage (.inl (not_busy_of_client hp))) fun c hc => ?_
  rcases hx with ⟨rfl, -⟩ | ⟨rfl, hfree, -⟩
  · exact hc.touch rfl ⟨rfl, rfl, rfl⟩ (hc.sees.touch ⟨rfl, rfl, rfl, rfl⟩) (fun _ => .inl) hsame rfl
      fun q j hq => .inl (filling_setStage hstage nofun q j hq)
  · exact hc.recycle h.inv.counted hP hfree rfl hsame rfl (filling_setStage hstage nofun)

variable {i : Fin NBUF}

theorem acquiresleep (h : Sound init start s) (hI : Inv (s.acquiresleep p i)) (hwait : s.stage p = .waiting i)
    (hfree : (s.buf i).lock = none) : Sound init start (s.acquiresleep p i) := by
  have hstage : (s.acquiresleep p i).stage = update s.stage p (.filling i) := setStage_stage _
  refine h.same hI (sameLog_acquiresleep i) rfl rfl (setStage_idle hstage (.inr (by rw [hwait]; nofun))) fun c hc => ?_
  refine hc.touch rfl ⟨rfl, rfl, rfl⟩ (hc.sees.touch ⟨rfl, rfl, rfl, rfl⟩) ?_ (sameLog_acquiresleep i) rfl ?_
  · rw [hfree]
    nofun
  · intro q j hq
    rw [hstage] at hq
    by_cases hqp : q = p
    · rw [hqp, update_self] at hq
      cases hq
      exact .inr (hc.not_dirty_of_free hfree)
    · rw [update_of_ne hqp] at hq
      exact .inl hq

theorem drop (h : Sound init start s) (hI : Inv (s.drop p i)) (hdrop : s.stage p = .dropping i) :
    Sound init start (s.drop p i) := by
  have hstage : (s.drop p i).stage = update s.stage p .idle := setStage_stage _
  refine h.same hI (sameLog_drop i) rfl rfl (setStage_idle hstage (.inr (by rw [hdrop]; nofun))) fun c hc => ?_
  exact hc.touch rfl ⟨rfl, rfl, rfl⟩ (hc.sees.touch ⟨rfl, rfl, rfl, rfl⟩) (fun _ => .inl) (sameLog_drop i) rfl
    fun q j hq => .inl (filling_setStage hstage nofun q j hq)

theorem unlock (h : Sound init start s) (hI : Inv (s.unlock p i)) (hp : s.Client p) (hheld : (s.buf i).lock = some p)
    (hclean : (s.buf i).lock = some p → (s.buf i).dirty = false) : Sound init start (s.unlock p i) := by
  have hsame : s.SameLog (s.unlock p i) := sameLog_unlock i
  have hstage : (s.unlock p i).stage = update s.stage p (.dropping i) := setStage_stage _
  refine h.same hI hsame rfl rfl (setStage_idle hstage (.inl (not_busy_of_client hp))) fun c hc => ?_
  refine hc.touch rfl ⟨rfl, rfl, rfl⟩ (hc.sees.touch ⟨rfl, rfl, rfl, rfl⟩) (fun q hq => .inr ⟨hclean hheld, ?_⟩) hsame rfl
    fun q j hq => .inl (filling_setStage hstage nofun q j hq)
  cases hheld.symm.trans hq
  rw [h.inv.code_nil (not_busy_of_client hp)]
  nofun

/-- `bread` returns the array's block. -/
theorem fill (h : Sound init start s) (hI : Inv (s.fill p i)) (hfill : s.stage p = .filling i) :
    Sound init start (s.fill p i) := by
  have hstage : (s.fill p i).stage = update s.stage p .idle := setStage_stage _
  have hsame : s.SameLog (s.fill p i) := sameLog_fill i
  obtain ⟨c, hc, hwork⟩ := h.contents
  have hdev : (s.buf i).dev = ROOTDEV := by
    refine h.inv.counted.locks i ?_
    have := h.inv.counted.stages p
    rw [hfill] at this
    rw [show (s.buf i).lock = _ from this]
    nofun
  refine ⟨hI, h.begins, h.legal.cons ?_, c, hc.fill h.inv.counted hfill rfl hsame rfl (filling_setStage hstage nofun),
    fun q hq => ?_⟩
  · rintro q b data e hout
    cases e
    rw [hc.fill_data h.inv.counted hfill]
    refine hc.spec _ hout ?_
    rintro ⟨j, hj, hd⟩
    rw [h.inv.counted.eq_of_holds ⟨hdev, rfl⟩ hj] at hd
    cases (hc.filling p i hfill).symm.trans hd
  · rw [hsame.mode] at hq
    exact (hwork q hq).congr rfl rfl (congrFun hsame.code q) rfl
      (setStage_idle hstage (.inr (by rw [hfill]; nofun)) q hq)

omit [DecidableEq P] in
/-- A client's `bwrite` writes what the view has. -/
theorem write (h : Sound init start s) (hI : Inv (s.write i)) (hp : s.Client p) (hheld : (s.buf i).lock = some p) :
    Sound init start (s.write i) := by
  obtain ⟨c, hc, hwork⟩ := h.contents
  have hdev : (s.buf i).dev = ROOTDEV := h.inv.counted.locks i (by rw [hheld]; nofun)
  have hv : (s.buf i).valid = true := (h.inv.counted.filled i p hheld).resolve_left (by rw [show s.stage p = _ from hp.2]; nofun)
  have hdata := hc.sees.cached i hdev hv
  refine ⟨hI, h.begins, h.legal, c, hc.bwrite hdev hv, fun q hq => ?_⟩
  have hnodirty : ∀ k, ¬ Dirty s.buf k := by
    rintro k ⟨j, -, hd⟩
    obtain ⟨r, -, hop⟩ := hc.owner j hd
    exact h.inv.no_op_of_busy hq r hop
  by_cases hin : Log.InLog start LOGSIZE (s.buf i).blockno
  · -- a log block that a client holds is on the disk already
    have hsame : s.disk (s.buf i).blockno = (s.buf i).data := by
      rcases hc.clean (s.buf i).blockno with hpin | hd | ⟨j, r, hj, hr, hcode⟩ | e
      · exact absurd hin (hc.away _ hpin)
      · exact absurd hd (hnodirty _)
      · rw [h.inv.counted.eq_of_holds ⟨hdev, rfl⟩ hj, hheld] at hr
        cases hr
        rw [h.inv.code_nil (not_busy_of_client hp)] at hcode
        cases hcode
      · exact e.trans hdata
    refine (hwork q hq).congr rfl rfl rfl ?_ id
    show update s.disk (s.buf i).blockno (s.buf i).data = s.disk
    rw [← hsame, update_eq_self]
  · rw [System.write, ← hdata, hc.spec _ hin (hnodirty _)]
    exact (hwork q hq).write hin

omit [DecidableEq P] in
/-- A client changes a block. -/
theorem modify (h : Sound init start s) {data : Block} (hI : Inv (s.setBuf i ((s.buf i).modify data))) (hp : s.Client p)
    (hheld : (s.buf i).lock = some p) (hop : s.mode p = .inOp) (hout : ¬ Log.InLog start LOGSIZE (s.buf i).blockno) :
    Sound init start (s.setBuf i ((s.buf i).modify data)) := by
  obtain ⟨c, hc, -⟩ := h.contents
  exact ⟨hI, h.begins, h.legal, _, hc.modify h.inv.counted hheld hp.2 hop hout,
    fun q hq => absurd hop (h.inv.no_op_of_busy hq p)⟩

theorem logCheck (h : Sound init start s) (hI : Inv (s.setStage p (.logging i))) (hop : s.mode p = .inOp)
    (hout : ¬ Log.InLog start LOGSIZE (s.buf i).blockno) : Sound init start (s.setStage p (.logging i)) := by
  obtain ⟨c, hc, -⟩ := h.contents
  have hstage : (s.setStage p (.logging i)).stage = update s.stage p (.logging i) := setStage_stage _
  refine ⟨hI, h.begins, h.legal, c, ⟨hc.sees, ?_, hc.spec, ?_, hc.home, ?_, ?_, hc.away⟩, fun q hq => ?_⟩
  · rw [setStage_code]
    exact hc.clean
  · rw [setStage_mode]
    exact hc.owner
  · exact fun q j hq => hc.filling q j (filling_setStage hstage nofun q j hq)
  · rw [hstage]
    exact forall_update (C := fun _ (st : Stage) => ∀ j, st = .logging j → ¬ Log.InLog start LOGSIZE (s.buf j).blockno)
      (fun j e => by cases e; exact hout) fun q _ => hc.logging q
  · rw [setStage_mode] at hq
    exact absurd hop (h.inv.no_op_of_busy hq p)

/-- `log_write` stores the block in the array. -/
theorem logWrite (h : Sound init start s) (hI : Inv (s.logWrite p i)) (hlog : s.stage p = .logging i) :
    Sound init start (s.logWrite p i) := by
  obtain ⟨c, hc, -⟩ := h.contents
  have hop := h.inv.logging p i hlog
  have hrun := (h.inv.running_of_mode (p := p) (by rw [hop]; nofun) (by rw [hop]; nofun)).2
  have hpins := hrun.pinned (hrun.no_commit hop)
  have hmode : (s.logWrite p i).mode = s.mode := logWrite_mode i
  have hstage : ∀ q, (s.logWrite p i).stage q = s.stage q ∨ (s.logWrite p i).stage q = .idle := by
    rw [logWrite_stage]
    exact forall_update (C := fun q (st : Stage) => st = s.stage q ∨ st = .idle) (.inr rfl) fun q _ => .inl rfl
  have htrace : (s.logWrite p i).trace = .logWrite p (s.buf i).blockno (s.buf i).data :: s.trace := by
    unfold System.logWrite
    split <;> rfl
  have hmem : ∀ b, b ∈ (s.logWrite p i).pins ↔ b ∈ s.pins ∨ b = (s.buf i).blockno := by
    intro b
    unfold System.logWrite
    split
    next hin =>
      refine ⟨.inl, fun hb => hb.elim id ?_⟩
      rintro rfl
      rw [← hpins] at hin
      exact hin
    next =>
      show b ∈ s.pins ++ [(s.buf i).blockno] ↔ _
      rw [List.mem_append, List.mem_singleton]
  refine ⟨hI, ?_, ?_, c, ?_, fun q hq => ?_⟩
  · unfold System.logWrite
    split <;> exact h.begins
  · rw [htrace]
    exact h.legal.cons nofun
  · rw [htrace]
    by_cases hin : (s.buf i).blockno ∈ s.log.lh
    · refine hc.logWrite h.inv.counted hlog (x := (s.buf i).logged) ?_
        ⟨rfl, rfl, rfl, rfl, rfl, rfl⟩ hmem ?_ hmode (logWrite_code i) hstage
      · rw [System.logWrite, if_pos hin]
        rfl
      · rw [System.logWrite, if_pos hin]
        rfl
    · refine hc.logWrite h.inv.counted hlog (x := (s.buf i).logged.ref) ?_
        ⟨rfl, rfl, rfl, rfl, rfl, rfl⟩ hmem ?_ hmode (logWrite_code i) hstage
      · rw [System.logWrite, if_neg hin]
        rfl
      · rw [System.logWrite, if_neg hin]
        rfl
  · rw [hmode] at hq
    exact absurd hop (h.inv.no_op_of_busy hq p)

/-! ## The log's critical sections -/

omit [DecidableEq P] in
/-- No process starts to run the log's code, and a process that leaves its operation has no dirty
buffer. -/
theorem quiet (h : Sound init start s) (hI : Inv s') (hbuf : s'.buf = s.buf) (hdisk : s'.disk = s.disk)
    (hpins : s'.pins = s.pins) (hstage : s'.stage = s.stage) (hcode : s'.code = s.code) (htrace : s'.trace = s.trace)
    (hlog : s'.log.start = s.log.start ∧ s'.log.lh = s.log.lh)
    (hmode : ∀ q, ((s'.mode q).Busy → (s.mode q).Busy) ∧
      (s.mode q = .inOp → s'.mode q = .inOp ∨ ∀ i, (s.buf i).lock = some q → (s.buf i).dirty = false)) :
    Sound init start s' := by
  obtain ⟨c, hc, hwork⟩ := h.contents
  refine ⟨hI, hlog.1.trans h.begins, by rw [htrace]; exact h.legal, c, ?_⟩
  rw [htrace]
  refine ⟨hc.congr hbuf hdisk hpins hstage (fun q _ _ => congrFun hcode q) fun q => (hmode q).2, fun q hq => ?_⟩
  exact (hwork q ((hmode q).1 hq)).congr hlog.2 hpins (congrFun hcode q) hdisk
    fun e => (congrFun hstage q).trans e

omit [Fintype P] in
/-- A process that takes a mode outside the log's code adds no busy one. -/
theorem quiet_setMode {m : Mode} {C : P → Prop} (hm : ¬ m.Busy) (hp : s.mode p = .inOp → m = .inOp ∨ C p) (q : P) :
    (((s.setMode p m).mode q).Busy → (s.mode q).Busy) ∧ (s.mode q = .inOp → (s.setMode p m).mode q = .inOp ∨ C q) := by
  rw [setMode_mode]
  exact forall_update (C := fun q (m : Mode) => (m.Busy → (s.mode q).Busy) ∧ (s.mode q = .inOp → m = .inOp ∨ C q))
    ⟨fun e => absurd e hm, hp⟩ (fun q _ => ⟨id, .inl⟩) q

/-- One process takes another mode. -/
theorem setMode (h : Sound init start s) {m : Mode} (hI : Inv (s.setMode p m)) (hm : ¬ m.Busy)
    (hp : s.mode p ≠ .inOp) : Sound init start (s.setMode p m) := by
  exact h.quiet hI rfl rfl rfl (setMode_stage _) (setMode_code _) rfl ⟨rfl, rfl⟩
    (quiet_setMode hm fun e => absurd e hp)

theorem enter (h : Sound init start s)
    (hI : Inv ((s.setMode p .inOp).setLog { s.log with outstanding := s.log.outstanding + 1 })) :
    Sound init start ((s.setMode p .inOp).setLog { s.log with outstanding := s.log.outstanding + 1 }) := by
  exact h.quiet hI rfl rfl rfl (setMode_stage _) (setMode_code _) rfl ⟨rfl, rfl⟩
    (quiet_setMode (by decide) fun _ => .inl rfl)

/-- A process leaves the log, with no dirty buffer, and wakes those who wait for it. -/
theorem leave (h : Sound init start s) {l : LogState} (hI : Inv ((s.wakeup.setMode p .outside).setLog l))
    (hlog : l.start = s.log.start ∧ l.lh = s.log.lh) (hclean : ∀ i, (s.buf i).lock = some p → (s.buf i).dirty = false) :
    Sound init start ((s.wakeup.setMode p .outside).setLog l) := by
  have hstage : (s.wakeup.setMode p .outside).stage = s.stage := by
    rw [setMode_stage, wakeup_stage]
  have hcode : (s.wakeup.setMode p .outside).code = s.code := by
    rw [setMode_code, wakeup_code]
  refine h.quiet hI rfl rfl rfl hstage hcode rfl hlog ?_
  show ∀ q, (((s.wakeup.setMode p .outside).mode q).Busy → _) ∧ (_ → (s.wakeup.setMode p .outside).mode q = .inOp ∨ _)
  rw [setMode_mode]
  refine forall_update (C := fun q (m : Mode) => (m.Busy → (s.mode q).Busy) ∧
    (s.mode q = .inOp → m = .inOp ∨ ∀ i, (s.buf i).lock = some q → (s.buf i).dirty = false))
    ⟨fun e => absurd e (by decide), fun _ => .inr hclean⟩ fun q _ => ⟨?_, ?_⟩
  · exact Or.imp (s.wakeup_mode q).2.1.mp (s.wakeup_mode q).2.2.mp
  · exact fun e => .inl ((s.wakeup_mode q).1.mpr e)

/-- The last operation ends and its process commits. -/
theorem startCommit (h : Sound init start s) {l : LogState}
    (hI : Inv ((s.setThread p { mode := .committing, stage := .idle, code := [.commit] }).setLog l))
    (hp : s.mode p = .inOp) (hidle : s.stage p = .idle) (hlog : l.start = s.log.start ∧ l.lh = s.log.lh)
    (hclean : ∀ i, (s.buf i).lock = some p → (s.buf i).dirty = false) :
    Sound init start ((s.setThread p { mode := .committing, stage := .idle, code := [.commit] }).setLog l) := by
  obtain ⟨c, hc, -⟩ := h.contents
  have hrun := (h.inv.running_of_mode (p := p) (by rw [hp]; nofun) (by rw [hp]; nofun)).2
  have hnone : ∀ q, s.code q = [] := fun q => hrun.idle q (hrun.no_commit hp q)
  have hpins : s.pins = s.log.lh := hrun.pinned (hrun.no_commit hp)
  have hmode : ∀ q, q ≠ p → s.mode q ≠ .inOp := fun q hq hop => by
    have hbusy : (((s.setThread p { mode := .committing, stage := .idle, code := [.commit] }).setLog l).mode p).Busy := by
      show ((s.setThread p _).mode p).Busy
      rw [setThread_mode, update_self]
      exact .inl rfl
    refine hI.no_op_of_busy hbusy q ?_
    show (s.setThread p _).mode q = _
    rw [setThread_mode, update_of_ne hq]
    exact hop
  have hnodirty : ∀ k, ¬ Dirty s.buf k := by
    rintro k ⟨j, -, hd⟩
    obtain ⟨q, hq, hop⟩ := hc.owner j hd
    by_cases hqp : q = p
    · rw [hqp] at hq
      cases (hclean j hq).symm.trans hd
    · exact hmode q hqp hop
  have hstage : (s.setThread p { mode := .committing, stage := .idle, code := [.commit] }).stage = s.stage := by
    rw [setThread_stage, show Stage.idle = s.stage p from hidle.symm, update_eq_self]
  have hcode : (s.setThread p { mode := .committing, stage := .idle, code := [.commit] }).code p = [.commit] := by
    rw [setThread_code, update_self]
  refine ⟨hI, hlog.1.trans h.begins, h.legal, c, hc.congr rfl rfl rfl hstage (fun q k e => ?_) (fun q hq => ?_), fun q hq => ?_⟩
  · rw [hnone q] at e
    cases e
  · by_cases hqp : q = p
    · rw [hqp]
      exact .inr hclean
    · exact absurd hq (hmode q hqp)
  · have hqp : q = p := by
      by_contra hne
      change ((s.setThread p _).mode q).Busy at hq
      rw [setThread_mode, update_of_ne hne] at hq
      exact h.inv.no_op_of_busy hq p hp
    subst hqp
    by_cases hroom : l.lh.length < LOGSIZE
    · refine .inl ⟨⟨⟨l.lh, c, s.disk, []⟩, s.pins⟩, rfl, rfl, rfl, rfl, ?_⟩
      show Wp _ _ _ ((s.setThread q _).code q) _
      rw [hcode]
      refine commit_good rfl hroom (fun b hb => ?_) ⟨fun k hk => hc.spec k hk (hnodirty k), fun k => ?_, hc.away⟩
      · show b ∈ s.pins
        rw [hpins, ← hlog.2]
        exact hb
      · rcases hc.clean k with e | e | ⟨j, r, -, -, e⟩ | e
        · exact .inl e
        · exact absurd e (hnodirty k)
        · rw [hnone r] at e
          cases e
        · exact .inr (.inr e)
    · -- one block of the log for each buffer
      have hle := h.inv.counted.pins_le_nbuf
      rw [hpins, ← hlog.2] at hle
      refine .inr ⟨?_, hpins.trans hlog.2.symm, (congrFun hstage q).trans hidle, [], .inl hcode⟩
      show l.lh.length = NBUF
      exact Nat.le_antisymm hle (Nat.not_lt.mp hroom)

theorem endOp (h : Sound init start s) (hI : Inv s') (hp : s.mode p = .inOp) (hidle : s.stage p = .idle)
    (hclean : ∀ i, (s.buf i).lock = some p → (s.buf i).dirty = false) (hs : s.endOp p = .ok s') :
    Sound init start s' := by
  unfold System.endOp at hs
  split at hs
  next => cases hs
  next l hl =>
    cases hs
    obtain ⟨-, rfl⟩ := Log.LogState.endOp_last hl
    exact h.startCommit hI hp hidle ⟨rfl, rfl⟩ hclean
  next l hl =>
    cases hs
    obtain ⟨-, rfl⟩ := Log.LogState.endOp_other hl
    exact h.leave hI ⟨rfl, rfl⟩ hclean

omit [DecidableEq P] in
/-- No buffer is dirty while the log's code runs. -/
theorem clean_of_busy (h : Sound init start s) (hp : (s.mode p).Busy) (i : Fin NBUF) : (s.buf i).dirty = false := by
  obtain ⟨c, hc, -⟩ := h.contents
  by_contra hd
  obtain ⟨q, -, hop⟩ := hc.owner i (by simpa using hd)
  exact h.inv.no_op_of_busy hp q hop

theorem finishBoot (h : Sound init start s) (hI : Inv (s.setMode p .outside).setReady) (hp : s.mode p = .booting) :
    Sound init start (s.setMode p .outside).setReady := by
  exact h.quiet hI rfl rfl rfl (setMode_stage _) (setMode_code _) rfl ⟨rfl, rfl⟩
    (quiet_setMode (by decide) fun e => by cases hp.symm.trans e)

/-! ## The log's code -/

omit [DecidableEq P] [Fintype P] in
theorem good_of_wp {T : Disk} {code : List Instr} {v : View}
    (h : Wp (View.exec start) (Keeps start T) (fun v => Good start T none v.cache v.disk v.pins) code v) :
    Good start T (code.head?.bind pendingOf) v.cache v.disk v.pins := by
  cases code with
  | nil => exact h.post
  | cons i c => exact h.step.1.1

/-- One instruction, from a point at which the rest keeps the view. -/
theorem instr_wp (h : Sound init start s) (hP : Fintype.card P + 2 < 2 ^ 32) (hI : Inv s') (hidle : s.stage p = .idle)
    (hbusy : (s.mode p).Busy) {i : Instr} {rest : List Instr} {v : View} (hlh : v.lh = s.log.lh) (hpins : v.pins = s.pins)
    (hdisk : v.disk = s.disk) (hc : Contents start (latest init s.trace) v.cache s)
    (hwp : Wp (View.exec start) (Keeps start (latest init s.trace))
      (fun v => Good start (latest init s.trace) none v.cache v.disk v.pins)
      (i :: rest) v)
    (hs : (s.setCode p rest).exec p i = some (.ok s')) : Sound init start s' := by
  have hstart := h.begins
  subst hstart
  have hidle' : (s.setCode p rest).stage p = .idle := by
    rw [setCode_stage]
    exact hidle
  have hcounted := h.inv.counted.setCode (p := p) rest
  obtain ⟨hsees, hdisk'⟩ := exec_sees hcounted hidle' hlh hdisk hc.sees
    (fun j hfree hdev => hc.evict h.inv.counted hP hfree hdev) hs
  have he : System.Execs (s.setCode p rest) s' p i v := exec_execs_of_sees hcounted hidle' hlh hpins hc.sees hs
  have htrace : s'.trace = s.trace := exec_trace (s := s.setCode p rest) hs
  have hmode : s'.mode = s.mode := he.mode.trans (setCode_mode _)
  have hcode : s'.code p = (View.exec s.log.start i v).2 ++ rest := by
    rw [he.code, update_self, setCode_code, update_self]
    rfl
  have hpins' : s'.pins = (View.exec s.log.start i v).1.pins := he.pins
  obtain ⟨hkeeps, hnext⟩ := hwp.step
  have hgood := good_of_wp hnext
  have hclean : ∀ j, (s'.buf j).dirty = false := fun j => (exec_dirty hs j).trans (h.clean_of_busy hbusy j)
  refine ⟨hI, by rw [he.log]; rfl, by rw [htrace]; exact h.legal, _, ⟨hsees, fun k => ?_, ?_, fun j hj => ?_, fun j hj => ?_,
    fun _ j _ => hclean j, fun q j hq => ?_, ?_⟩, fun q hq => ?_⟩
  · rw [hpins', hdisk']
    rcases hkeeps.clean_next k with e | e | e
    · exact .inl e
    · -- the block just overwritten: the next instruction writes it
      rcases hgood.clean k with e' | e' | e'
      · exact .inl e'
      · obtain ⟨j, hj, hlock⟩ := exec_storesTo hs e
        refine .inr (.inr (.inl ⟨j, p, hj, hlock, ?_⟩))
        rw [hcode]
        obtain ⟨i', hi', hw⟩ := Option.bind_eq_some_iff.mp e'
        rw [hi']
        cases i' <;> cases hw
        rfl
      · exact .inr (.inr (.inr e'))
    · exact .inr (.inr (.inr e))
  · rw [htrace]
    exact fun k hk _ => hgood.home k hk
  · cases (hclean j).symm.trans hj
  · cases (hclean j).symm.trans hj
  · refine absurd (hI.logging q j hq) ?_
    rw [hmode]
    exact h.inv.no_op_of_busy hbusy q
  · rw [hpins']
    exact hgood.away
  · rw [hmode] at hq
    cases h.inv.busy_eq hbusy hq
    refine .inl ⟨_, by rw [he.log]; rfl, hpins'.symm, rfl, hdisk'.symm, ?_⟩
    rw [hcode, htrace]
    exact hnext

/-- A commit that finds a block in the log for each buffer gets no further than its first `bread`.
-/
theorem instr_stuck (h : Sound init start s) (hP : Fintype.card P + 2 < 2 ^ 32) (hI : Inv s') (hbusy : (s.mode p).Busy)
    (hstuck : Stuck start s p) {i : Instr} {rest : List Instr} (hcode : s.code p = i :: rest)
    (hs : (s.setCode p rest).exec p i = some (.ok s')) : Sound init start s' := by
  have hstart := h.begins
  subst hstart
  obtain ⟨c, hc, -⟩ := h.contents
  have hpos : 0 < s.log.lh.length := by
    rw [hstuck.full]
    decide
  have hpush : ∀ d, (∀ b, i ≠ .bwrite b) → (∃ rest, d = .writeLog 0 :: rest ∨ d = .bread (s.log.start + 1) :: rest) →
      s' = (s.setCode p rest).push p d → Sound init s.log.start s' := by
    rintro d hi ⟨rest', hd⟩ rfl
    have hcode' : ((s.setCode p rest).push p d).code = update s.code p (d ++ rest) := by
      show ((s.setCode p rest).setCode p (d ++ (s.setCode p rest).code p)).code = _
      rw [setCode_code, setCode_code, update_self, update_idem]
    have hstage : ((s.setCode p rest).push p d).stage = s.stage :=
      (setCode_stage _).trans (setCode_stage _)
    have hmode : ((s.setCode p rest).push p d).mode = s.mode :=
      (setCode_mode _).trans (setCode_mode _)
    refine ⟨hI, rfl, h.legal, c, hc.congr rfl rfl rfl hstage (fun q k e => ?_) (fun q => ?_), fun q hq => ?_⟩
    · have hqp : q ≠ p := by
        rintro rfl
        rw [hcode] at e
        exact hi k (Option.some.inj e)
      rw [hcode', update_of_ne hqp]
    · rw [hmode]
      exact .inl
    · rw [hmode] at hq
      cases h.inv.busy_eq hbusy hq
      refine .inr ⟨hstuck.full, hstuck.pins, (congrFun hstage p).trans hstuck.idle, rest' ++ rest, .inr ?_⟩
      rw [hcode', update_self]
      exact hd.imp (fun e => by rw [e]; rfl) fun e => by rw [e]; rfl
  obtain ⟨rest', e | e | e⟩ := hstuck.code <;> cases hcode.symm.trans e
  · exact hpush _ nofun ⟨_, .inl (if_pos hpos)⟩ (Except.ok.inj (Option.some.inj hs)).symm
  · exact hpush _ nofun ⟨_, .inr (if_pos hpos)⟩ (Except.ok.inj (Option.some.inj hs)).symm
  · exfalso
    have hpinned := h.inv.counted.all_pinned (by rw [hstuck.pins]; exact hstuck.full)
    obtain ⟨j, x, -, ⟨-, hj⟩ | ⟨-, hfree, -⟩⟩ := bget_ok (Option.some.inj hs)
    · have hin : s.log.start + 1 ∈ s.pins := by
        rw [← hj.2]
        exact (hpinned j).2
      exact hc.away _ hin (inLog_block (t := 0) (by decide))
    · exact (h.inv.counted.unreferenced hP hfree).2.2 (hpinned j)

theorem instr (h : Sound init start s) (hP : Fintype.card P + 2 < 2 ^ 32) (hI : Inv s') (hidle : s.stage p = .idle)
    {i : Instr} {rest : List Instr} (hcode : s.code p = i :: rest) (hs : (s.setCode p rest).exec p i = some (.ok s')) :
    Sound init start s' := by
  have hbusy : (s.mode p).Busy := by
    by_contra hn
    cases (h.inv.code_nil hn).symm.trans hcode
  obtain ⟨c, hc, hwork⟩ := h.contents
  rcases hwork p hbusy with ⟨v, hlh, hpins, rfl, hdisk, hwp⟩ | hstuck
  · rw [hcode] at hwp
    exact h.instr_wp hP hI hidle hbusy hlh hpins hdisk hc hwp hs
  · exact h.instr_stuck hP hI hbusy hstuck hcode hs

/-! ## Runs -/

/-- Every step of clients that keep their promise. -/
theorem step (h : Sound init start s) (hP : Fintype.card P + 2 < 2 ^ 32) {a : Act P} (ha : Promise s a ∧ OutsideLog s a)
    (hs : Bio.step s a = some (.ok s')) : Sound init start s' := by
  have hI := h.inv.step hP hs
  cases step_took hs with
  | beginOp hp | wait hp | kill hp => exact h.setMode hI (by decide) (by rw [hp]; decide)
  | enter => exact h.enter hI
  | endOp hp hidle hs => exact h.endOp hI hp hidle ha.1 hs
  | finishCommit hp => exact h.leave hI ⟨rfl, rfl⟩ fun i _ => h.clean_of_busy (.inl hp) i
  | finishBoot hp => exact h.finishBoot hI hp
  | bread hp hs => exact h.bread hI hP hp hs
  | acquiresleep hi hfree => exact h.acquiresleep hI hi hfree
  | fill hi => exact h.fill hI hi
  | modify hp hheld => exact h.modify hI hp hheld ha.1 (by rw [← h.begins]; exact ha.2)
  | bwrite hp hheld => exact h.write hI hp hheld
  | logCheck hop => exact h.logCheck hI hop (by rw [← h.begins]; exact ha.2)
  | logWrite hi => exact h.logWrite hI hi
  | brelse hp hheld => exact h.unlock hI hp hheld ha.1
  | drop hi => exact h.drop hI hi
  | instr hidle hcode hs => exact h.instr hP hI hidle hcode hs

/-- The machine as it is when the first process enters `fsinit`. -/
theorem boot (hn : Log.headN (init start) ≤ 0) (p : P) : Sound init start (boot p start LOGSIZE init) := by
  refine ⟨inv_boot hn, rfl, ?_, init, ⟨⟨nofun, fun _ _ => rfl⟩,
    fun _ => .inr (.inr (.inr rfl)), fun _ _ _ => rfl, nofun, nofun, fun _ _ _ => rfl, ?_, nofun⟩, fun q hq => ?_⟩
  · intro later _ _ _ _ e
    cases later <;> cases e
  · rw [boot_stage]
    nofun
  · have hqp : q = p := by
      by_contra hne
      change (((Bio.boot p start LOGSIZE init).thread q).mode).Busy at hq
      rw [boot_other hne] at hq
      exact absurd hq (by decide)
    subst hqp
    refine .inl ⟨⟨⟨[], init, init, []⟩, []⟩, rfl, rfl, rfl, rfl, ?_⟩
    show Wp _ _ _ ((Bio.boot q start LOGSIZE init).thread q).code _
    rw [boot_self]
    exact boot_good hn ⟨fun _ _ => rfl, fun _ => .inr (.inr rfl), nofun⟩

end

end Sound

variable [DecidableEq P]

/-- The cache and the log refine an array of blocks. From a boot with an empty log, in every run of
clients that log what they change and leave the log's blocks to the log, each `bread` of a block
outside the log returns what `log_write` was last given for it before, or what the disk had. The log
has `LOGSIZE` blocks: `log_write` tests for room before it locks, and two processes could overrun a
shorter one. -/
theorem array_refined (hP : Fintype.card P + 2 < 2 ^ 32) {p : P} {start : Nat} {init : Disk}
    (hn : Log.headN (init start) ≤ 0) {as : List (Act P)} {s : System P}
    (hclients : EachStep step (fun s a => Promise s a ∧ OutsideLog s a) (boot p start LOGSIZE init) as)
    (h : run step (boot p start LOGSIZE init) as = some (.ok s)) :
    ∀ later q b data earlier, s.trace = later ++ .bread q b data :: earlier → ¬ Log.InLog start LOGSIZE b →
      data = latest init earlier b :=
  (run_invariant (I := Sound init start) (fun _ _ _ hI ha hs => hI.step hP ha hs) (Sound.boot hn p) hclients h).legal

/-- An operation that changes block 50, which is given buffer 2, and ends. -/
def writeBlock (data : Block) : List (Act Unit) :=
  [.beginOp (), .tryBegin (), .bread () 50, .acquiresleep (), .fill (),
    .modify () ⟨2, by decide⟩ data, .logCheck () ⟨2, by decide⟩, .logWrite (),
    .brelse () ⟨2, by decide⟩, .drop (), .endOp ()]

/-- The commit of one block, undisturbed. -/
def commitOne : List (Act Unit) :=
  [.instr (), .instr ()] ++ breads ++ breads ++ [.instr (), .instr ()] ++ brelses ++ brelses ++ [.instr ()] ++
    breads ++ [.instr (), .instr ()] ++ brelses ++
    [.instr ()] ++ breads ++ breads ++ [.instr (), .instr (), .instr ()] ++ brelses ++ brelses ++ [.instr (), .instr ()] ++
    breads ++ [.instr (), .instr ()] ++ brelses ++ [.finish ()]

/-- After a commit, block 50 reads back as it was logged. -/
theorem array_refined_commit : ∃ s : System Unit,
    run step (boot () 2 LOGSIZE fun _ _ => 0) (fsinit ++ writeBlock (fun _ => 7) ++ commitOne ++
      [.bread () 50, .acquiresleep (), .fill ()]) = some (.ok s) ∧
    ∃ data earlier, s.trace = .bread () 50 data :: earlier ∧ data = latest (fun _ _ => 0) earlier 50 := by
  have h : run step (boot () 2 LOGSIZE fun _ _ => 0) (fsinit ++ writeBlock (fun _ => 7) ++ commitOne ++
      [.bread () 50, .acquiresleep (), .fill ()]) = some (.ok _) := rfl
  exact ⟨_, h, _, _, rfl, array_refined (by decide) (by decide) (by decide +kernel) h [] () 50 _ _ rfl
    fun hin => absurd hin.2 (by decide)⟩

/-- A `bread` of the log's header after the commit of block 50 finds that number in it. Nobody has
called `log_write` for the header, and it was empty at the boot. -/
theorem header_not_array : ∃ s : System Unit,
    EachStep step Promise (boot () 2 LOGSIZE fun _ _ => 0) (fsinit ++ writeBlock (fun _ => 7) ++ commitOne ++
      [.bread () 2, .acquiresleep (), .fill ()]) ∧
    run step (boot () 2 LOGSIZE fun _ _ => 0) (fsinit ++ writeBlock (fun _ => 7) ++ commitOne ++
      [.bread () 2, .acquiresleep (), .fill ()]) = some (.ok s) ∧
    ∃ data earlier, s.trace = .bread () 2 data :: earlier ∧ data ≠ latest (fun _ _ => 0) earlier 2 := by
  refine ⟨_, by decide +kernel, rfl, _, _, rfl, fun h => ?_⟩
  exact absurd (congrFun h 4) (by decide +kernel)

/-- Between transactions nothing is only in the cache: while no operation is in progress and none is
being committed, the disk itself has what `log_write` was last given for each block outside the log.
-/
theorem disk_is_array (hP : Fintype.card P + 2 < 2 ^ 32) {p : P} {start : Nat} {init : Disk} (hn : Log.headN (init start) ≤ 0)
    {as : List (Act P)} {s : System P} (hclients : EachStep step
      (fun s a => Promise s a ∧ OutsideLog s a) (boot p start LOGSIZE init) as)
    (h : run step (boot p start LOGSIZE init) as = some (.ok s)) (hready : s.ready = true) (hout : s.log.outstanding = 0)
    (hcommitting : s.log.committing = false) (b : Nat) (hb : ¬ Log.InLog start LOGSIZE b) (hlogged : b ∉ s.log.lh) :
    s.disk b = latest init s.trace b := by
  have hsound := run_invariant (I := Sound init start) (fun _ _ _ hI ha hs => hI.step hP ha hs) (Sound.boot hn p) hclients h
  obtain ⟨c, hc, -⟩ := hsound.contents
  have hrun : Running s.log s.mode s.code s.pins := by
    rcases hsound.inv.phase with ⟨q, hq⟩ | ⟨-, hrun⟩
    · cases hready.symm.trans hq.ready
    · exact hrun
  have hnone : ∀ q, s.mode q ≠ .committing := fun q hq => by cases hcommitting.symm.trans (hrun.flag q hq)
  have hclean : ¬ Dirty s.buf b := by
    rintro ⟨i, -, hdirty⟩
    obtain ⟨q, -, hq⟩ := hc.owner i hdirty
    have hpos : 0 < (univ.filter fun q => s.mode q = .inOp).card := card_pos.mpr ⟨q, by simpa using hq⟩
    have hcount := hrun.count
    omega
  rcases hc.clean b with hpin | hdirty | ⟨i, q, -, -, hcode⟩ | hdisk
  · exact absurd (hrun.pinned hnone ▸ hpin) hlogged
  · exact absurd hdirty hclean
  · rw [hrun.idle q (hnone q)] at hcode
    cases hcode
  · exact hdisk.trans (hc.spec b hb hclean)

/-- After its commit, block 50 is on the disk. -/
theorem disk_is_array_commit : ∃ s : System Unit,
    run step (boot () 2 LOGSIZE fun _ _ => 0) (fsinit ++ writeBlock (fun _ => 7) ++ commitOne) = some (.ok s) ∧
    s.disk 50 = latest (fun _ _ => 0) s.trace 50 := by
  have h : run step (boot () 2 LOGSIZE fun _ _ => 0) (fsinit ++ writeBlock (fun _ => 7) ++ commitOne) = some (.ok _) := rfl
  exact ⟨_, h, disk_is_array (by decide) (by decide) (by decide +kernel) h rfl rfl rfl 50
    (fun hin => absurd hin.2 (by decide)) (by decide +kernel)⟩

end Xv6.Bio
