import Xv6.Bio.Counted

/-!
# What each function changes

A step changes one buffer, the stage of one process, and little else. The lemmas here say so in the
terms of the invariants: the buffers, the stages, the modes, the code, the pins and the log, each
as a table of its own.
-/

namespace Xv6.Bio

open Function
open Log (Instr LogState)

variable {P : Type}

namespace System

def stage (s : System P) : P → Stage := fun p => (s.thread p).stage

def mode (s : System P) : P → Mode := fun p => (s.thread p).mode

def code (s : System P) : P → List Instr := fun p => (s.thread p).code

/-- The step leaves the log and its protocol alone. -/
structure SameLog (s s' : System P) : Prop where
  log : s'.log = s.log
  pins : s'.pins = s.pins
  mode : s'.mode = s.mode
  code : s'.code = s.code
  ready : s'.ready = s.ready
  logging : ∀ q i, s'.stage q = .logging i → s.stage q = .logging i

/-- `bwrite`, by the holder. -/
def write (s : System P) (i : Fin NBUF) : System P :=
  { s with disk := update s.disk (s.buf i).blockno (s.buf i).data }

/-- `releasesleep` in `brelse`, by the holder. -/
def unlock [DecidableEq P] (s : System P) (p : P) (i : Fin NBUF) : System P :=
  (s.setBuf i ((s.buf i).setLock none)).setStage p (.dropping i)

variable [DecidableEq P] {s s' : System P} {p : P}

@[simp] theorem setThread_stage (t : Thread) : (s.setThread p t).stage = update s.stage p t.stage :=
  update_apply_field Thread.stage s.thread p t

@[simp] theorem setThread_mode (t : Thread) : (s.setThread p t).mode = update s.mode p t.mode :=
  update_apply_field Thread.mode s.thread p t

@[simp] theorem setThread_code (t : Thread) : (s.setThread p t).code = update s.code p t.code :=
  update_apply_field Thread.code s.thread p t

@[simp] theorem setStage_stage (st : Stage) : (s.setStage p st).stage = update s.stage p st :=
  setThread_stage _

@[simp] theorem setStage_mode (st : Stage) : (s.setStage p st).mode = s.mode :=
  (setThread_mode _).trans (update_eq_self p s.mode)

@[simp] theorem setStage_code (st : Stage) : (s.setStage p st).code = s.code :=
  (setThread_code _).trans (update_eq_self p s.code)

@[simp] theorem setMode_stage (m : Mode) : (s.setMode p m).stage = s.stage :=
  (setThread_stage _).trans (update_eq_self p s.stage)

@[simp] theorem setMode_mode (m : Mode) : (s.setMode p m).mode = update s.mode p m :=
  setThread_mode _

@[simp] theorem setMode_code (m : Mode) : (s.setMode p m).code = s.code :=
  (setThread_code _).trans (update_eq_self p s.code)

@[simp] theorem setCode_stage (c : List Instr) : (s.setCode p c).stage = s.stage :=
  (setThread_stage _).trans (update_eq_self p s.stage)

@[simp] theorem setCode_mode (c : List Instr) : (s.setCode p c).mode = s.mode :=
  (setThread_mode _).trans (update_eq_self p s.mode)

@[simp] theorem setCode_code (c : List Instr) : (s.setCode p c).code = update s.code p c :=
  setThread_code _

theorem sameLog_setStage {st : Stage} (hst : ∀ i, st ≠ .logging i) : SameLog s (s.setStage p st) := by
  refine ⟨rfl, rfl, setStage_mode st, setStage_code st, rfl, ?_⟩
  rw [setStage_stage]
  exact forall_update (C := fun q (st : Stage) => ∀ i, st = .logging i → s.stage q = .logging i)
    (fun i e => absurd e (hst i)) fun q _ i => id

omit [DecidableEq P] in
theorem sameLog_setBuf (i : Fin NBUF) (x : Buf P) : SameLog s (s.setBuf i x) :=
  ⟨rfl, rfl, rfl, rfl, rfl, fun _ _ => id⟩

omit [DecidableEq P] in
theorem SameLog.trans {s'' : System P} (h : SameLog s s') (h' : SameLog s' s'') : SameLog s s'' :=
  ⟨h'.log.trans h.log, h'.pins.trans h.pins, h'.mode.trans h.mode, h'.code.trans h.code, h'.ready.trans h.ready,
    fun q i hq => h.logging q i (h'.logging q i hq)⟩

variable {b : Nat} {i : Fin NBUF}

omit [DecidableEq P] in
/-- The buffers that the loops of `bget` find. -/
theorem holds_of_lookup (h : s.lookup b = some i) : (s.buf i).Holds b := by
  simpa [Buf.Holds] using List.find?_some h

omit [DecidableEq P] in
theorem not_holds_of_lookup (h : s.lookup b = none) {j : Fin NBUF} (hj : j ∈ s.order) :
    ¬ (s.buf j).Holds b := by
  simpa [Buf.Holds] using List.find?_eq_none.mp h j hj

omit [DecidableEq P] in
theorem refcnt_of_victim (h : s.victim = some i) : (s.buf i).refcnt = 0 := by
  simpa using List.find?_some h

theorem holds_of_held (h : s.held p b = some i) : (s.buf i).Holds b ∧ (s.buf i).lock = some p := by
  simpa [Buf.Holds, and_assoc] using List.find?_some h

/-- `bget` refers to the block's buffer, or takes an unused one for it. -/
theorem bget_ok (h : s.bget p b = .ok s') :
    ∃ i x, s' = (s.setBuf i x).setStage p (.waiting i) ∧
      (x = (s.buf i).ref ∧ (s.buf i).Holds b ∨
        x = (s.buf i).recycle b ∧ (s.buf i).refcnt = 0 ∧ ∀ j ∈ s.order, ¬ (s.buf j).Holds b) := by
  unfold bget at h
  split at h
  next i hi => exact ⟨i, _, (Except.ok.inj h).symm, .inl ⟨rfl, holds_of_lookup hi⟩⟩
  next hnone =>
    split at h
    next i hi =>
      exact ⟨i, _, (Except.ok.inj h).symm, .inr ⟨rfl, refcnt_of_victim hi, fun j hj => not_holds_of_lookup hnone hj⟩⟩
    next => cases h

theorem bwrite_ok (h : s.bwrite p i = .ok s') : (s.buf i).lock = some p ∧ s' = s.write i := by
  unfold bwrite at h
  split at h
  next hi => exact ⟨hi, (Except.ok.inj h).symm⟩
  next => cases h

theorem brelse_ok (h : s.brelse p i = .ok s') : (s.buf i).lock = some p ∧ s' = s.unlock p i := by
  unfold brelse at h
  split at h
  next hi => exact ⟨hi, (Except.ok.inj h).symm⟩
  next => cases h

theorem logCheck_ok (h : s.logCheck p i = .ok s') : s' = s.setStage p (.logging i) := by
  unfold logCheck at h
  split at h
  next => cases h
  next => exact (Except.ok.inj h).symm

theorem logWrite_stage (i : Fin NBUF) : (s.logWrite p i).stage = update s.stage p .idle := by
  unfold logWrite
  split <;> exact setStage_stage _

theorem logWrite_mode (i : Fin NBUF) : (s.logWrite p i).mode = s.mode := by
  unfold logWrite
  split <;> exact setStage_mode _

theorem logWrite_code (i : Fin NBUF) : (s.logWrite p i).code = s.code := by
  unfold logWrite
  split <;> exact setStage_code _

/-! ## What one step does -/

/-- An instruction of the log's code that is not stuck and does not panic. -/
inductive Ran (s : System P) (p : P) : Instr → System P → Prop
  | bread {b : Nat} {s' : System P} (hs : s.bget p b = .ok s') : Ran s p (.bread b) s'
  | brelse {b : Nat} {i : Fin NBUF} (hi : s.held p b = some i) : Ran s p (.brelse b) (s.unlock p i)
  | bwrite {b : Nat} {i : Fin NBUF} (hi : s.held p b = some i) : Ran s p (.bwrite b) (s.write i)
  | bunpin {b : Nat} {i : Fin NBUF} (hi : s.held p b = some i) : Ran s p (.bunpin b) (s.bunpin i)
  | memmove {dst src : Nat} {i j : Fin NBUF} (hi : s.held p dst = some i) (hj : s.held p src = some j) :
    Ran s p (.memmove dst src) (s.setBuf i ((s.buf i).setData (s.buf j).data))
  | loadHead {b : Nat} {i : Fin NBUF} (hi : s.held p b = some i) : Ran s p (.loadHead b) (s.setHead (Log.headOf (s.buf i).data))
  | storeHead {b : Nat} {i : Fin NBUF} (hi : s.held p b = some i) :
    Ran s p (.storeHead b) (s.setBuf i ((s.buf i).setData (Log.putHead s.log.lh (s.buf i).data)))
  | zeroHead : Ran s p .zeroHead (s.setHead [])
  | writeLog {t : Nat} : Ran s p (.writeLog t) (s.push p (Log.writeLogFrom s.log.start s.log.lh t))
  | installTrans {t : Nat} : Ran s p (.installTrans t) (s.push p (Log.installTransFrom s.log.start s.log.lh t))
  | commit : Ran s p .commit (s.push p (Log.commitFrom s.log.start s.log.lh))

theorem exec_ran {i : Instr} (hs : s.exec p i = some (.ok s')) : Ran s p i s' := by
  cases i with
  | bread b => exact .bread (Option.some.inj hs)
  | brelse b =>
    obtain ⟨j, hj, h⟩ := Option.map_eq_some_iff.mp hs
    obtain ⟨-, rfl⟩ := brelse_ok h
    exact .brelse hj
  | bwrite b =>
    obtain ⟨j, hj, h⟩ := Option.map_eq_some_iff.mp hs
    obtain ⟨-, rfl⟩ := bwrite_ok h
    exact .bwrite hj
  | bunpin b =>
    obtain ⟨j, hj, h⟩ := Option.map_eq_some_iff.mp hs
    cases h
    exact .bunpin hj
  | memmove dst src =>
    simp only [exec] at hs
    split at hs
    next j k hj hk => cases hs; exact .memmove hj hk
    next => cases hs
  | loadHead b =>
    obtain ⟨j, hj, h⟩ := Option.map_eq_some_iff.mp hs
    cases h
    exact .loadHead hj
  | storeHead b =>
    obtain ⟨j, hj, h⟩ := Option.map_eq_some_iff.mp hs
    cases h
    exact .storeHead hj
  | zeroHead => cases hs; exact .zeroHead
  | writeLog t => cases hs; exact .writeLog
  | installTrans t => cases hs; exact .installTrans
  | commit => cases hs; exact .commit

/-- A step that does not panic. -/
inductive Took (s : System P) : Act P → System P → Prop
  | beginOp {p : P} (hp : s.mode p = .outside) (hc : s.Client p) : Took s (.beginOp p) (s.setMode p .beginning)
  | wait {p : P} (hp : s.mode p = .beginning) : Took s (.tryBegin p) (s.setMode p .asleep)
  | enter {p : P} (hp : s.mode p = .beginning) (hgo : ¬ s.log.mustWait) :
    Took s (.tryBegin p) ((s.setMode p .inOp).setLog { s.log with outstanding := s.log.outstanding + 1 })
  | kill {p : P} (hp : s.mode p = .asleep) : Took s (.kill p) (s.setMode p .beginning)
  | endOp {p : P} {s' : System P} (hp : s.mode p = .inOp) (hidle : s.stage p = .idle) (hs : s.endOp p = .ok s') :
    Took s (.endOp p) s'
  | finishCommit {p : P} (hp : s.mode p = .committing) (hidle : s.stage p = .idle) (hcode : s.code p = []) :
    Took s (.finish p) ((s.wakeup.setMode p .outside).setLog { s.log with committing := false })
  | finishBoot {p : P} (hp : s.mode p = .booting) (hidle : s.stage p = .idle) (hcode : s.code p = []) :
    Took s (.finish p) (s.setMode p .outside).setReady
  | bread {p : P} {b : Nat} {s' : System P} (hp : s.Client p) (hs : s.bget p b = .ok s') : Took s (.bread p b) s'
  | acquiresleep {p : P} {i : Fin NBUF} (hi : s.stage p = .waiting i) (hfree : (s.buf i).lock = none) :
    Took s (.acquiresleep p) (s.acquiresleep p i)
  | fill {p : P} {i : Fin NBUF} (hi : s.stage p = .filling i) : Took s (.fill p) (s.fill p i)
  | modify {p : P} {i : Fin NBUF} {data : Block} (hp : s.Client p) (hheld : (s.buf i).lock = some p) :
    Took s (.modify p i data) (s.setBuf i ((s.buf i).modify data))
  | bwrite {p : P} {i : Fin NBUF} (hp : s.Client p) (hheld : (s.buf i).lock = some p) : Took s (.bwrite p i) (s.write i)
  | logCheck {p : P} {i : Fin NBUF} (hop : s.mode p = .inOp) (hp : s.Client p) (hheld : (s.buf i).lock = some p) :
    Took s (.logCheck p i) (s.setStage p (.logging i))
  | logWrite {p : P} {i : Fin NBUF} (hi : s.stage p = .logging i) : Took s (.logWrite p) (s.logWrite p i)
  | brelse {p : P} {i : Fin NBUF} (hp : s.Client p) (hheld : (s.buf i).lock = some p) : Took s (.brelse p i) (s.unlock p i)
  | drop {p : P} {i : Fin NBUF} (hi : s.stage p = .dropping i) : Took s (.drop p) (s.drop p i)
  | instr {p : P} {i : Instr} {c : List Instr} {s' : System P} (hidle : s.stage p = .idle) (hcode : s.code p = i :: c)
    (hs : (s.setCode p c).exec p i = some (.ok s')) : Took s (.instr p) s'

theorem step_took {a : Act P} (hs : Bio.step s a = some (.ok s')) : Took s a s' := by
  cases a with
  | beginOp p =>
    simp only [Bio.step] at hs
    split_ifs at hs with hp
    cases hs
    exact .beginOp hp.1 hp.2
  | tryBegin p =>
    simp only [Bio.step] at hs
    split_ifs at hs with hp hgo <;> cases hs
    · exact .wait hp
    · exact .enter hp hgo
  | kill p =>
    simp only [Bio.step] at hs
    split_ifs at hs with hp
    cases hs
    exact .kill hp
  | endOp p =>
    simp only [Bio.step] at hs
    split_ifs at hs with hp
    exact .endOp hp.1 hp.2.2 (Option.some.inj hs)
  | finish p =>
    simp only [Bio.step] at hs
    split_ifs at hs with hp
    split at hs
    next hm => cases hs; exact .finishCommit hm hp.1 hp.2
    next hm => cases hs; exact .finishBoot hm hp.1 hp.2
    next => cases hs
  | bread p b =>
    simp only [Bio.step] at hs
    split_ifs at hs with hp
    exact .bread hp (Option.some.inj hs)
  | acquiresleep p =>
    simp only [Bio.step] at hs
    split at hs
    next i hi =>
      split_ifs at hs with hfree
      cases hs
      exact .acquiresleep hi hfree
    next => cases hs
  | fill p =>
    simp only [Bio.step] at hs
    split at hs
    next i hi => cases hs; exact .fill hi
    next => cases hs
  | modify p i data =>
    simp only [Bio.step] at hs
    split_ifs at hs with hp
    cases hs
    exact .modify hp.1 hp.2
  | bwrite p i =>
    simp only [Bio.step] at hs
    split_ifs at hs with hp
    obtain ⟨hheld, rfl⟩ := bwrite_ok (Option.some.inj hs)
    exact .bwrite hp hheld
  | logCheck p i =>
    simp only [Bio.step] at hs
    split_ifs at hs with hp
    rw [logCheck_ok (Option.some.inj hs)]
    exact .logCheck hp.1 hp.2.1 hp.2.2
  | logWrite p =>
    simp only [Bio.step] at hs
    split at hs
    next i hi => cases hs; exact .logWrite hi
    next => cases hs
  | brelse p i =>
    simp only [Bio.step] at hs
    split_ifs at hs with hp
    obtain ⟨hheld, rfl⟩ := brelse_ok (Option.some.inj hs)
    exact .brelse hp hheld
  | drop p =>
    simp only [Bio.step] at hs
    split at hs
    next i hi => cases hs; exact .drop hi
    next => cases hs
  | instr p =>
    simp only [Bio.step] at hs
    split at hs
    next i c hidle hcode => exact .instr hidle hcode hs
    next => cases hs

/-! ## The log is left alone -/

theorem mem_drop_order {j : Fin NBUF} (h : ∀ j, j ∈ s.order) : j ∈ (s.drop p i).order := by
  show j ∈ if (s.buf i).unref.refcnt = 0 then i :: s.order.erase i else s.order
  split
  next =>
    by_cases hj : j = i
    · rw [hj]
      exact List.mem_cons_self
    · exact List.mem_cons_of_mem _ ((List.mem_erase_of_ne hj).mpr (h j))
  next => exact h j

theorem sameLog_bget (h : s.bget p b = .ok s') : SameLog s s' := by
  obtain ⟨i, x, rfl, -⟩ := bget_ok h
  exact (sameLog_setBuf i x).trans (sameLog_setStage nofun)

theorem sameLog_acquiresleep (i : Fin NBUF) : SameLog s (s.acquiresleep p i) :=
  (sameLog_setBuf i _).trans (sameLog_setStage nofun)

theorem sameLog_fill (i : Fin NBUF) : SameLog s (s.fill p i) :=
  have h : SameLog s ((s.setBuf i ((s.buf i).fill s.disk)).setStage p .idle) :=
    (sameLog_setBuf i _).trans (sameLog_setStage nofun)
  ⟨h.log, h.pins, h.mode, h.code, h.ready, h.logging⟩

omit [DecidableEq P] in
theorem sameLog_write (i : Fin NBUF) : SameLog s (s.write i) := ⟨rfl, rfl, rfl, rfl, rfl, fun _ _ => id⟩

theorem sameLog_unlock (i : Fin NBUF) : SameLog s (s.unlock p i) :=
  (sameLog_setBuf i _).trans (sameLog_setStage nofun)

theorem sameLog_drop (i : Fin NBUF) : SameLog s (s.drop p i) :=
  have h : SameLog s ((s.setBuf i (s.buf i).unref).setStage p .idle) := (sameLog_setBuf i _).trans (sameLog_setStage nofun)
  ⟨h.log, h.pins, h.mode, h.code, h.ready, h.logging⟩

/-! ## The counts -/

variable [Fintype P]

def Counted (s : System P) : Prop := Bio.Counted s.buf s.order s.stage s.pins

namespace Counted

section

variable (h : s.Counted)
include h

theorem setCode (c : List Instr) : (s.setCode p c).Counted := by
  unfold System.Counted
  rw [setCode_stage]
  exact h

theorem bget (hP : Fintype.card P + 2 < 2 ^ 32) (hidle : s.stage p = .idle)
    (hs : s.bget p b = .ok s') : s'.Counted := by
  obtain ⟨i, x, rfl, ⟨rfl, hholds⟩ | ⟨rfl, hfree, hnone⟩⟩ := bget_ok hs
  · unfold System.Counted
    rw [setStage_stage]
    exact Bio.Counted.hit h hidle hholds.1
  · unfold System.Counted
    rw [setStage_stage]
    exact Bio.Counted.recycle h hP hidle hfree fun j => hnone j (h.listed j)

theorem acquiresleep (hwait : s.stage p = .waiting i) (hfree : (s.buf i).lock = none) :
    (s.acquiresleep p i).Counted := by
  unfold System.Counted System.acquiresleep
  rw [setStage_stage]
  exact Bio.Counted.acquire h hwait hfree

theorem fill (hfill : s.stage p = .filling i) : (s.fill p i).Counted := by
  have hx : ((s.buf i).fill s.disk).valid = true := by
    unfold Buf.fill
    split
    next hv => exact hv
    next => rfl
  have hsame : ((s.buf i).fill s.disk).dev = (s.buf i).dev ∧ ((s.buf i).fill s.disk).blockno = (s.buf i).blockno ∧
      ((s.buf i).fill s.disk).lock = (s.buf i).lock ∧ ((s.buf i).fill s.disk).refcnt = (s.buf i).refcnt := by
    unfold Buf.fill
    split <;> exact ⟨rfl, rfl, rfl, rfl⟩
  have hstage : (s.fill p i).stage = update s.stage p .idle := setStage_stage .idle
  unfold System.Counted
  rw [hstage]
  refine Bio.Counted.settle h ?_ trivial ?_ trivial hsame.1 hsame.2.1 (fun _ => hx) hsame.2.2.1 (fun _ => .inr hx)
    hsame.2.2.2
  · rw [hfill]
    rfl
  · rw [hfill]
    simp [Stage.Refers]

theorem unlock (hidle : s.stage p = .idle) (hheld : (s.buf i).lock = some p) :
    (s.unlock p i).Counted := by
  unfold System.Counted System.unlock
  rw [setStage_stage]
  exact Bio.Counted.release h hidle hheld

theorem drop (hdrop : s.stage p = .dropping i) : (s.drop p i).Counted := by
  show Bio.Counted _ (s.drop p i).order ((s.setBuf i (s.buf i).unref).setStage p .idle).stage _
  rw [setStage_stage]
  exact Bio.Counted.drop h hdrop fun j => mem_drop_order h.listed

/-- A held buffer's data changes. -/
theorem setData (hidle : s.stage p = .idle) {x : Buf P} (hheld : (s.buf i).lock = some p)
    (hx : x.dev = (s.buf i).dev ∧ x.blockno = (s.buf i).blockno ∧ x.valid = (s.buf i).valid ∧
      x.lock = (s.buf i).lock ∧ x.refcnt = (s.buf i).refcnt) :
    (s.setBuf i x).Counted := by
  obtain ⟨hdev, hblock, hvalid, hlock, hcnt⟩ := hx
  have hv : (s.buf i).valid = true := (h.filled i p hheld).resolve_left (by rw [hidle]; nofun)
  show Bio.Counted _ _ s.stage _
  have hself : s.stage = update s.stage p .idle := by rw [← hidle, update_eq_self]
  rw [hself]
  refine Bio.Counted.settle h ?_ trivial ?_ trivial hdev hblock (fun hv => hvalid.trans hv) hlock
    (fun _ => .inr (hvalid.trans hv)) hcnt
  · rw [hidle]
    trivial
  · rw [hidle]

/-- The process passes the tests of `log_write`. -/
theorem logCheck (hidle : s.stage p = .idle) (hheld : (s.buf i).lock = some p) :
    (s.setStage p (.logging i)).Counted := by
  have hv : (s.buf i).valid = true := (h.filled i p hheld).resolve_left (by rw [hidle]; nofun)
  unfold System.Counted
  rw [setStage_stage]
  show Bio.Counted s.buf _ _ _
  have hself : s.buf = update s.buf i (s.buf i) := (update_eq_self i s.buf).symm
  rw [hself]
  refine Bio.Counted.settle h ?_ rfl ?_ ?_ rfl rfl id rfl (fun _ => .inr hv) rfl
  · rw [hidle]
    trivial
  · rw [hidle]
    simp [Stage.Refers]
  · show (update s.buf i (s.buf i) i).lock = some p
    rw [update_self]
    exact hheld

/-- The critical section of `log_write`, when the pins are the logged blocks. -/
theorem logWrite (hpins : s.pins = s.log.lh) (hlog : s.stage p = .logging i) :
    (s.logWrite p i).Counted := by
  have hheld : (s.buf i).lock = some p := by
    have := h.stages p
    rwa [hlog] at this
  have hv : (s.buf i).valid = true := (h.filled i p hheld).resolve_left (by rw [hlog]; nofun)
  have hdev : (s.buf i).dev = ROOTDEV := h.locks i (by rw [hheld]; nofun)
  have hlogged : Bio.Counted (update s.buf i (s.buf i).logged) s.order (update s.stage p .idle) s.pins := by
    refine Bio.Counted.settle h ?_ trivial ?_ trivial rfl rfl id rfl (fun _ => .inr hv) rfl
    · rw [hlog]
      rfl
    · rw [hlog]
      simp [Stage.Refers]
  unfold System.Counted System.logWrite
  split
  next =>
    show Bio.Counted _ _ (System.setStage (System.setHead _ _) p .idle).stage _
    rw [setStage_stage]
    exact hlogged
  next hnew =>
    have hpinned := hlogged.bpin (i := i) (by rw [update_self]; exact hdev) (by rw [update_self]; exact hv)
      (by rw [update_self, hpins]; exact hnew)
    rw [update_self, update_idem] at hpinned
    show Bio.Counted _ _ (System.setStage (System.setHead _ _) p .idle).stage _
    rw [setStage_stage]
    exact hpinned

theorem bunpin (hidle : s.stage p = .idle) (hheld : s.held p b = some i) (hb : b ∈ s.pins) :
    (s.bunpin i).Counted := by
  obtain ⟨⟨hdev, rfl⟩, hlock⟩ := holds_of_held hheld
  have hv : (s.buf i).valid = true := (h.filled i p hlock).resolve_left (by rw [hidle]; nofun)
  exact Bio.Counted.bunpin h hdev hv hb

end

end Counted

end System

end Xv6.Bio
