import Xv6.Bio.Protocol
import Xv6.Bio.Steps

/-!
# Reference counts over whole runs

From a boot that finds no committed transaction, every count is exact in every state of every run:
`install_trans` then runs only in commits, where each block it unpins was pinned by `log_write`.

A boot that does find one runs `install_trans` on blocks that nothing has pinned. `bunpin` takes
the count of such a buffer below what refers to it, and when `brelse` gives the last reference
back the count is `2 ^ 32 - 1`.
-/

namespace Xv6.Bio

open Function Bio.System
open Log (Instr LogState)

variable {P : Type} [DecidableEq P]

namespace System

/-- What an instruction of the log's code does to the log, the pins and the code left to run. -/
structure Execs (s s' : System P) (p : P) (i : Instr) (v : View) : Prop where
  log : s'.log = { s.log with lh := (View.exec s.log.start i v).1.lh }
  pins : s'.pins = (View.exec s.log.start i v).1.pins
  mode : s'.mode = s.mode
  code : s'.code = update s.code p ((View.exec s.log.start i v).2 ++ s.code p)
  ready : s'.ready = s.ready
  logging : ∀ q j, s'.stage q = .logging j → s.stage q = .logging j

variable {s s' : System P} {p : P} {i : Instr} {v : View}

theorem SameLog.execs (h : SameLog s s') (hlh : (View.exec s.log.start i v).1.lh = s.log.lh)
    (hpins : (View.exec s.log.start i v).1.pins = s.pins) (hcode : (View.exec s.log.start i v).2 = []) :
    Execs s s' p i v := by
  refine ⟨by rw [hlh]; exact h.log, by rw [hpins]; exact h.pins, h.mode, ?_, h.ready, h.logging⟩
  rw [hcode, List.nil_append, update_eq_self]
  exact h.code

theorem execs_push {c : List Instr} (hlh : (View.exec s.log.start i v).1.lh = s.log.lh)
    (hpins : (View.exec s.log.start i v).1.pins = s.pins) (hcode : (View.exec s.log.start i v).2 = c) :
    Execs s (s.push p c) p i v := by
  refine ⟨by rw [hlh]; rfl, by rw [hpins]; rfl, setCode_mode _, ?_, rfl, fun q j => ?_⟩
  · rw [hcode]
    exact setCode_code _
  · rw [show (s.push p c).stage = s.stage from setCode_stage _]
    exact id

/-- An instruction that does not load the header treats the log as `View.exec` does. -/
theorem exec_execs (hlh : v.lh = s.log.lh) (hpins : v.pins = s.pins) (hi : ∀ b, i ≠ .loadHead b)
    (hs : s.exec p i = some (.ok s')) : Execs s s' p i v := by
  cases exec_ran hs with
  | bread hs => exact (sameLog_bget hs).execs hlh hpins rfl
  | brelse => exact (sameLog_unlock _).execs hlh hpins rfl
  | bwrite => exact (sameLog_write _).execs hlh hpins rfl
  | bunpin hj =>
    obtain ⟨⟨-, rfl⟩, -⟩ := holds_of_held hj
    refine ⟨by rw [show (View.exec _ _ v).1.lh = v.lh from rfl, hlh]; rfl, ?_, rfl, ?_, rfl, fun _ _ => id⟩
    · show s.pins.erase _ = v.pins.erase _
      rw [hpins]
    · exact (update_eq_self p s.code).symm
  | memmove => exact (sameLog_setBuf _ _).execs hlh hpins rfl
  | loadHead => exact absurd rfl (hi _)
  | storeHead => exact (sameLog_setBuf _ _).execs hlh hpins rfl
  | zeroHead => exact ⟨rfl, hpins.symm, rfl, (update_eq_self p s.code).symm, rfl, fun _ _ => id⟩
  | writeLog => exact execs_push hlh hpins (by rw [← hlh]; rfl)
  | installTrans => exact execs_push hlh hpins (by rw [← hlh]; rfl)
  | commit => exact execs_push hlh hpins (by rw [← hlh]; rfl)

theorem exec_logging (hs : s.exec p i = some (.ok s')) (q : P) (j : Fin NBUF) (hq : s'.stage q = .logging j) :
    s.stage q = .logging j := by
  by_cases hload : ∃ b, i = .loadHead b
  · obtain ⟨b, rfl⟩ := hload
    cases exec_ran hs
    exact hq
  · have he : Execs s s' p i ⟨⟨s.log.lh, s.disk, s.disk, []⟩, s.pins⟩ :=
      exec_execs rfl rfl (fun b e => hload ⟨b, e⟩) hs
    exact he.logging q j hq

variable [Fintype P]

/-- An instruction keeps the counts if it unpins nothing but a pinned block. -/
theorem Counted.exec (h : s.Counted) (hP : Fintype.card P + 2 < 2 ^ 32) (hidle : s.stage p = .idle)
    (hi : ∀ b, i = .bunpin b → b ∈ s.pins) (hs : s.exec p i = some (.ok s')) : s'.Counted := by
  cases exec_ran hs with
  | bread hs => exact h.bget hP hidle hs
  | brelse hj => exact h.unlock hidle (holds_of_held hj).2
  | bwrite => exact h
  | bunpin hj => exact h.bunpin hidle hj (hi _ rfl)
  | memmove hj => exact h.setData hidle (holds_of_held hj).2 ⟨rfl, rfl, rfl, rfl, rfl⟩
  | loadHead => exact h
  | storeHead hj => exact h.setData hidle (holds_of_held hj).2 ⟨rfl, rfl, rfl, rfl, rfl⟩
  | zeroHead => exact h
  | writeLog => exact h.setCode _
  | installTrans => exact h.setCode _
  | commit => exact h.setCode _

end System

/-! ## The boot -/

/-- The instructions of a recovery that has nothing to install. -/
def BootInstr (start : Nat) : Instr → Prop
  | .bread _ | .brelse _ | .bwrite _ | .installTrans _ | .zeroHead => True
  | .loadHead b | .storeHead b => b = start
  | _ => False

/-- The log's header, on the disk and in the cache, lists no block. -/
def HeadEmpty (buf : Fin NBUF → Buf P) (disk : Disk) (start : Nat) : Prop :=
  Log.headN (disk start) ≤ 0 ∧ ∀ i, (buf i).Holds start → (buf i).valid = true → Log.headN (buf i).data ≤ 0

omit [DecidableEq P] in
theorem HeadEmpty.set {buf : Fin NBUF → Buf P} {disk : Disk} {start : Nat} (h : HeadEmpty buf disk start)
    {i : Fin NBUF} {x : Buf P} (hx : x.Holds start → x.valid = true → Log.headN x.data ≤ 0) :
    HeadEmpty (update buf i x) disk start :=
  ⟨h.1, forall_update (C := fun _ (x : Buf P) => x.Holds start → x.valid = true → Log.headN x.data ≤ 0) hx
    fun j _ => h.2 j⟩

/-- The first process is in `fsinit` and the others have not started. -/
structure Booting (s : System P) (p : P) : Prop where
  ready : s.ready = false
  mode : s.mode p = .booting
  others : ∀ q, q ≠ p → s.thread q = { mode := .outside, stage := .idle, code := [] }
  code : ∀ i ∈ s.code p, BootInstr s.log.start i
  lh : s.log.lh = []
  outstanding : s.log.outstanding = 0
  committing : s.log.committing = false
  pins : s.pins = []
  head : HeadEmpty s.buf s.disk s.log.start

namespace Booting

variable {s s' : System P} {p : P}

omit [DecidableEq P] in
theorem same (h : Booting s p) (hs : s.SameLog s') (hothers : ∀ q, q ≠ p → s'.thread q = s.thread q)
    (hhead : HeadEmpty s'.buf s'.disk s.log.start) : Booting s' p := by
  refine ⟨hs.ready.trans h.ready, ?_, fun q hq => (hothers q hq).trans (h.others q hq), ?_, ?_, ?_, ?_,
    hs.pins.trans h.pins, ?_⟩
  · rw [hs.mode]
    exact h.mode
  · rw [hs.code, hs.log]
    exact h.code
  · rw [hs.log]
    exact h.lh
  · rw [hs.log]
    exact h.outstanding
  · rw [hs.log]
    exact h.committing
  · rw [hs.log]
    exact hhead

omit [DecidableEq P] in
/-- Only the first process is anywhere but at rest. -/
theorem eq_of_stage (h : Booting s p) {q : P} (hq : s.stage q ≠ .idle) : q = p := by
  by_contra hne
  refine hq ?_
  show (s.thread q).stage = _
  rw [h.others q hne]

omit [DecidableEq P] in
theorem eq_of_code (h : Booting s p) {q : P} (hq : s.code q ≠ []) : q = p := by
  by_contra hne
  refine hq ?_
  show (s.thread q).code = _
  rw [h.others q hne]

theorem not_client (h : Booting s p) (q : P) : ¬ s.Client q := by
  rintro ⟨⟨-, hready⟩ | hmode, -⟩
  · rw [h.ready] at hready
    cases hready
  · by_cases hq : q = p
    · rw [hq] at hmode
      cases h.mode.symm.trans hmode
    · rw [h.others q hq] at hmode
      cases hmode

theorem bget (h : Booting s p) {b : Nat} (hs : s.bget p b = .ok s') : Booting s' p := by
  refine h.same (sameLog_bget hs) ?_ ?_
  · obtain ⟨i, x, rfl, -⟩ := bget_ok hs
    exact fun q hq => update_of_ne hq _ _
  · obtain ⟨i, x, rfl, ⟨rfl, -⟩ | ⟨rfl, -⟩⟩ := bget_ok hs
    · exact h.head.set (h.head.2 i)
    · exact h.head.set nofun

theorem acquiresleep (h : Booting s p) (i : Fin NBUF) : Booting (s.acquiresleep p i) p :=
  h.same (sameLog_acquiresleep i) (fun _ hq => update_of_ne hq _ _) (h.head.set (h.head.2 i))

theorem fill (h : Booting s p) (i : Fin NBUF) : Booting (s.fill p i) p := by
  refine h.same (sameLog_fill i) (fun _ hq => update_of_ne hq _ _) (h.head.set ?_)
  unfold Buf.fill
  split
  next => exact h.head.2 i
  next =>
    rintro ⟨-, hb⟩ -
    show Log.headN (s.disk (s.buf i).blockno) ≤ 0
    rw [show (s.buf i).blockno = s.log.start from hb]
    exact h.head.1

theorem unlock (h : Booting s p) (i : Fin NBUF) : Booting (s.unlock p i) p :=
  h.same (sameLog_unlock i) (fun _ hq => update_of_ne hq _ _) (h.head.set (h.head.2 i))

theorem drop (h : Booting s p) (i : Fin NBUF) : Booting (s.drop p i) p :=
  h.same (sameLog_drop i) (fun _ hq => update_of_ne hq _ _) (h.head.set (h.head.2 i))

omit [DecidableEq P] in
/-- `bwrite` of a valid buffer. -/
theorem write (h : Booting s p) {i : Fin NBUF} (hdev : (s.buf i).dev = ROOTDEV) (hv : (s.buf i).valid = true) :
    Booting (s.write i) p := by
  refine h.same (sameLog_write i) (fun _ _ => rfl) ⟨?_, h.head.2⟩
  show Log.headN (update s.disk (s.buf i).blockno (s.buf i).data s.log.start) ≤ 0
  by_cases e : s.log.start = (s.buf i).blockno
  · rw [e, update_self]
    exact h.head.2 i ⟨hdev, e.symm⟩ hv
  · rw [update_of_ne e]
    exact h.head.1

variable [Fintype P]

/-- The first process runs one instruction of `recover_from_log`. -/
theorem exec (h : Booting s p) (hc : s.Counted) (hidle : s.stage p = .idle) {i : Instr} (hi : BootInstr s.log.start i)
    (hs : s.exec p i = some (.ok s')) : Booting s' p := by
  have hvalid : ∀ j, (s.buf j).lock = some p → (s.buf j).valid = true := fun j hj =>
    (hc.filled j p hj).resolve_left (by rw [hidle]; nofun)
  cases exec_ran hs with
  | bread hs => exact h.bget hs
  | brelse => exact h.unlock _
  | bwrite hj =>
    obtain ⟨hholds, hlock⟩ := holds_of_held hj
    exact h.write hholds.1 (hvalid _ hlock)
  | loadHead hj =>
    obtain ⟨hholds, hlock⟩ := holds_of_held hj
    cases hi
    exact { h with lh := Log.headOf_eq_nil (h.head.2 _ hholds (hvalid _ hlock)) }
  | storeHead =>
    refine h.same (sameLog_setBuf _ _) (fun _ _ => rfl) (h.head.set fun _ _ => ?_)
    show Log.headN (Log.putHead s.log.lh _) ≤ 0
    rw [h.lh, Log.headN_putHead_nil]
  | zeroHead => exact { h with lh := rfl }
  | installTrans =>
    -- the loop ends at once
    rw [h.lh]
    show Booting (s.setCode p (s.code p)) p
    have : s.setCode p (s.code p) = s := by
      show { s with thread := update s.thread p (s.thread p) } = s
      rw [update_eq_self]
    rw [this]
    exact h
  | _ => exact hi.elim

/-- `fsinit` returns. -/
theorem finish (h : Booting s p) (hcode : s.code p = []) :
    Running s.log (update s.mode p .outside) s.code s.pins := by
  have hout : ∀ q, update s.mode p .outside q = .outside :=
    forall_update (C := fun _ (m : Mode) => m = .outside) rfl fun q hq => by
      show (s.thread q).mode = _
      rw [h.others q hq]
  have hne : ∀ q m, m ≠ Mode.outside → update s.mode p .outside q ≠ m := fun q m hm e => hm (e.symm.trans (hout q))
  have hnoop : (Finset.univ.filter fun q => update s.mode p .outside q = .inOp) = ∅ :=
    Finset.filter_false_of_mem fun q _ => hne q .inOp nofun
  refine ⟨?_, ?_, fun q hq => absurd hq (hne q _ nofun), fun q _ hq => absurd hq (hne q _ nofun),
    fun q => hne q _ nofun, fun q _ => ?_, fun _ => h.pins.trans h.lh.symm, fun q hq => absurd hq (hne q _ nofun)⟩
  · rw [h.outstanding, hnoop]
    rfl
  · rw [h.committing]
    nofun
  · by_cases hq : q = p
    · rw [hq, hcode]
    · show (s.thread q).code = _
      rw [h.others q hq]

end Booting

/-! ## Recycling -/

/-- The buffer keeps its block. -/
def Kept (s s' : System P) (i : Fin NBUF) : Prop :=
  (s'.buf i).dev = (s.buf i).dev ∧ (s'.buf i).blockno = (s.buf i).blockno

omit [DecidableEq P] in
theorem kept_update {s s' : System P} {j : Fin NBUF} {x : Buf P} (hbuf : s'.buf = update s.buf j x)
    (hx : x.dev = (s.buf j).dev ∧ x.blockno = (s.buf j).blockno) (i : Fin NBUF) : Kept s s' i := by
  unfold Kept
  rw [hbuf]
  exact forall_update (C := fun i (y : Buf P) => y.dev = (s.buf i).dev ∧ y.blockno = (s.buf i).blockno) hx
    (fun _ _ => ⟨rfl, rfl⟩) i

theorem kept_bget {s s' : System P} {p : P} {b : Nat} (hs : s.bget p b = .ok s') (i : Fin NBUF) :
    Kept s s' i ∨ (s.buf i).refcnt = 0 := by
  obtain ⟨j, x, rfl, ⟨rfl, -⟩ | ⟨rfl, hfree, -⟩⟩ := bget_ok hs
  · exact .inl (kept_update rfl (by exact ⟨rfl, rfl⟩) i)
  · by_cases hij : i = j
    · rw [hij]
      exact .inr hfree
    · exact .inl (by unfold Kept; rw [show ((s.setBuf j _).setStage p _).buf i = s.buf i from update_of_ne hij ..]
                     exact ⟨rfl, rfl⟩)

theorem kept_exec {s s' : System P} {p : P} {c : Instr} (hs : s.exec p c = some (.ok s')) (i : Fin NBUF) :
    Kept s s' i ∨ (s.buf i).refcnt = 0 := by
  cases exec_ran hs with
  | bread hs => exact kept_bget hs i
  | brelse | bunpin | memmove | storeHead => exact .inl (kept_update rfl (by exact ⟨rfl, rfl⟩) i)
  | _ => exact .inl ⟨rfl, rfl⟩

/-- Only `bget` gives a buffer to another block, and it takes one with a count of 0. -/
theorem step_kept {s s' : System P} {a : Act P} (hs : step s a = some (.ok s')) (i : Fin NBUF) :
    Kept s s' i ∨ (s.buf i).refcnt = 0 := by
  cases step_took hs with
  | instr _ _ hs => exact kept_exec hs i
  | bread _ hs => exact kept_bget hs i
  | fill =>
    refine .inl (kept_update rfl ?_ i)
    unfold Buf.fill
    split <;> exact ⟨rfl, rfl⟩
  | acquiresleep | modify | brelse | drop => exact .inl (kept_update rfl (by exact ⟨rfl, rfl⟩) i)
  | logWrite =>
    unfold logWrite
    split <;> exact .inl (kept_update rfl (by exact ⟨rfl, rfl⟩) i)
  | endOp _ _ hs =>
    unfold endOp at hs
    split at hs <;> cases hs <;> exact .inl ⟨rfl, rfl⟩
  | _ => exact .inl ⟨rfl, rfl⟩

/-! ## Every state of a run -/

variable [Fintype P]

/-- What every state keeps: the counts, and either the boot or the protocol of the log. -/
structure Inv (s : System P) : Prop where
  counted : s.Counted
  logging : ∀ q i, s.stage q = .logging i → s.mode q = .inOp
  phase : (∃ p, Booting s p) ∨ s.ready = true ∧ Running s.log s.mode s.code s.pins

namespace System

variable {s s' : System P} {p : P}

omit [DecidableEq P] [Fintype P] in
theorem wakeup_stage : s.wakeup.stage = s.stage := by
  funext q
  show (s.thread q).wakeup.stage = _
  unfold Thread.wakeup
  split <;> rfl

omit [DecidableEq P] [Fintype P] in
theorem wakeup_code : s.wakeup.code = s.code := by
  funext q
  show (s.thread q).wakeup.code = _
  unfold Thread.wakeup
  split <;> rfl

omit [DecidableEq P] [Fintype P] in
theorem wakeup_mode (q : P) : Running.Same (s.wakeup.mode q) (s.mode q) := by
  show Running.Same (s.thread q).wakeup.mode (s.thread q).mode
  unfold Thread.wakeup
  split
  next hq => rw [hq]; simp [Running.Same]
  next => exact Running.Same.refl _

end System

namespace Inv

variable {s s' : System P} {p : P}

omit [DecidableEq P] in
/-- A step on the buffers. -/
theorem same (h : Inv s) (hs : s.SameLog s') (hcounted : s'.Counted) (hboot : ∀ p, Booting s p → Booting s' p) : Inv s' := by
  refine ⟨hcounted, fun q i hq => ?_, ?_⟩
  · rw [hs.mode]
    exact h.logging q i (hs.logging q i hq)
  · rcases h.phase with ⟨p, hp⟩ | ⟨hready, hrun⟩
    · exact .inl ⟨p, hboot p hp⟩
    · refine .inr ⟨hs.ready.trans hready, ?_⟩
      rw [hs.log, hs.mode, hs.code, hs.pins]
      exact hrun

/-- After the boot. -/
theorem running_of_mode (h : Inv s) (hp : s.mode p ≠ .outside) (hp' : s.mode p ≠ .booting) :
    s.ready = true ∧ Running s.log s.mode s.code s.pins := by
  rcases h.phase with ⟨q, hq⟩ | hrun
  · exfalso
    by_cases e : p = q
    · rw [e] at hp'
      exact hp' hq.mode
    · refine hp ?_
      show (s.thread p).mode = _
      rw [hq.others p e]
  · exact hrun

theorem running_of_client (h : Inv s) (hp : s.Client p) : s.ready = true ∧ Running s.log s.mode s.code s.pins :=
  h.phase.resolve_left fun ⟨_, hq⟩ => hq.not_client p hp

/-- A step within `begin_op`, or of its caller. -/
theorem setMode (h : Inv s) {m : Mode} (hrun : s.ready = true ∧ Running s.log s.mode s.code s.pins)
    (hm : Running.Same m (s.mode p)) : Inv (s.setMode p m) := by
  refine ⟨?_, ?_, .inr ⟨hrun.1, ?_⟩⟩
  · unfold System.Counted
    rw [setMode_stage]
    exact h.counted
  · rw [setMode_stage, setMode_mode]
    exact forall_update (C := fun q (m : Mode) => ∀ i, s.stage q = .logging i → m = .inOp)
      (fun i hq => hm.1.mpr (h.logging p i hq)) fun q _ i => h.logging q i
  · rw [setMode_mode, setMode_code]
    exact hrun.2.congr (forall_update (C := fun q (m : Mode) => Running.Same m (s.mode q)) hm fun q _ => .refl _)

omit [DecidableEq P] in
/-- A step of the log's own critical sections: no buffer and no stage changes. -/
theorem ofRunning (h : Inv s) (hbuf : s'.buf = s.buf) (horder : s'.order = s.order) (hstage : s'.stage = s.stage)
    (hpins : s'.pins = s.pins) (hlogging : ∀ q i, s.stage q = .logging i → s'.mode q = .inOp)
    (hrun : s'.ready = true ∧ Running s'.log s'.mode s'.code s'.pins) : Inv s' := by
  refine ⟨?_, ?_, .inr hrun⟩
  · unfold System.Counted
    rw [hbuf, horder, hstage, hpins]
    exact h.counted
  · rw [hstage]
    exact hlogging

/-- A process at rest is not in the middle of `log_write`. -/
theorem logging_update (h : Inv s) (hidle : s.stage p = .idle) {mode : P → Mode}
    (hmode : ∀ q, s.mode q = .inOp → mode q = .inOp) (m : Mode) :
    ∀ q i, s.stage q = .logging i → update mode p m q = .inOp :=
  forall_update (C := fun q (m : Mode) => ∀ i, s.stage q = .logging i → m = .inOp)
    (fun i hi => by cases hidle.symm.trans hi) fun q _ i hi => hmode q (h.logging q i hi)

theorem enter (h : Inv s) (hp : s.mode p = .beginning) (hgo : ¬ s.log.mustWait) :
    Inv ((s.setMode p .inOp).setLog { s.log with outstanding := s.log.outstanding + 1 }) := by
  obtain ⟨hready, hrun⟩ := h.running_of_mode (p := p) (by rw [hp]; nofun) (by rw [hp]; nofun)
  refine h.ofRunning rfl rfl (setMode_stage _) rfl ?_ ⟨hready, ?_⟩
  · show ∀ q i, s.stage q = .logging i → (s.setMode p .inOp).mode q = .inOp
    rw [setMode_mode]
    exact forall_update (C := fun q (m : Mode) => ∀ i, s.stage q = .logging i → m = .inOp) (fun _ _ => rfl)
      fun q _ i => h.logging q i
  · show Running _ (s.setMode p .inOp).mode (s.setMode p .inOp).code s.pins
    rw [setMode_mode, setMode_code]
    exact hrun.enter hp hgo

/-- A process leaves, and the others have been woken. -/
theorem leave {l : Log.LogState} (h : Inv s) (hidle : s.stage p = .idle) (hready : s.ready = true)
    (hrun : Running l (update s.wakeup.mode p .outside) s.code s.pins) : Inv ((s.wakeup.setMode p .outside).setLog l) := by
  refine h.ofRunning rfl rfl ?_ rfl ?_ ⟨hready, ?_⟩
  · show (s.wakeup.setMode p .outside).stage = s.stage
    rw [setMode_stage, wakeup_stage]
  · show ∀ q i, s.stage q = .logging i → (s.wakeup.setMode p .outside).mode q = .inOp
    rw [setMode_mode]
    exact h.logging_update hidle (fun q hq => (s.wakeup_mode q).1.mpr hq) .outside
  · show Running _ (s.wakeup.setMode p .outside).mode (s.wakeup.setMode p .outside).code s.pins
    rwa [setMode_mode, setMode_code, wakeup_code]

theorem endOp (h : Inv s) (hp : s.mode p = .inOp) (hidle : s.stage p = .idle) (hs : s.endOp p = .ok s') : Inv s' := by
  obtain ⟨hready, hrun⟩ := h.running_of_mode (p := p) (by rw [hp]; nofun) (by rw [hp]; nofun)
  unfold System.endOp at hs
  split at hs
  next => cases hs
  next l hl =>
    cases hs
    obtain ⟨hlast, rfl⟩ := Log.LogState.endOp_last hl
    refine h.ofRunning rfl rfl ?_ rfl ?_ ⟨hready, ?_⟩
    · show (s.setThread p _).stage = s.stage
      rw [setThread_stage, show Stage.idle = s.stage p from hidle.symm, update_eq_self]
    · show ∀ q i, s.stage q = .logging i → (s.setThread p _).mode q = .inOp
      rw [setThread_mode]
      exact h.logging_update hidle (fun _ => id) .committing
    · show Running _ (s.setThread p _).mode (s.setThread p _).code s.pins
      rw [setThread_mode, setThread_code]
      exact hrun.endLast hp hlast
  next l hl =>
    cases hs
    obtain ⟨-, rfl⟩ := Log.LogState.endOp_other hl
    exact h.leave hidle hready ((hrun.congr s.wakeup_mode).endOther ((s.wakeup_mode p).1.mpr hp))

/-- The commit is over. -/
theorem finishCommit (h : Inv s) (hp : s.mode p = .committing) (hidle : s.stage p = .idle) (hcode : s.code p = []) :
    Inv ((s.wakeup.setMode p .outside).setLog { s.log with committing := false }) := by
  obtain ⟨hready, hrun⟩ := h.running_of_mode (p := p) (by rw [hp]; nofun) (by rw [hp]; nofun)
  exact h.leave hidle hready ((hrun.congr s.wakeup_mode).finish ((s.wakeup_mode p).2.1.mpr hp) hcode)

/-- The boot is over. -/
theorem finishBoot (h : Inv s) (hp : s.mode p = .booting) (hidle : s.stage p = .idle) (hcode : s.code p = []) :
    Inv (s.setMode p .outside).setReady := by
  rcases h.phase with ⟨q, hq⟩ | ⟨-, hrun⟩
  · have hpq : p = q := by
      by_contra hne
      have : s.mode p = .outside := by
        show (s.thread p).mode = _
        rw [hq.others p hne]
      cases this.symm.trans hp
    subst hpq
    refine h.ofRunning rfl rfl (setMode_stage _) rfl ?_ ⟨rfl, ?_⟩
    · show ∀ q i, s.stage q = .logging i → (s.setMode p .outside).mode q = .inOp
      rw [setMode_mode]
      exact h.logging_update hidle (fun _ => id) .outside
    · show Running _ (s.setMode p .outside).mode (s.setMode p .outside).code s.pins
      rw [setMode_mode, setMode_code]
      exact hq.finish hcode
  · exact absurd hp (hrun.booted p)

/-- The critical section of `log_write`. -/
theorem logWrite (h : Inv s) {i : Fin NBUF} (hlog : s.stage p = .logging i) : Inv (s.logWrite p i) := by
  have hop := h.logging p i hlog
  obtain ⟨hready, hrun⟩ := h.running_of_mode (p := p) (by rw [hop]; nofun) (by rw [hop]; nofun)
  have hpins := hrun.pinned (hrun.no_commit hop)
  have hpins' : (s.logWrite p i).pins = LogState.absorb s.log.lh (s.buf i).blockno := by
    unfold System.logWrite LogState.absorb
    split
    next => exact hpins
    next => exact congrArg (· ++ _) hpins
  have hlog' : (s.logWrite p i).log = { s.log with lh := LogState.absorb s.log.lh (s.buf i).blockno } := by
    unfold System.logWrite
    split <;> rfl
  have hready' : (s.logWrite p i).ready = true := by
    unfold System.logWrite
    split <;> exact hready
  refine ⟨h.counted.logWrite hpins hlog, ?_, .inr ⟨hready', ?_⟩⟩
  · rw [logWrite_stage, logWrite_mode]
    exact forall_update (C := fun q (st : Stage) => ∀ i, st = .logging i → s.mode q = .inOp) nofun fun q _ => h.logging q
  · rw [hlog', logWrite_mode, logWrite_code, hpins']
    exact hrun.logWrite hop

/-- One instruction of the log's code. -/
theorem instr (h : Inv s) (hP : Fintype.card P + 2 < 2 ^ 32) (hidle : s.stage p = .idle) {i : Instr} {c : List Instr}
    (hcode : s.code p = i :: c) (hs : (s.setCode p c).exec p i = some (.ok s')) : Inv s' := by
  have hidle' : (s.setCode p c).stage p = .idle := by rw [setCode_stage]; exact hidle
  have hcode' : (s.setCode p c).code p = c := by rw [setCode_code, update_self]
  rcases h.phase with ⟨q, hq⟩ | ⟨hready, hrun⟩
  · cases hq.eq_of_code (q := p) (by rw [hcode]; nofun)
    have hi : BootInstr s.log.start i := hq.code i (by rw [hcode]; exact List.mem_cons_self)
    have hboot : Booting (s.setCode p c) p := by
      refine ⟨hq.ready, ?_, fun q hne => ?_, ?_, hq.lh, hq.outstanding, hq.committing, hq.pins, hq.head⟩
      · rw [setCode_mode]
        exact hq.mode
      · exact (update_of_ne hne _ _).trans (hq.others q hne)
      · rw [hcode']
        exact fun j hj => hq.code j (by rw [hcode]; exact List.mem_cons_of_mem _ hj)
    have hboot' := hboot.exec (h.counted.setCode c) hidle' hi hs
    refine ⟨(h.counted.setCode c).exec hP hidle' (fun b e => by subst e; exact hi.elim) hs, fun r j hr => ?_, .inl ⟨p, hboot'⟩⟩
    -- only the first process runs, and it is not in an operation
    have hr' := exec_logging hs r j hr
    rw [setCode_stage] at hr'
    cases hq.eq_of_stage (q := r) (by rw [hr']; nofun)
    cases (h.logging p j hr').symm.trans hq.mode
  · have hp : s.mode p = .committing := by
      by_contra hne
      cases (hrun.idle p hne).symm.trans hcode
    obtain ⟨v, hlh, hpins, hG, hrun'⟩ := hrun.exec hp hcode
    have hload : ∀ b, i ≠ .loadHead b := by
      rintro b rfl
      exact hG
    have hunpin : ∀ b, i = .bunpin b → b ∈ (s.setCode p c).pins := by
      rintro b rfl
      show b ∈ s.pins
      rw [← hpins]
      exact hG
    have he : System.Execs (s.setCode p c) s' p i v := exec_execs hlh hpins hload hs
    refine ⟨(h.counted.setCode c).exec hP hidle' hunpin hs, fun r j hr => ?_, .inr ⟨he.ready.trans hready, ?_⟩⟩
    · rw [he.mode, setCode_mode]
      exact h.logging r j (by rw [← s.setCode_stage]; exact he.logging r j hr)
    · rw [he.log, he.mode, he.code, he.pins, hcode', setCode_mode, setCode_code, update_idem]
      exact hrun'

omit [DecidableEq P] in
/-- A step on a buffer that a process is about to use: in the boot it is the first process. -/
theorem ofStage (h : Inv s) {st : Stage} (hst : s.stage p = st) (hne : st ≠ .idle) (hs : s.SameLog s') (hcounted : s'.Counted)
    (hboot : Booting s p → Booting s' p) : Inv s' := by
  refine h.same hs hcounted fun q hq => ?_
  cases hq.eq_of_stage (q := p) (by rw [hst]; exact hne)
  exact hboot hq

/-- Every step keeps the invariant. -/
theorem step (h : Inv s) (hP : Fintype.card P + 2 < 2 ^ 32) {a : Act P} (hs : Bio.step s a = some (.ok s')) : Inv s' := by
  cases step_took hs with
  | beginOp hp hc =>
    refine h.setMode (h.running_of_client hc) ?_
    rw [hp]
    simp [Running.Same]
  | wait hp | kill hp =>
    refine h.setMode (h.running_of_mode (by rw [hp]; nofun) (by rw [hp]; nofun)) ?_
    rw [hp]
    simp [Running.Same]
  | enter hp hgo => exact h.enter hp hgo
  | endOp hp hidle hs => exact h.endOp hp hidle hs
  | finishCommit hp hidle hcode => exact h.finishCommit hp hidle hcode
  | finishBoot hp hidle hcode => exact h.finishBoot hp hidle hcode
  | bread hp hs => exact h.same (sameLog_bget hs) (h.counted.bget hP hp.2 hs) fun q hq => absurd hp (hq.not_client _)
  | acquiresleep hi hfree =>
    exact h.ofStage hi nofun (sameLog_acquiresleep _) (h.counted.acquiresleep hi hfree) fun hb => hb.acquiresleep _
  | fill hi => exact h.ofStage hi nofun (sameLog_fill _) (h.counted.fill hi) fun hb => hb.fill _
  | modify hp hheld =>
    exact h.same (sameLog_setBuf _ _) (h.counted.setData hp.2 hheld ⟨rfl, rfl, rfl, rfl, rfl⟩)
      fun q hq => absurd hp (hq.not_client _)
  | bwrite hp => exact h.same (sameLog_write _) h.counted fun q hq => absurd hp (hq.not_client _)
  | logCheck hop hp hheld =>
    refine ⟨h.counted.logCheck hp.2 hheld, ?_, .inr ?_⟩
    · rw [setStage_stage, setStage_mode]
      exact forall_update (C := fun q (st : Stage) => ∀ i, st = .logging i → s.mode q = .inOp) (fun _ _ => hop)
        fun q _ => h.logging q
    · rw [setStage_mode, setStage_code]
      exact h.running_of_client hp
  | logWrite hi => exact h.logWrite hi
  | brelse hp hheld =>
    exact h.same (sameLog_unlock _) (h.counted.unlock hp.2 hheld) fun q hq => absurd hp (hq.not_client _)
  | drop hi => exact h.ofStage hi nofun (sameLog_drop _) (h.counted.drop hi) fun hb => hb.drop _
  | instr hidle hcode hs => exact h.instr hP hidle hcode hs

end Inv

section

variable {p : P} {start : Nat} {size : Int} {disk : Disk}

omit [Fintype P] in
theorem boot_self : (boot p start size disk).thread p = { mode := .booting, stage := .idle, code := bootCode start } := by
  simp [boot]

omit [Fintype P] in
theorem boot_other {q : P} (hq : q ≠ p) :
    (boot p start size disk).thread q = { mode := .outside, stage := .idle, code := [] } := by
  simp [boot, hq]

omit [Fintype P] in
theorem boot_stage : (boot p start size disk).stage = fun _ => .idle := by
  funext q
  show ((boot p start size disk).thread q).stage = _
  by_cases hq : q = p
  · rw [hq, boot_self]
  · rw [boot_other hq]

/-- The machine as it is when the first process enters `fsinit`. -/
theorem inv_boot (hn : Log.headN (disk start) ≤ 0) : Inv (boot p start size disk) := by
  have hcode : ∀ i ∈ bootCode start, BootInstr start i := by
    simp [bootCode, Log.recoverFromLog, Log.readHead, Log.writeHead, BootInstr]
  refine ⟨?_, ?_, .inl ⟨p, rfl, ?_, fun _ => boot_other, ?_, rfl, rfl, rfl, rfl, hn, nofun⟩⟩
  · unfold System.Counted
    rw [boot_stage]
    refine ⟨?_, nofun, fun i hi => absurd rfl hi, fun _ => trivial, nofun, List.nodup_nil, nofun, fun i => ?_⟩
    · exact fun i => List.mem_reverse.mpr (List.mem_finRange i)
    · have hrefs : refs (boot p start size disk).buf (fun _ : P => Stage.idle) i = 0 := by
        unfold refs
        rw [Finset.filter_false_of_mem fun q _ => not_refers_idle i]
        rfl
      have hpin : pin (boot p start size disk).buf (boot p start size disk).pins i = 0 := if_neg fun h => List.not_mem_nil h.2
      rw [hrefs, hpin]
      rfl
  · rw [boot_stage]
    nofun
  · show ((boot p start size disk).thread p).mode = _
    rw [boot_self]
  · show ∀ i ∈ ((boot p start size disk).thread p).code, _
    rw [boot_self]
    exact hcode

end

theorem run_inv (hP : Fintype.card P + 2 < 2 ^ 32) {p : P} {start : Nat} {size : Int} {disk : Disk} (hn : Log.headN (disk start) ≤ 0)
    {as : List (Act P)} {s : System P} (h : run step (boot p start size disk) as = some (.ok s)) : Inv s :=
  run_invariant (I := Inv) (C := fun _ _ => True) (fun _ _ _ hI _ hs => hI.step hP hs) (inv_boot hn)
    (eachStep_true as _) h

/-- From a boot whose on-disk header lists no block, with fewer processes than words: in every state
each buffer's count is the number of its references and one more if its block is pinned, and a step
that gives a buffer to another block takes one that is neither referred to nor pinned. -/
theorem refcnt_exact (hP : Fintype.card P + 2 < 2 ^ 32) {p : P} {start : Nat} {size : Int} {disk : Disk}
    (hn : Log.headN (disk start) ≤ 0) {as : List (Act P)} {s : System P}
    (h : run step (boot p start size disk) as = some (.ok s)) :
    (∀ i, (s.buf i).refcnt.toNat = refs s.buf s.stage i + if (s.buf i).Pinned s.pins then 1 else 0) ∧
    ∀ a s', step s a = some (.ok s') → ∀ i, ¬ Kept s s' i → refs s.buf s.stage i = 0 ∧ ¬ (s.buf i).Pinned s.pins := by
  have hI := run_inv hP hn h
  refine ⟨hI.counted.toNat_refcnt hP, fun a s' hs i hi => ?_⟩
  have hzero := hI.counted.toNat_refcnt hP i
  rw [(step_kept hs i).resolve_left hi, show (0 : BitVec 32).toNat = 0 from rfl] at hzero
  refine ⟨by omega, fun hpin => ?_⟩
  rw [pin, if_pos hpin] at hzero
  omega

/-- The steps of a process that runs the log's code undisturbed, through `bread` or `brelse`. -/
def breads : List (Act Unit) := [.instr (), .acquiresleep (), .fill ()]

@[inherit_doc breads]
def brelses : List (Act Unit) := [.instr (), .drop ()]

/-- `fsinit` on an empty log, undisturbed: `readsb`, `read_head`, no turn of `install_trans`,
`write_head`. -/
def fsinit : List (Act Unit) :=
  breads ++ brelses ++ breads ++ [.instr ()] ++ brelses ++ [.instr (), .instr ()] ++ breads ++ [.instr (), .instr ()] ++
    brelses ++ [.finish ()]

/-- An operation logs block 50, whose buffer it still holds: it is referred to and pinned. -/
theorem refcnt_exact_logged : ∃ (s : System Unit) (i : Fin NBUF),
    run step (boot () 2 LOGSIZE fun _ _ => 0) (fsinit ++ [.beginOp (), .tryBegin (), .bread () 50,
      .acquiresleep (), .fill (), .logCheck () i,
      .logWrite ()]) = some (.ok s) ∧ (s.buf i).lock = some () ∧ (s.buf i).Pinned s.pins ∧ (s.buf i).refcnt.toNat = 2 ∧
    ∀ i, (s.buf i).refcnt.toNat = refs s.buf s.stage i + if (s.buf i).Pinned s.pins then 1 else 0 := by
  have h : run step (boot () 2 LOGSIZE fun _ _ => 0) (fsinit ++ [.beginOp (), .tryBegin (), .bread () 50, .acquiresleep (), .fill (),
      .logCheck () ⟨2, by decide⟩, .logWrite ()]) = some (.ok _) := rfl
  exact ⟨_, _, h, by decide +kernel, by decide +kernel, by decide +kernel, (refcnt_exact (by decide) (by decide) h).1⟩

/-- A boot from a log that lists block 50: nothing has pinned it, `install_trans` unpins it, and
the last `brelse` leaves its count at `2 ^ 32 - 1` with no reference to the buffer. -/
theorem refcnt_wraps_boot : ∃ s : System Unit,
    run step (boot () 2 LOGSIZE (update (fun _ _ => 0) 2 (Log.putHead [50] fun _ => 0)))
      (breads ++ brelses ++ breads ++ [.instr ()] ++ brelses ++ [.instr ()] ++ breads ++ breads ++
        [.instr (), .instr (), .instr ()] ++ brelses ++ brelses) = some (.ok s) ∧
    ∃ i, (s.buf i).Holds 50 ∧ refs s.buf s.stage i = 0 ∧ ¬ (s.buf i).Pinned s.pins ∧
      (s.buf i).refcnt.toNat = 2 ^ 32 - 1 := by
  refine ⟨_, rfl, ⟨3, by decide⟩, ?_⟩
  decide +kernel

end Xv6.Bio
