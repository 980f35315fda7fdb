import Xv6.Lib.Update
import Xv6.Log.Ops

/-!
# Group commit

One invariant of the log and its processes carries everything: `outstanding` counts the operations
in progress, `committing` is set exactly while one process is in `commit` and then no operation is
in progress, a sleeper's wait condition holds, and every `log_write` since the last commit is in
the header. What the trace says of commits follows: the first commit after a `log_write` installs
its block, and comes after the end of the operation that made it. So no commit falls inside an
operation, and all its writes are installed by one.
That a sleeper is admitted in the end is not shown.
-/

namespace Xv6.Log

open Function Finset

variable {P : Type}

/-- The process is between the critical sections of a committing `end_op`. -/
def Proc.InCommit : Proc → Prop
  | .commit | .installed | .finishing => True
  | _ => False

/-- The process is between `begin_op` and `end_op`. -/
def Proc.InOp : Proc → Prop
  | .inOp _ => True
  | _ => False

/-- The distinct blocks that the operation in progress has logged. -/
def Proc.blocks : Proc → List Nat
  | .inOp wrote => wrote
  | _ => []

/-- No commit in a stretch of the trace. -/
def NoInstall (t : List (Event P)) : Prop := ∀ blocks, Event.install blocks ∉ t

/-- What a trace owes: a commit installs every write since the commit before it, and each of these
writes belongs to an operation that has ended. -/
def Grouped (trace : List (Event P)) : Prop :=
  ∀ later between before blocks p b, trace = later ++ .install blocks :: (between ++ .wrote p b :: before) →
    NoInstall between → b ∈ blocks ∧ .ended p ∈ between

/-- The writes since the last commit are in the header, each of an operation ended or in progress.
-/
def Waiting (lh : List Nat) (proc : P → Proc) (trace : List (Event P)) : Prop :=
  ∀ later before p b, trace = later ++ .wrote p b :: before → NoInstall later →
    b ∈ lh ∧ (.ended p ∈ later ∨ (proc p).InOp)

/-- No write since the last commit. -/
def Drained (trace : List (Event P)) : Prop :=
  ∀ later before p b, trace = later ++ .wrote p b :: before → ¬ NoInstall later

/-- What the log and the trace say of one process, `ops` being those with an operation in progress.
-/
structure ProcOk (l : LogState) (trace : List (Event P)) (ops : Finset P) (p : P) (x : Proc) : Prop where
  mem : p ∈ ops ↔ x.InOp
  busy : x.InCommit → l.committing = true
  drained : x = .installed → Drained trace
  cleared : x = .finishing → l.lh = []
  blocked : x = .asleep → l.mustWait
  logged : x.blocks ⊆ l.lh

/-- At most one process commits. -/
def OneCommit (proc : P → Proc) : Prop := ∀ p q, (proc p).InCommit → (proc q).InCommit → p = q

/-- The invariant. -/
structure Inv (l : LogState) (proc : P → Proc) (trace : List (Event P)) (ops : Finset P) : Prop where
  procs : ∀ p, ProcOk l trace ops p (proc p)
  one : OneCommit proc
  count : l.outstanding = ops.card
  quiet : l.committing = true → ops = ∅
  empty : ops = ∅ → l.committing = false → l.lh = []
  waiting : Waiting l.lh proc trace
  grouped : Grouped trace

/-! ## Traces -/

variable {t : List (Event P)} {lh : List Nat} {proc' : P → Proc} {p : P} {y : Proc}

theorem noInstall_cons_iff {e : Event P} :
    NoInstall (e :: t) ↔ (∀ blocks, e ≠ .install blocks) ∧ NoInstall t := by
  simp only [NoInstall, List.mem_cons, not_or, forall_and]
  constructor
  · rintro ⟨h, h'⟩; exact ⟨fun b e => h b e.symm, h'⟩
  · rintro ⟨h, h'⟩; exact ⟨fun b e => h b e.symm, h'⟩

/-- An event that is no commit owes nothing new. -/
theorem Grouped.cons {e : Event P} (h : Grouped t) (he : ∀ blocks, e ≠ .install blocks) :
    Grouped (e :: t) := by
  intro later between before blocks p b heq hno
  cases later with
  | nil => exact absurd (List.cons.inj heq).1 (he blocks)
  | cons _ later => exact h later between before blocks p b (List.cons.inj heq).2 hno

/-- A commit of the whole header while no operation is in progress. -/
theorem Grouped.install {proc : P → Proc} (h : Grouped t) (hw : Waiting lh proc t)
    (hidle : ∀ p, ¬ (proc p).InOp) : Grouped (.install lh :: t) := by
  intro later between before blocks p b heq hno
  cases later with
  | nil =>
    obtain ⟨hb, ht⟩ := List.cons.inj heq
    cases hb
    obtain ⟨hmem, hended | hp⟩ := hw between before p b ht hno
    · exact ⟨hmem, hended⟩
    · exact absurd hp (hidle p)
  | cons _ later => exact h later between before blocks p b (List.cons.inj heq).2 hno

/-- Right after a commit nothing is waiting. -/
theorem drained_install {blocks : List Nat} : Drained (.install blocks :: t) := by
  intro later before p b heq hno
  cases later with
  | nil => cases heq
  | cons _ later =>
    obtain ⟨rfl, -⟩ := List.cons.inj heq
    exact absurd List.mem_cons_self (hno blocks)

theorem Drained.waiting {proc : P → Proc} (h : Drained t) :
    Waiting lh proc t := fun later before p b heq hno => absurd hno (h later before p b heq)

/-- Processes may change as long as the operations in progress stay in progress. -/
theorem Waiting.proc {proc : P → Proc} (h : Waiting lh proc t)
    (hp : ∀ p, (proc p).InOp → (proc' p).InOp) : Waiting lh proc' t := by
  intro later before p b heq hno
  obtain ⟨hmem, hrun⟩ := h later before p b heq hno
  exact ⟨hmem, hrun.imp_right (hp p)⟩

/-- A `log_write` of a process in an operation. -/
theorem Waiting.wrote {lh' : List Nat} {proc : P → Proc} {b : Nat} (h : Waiting lh proc t)
    (hlh : lh ⊆ lh') (hb : b ∈ lh') (hp : ∀ q, (proc q).InOp → (proc' q).InOp)
    (hin : (proc' p).InOp) : Waiting lh' proc' (.wrote p b :: t) := by
  intro later before q b' heq hno
  cases later with
  | nil =>
    obtain ⟨he, -⟩ := List.cons.inj heq
    cases he
    exact ⟨hb, .inr hin⟩
  | cons e later =>
    obtain ⟨rfl, ht⟩ := List.cons.inj heq
    obtain ⟨hmem, hrun⟩ := h later before q b' ht (noInstall_cons_iff.mp hno).2
    refine ⟨hlh hmem, ?_⟩
    rcases hrun with hended | hrun
    · exact .inl (List.mem_cons_of_mem _ hended)
    · exact .inr (hp q hrun)

/-- The end of an operation. -/
theorem Waiting.ended {proc : P → Proc} (h : Waiting lh proc t)
    (hp : ∀ q, q ≠ p → (proc q).InOp → (proc' q).InOp) : Waiting lh proc' (.ended p :: t) := by
  intro later before q b heq hno
  cases later with
  | nil => cases heq
  | cons e later =>
    obtain ⟨rfl, ht⟩ := List.cons.inj heq
    obtain ⟨hmem, hrun⟩ := h later before q b ht (noInstall_cons_iff.mp hno).2
    refine ⟨hmem, ?_⟩
    rcases hrun with hended | hrun
    · exact .inl (List.mem_cons_of_mem _ hended)
    · by_cases hq : q = p
      · exact .inl (hq ▸ List.mem_cons_self)
      · exact .inr (hp q hq hrun)

/-! ## The steps -/

theorem absorb_subset (lh : List Nat) (b : Nat) : lh ⊆ LogState.absorb lh b := by
  unfold LogState.absorb
  split
  next => exact List.Subset.refl _
  next => exact List.subset_append_left _ _

theorem length_le_absorb (lh : List Nat) (b : Nat) : lh.length ≤ (LogState.absorb lh b).length := by
  unfold LogState.absorb
  split <;> simp

theorem mem_absorb (lh : List Nat) (b : Nat) : b ∈ LogState.absorb lh b := by
  unfold LogState.absorb
  split
  next h => exact h
  next => simp

section

variable [DecidableEq P]

theorem OneCommit.set {proc : P → Proc} (h : OneCommit proc) (hy : ¬ y.InCommit) :
    OneCommit (update proc p y) := by
  have hback : ∀ q, (update proc p y q).InCommit → (proc q).InCommit :=
    forall_update (C := fun q (x : Proc) => x.InCommit → (proc q).InCommit) (fun hc => absurd hc hy) fun q _ => id
  exact fun q r hq hr => h q r (hback q hq) (hback r hr)

/-- The committing process moves on inside its commit. -/
theorem OneCommit.same {proc : P → Proc} (h : OneCommit proc) (hp : (proc p).InCommit) :
    OneCommit (update proc p y) := by
  have hself : ∀ q, (update proc p y q).InCommit → q = p :=
    forall_update (C := fun q (x : Proc) => x.InCommit → q = p) (fun _ => rfl) fun q _ hc => h q p hc hp
  exact fun q r hq hr => (hself q hq).trans (hself r hr).symm

end

theorem wakeup_ne_asleep (proc : P → Proc) (q : P) : wakeup proc q ≠ .asleep := by
  unfold wakeup
  split
  next => nofun
  next hq => exact hq

namespace Inv

variable {l : LogState} {proc : P → Proc} {trace : List (Event P)} {ops : Finset P}

theorem not_inOp (h : Inv l proc trace ops) (hc : l.committing = true) (p : P) : ¬ (proc p).InOp := by
  intro hp
  have := ((h.procs p).mem).mpr hp
  rw [h.quiet hc] at this
  exact absurd this (notMem_empty p)

theorem idle_of_inOp (h : Inv l proc trace ops) (hp : (proc p).InOp) : l.committing = false := by
  cases hc : l.committing with
  | false => rfl
  | true => exact absurd hp (h.not_inOp hc p)

/-- `wakeup(&log)` -/
theorem wake (h : Inv l proc trace ops) : Inv l (wakeup proc) trace ops := by
  have hcases : ∀ p, wakeup proc p = proc p ∨ proc p = .asleep ∧ wakeup proc p = .beginning := by
    intro p
    unfold wakeup
    split
    next hp => exact .inr ⟨hp, rfl⟩
    next => exact .inl rfl
  have hcommit : ∀ p, (wakeup proc p).InCommit → (proc p).InCommit := by
    intro p hp
    rcases hcases p with e | ⟨-, e⟩
    · rwa [e] at hp
    · rw [e] at hp; exact hp.elim
  refine ⟨fun p => ?_, fun p q hp hq => h.one p q (hcommit p hp) (hcommit q hq), h.count, h.quiet, h.empty,
    h.waiting.proc fun p hp => ?_, h.grouped⟩
  · rcases hcases p with e | ⟨hp, e⟩
    · rw [e]; exact h.procs p
    · have hop := (h.procs p).mem
      rw [hp] at hop
      rw [e]
      exact ⟨hop, fun h => h.elim, nofun, nofun, nofun, List.nil_subset _⟩
  · rcases hcases p with e | ⟨he, -⟩
    · rwa [e]
    · rw [he] at hp; exact hp.elim

variable [DecidableEq P]

section

variable (h : Inv l proc trace ops)
include h

/-- One process moves within `begin_op`, or calls it. -/
theorem move (hp : ¬ (proc p).InOp) (hy : ¬ y.InOp) (hyc : ¬ y.InCommit) (hblocks : y.blocks = [])
    (hsleep : y = .asleep → l.mustWait) : Inv l (update proc p y) trace ops := by
  refine ⟨forall_update ⟨?_, fun h => absurd h hyc, ?_, ?_, hsleep, ?_⟩ fun q _ => h.procs q,
    h.one.set hyc, h.count, h.quiet, h.empty, h.waiting.proc fun q hq => ?_, h.grouped⟩
  · exact ⟨fun hm => absurd (((h.procs p).mem).mp hm) hp, fun hy' => absurd hy' hy⟩
  · rintro rfl; exact absurd trivial hyc
  · rintro rfl; exact absurd trivial hyc
  · rw [hblocks]; exact List.nil_subset _
  · by_cases e : q = p
    · subst e; exact absurd hq hp
    · rwa [update_of_ne e]

/-- A process enters its operation. -/
theorem enter (hp : ¬ (proc p).InOp) (hgo : ¬ l.mustWait) :
    Inv { l with outstanding := l.outstanding + 1 } (update proc p (.inOp [])) trace (insert p ops) := by
  have hidle : l.committing = false := by
    cases hc : l.committing with
    | false => rfl
    | true => exact absurd (.inl hc) hgo
  have hnot : p ∉ ops := fun hm => hp (((h.procs p).mem).mp hm)
  refine ⟨forall_update ⟨?_, fun h => h.elim, nofun, nofun, nofun, List.nil_subset _⟩
    fun q hq => ?_, h.one.set (fun h => h), ?_, fun hc => ?_, fun hemp => ?_, ?_, h.grouped⟩
  · exact ⟨fun _ => trivial, fun _ => mem_insert_self p ops⟩
  · obtain ⟨hmem, hbusy, hdrained, hcleared, hblocked, hlogged⟩ := h.procs q
    refine ⟨?_, hbusy, hdrained, hcleared, fun hs => ?_, hlogged⟩
    · rw [mem_insert, ← hmem]
      exact ⟨fun h => h.resolve_left hq, .inr⟩
    · -- the sleeper waits for log space, and there is less of it now
      rcases hblocked hs with hc | hfull
      · exact .inl hc
      · refine .inr ?_
        show (l.lh.length : Int) + (l.outstanding + 1 + 1) * MAXOPBLOCKS > LOGSIZE
        have : (0 : Int) ≤ MAXOPBLOCKS := by decide
        rw [Int.add_mul (l.outstanding + 1) 1]
        omega
  · show l.outstanding + 1 = _
    rw [h.count, card_insert_of_notMem hnot]
    rfl
  · rw [hidle] at hc; cases hc
  · exact absurd hemp (insert_ne_empty p ops)
  · refine h.waiting.proc fun q hq => ?_
    by_cases e : q = p
    · subst e; exact absurd hq hp
    · rwa [update_of_ne e]

/-- A `log_write` in an operation, absorbed or not. -/
theorem logWrite {wrote : List Nat} {b : Nat} (hp : proc p = .inOp wrote) (hsub : l.lh ⊆ lh)
    (hlen : l.lh.length ≤ lh.length) (hb : b ∈ lh) :
    Inv { l with lh := lh } (update proc p (.inOp (addBlock wrote b))) (.wrote p b :: trace) ops := by
  have hop : (proc p).InOp := by rw [hp]; trivial
  have hidle := h.idle_of_inOp hop
  have hpm : p ∈ ops := ((h.procs p).mem).mpr hop
  refine ⟨forall_update ⟨⟨fun _ => trivial, fun _ => hpm⟩, fun h => h.elim, nofun, nofun, nofun, ?_⟩
    fun q _ => ?_, h.one.set (fun h => h), h.count, h.quiet, fun hemp => ?_, ?_, ?_⟩
  · show addBlock wrote b ⊆ lh
    have hold : wrote ⊆ l.lh := by have := (h.procs p).logged; rwa [hp] at this
    unfold addBlock
    split
    next => exact List.Subset.trans hold hsub
    next => exact List.cons_subset.mpr ⟨hb, List.Subset.trans hold hsub⟩
  · obtain ⟨hmem, hbusy, -, -, hblocked, hlogged⟩ := h.procs q
    -- nobody is in a commit while an operation is in progress
    have hfree : ¬ (proc q).InCommit := fun hq => by rw [hbusy hq] at hidle; cases hidle
    refine ⟨hmem, hbusy, fun hq => absurd (by rw [hq]; trivial) hfree,
      fun hq => absurd (by rw [hq]; trivial) hfree, fun hs => ?_, List.Subset.trans hlogged hsub⟩
    rcases hblocked hs with hc | hfull
    · exact .inl hc
    · refine .inr ?_
      show (lh.length : Int) + (l.outstanding + 1) * MAXOPBLOCKS > LOGSIZE
      omega
  · rw [hemp] at hpm; exact absurd hpm (notMem_empty p)
  · refine h.waiting.wrote hsub hb (fun q hq => ?_) (by rw [update_self]; trivial)
    by_cases e : q = p
    · subst e; rw [update_self]; trivial
    · rwa [update_of_ne e]
  · exact h.grouped.cons nofun

/-- The last operation ends: its process goes on to commit. -/
theorem endLast (hp : (proc p).InOp) (hlast : l.outstanding - 1 = 0) :
    Inv { l with outstanding := l.outstanding - 1, committing := true } (update proc p .commit)
      (.ended p :: trace) ∅ := by
  have hidle := h.idle_of_inOp hp
  have hpm : p ∈ ops := ((h.procs p).mem).mpr hp
  have hcard : ops.card = 1 := by have := h.count; omega
  obtain ⟨r, rfl⟩ := card_eq_one.mp hcard
  obtain rfl := mem_singleton.mp hpm
  have hnone : ∀ q, q ≠ p → ¬ (proc q).InOp := fun q hq hin =>
    hq (mem_singleton.mp (((h.procs q).mem).mpr hin))
  have hfree : ∀ q, ¬ (proc q).InCommit := fun q hq => by
    rw [(h.procs q).busy hq] at hidle; cases hidle
  refine ⟨forall_update ⟨?_, fun _ => rfl, nofun, nofun, fun _ => .inl rfl, List.nil_subset _⟩
    fun q hq => ?_, ?_, ?_, fun _ => rfl, nofun, ?_, ?_⟩
  · exact ⟨fun hm => absurd hm (notMem_empty p), fun h => h.elim⟩
  · obtain ⟨-, -, -, hcleared, -, hlogged⟩ := h.procs q
    exact ⟨⟨fun hm => absurd hm (notMem_empty q), fun h => absurd h (hnone q hq)⟩, fun _ => rfl,
      fun e => absurd (by rw [e]; trivial) (hfree q), hcleared, fun _ => .inl rfl, hlogged⟩
  · have hself : ∀ q, (update proc p .commit q).InCommit → q = p :=
      forall_update (C := fun q (x : Proc) => x.InCommit → q = p) (fun _ => rfl) fun q _ hc => absurd hc (hfree q)
    exact fun q r hq hr => (hself q hq).trans (hself r hr).symm
  · show l.outstanding - 1 = _
    rw [hlast]
    rfl
  · refine h.waiting.ended fun q hq hin => absurd hin (hnone q hq)
  · exact h.grouped.cons nofun

/-- Another operation is still in progress: sleepers are woken to look at the log again. -/
theorem endOther (hp : (proc p).InOp) (hmore : l.outstanding - 1 ≠ 0) :
    Inv { l with outstanding := l.outstanding - 1 } (update (wakeup proc) p .outside)
      (.ended p :: trace) (ops.erase p) := by
  have hw := h.wake
  have hpm : p ∈ ops := ((h.procs p).mem).mpr hp
  have hcard : (ops.erase p).card + 1 = ops.card := card_erase_add_one hpm
  refine ⟨forall_update ⟨?_, fun h => h.elim, nofun, nofun, nofun, List.nil_subset _⟩
    fun q hq => ?_, hw.one.set (fun h => h), ?_, fun hc => ?_, fun hemp => ?_, ?_, ?_⟩
  · exact ⟨fun hm => absurd hm (notMem_erase p ops), fun h => h.elim⟩
  · obtain ⟨hmem, hbusy, -, hcleared, -, hlogged⟩ := hw.procs q
    refine ⟨?_, hbusy, fun e => ?_, hcleared, fun hs => absurd hs (wakeup_ne_asleep proc q), hlogged⟩
    · rw [mem_erase, ← hmem]
      exact ⟨fun h => h.2, fun h => ⟨hq, h⟩⟩
    · have hidle := h.idle_of_inOp hp
      rw [hbusy (by rw [e]; trivial)] at hidle
      cases hidle
  · show l.outstanding - 1 = _
    have := h.count
    omega
  · rw [h.quiet hc] at hpm; exact absurd hpm (notMem_empty p)
  · have := h.count
    rw [hemp, card_empty] at hcard
    omega
  · refine hw.waiting.ended fun q hq hin => ?_
    rwa [update_of_ne hq]
  · exact h.grouped.cons nofun

/-- `commit` installs the whole header. -/
theorem install (hp : proc p = .commit) :
    Inv l (update proc p .installed) (.install l.lh :: trace) ops := by
  have hin : (proc p).InCommit := by rw [hp]; trivial
  have hc := (h.procs p).busy hin
  refine ⟨forall_update ⟨?_, fun _ => hc, fun _ => drained_install, nofun, nofun, List.nil_subset _⟩ fun q _ => ?_,
    h.one.same hin, h.count,
    h.quiet, h.empty, drained_install.waiting, h.grouped.install h.waiting (h.not_inOp hc)⟩
  · exact ⟨fun hm => absurd (((h.procs p).mem).mp hm) (h.not_inOp hc p), fun h => h.elim⟩
  · obtain ⟨hmem, hbusy, -, hcleared, hblocked, hlogged⟩ := h.procs q
    exact ⟨hmem, hbusy, fun _ => drained_install, hcleared, hblocked, hlogged⟩

/-- `log.lh.n = 0` -/
theorem clear (hp : proc p = .installed) :
    Inv { l with lh := [] } (update proc p .finishing) trace ops := by
  have hin : (proc p).InCommit := by rw [hp]; trivial
  have hc := (h.procs p).busy hin
  refine ⟨forall_update ⟨?_, fun _ => hc, nofun, fun _ => rfl, nofun, List.nil_subset _⟩ fun q _ => ?_,
    h.one.same hin, h.count, h.quiet, fun _ _ => rfl, ((h.procs p).drained hp).waiting, h.grouped⟩
  · exact ⟨fun hm => absurd (((h.procs p).mem).mp hm) (h.not_inOp hc p), fun h => h.elim⟩
  · obtain ⟨hmem, hbusy, hdrained, -, -, -⟩ := h.procs q
    refine ⟨hmem, hbusy, hdrained, fun _ => rfl, fun _ => .inl hc, ?_⟩
    have hop := h.not_inOp hc q
    cases hq : proc q with
    | inOp wrote => rw [hq] at hop; exact absurd trivial hop
    | _ => exact List.nil_subset _

/-- `log.committing = 0; wakeup(&log)` -/
theorem finish (hp : proc p = .finishing) :
    Inv { l with committing := false } (update (wakeup proc) p .outside) trace ops := by
  have hin : (proc p).InCommit := by rw [hp]; trivial
  have hc := (h.procs p).busy hin
  have hw := h.wake
  have hnot := hw.not_inOp hc
  refine ⟨forall_update ⟨?_, fun h => h.elim, nofun, nofun, nofun, List.nil_subset _⟩ fun q hq => ?_,
    hw.one.set (fun h => h), h.count, nofun, fun _ _ => (h.procs p).cleared hp, hw.waiting.proc fun q hq => ?_,
    h.grouped⟩
  · exact ⟨fun hm => absurd (((h.procs p).mem).mp hm) (h.not_inOp hc p), fun h => h.elim⟩
  · obtain ⟨hmem, hbusy, hdrained, hcleared, -, hlogged⟩ := hw.procs q
    refine ⟨hmem, fun hq' => ?_, hdrained, hcleared, fun hs => absurd hs (wakeup_ne_asleep proc q), hlogged⟩
    have hpw : (wakeup proc p).InCommit := by unfold wakeup; rw [hp]; trivial
    exact absurd (hw.one q p hq' hpw) hq
  · exact absurd hq (hnot q)

end

end Inv

/-! ## Whole runs -/

/-- The invariant of a system, for some set of operations in progress. -/
def System.Ok (s : System P) : Prop := ∃ ops, Inv s.log s.proc s.trace ops

theorem System.ok_init (start : Nat) (size : Int) : (System.init P start size).Ok := by
  refine ⟨∅, fun p => ⟨?_, fun h => h.elim, nofun, nofun, nofun, List.nil_subset _⟩, fun p _ h => h.elim, rfl, nofun,
    fun _ _ => rfl, ?_, ?_⟩
  · exact ⟨fun h => absurd h (notMem_empty p), fun h => h.elim⟩
  · intro later before p b h
    exact absurd h (by simp [System.init])
  · intro later between before blocks p b h
    exact absurd h (by simp [System.init])

section

variable [DecidableEq P] {s : System P}

/-- Every step keeps the invariant. -/
theorem System.Ok.step {s' : System P} {a : Act P} (h : s.Ok) (hs : Log.step s a = some (.ok s')) :
    s'.Ok := by
  obtain ⟨ops, h⟩ := h
  cases steps_of_step hs with
  | call hp => exact ⟨ops, h.move (by rw [hp]; exact id) id id rfl nofun⟩
  | sleep hp hw => exact ⟨ops, h.move (by rw [hp]; exact id) id id rfl fun _ => hw⟩
  | enter hp hw => exact ⟨_, h.enter (by rw [hp]; exact id) hw⟩
  | write hp => exact ⟨ops, h.logWrite hp (absorb_subset _ _) (length_le_absorb _ _) (mem_absorb _ _)⟩
  | last hp hlast => exact ⟨∅, h.endLast (by rw [hp]; trivial) hlast⟩
  | other hp hmore => exact ⟨_, h.endOther (by rw [hp]; trivial) hmore⟩
  | install hp => exact ⟨ops, h.install hp⟩
  | clear hp => exact ⟨ops, h.clear hp⟩
  | finish hp => exact ⟨ops, h.finish hp⟩
  | kill hp => exact ⟨ops, h.move (by rw [hp]; exact id) id id rfl nofun⟩

/-- The only panic that a process can reach which brackets its `log_write`s is the full log. -/
theorem System.Ok.panic {a : Act P} {e : Panic} (h : s.Ok) (hs : Log.step s a = some (.error e)) :
    e = .tooBig := by
  obtain ⟨ops, h⟩ := h
  cases a with
  | logWrite p b =>
    simp only [Log.step] at hs
    split at hs
    next wrote hp =>
      have hin : p ∈ ops := ((h.procs p).mem).mpr (by rw [hp]; trivial)
      have hpos : 0 < ops.card := card_pos.mpr ⟨p, hin⟩
      have hout : ¬ s.log.outstanding < 1 := by rw [h.count]; omega
      split at hs
      next e' hl =>
        cases hs
        simp only [LogState.logWrite] at hl
        split at hl
        next hcheck => cases hl; exact LogState.check_error hout hcheck
        next => cases hl
      next => cases hs
    next => cases hs
  | endOp p =>
    simp only [Log.step] at hs
    split at hs
    next wrote hp =>
      have hidle := h.idle_of_inOp (p := p) (by rw [hp]; trivial)
      simp only [LogState.endOp, hidle, Bool.false_eq_true, if_false] at hs
      split at hs
      next heq => split at heq <;> cases heq
      next => cases hs
      next => cases hs
    next => cases hs
  | tryBegin p =>
    simp only [Log.step] at hs
    split at hs
    next => split at hs <;> cases hs
    next => cases hs
  | _ =>
    simp only [Log.step] at hs
    split at hs <;> cases hs

theorem run_ok {start : Nat} {size : Int} {as : List (Act P)}
    (h : run Log.step (System.init P start size) as = some (.ok s)) : s.Ok :=
  run_invariant (C := fun _ _ => True) (fun _ _ _ hI _ hs => hI.step hs) (System.ok_init start size)
    (eachStep_true as _) h

/-- **Group commit never splits an operation.** In every state that any interleaving reaches:
while a commit runs no operation is in progress, no process gets past `begin_op` and none is where
it may call `log_write`; the first commit after a `log_write` installs its block, after the end of
the operation that made it; the panics `log.committing` and `log_write outside of trans` cannot be
the next step; an idle log is empty; and a sleeper's wait condition holds. -/
theorem group_commit {start : Nat} {size : Int} {as : List (Act P)} {s : System P}
    (h : run Log.step (System.init P start size) as = some (.ok s)) :
    (∀ p, (s.proc p).InCommit → s.log.committing = true ∧ s.log.outstanding = 0) ∧
    (∀ p, (s.proc p).InCommit → ∀ q,
      (∀ b, Log.step s (.logWrite q b) = none) ∧
      ∀ s', Log.step s (.tryBegin q) = some (.ok s') → s'.proc q = .asleep) ∧
    (∀ later between before blocks p b,
      s.trace = later ++ .install blocks :: (between ++ .wrote p b :: before) → NoInstall between →
      b ∈ blocks ∧ .ended p ∈ between) ∧
    (∀ a, Log.step s a ≠ some (.error .committing) ∧ Log.step s a ≠ some (.error .outsideTrans)) ∧
    (s.log.outstanding = 0 → s.log.committing = false → s.log.lh = []) ∧
    (∀ p, s.proc p = .asleep → s.log.mustWait) := by
  have hok := run_ok h
  obtain ⟨ops, hI⟩ := hok
  refine ⟨fun p hp => ?_, fun p hp q => ⟨fun b => ?_, fun s' hs' => ?_⟩, hI.grouped, fun a => ⟨?_, ?_⟩, ?_,
    fun p => (hI.procs p).blocked⟩
  · have hc := (hI.procs p).busy hp
    refine ⟨hc, ?_⟩
    rw [hI.count, hI.quiet hc]
    rfl
  · have hq := hI.not_inOp ((hI.procs p).busy hp) q
    simp only [Log.step]
    split
    next wrote hw => rw [hw] at hq; exact absurd trivial hq
    next => rfl
  · have hc := (hI.procs p).busy hp
    simp only [Log.step] at hs'
    split at hs'
    next =>
      rw [if_pos (.inl hc)] at hs'
      cases hs'
      exact update_self _ _ _
    next => cases hs'
  · intro e
    cases System.Ok.panic ⟨ops, hI⟩ e
  · intro e
    cases System.Ok.panic ⟨ops, hI⟩ e
  · intro hout hc
    refine hI.empty (card_eq_zero.mp ?_) hc
    have := hI.count
    omega

end

/-- Two processes: one commits what it logged while the other is kept out. -/
theorem group_commit_two : ∃ s : System (Fin 2),
    run Log.step (System.init (Fin 2) 2 30)
      [.beginOp 0, .tryBegin 0, .logWrite 0 50, .beginOp 1, .endOp 0, .tryBegin 1, .install 0] = some (.ok s) ∧
    s.trace = [.install [50], .ended 0, .wrote 0 50] ∧ s.log.outstanding = 0 ∧ s.log.mustWait := by
  have h : run Log.step (System.init (Fin 2) 2 30)
      [.beginOp 0, .tryBegin 0, .logWrite 0 50, .beginOp 1, .endOp 0, .tryBegin 1, .install 0] = some (.ok _) := rfl
  exact ⟨_, h, rfl, ((group_commit h).1 0 trivial).2, (group_commit h).2.2.2.2.2 1 rfl⟩

end Xv6.Log
