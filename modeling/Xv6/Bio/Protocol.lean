import Xv6.Bio.Machine
import Xv6.Bio.View

/-!
# Who runs the log's code

Once the machine has booted, the log's code is run by the one process that the last `end_op` made
commit, and while it does no operation is in progress. Between commits the pinned blocks are the
blocks in the log's header. `Running` says this of the log, of what each process is doing and of
the code it has left, and not of the buffers.
-/

namespace Xv6.Bio

open Function
open Log (Instr LogState)

variable {P : Type} [Fintype P]

/-- The log between the steps of any number of processes, after the boot. -/
structure Running (log : LogState) (mode : P → Mode) (code : P → List Instr) (pins : List Nat) : Prop where
  count : log.outstanding = (Finset.univ.filter fun p => mode p = .inOp).card
  quiet : log.committing = true → log.outstanding = 0
  flag : ∀ p, mode p = .committing → log.committing = true
  one : ∀ p q, mode p = .committing → mode q = .committing → p = q
  booted : ∀ p, mode p ≠ .booting
  idle : ∀ p, mode p ≠ .committing → code p = []
  pinned : (∀ p, mode p ≠ .committing) → pins = log.lh
  commit : ∀ p, mode p = .committing → ∃ v : View, v.lh = log.lh ∧ v.pins = pins ∧
    Wp (View.exec log.start) Unpins (fun v => v.lh = [] ∧ v.pins = []) (code p) v

namespace Running

variable {log : LogState} {mode : P → Mode} {code : P → List Instr} {pins : List Nat} {p : P}

/-- While an operation is in progress no process commits. -/
theorem no_commit (h : Running log mode code pins) (hp : mode p = .inOp) : ∀ q, mode q ≠ .committing := by
  intro q hq
  have hzero := h.quiet (h.flag q hq)
  have hpos : 0 < (Finset.univ.filter fun p => mode p = .inOp).card :=
    Finset.card_pos.mpr ⟨p, Finset.mem_filter.mpr ⟨Finset.mem_univ p, hp⟩⟩
  have := h.count
  omega

/-- The modes of `begin_op` make no difference to the log. -/
def Same (m m' : Mode) : Prop :=
  (m = .inOp ↔ m' = .inOp) ∧ (m = .committing ↔ m' = .committing) ∧ (m = .booting ↔ m' = .booting)

theorem Same.refl (m : Mode) : Same m m := ⟨Iff.rfl, Iff.rfl, Iff.rfl⟩

theorem congr {mode' : P → Mode} (h : Running log mode code pins) (hm : ∀ q, Same (mode' q) (mode q)) :
    Running log mode' code pins := by
  refine ⟨?_, h.quiet, ?_, ?_, ?_, ?_, ?_, ?_⟩
  · simp only [(hm _).1]
    exact h.count
  · exact fun q hq => h.flag q ((hm q).2.1.mp hq)
  · exact fun q r hq hr => h.one q r ((hm q).2.1.mp hq) ((hm r).2.1.mp hr)
  · exact fun q hq => h.booted q ((hm q).2.2.mp hq)
  · exact fun q hq => h.idle q fun e => hq ((hm q).2.1.mpr e)
  · exact fun hnone => h.pinned fun q hq => hnone q ((hm q).2.1.mpr hq)
  · exact fun q hq => h.commit q ((hm q).2.1.mp hq)

variable [DecidableEq P]

section

variable (h : Running log mode code pins)
include h

theorem booted_update {m : Mode} (hm : m ≠ .booting) (q : P) : update mode p m q ≠ .booting :=
  forall_update (C := fun _ (m : Mode) => m ≠ .booting) hm (fun q _ => h.booted q) q

/-- `begin_op` admits the process. -/
theorem enter (hp : mode p = .beginning) (hgo : ¬ log.mustWait) :
    Running { log with outstanding := log.outstanding + 1 } (update mode p .inOp) code pins := by
  have hidle : log.committing ≠ true := fun hc => hgo (.inl hc)
  have hnone : ∀ q, mode q ≠ .committing := fun q hq => hidle (h.flag q hq)
  have hnone' : ∀ q, update mode p .inOp q ≠ .committing :=
    forall_update (C := fun _ (m : Mode) => m ≠ .committing) nofun fun q _ => hnone q
  have hcard := card_update (fun m : Mode => m = .inOp) mode p .inOp
  rw [if_pos rfl, if_neg (by rw [hp]; nofun)] at hcard
  refine ⟨?_, fun hc => absurd hc hidle, fun q hq => absurd hq (hnone' q), fun q _ hq => absurd hq (hnone' q), ?_, ?_,
    fun _ => h.pinned hnone, fun q hq => absurd hq (hnone' q)⟩
  · show log.outstanding + 1 = _
    rw [h.count]
    omega
  · exact h.booted_update nofun
  · exact fun q _ => h.idle q (hnone q)

/-- An operation ends, and another one is in progress. -/
theorem endOther (hp : mode p = .inOp) :
    Running { log with outstanding := log.outstanding - 1 } (update mode p .outside) code pins := by
  have hnone := h.no_commit hp
  have hnone' : ∀ q, update mode p .outside q ≠ .committing :=
    forall_update (C := fun _ (m : Mode) => m ≠ .committing) nofun fun q _ => hnone q
  have hcard := card_update (fun m : Mode => m = .inOp) mode p .outside
  rw [if_pos hp, if_neg nofun] at hcard
  refine ⟨?_, fun hc => ?_, fun q hq => absurd hq (hnone' q), fun q _ hq => absurd hq (hnone' q), ?_, ?_,
    fun _ => h.pinned hnone, fun q hq => absurd hq (hnone' q)⟩
  · show log.outstanding - 1 = _
    rw [h.count]
    omega
  · have hzero := h.quiet hc
    have hpos : 0 < (Finset.univ.filter fun p => mode p = .inOp).card := by omega
    have := h.count
    omega
  · exact h.booted_update nofun
  · exact fun q _ => h.idle q (hnone q)

/-- The last operation ends, and its process commits. -/
theorem endLast (hp : mode p = .inOp) (hlast : log.outstanding - 1 = 0) :
    Running { log with outstanding := log.outstanding - 1, committing := true }
      (update mode p .committing) (update code p [.commit]) pins := by
  have hnone := h.no_commit hp
  have hself : ∀ q, update mode p .committing q = .committing → q = p :=
    forall_update (C := fun q (m : Mode) => m = .committing → q = p) (fun _ => rfl) fun q _ hq => absurd hq (hnone q)
  have hcard := card_update (fun m : Mode => m = .inOp) mode p .committing
  rw [if_pos hp, if_neg nofun] at hcard
  refine ⟨?_, fun _ => hlast, fun _ _ => rfl, fun q r hq hr => (hself q hq).trans (hself r hr).symm, ?_, ?_, ?_, ?_⟩
  · show log.outstanding - 1 = _
    rw [h.count]
    omega
  · exact h.booted_update nofun
  · intro q hq
    have hqp : q ≠ p := by
      rintro rfl
      exact hq (update_self ..)
    rw [update_of_ne hqp]
    exact h.idle q (hnone q)
  · exact fun hn => absurd (update_self ..) (hn p)
  · intro q hq
    cases hself q hq
    refine ⟨⟨⟨log.lh, fun _ _ => 0, fun _ _ => 0, []⟩, pins⟩, rfl, rfl, ?_⟩
    rw [update_self]
    exact commit_unpins (h.pinned hnone)

/-- The commit is over. -/
theorem finish (hp : mode p = .committing) (hcode : code p = []) :
    Running { log with committing := false } (update mode p .outside) code pins := by
  obtain ⟨v, hlh, hpins, hv⟩ := h.commit p hp
  rw [hcode] at hv
  obtain ⟨hnil, hnopins⟩ := hv.post
  have hnone : ∀ q, update mode p .outside q ≠ .committing :=
    forall_update (C := fun _ (m : Mode) => m ≠ .committing) nofun fun q hq e => hq (h.one q p e hp)
  have hcard := card_update (fun m : Mode => m = .inOp) mode p .outside
  rw [if_neg (by rw [hp]; nofun), if_neg nofun] at hcard
  refine ⟨?_, nofun, fun q hq => absurd hq (hnone q), fun q _ hq => absurd hq (hnone q), ?_, ?_, fun _ => ?_,
    fun q hq => absurd hq (hnone q)⟩
  · show log.outstanding = _
    rw [h.count]
    omega
  · exact h.booted_update nofun
  · intro q _
    by_cases hq : q = p
    · rw [hq, hcode]
    · exact h.idle q fun e => hq (h.one q p e hp)
  · show pins = log.lh
    rw [← hpins, hnopins, ← hlh, hnil]

end

omit [DecidableEq P] in
/-- `log_write`, in an operation. -/
theorem logWrite (h : Running log mode code pins) (hp : mode p = .inOp) {lh : List Nat} :
    Running { log with lh := lh } mode code lh :=
  have hnone := h.no_commit hp
  ⟨h.count, h.quiet, h.flag, h.one, h.booted, h.idle, fun _ => rfl, fun q hq => absurd hq (hnone q)⟩

/-- The committing process runs one instruction. -/
theorem exec (h : Running log mode code pins) (hp : mode p = .committing) {i : Instr} {c : List Instr}
    (hcode : code p = i :: c) : ∃ v : View, v.lh = log.lh ∧ v.pins = pins ∧ Unpins i v ∧
      Running { log with lh := (View.exec log.start i v).1.lh } mode
        (update code p ((View.exec log.start i v).2 ++ c)) (View.exec log.start i v).1.pins := by
  obtain ⟨v, hlh, hpins, hv⟩ := h.commit p hp
  rw [hcode] at hv
  obtain ⟨hG, hrest⟩ := hv.step
  refine ⟨v, hlh, hpins, hG, h.count, h.quiet, h.flag, h.one, h.booted, ?_, fun hn => absurd hp (hn p), ?_⟩
  · intro q hq
    have hqp : q ≠ p := by
      rintro rfl
      exact hq hp
    rw [update_of_ne hqp]
    exact h.idle q hq
  · intro q hq
    cases h.one q p hq hp
    rw [update_self]
    exact ⟨_, rfl, rfl, hrest⟩

end Running

end Xv6.Bio
