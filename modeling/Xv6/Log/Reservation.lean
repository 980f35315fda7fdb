import Mathlib.Algebra.Order.BigOperators.Group.Finset
import Xv6.Log.Group

/-!
# What `begin_op` reserves

`begin_op` admits an operation when the log's blocks and `MAXOPBLOCKS` for every operation in
progress, itself included, are at most `LOGSIZE`. The reservation survives every step: the blocks
in the header, and what each operation in progress may still log, stay at most `LOGSIZE`
(`Reserved`).

`mkfs` lays out `nlog = LOGSIZE` blocks for the log, of which the header takes one. So `log_write`'s
test finds the log full at `LOGSIZE - 1` blocks, and it finds it full before it looks for
absorption. The reservation promises one block more than there is. `reservation_suffices_iff` says
exactly when that shows: when an operation that has logged all but one of its `MAXOPBLOCKS` blocks
calls `log_write` again while the log holds `LOGSIZE - 1`.
-/

namespace Xv6.Log

open Function Finset

variable {P : Type}

/-- Each operation logs at most `MAXOPBLOCKS` distinct blocks. -/
def Within (s : System P) : Act P → Prop
  | .logWrite p b => (addBlock (s.proc p).blocks b).length ≤ MAXOPBLOCKS
  | _ => True

instance (s : System P) : ∀ a, Decidable (Within s a)
  | .logWrite p b => inferInstanceAs (Decidable ((addBlock (s.proc p).blocks b).length ≤ MAXOPBLOCKS))
  | .beginOp _ | .tryBegin _ | .endOp _ | .install _ | .clear _ | .finish _ | .kill _ => .isTrue trivial

/-- An operation calls `log_write` with `MAXOPBLOCKS - 1` of its blocks logged only while the log
holds fewer than `LOGSIZE - 1`. -/
def Spare (s : System P) : Act P → Prop
  | .logWrite p _ => MAXOPBLOCKS - 1 ≤ (s.proc p).blocks.length → s.log.lh.length < LOGSIZE - 1
  | _ => True

instance (s : System P) : ∀ a, Decidable (Spare s a)
  | .logWrite p _ =>
    inferInstanceAs (Decidable (MAXOPBLOCKS - 1 ≤ (s.proc p).blocks.length → s.log.lh.length < LOGSIZE - 1))
  | .beginOp _ | .tryBegin _ | .endOp _ | .install _ | .clear _ | .finish _ | .kill _ => .isTrue trivial

/-- What an operation in progress may still log. -/
def Proc.spare (x : Proc) : Nat := MAXOPBLOCKS - x.blocks.length

/-- The log's blocks and what the operations in progress may still log fit in `LOGSIZE`. -/
def Reserved (l : LogState) (proc : P → Proc) (ops : Finset P) : Prop :=
  l.lh.length + ∑ p ∈ ops, (proc p).spare ≤ LOGSIZE

variable {p : P} {s s' : System P}

section

variable [DecidableEq P] {l : LogState} {proc : P → Proc} {ops : Finset P}

/-- Changing a process that has no operation in progress changes no reservation. -/
theorem sum_spare_update_of_notMem {y : Proc} (hp : p ∉ ops) :
    ∑ q ∈ ops, (update proc p y q).spare = ∑ q ∈ ops, (proc q).spare :=
  sum_congr rfl fun q hq => by
    have hne : q ≠ p := fun e => hp (by rwa [e] at hq)
    rw [update_of_ne hne]

theorem sum_spare_erase (hp : p ∈ ops) :
    ∑ q ∈ ops, (proc q).spare = (proc p).spare + ∑ q ∈ ops.erase p, (proc q).spare :=
  (add_sum_erase ops (fun q => (proc q).spare) hp).symm

/-- A block reserved by the operation in progress is there to be used. -/
theorem Reserved.room (h : Reserved l proc ops) (hp : p ∈ ops) :
    l.lh.length + (proc p).spare ≤ LOGSIZE := by
  unfold Reserved at h
  rw [sum_spare_erase hp] at h
  omega

/-- Admission: the test in `begin_op` is the reservation. -/
theorem Reserved.enter (hcount : l.outstanding = ops.card) (hp : p ∉ ops) (hgo : ¬ l.mustWait) :
    Reserved { l with outstanding := l.outstanding + 1 } (update proc p (.inOp [])) (insert p ops) := by
  have hfit : (l.lh.length : Int) + (l.outstanding + 1) * MAXOPBLOCKS ≤ LOGSIZE := by
    by_contra hfull
    exact hgo (.inr (by omega))
  have hsum : ∑ q ∈ insert p ops, (update proc p (.inOp []) q).spare ≤ (insert p ops).card * MAXOPBLOCKS :=
    sum_le_card_nsmul _ _ _ fun q _ => Nat.sub_le _ _
  rw [card_insert_of_notMem hp] at hsum
  rw [hcount] at hfit
  show l.lh.length + _ ≤ LOGSIZE
  have hcast : ((ops.card : Int) + 1) * MAXOPBLOCKS = ((ops.card + 1) * MAXOPBLOCKS : Nat) := by push_cast; rfl
  omega

/-- `log_write`: a block new to the log is new to the operation, which had reserved it. -/
theorem Reserved.logWrite {wrote : List Nat} {b : Nat} (h : Reserved l proc ops) (hp : p ∈ ops)
    (hw : proc p = .inOp wrote) (hsub : wrote ⊆ l.lh)
    (hwithin : (addBlock wrote b).length ≤ MAXOPBLOCKS) :
    Reserved { l with lh := LogState.absorb l.lh b }
      (update proc p (.inOp (addBlock wrote b))) ops := by
  unfold Reserved at h ⊢
  rw [sum_spare_erase hp, hw] at h
  rw [sum_spare_erase hp, update_self, sum_spare_update_of_notMem (notMem_erase p ops)]
  simp only [Proc.spare, Proc.blocks, LogState.absorb] at h ⊢
  by_cases hl : b ∈ l.lh
  · rw [if_pos hl]
    have : wrote.length ≤ (addBlock wrote b).length := by unfold addBlock; split <;> simp
    omega
  · have hnew : b ∉ wrote := fun hb => hl (hsub hb)
    have hlen : (addBlock wrote b).length = wrote.length + 1 := by simp [addBlock, hnew]
    rw [if_neg hl, List.length_append, List.length_singleton]
    omega

/-- Ending an operation gives up what it had reserved. -/
theorem Reserved.leave {l' : LogState} {proc' : P → Proc} (h : Reserved l proc ops)
    (hlh : l'.lh = l.lh) (hproc : ∀ q, q ≠ p → (proc' q).spare = (proc q).spare ∨ q ∉ ops) :
    Reserved l' proc' (ops.erase p) := by
  have hle : ∑ q ∈ ops.erase p, (proc' q).spare ≤ ∑ q ∈ ops, (proc q).spare := by
    calc ∑ q ∈ ops.erase p, (proc' q).spare
        = ∑ q ∈ ops.erase p, (proc q).spare := sum_congr rfl fun q hq => by
          obtain ⟨hne, hmem⟩ := mem_erase.mp hq
          exact (hproc q hne).resolve_right (fun hn => hn hmem)
      _ ≤ ∑ q ∈ ops, (proc q).spare := sum_le_sum_of_subset (erase_subset p ops)
  unfold Reserved at h ⊢
  rw [hlh]
  omega

end

/-! ## Whole runs -/

/-- The reservation of a system, over exactly its operations in progress. -/
def System.Room (s : System P) : Prop :=
  ∃ ops : Finset P, (∀ p, p ∈ ops ↔ (s.proc p).InOp) ∧ Reserved s.log s.proc ops

theorem System.room_init (start : Nat) (size : Int) : (System.init P start size).Room :=
  ⟨∅, fun p => ⟨fun h => absurd h (notMem_empty p), fun h => h.elim⟩, by
    show 0 + ∑ p ∈ ∅, _ ≤ LOGSIZE
    rw [sum_empty]
    exact Nat.zero_le _⟩

/-- Only the operations in progress and the number of logged blocks matter. -/
theorem System.Room.of_same (h : s.Room) (hlen : s'.log.lh.length ≤ s.log.lh.length)
    (hproc : ∀ p, s'.proc p = s.proc p ∨ ¬ (s'.proc p).InOp ∧ ¬ (s.proc p).InOp) : s'.Room := by
  obtain ⟨ops, hmem, hres⟩ := h
  refine ⟨ops, fun p => ?_, ?_⟩
  · rw [hmem]
    rcases hproc p with e | ⟨h', h⟩
    · rw [e]
    · exact ⟨fun x => absurd x h, fun x => absurd x h'⟩
  · have hsum : ∑ p ∈ ops, (s'.proc p).spare = ∑ p ∈ ops, (s.proc p).spare :=
      sum_congr rfl fun p hp => by
        rcases hproc p with e | ⟨-, hnot⟩
        · rw [e]
        · exact absurd ((hmem p).mp hp) hnot
    unfold Reserved at hres ⊢
    omega

theorem wakeup_same_or (proc : P → Proc) (q : P) :
    wakeup proc q = proc q ∨ ¬ (wakeup proc q).InOp ∧ ¬ (proc q).InOp := by
  unfold wakeup
  split
  next hq => exact .inr ⟨id, by rw [hq]; exact id⟩
  next => exact .inl rfl

section

variable [DecidableEq P]

theorem update_same_or {proc : P → Proc} {y : Proc} (hp : ¬ (proc p).InOp) (hy : ¬ y.InOp) (q : P) :
    update proc p y q = proc q ∨ ¬ (update proc p y q).InOp ∧ ¬ (proc q).InOp :=
  forall_update (C := fun q (x : Proc) => x = proc q ∨ ¬ x.InOp ∧ ¬ (proc q).InOp) (.inr ⟨hy, hp⟩) (fun _ _ => .inl rfl) q

/-- The operation of `p` ends. The other processes are as they were, or outside of operations. -/
theorem System.Room.leave (h : s.Room) (hlh : s'.log.lh = s.log.lh) (hp : ¬ (s'.proc p).InOp)
    (hsame : ∀ q, q ≠ p → s'.proc q = s.proc q ∨ ¬ (s'.proc q).InOp ∧ ¬ (s.proc q).InOp) : s'.Room := by
  obtain ⟨ops, hmem, hres⟩ := h
  refine ⟨ops.erase p, fun q => ?_, hres.leave hlh fun q hq => ?_⟩
  · by_cases hq : q = p
    · subst hq
      exact ⟨fun hm => absurd hm (notMem_erase q ops), fun h => absurd h hp⟩
    · rw [mem_erase, hmem]
      rcases hsame q hq with e | ⟨h', h⟩
      · rw [e]; exact ⟨fun h => h.2, fun h => ⟨hq, h⟩⟩
      · exact ⟨fun x => absurd x.2 h, fun x => absurd x h'⟩
  · rcases hsame q hq with e | ⟨-, h⟩
    · exact .inl (by rw [e])
    · exact .inr fun hm => h ((hmem q).mp hm)

variable {a : Act P}

/-- Every step of operations that keep to `MAXOPBLOCKS` keeps the reservation. -/
theorem System.Room.step (h : s.Room) (hok : s.Ok) (hin : Within s a)
    (hs : Log.step s a = some (.ok s')) : s'.Room := by
  obtain ⟨ops, hI⟩ := hok
  cases steps_of_step hs with
  | call hp => exact h.of_same le_rfl (update_same_or (by rw [hp]; exact id) id)
  | sleep hp _ => exact h.of_same le_rfl (update_same_or (by rw [hp]; exact id) id)
  | @enter p hp hgo =>
    have hnot : ¬ (s.proc p).InOp := by rw [hp]; exact id
    have hpo : p ∉ ops := fun hm => hnot (((hI.procs p).mem).mp hm)
    exact ⟨insert p ops, fun q => ((hI.enter hnot hgo).procs q).mem, Reserved.enter hI.count hpo hgo⟩
  | @write p b wrote hp =>
    obtain ⟨ops, hmem, hres⟩ := h
    have hpo : p ∈ ops := (hmem p).mpr (by rw [hp]; trivial)
    have hsub : wrote ⊆ s.log.lh := by have := (hI.procs p).logged; rwa [hp] at this
    have hwithin : (addBlock wrote b).length ≤ MAXOPBLOCKS := by
      simpa only [Within, hp, Proc.blocks] using hin
    refine ⟨ops, ?_, hres.logWrite hpo hp hsub hwithin⟩
    exact forall_update (C := fun q (x : Proc) => q ∈ ops ↔ x.InOp) ⟨fun _ => trivial, fun _ => hpo⟩ fun q _ => hmem q
  | @last p wrote hp hlast => exact h.leave rfl (by simp only [update_self]; exact id) fun q hq => .inl (update_of_ne hq ..)
  | @other p wrote hp hmore =>
    refine h.leave (p := p) rfl (by simp only [update_self]; exact id) fun q hq => ?_
    simp only [update_of_ne hq]
    exact wakeup_same_or s.proc q
  | install hp => exact h.of_same le_rfl (update_same_or (by rw [hp]; exact id) id)
  | clear hp => exact h.of_same (Nat.zero_le _) (update_same_or (by rw [hp]; exact id) id)
  | @finish p hp =>
    exact h.of_same le_rfl (forall_update (C := fun q (x : Proc) => x = s.proc q ∨ ¬ x.InOp ∧ ¬ (s.proc q).InOp)
      (.inr ⟨id, by rw [hp]; exact id⟩) fun q _ => wakeup_same_or s.proc q)
  | kill hp => exact h.of_same le_rfl (update_same_or (by rw [hp]; exact id) id)

theorem step_size (h : Log.step s a = some (.ok s')) : s'.log.size = s.log.size := by
  cases steps_of_step h <;> rfl

/-- What the runs below keep. `log.size` is what `initlog` read from the super block. -/
structure System.Reserves (s : System P) : Prop where
  ok : s.Ok
  room : s.Room
  size : s.log.size = LOGSIZE

theorem System.Reserves.step (h : s.Reserves) (hin : Within s a)
    (hs : Log.step s a = some (.ok s')) : s'.Reserves :=
  ⟨h.ok.step hs, h.room.step h.ok hin hs, (step_size hs).trans h.size⟩

/-- `log_write` panics for want of room exactly at `LOGSIZE - 1` logged blocks. -/
theorem step_tooBig_iff {b : Nat} (hsize : s.log.size = LOGSIZE) :
    Log.step s (.logWrite p b) = some (.error .tooBig) ↔ (s.proc p).InOp ∧ LOGSIZE - 1 ≤ s.log.lh.length := by
  have hfull : ((s.log.lh.length : Int) ≥ LOGSIZE ∨ (s.log.lh.length : Int) ≥ s.log.size - 1) ↔
      LOGSIZE - 1 ≤ s.log.lh.length := by
    rw [hsize]
    simp only [LOGSIZE, MAXOPBLOCKS]
    omega
  simp only [Log.step, LogState.logWrite, LogState.check, hfull]
  cases hp : s.proc p with
  | inOp wrote =>
    simp only [Proc.InOp, true_and]
    split_ifs with hlen hout <;> simp [hlen]
  | _ => simp [Proc.InOp]

/-- The log is full for `log_write` exactly where an operation is about to use the last block that
`begin_op` promised it. -/
theorem System.Reserves.full_iff (h : s.Reserves) :
    Log.step s a = some (.error .tooBig) ↔ ¬ Spare s a := by
  cases a with
  | logWrite p b =>
    rw [step_tooBig_iff h.size]
    rw [Spare, Classical.not_imp, Nat.not_lt]
    constructor
    · rintro ⟨hin, hlen⟩
      obtain ⟨ops, hmem, hres⟩ := h.room
      have hroom := hres.room ((hmem p).mpr hin)
      simp only [Proc.spare, MAXOPBLOCKS, LOGSIZE] at hroom hlen ⊢
      omega
    · rintro ⟨hblocks, hlen⟩
      refine ⟨?_, hlen⟩
      -- a process outside an operation has logged nothing
      cases hp : s.proc p with
      | inOp wrote => trivial
      | _ => rw [hp] at hblocks; simp [Proc.blocks, MAXOPBLOCKS] at hblocks
  | endOp p =>
    refine ⟨fun hs => ?_, fun hn => absurd trivial hn⟩
    simp only [Log.step, LogState.endOp] at hs
    split at hs <;> try cases hs
    split_ifs at hs <;> cases hs
  | _ =>
    refine ⟨fun hs => ?_, fun hn => absurd trivial hn⟩
    simp only [Log.step] at hs
    split_ifs at hs <;> cases hs

/-- On a disk with `nlog = LOGSIZE`, operations that log at most `MAXOPBLOCKS` blocks reach the
panic of a full log exactly when one of them logs again, with all but one of its blocks logged,
into a log that holds `LOGSIZE - 1`. -/
theorem reservation_suffices_iff {start : Nat} {as : List (Act P)}
    (hin : EachStep Log.step Within (System.init P start LOGSIZE) as) :
    run Log.step (System.init P start LOGSIZE) as ≠ some (.error .tooBig) ↔
      EachStep Log.step Spare (System.init P start LOGSIZE) as :=
  run_ne_error_iff (fun _ _ _ h hw hs => System.Reserves.step h hw hs) (fun _ _ h => h.full_iff)
    ⟨System.ok_init start LOGSIZE, System.room_init start LOGSIZE, rfl⟩ hin

end

/-- One process alone has room for its ten blocks. -/
theorem reservation_suffices_one :
    run Log.step (System.init (Fin 1) 2 LOGSIZE) ([.beginOp 0, .tryBegin 0] ++ (List.range 10).map (.logWrite 0 <| 50 + ·))
      ≠ some (.error .tooBig) :=
  (reservation_suffices_iff (by decide)).mpr (by decide)

/-- Three processes are admitted, and each logs ten blocks of its own. The last of the thirty
`log_write`s finds the log full. -/
theorem reservation_falls_short :
    let full : List (Act (Fin 3)) :=
      [.beginOp 0, .tryBegin 0, .beginOp 1, .tryBegin 1, .beginOp 2, .tryBegin 2] ++
        (List.range 10).map (.logWrite 0 <| 50 + ·) ++ (List.range 10).map (.logWrite 1 <| 60 + ·) ++
        (List.range 10).map (.logWrite 2 <| 70 + ·)
    EachStep Log.step Within (System.init (Fin 3) 2 LOGSIZE) full ∧
    run Log.step (System.init (Fin 3) 2 LOGSIZE) full = some (.error .tooBig) := by
  refine ⟨by decide, ?_⟩
  rfl

end Xv6.Log
