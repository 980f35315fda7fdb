import Mathlib.Algebra.Order.BigOperators.Group.Finset
import Xv6.Primes.Number
import Xv6.Primes.Steps

/-!
# Every schedule ends

Each process has a number of steps that it can still take at most, which is fixed by where it is and
by how many numbers it has still to read. A process that has not been forked yet has one too. A step
makes the number of its process smaller and leaves the others alone.
-/

namespace Xv6.Primes

open Function

variable {vs : List Word} {s s' : Sys} {i : Nat}

/-! ## One process -/

theorem length_primeLine_le (v : Word) : (primeLine v).length ≤ 40 := by
  have hlt := v.isLt
  have hcond := BitVec.toInt_eq_toNat_cond v
  have hdigits : (Numeral.numeral Printf.digit 10 v.toInt.natAbs).length ≤ 10 :=
    Numeral.length_numeral_le (by decide) (by decide) (by split at hcond <;> omega)
  rw [primeLine_eq, Printf.decimal]
  split <;> simp <;> omega

/-- How many steps a process can take at most, if it has `r` numbers to read. -/
def Loc.cost (r : Nat) : Loc → Nat
  | mainPipe todo => 2 * todo.length + 6
  | mainFork todo => 2 * todo.length + 5
  | mainCloseRead todo => 2 * todo.length + 4
  | mainFor todo => 2 * todo.length + 3
  | mainWrite _ todo => 2 * todo.length + 4
  | mainFailed => 0
  | mainError _ => 0
  | mainChild => 3 * r + 11
  | child1Call => 3 * r + 10
  | child1Pipe => 3 * r + 9
  | child1Fork => 3 * r + 8
  | child1CloseRead => 3 * r + 7
  | child1Read _ => 3 * r + 6
  | child1Got _ ret => if ret = 0 then 5 else 3 * r + 8
  | child1Write .. => 3 * r + 7
  | othersChildLeft => 3 * r + 55
  | othersChildWrite => 3 * r + 54
  | child1Child => 3 * r + 54
  | othersCall => 3 * r + 53
  | othersFirst => 3 * r + 52
  | othersGot _ ret => if ret = 0 then 3 else 3 * r + 51
  | othersNone => 2
  | othersExit => 1
  | othersPrint _ cs => 3 * r + 10 + cs.length
  | othersPipe _ => 3 * r + 9
  | othersFork _ => 3 * r + 8
  | othersCloseRead _ => 3 * r + 7
  | othersRead _ => 3 * r + 6
  | othersMore _ ret => if ret = 0 then 5 else 3 * r + 8
  | othersWrite .. => 3 * r + 7
  | finishLeft => 4
  | finishWrite => 3
  | finishWait => 2
  | exited => 0
  | exitedAlone => 0

/-- The numbers that process `i` has still to read. -/
def Sys.unread (vs : List Word) (s : Sys) (i : Nat) : Nat := (input vs i).length - s.taken i / 4

def Sys.cost (vs : List Word) (s : Sys) (i : Nat) : Nat := (s.procs i).loc.cost (s.unread vs i)

/-- Another process has not moved. -/
structure Apart (s s' : Sys) (j : Nat) : Prop where
  procs : s'.procs j = s.procs j
  taken : s'.taken j = s.taken j

/-! ## What a step leaves alone -/

theorem taken_update (s : Sys) (procs : Nat → Thread) (nproc npipe : Nat) (out : List Byte) {p : Nat} {x : Pipe} {j : Nat}
    (hx : x.nread = (s.pipes p).nread ∨ j ≠ p + 1) :
    Sys.taken ⟨procs, nproc, update s.pipes p x, npipe, out⟩ j = s.taken j := by
  cases j with
  | zero => rfl
  | succ j =>
    show (update s.pipes p x j).nread = (s.pipes j).nread
    by_cases hj : j = p
    · subst hj
      rw [update_self]
      exact hx.resolve_right (fun h => h rfl)
    · rw [update_of_ne hj]

/-- A system call of process `i` that is not `fork` leaves the other processes alone. -/
theorem act_apart (h : Inv vs s) {a : Act} (hact : act s i (s.procs i) a = some s') (hfork : ∀ kc kp, a ≠ .fork kc kp)
    (hread : ∀ k, a = .read k → (s.procs i).left + 1 = i) : s'.nproc = s.nproc ∧ ∀ j, j ≠ i → Apart s s' j := by
  have hother : ∀ t : Thread, ∀ j, j ≠ i → update s.procs i t j = s.procs j := fun t j hj => update_of_ne hj ..
  have hsame : ∀ t : Thread, ∀ out : List Byte, ∀ j, j ≠ i →
      Apart s ⟨update s.procs i t, s.nproc, s.pipes, s.npipe, out⟩ j :=
    fun t out j hj => ⟨hother t j hj, by cases j <;> rfl⟩
  cases a with
  | goto k | call k | close side e k | exit k | putc c k =>
    cases hact
    exact ⟨rfl, hsame _ _⟩
  | pipe k =>
    cases hact
    refine ⟨rfl, fun j hj => ⟨hother _ j hj, taken_update s _ _ _ _ (.inl ?_)⟩⟩
    rw [h.fresh s.npipe le_rfl]
  | fork kc kp => exact absurd rfl (hfork kc kp)
  | read k =>
    have hleft := hread k rfl
    unfold act at hact
    simp only at hact
    split at hact
    next => cases hact
    next =>
      cases hact
      exact ⟨rfl, fun j hj => ⟨hother _ j hj, taken_update s _ _ _ _ (.inr (by omega))⟩⟩
  | write bs again failed k =>
    unfold act at hact
    simp only at hact
    split at hact
    next =>
      split at hact
      next => cases hact
      next =>
        cases hact
        exact ⟨rfl, hsame _ _⟩
    next =>
      split at hact
      next =>
        cases hact
        exact ⟨rfl, fun j hj => ⟨hother _ j hj, taken_update s _ _ _ _ (.inl rfl)⟩⟩
      next =>
        cases hact
        exact ⟨rfl, fun j hj => ⟨hother _ j hj, taken_update s _ _ _ _ (.inl rfl)⟩⟩
  | wait k =>
    unfold act at hact
    simp only at hact
    split at hact
    next =>
      cases hact
      exact ⟨rfl, hsame _ _⟩
    next => cases hact
  | none => cases hact

/-! ## What a step costs -/

variable {k loc : Loc}

theorem Sys.cost_eq (hloc : (s'.procs i).loc = k) (htaken : s'.taken i = s.taken i) :
    s'.cost vs i = k.cost (s.unread vs i) := by
  unfold Sys.cost Sys.unread
  rw [hloc, htaken]

theorem loc_update (t : Thread) : (update s.procs i t i).loc = t.loc := by
  rw [update_self]

/-- Where a process is after a system call that neither reads, writes nor forks. -/
def Act.next : Act → Option Loc
  | .goto k | .pipe k | .call k | .close _ _ k | .putc _ k | .wait k | .exit k => some k
  | _ => Option.none

theorem Inv.cost_next (h : Inv vs s) {a : Act} (hact : act s i (s.procs i) a = some s')
    (hk : a.next = some k) : s'.cost vs i = k.cost (s.unread vs i) := by
  cases a with
  | goto k' | call k' | close side e k' | exit k' | putc c k' =>
    cases hk
    cases hact
    exact Sys.cost_eq (loc_update _) (by cases i <;> rfl)
  | pipe k' =>
    cases hk
    cases hact
    refine Sys.cost_eq (loc_update _) (taken_update s _ _ _ _ (.inl ?_))
    rw [h.fresh s.npipe le_rfl]
  | wait k' =>
    cases hk
    unfold act at hact
    simp only at hact
    split at hact
    next =>
      cases hact
      exact Sys.cost_eq (loc_update _) (by cases i <;> rfl)
    next => cases hact
  | fork | read | write | none => cases hk

theorem Inv.cost_next_lt (h : Inv vs s) {a : Act} (hact : act s i (s.procs i) a = some s') (hk : a.next = some k) :
    s'.cost vs i < k.cost (s.unread vs i) + 1 :=
  (h.cost_next hact hk).trans_lt (Nat.lt_succ_self _)

/-- A number has been written. -/
theorem Inv.cost_write (h : Inv vs s) (hi : i + 1 < s.nproc) {v : Word} {again : List Byte → Loc}
    {failed : Loc} (hact : act s i (s.procs i) (.write (bytes v) again failed k) = some s') :
    s'.cost vs i = k.cost (s.unread vs i) := by
  rw [h.act_write hi hact]
  exact Sys.cost_eq (loc_update _) (taken_update s _ _ _ _ (.inl rfl))

/-- A number has been read, or the end has been seen. -/
theorem Inv.cost_read (h : Inv vs s) (hi : i + 1 < s.nproc) (hloc : (s.procs (i + 1)).loc = loc)
    (hcalled : loc.called = true) {d : List Word} (hd : d <+: input vs (i + 1))
    (htaken : s.taken (i + 1) = 4 * d.length) {k : List Byte → Loc}
    (hact : act s (i + 1) (s.procs (i + 1)) (.read k) = some s') :
    s'.cost vs (i + 1) = (k []).cost (s.unread vs (i + 1)) ∨
      ∃ v, s'.cost vs (i + 1) = (k (bytes v)).cost (s.unread vs (i + 1) - 1) ∧ 0 < s.unread vs (i + 1) := by
  obtain ⟨rfl, hread⟩ := h.act_read hi hloc hcalled hd htaken hact
  have htaken' : (s.pipes i).nread = 4 * d.length := htaken
  have hunread : s.unread vs (i + 1) = (input vs (i + 1)).length - d.length := by
    unfold Sys.unread
    rw [htaken, Nat.mul_div_cancel_left _ (by decide)]
  have hcost : Sys.cost vs ((s.setPipe i ((s.pipes i).take 4)).setProc (i + 1)
    ((s.procs (i + 1)).goto (k ((s.pipes i).buf.take 4)))) (i + 1)
      = (k ((s.pipes i).buf.take 4)).cost ((input vs (i + 1)).length - (4 * d.length + ((s.pipes i).buf.take 4).length) / 4) := by
    unfold Sys.cost Sys.unread
    show (update s.procs (i + 1) _ (i + 1)).loc.cost
      ((input vs (i + 1)).length - (update s.pipes i ((s.pipes i).take 4) i).nread / 4) = _
    rw [update_self, update_self, ← htaken']
    rfl
  rw [hcost, hunread]
  rcases hread with ⟨hbuf, -⟩ | ⟨v, hbuf, hv⟩
  · left
    rw [hbuf, List.length_nil]
    congr 1
    omega
  · right
    have hlen := hv.length_le
    rw [List.length_append, List.length_singleton] at hlen
    refine ⟨v, ?_, by omega⟩
    rw [hbuf, length_bytes]
    congr 1
    omega

theorem lt_of_end (a b : Nat) (h : a < b) {r : Nat} : a < 3 * r + b := by omega

theorem lt_of_number (a b : Nat) (h : a < b + 3) {r : Nat} (hr : 0 < r) : 3 * (r - 1) + a < 3 * r + b := by omega

section

variable (h : Inv vs s) (hi : i < s.nproc) (hloc : (s.procs i).loc = loc)
  (hact : act s i (s.procs i) (code loc) = some s')
include h hi hloc hact

theorem Inv.cost_lt_main (hpart : loc.part = .main) (hforking : loc.forking = false) :
    s'.cost vs i < loc.cost (s.unread vs i) := by
  have hat := (h.procs i hi).place
  rw [hloc] at hat
  cases loc with
  | mainPipe | mainCloseRead | mainChild => exact h.cost_next_lt hact rfl
  | mainFork => cases hforking
  | mainFor todo =>
    cases todo with
    | nil => exact h.cost_next_lt hact rfl
    | cons v todo => exact h.cost_next_lt hact rfl
  | mainWrite bs todo =>
    obtain ⟨rfl, d, v, hd, rfl, hsent⟩ := hat
    exact (h.cost_write (h.next_lt hi hloc rfl) hact).trans_lt (Nat.lt_succ_self _)
  | mainFailed | mainError => exact hat.elim
  | _ => cases hpart

theorem Inv.cost_lt_child1 (hpart : loc.part = .child1) (hforking : loc.forking = false) :
    s'.cost vs i < loc.cost (s.unread vs i) := by
  have hat := (h.procs i hi).place
  rw [hloc] at hat
  cases loc with
  | child1Call | child1Pipe | child1CloseRead | child1Child => exact h.cost_next_lt hact rfl
  | child1Fork => cases hforking
  | child1Read num =>
    obtain ⟨rfl, -, d, hd⟩ := hat
    rcases h.cost_read hi hloc rfl hd.part hd.taken hact with hcost | ⟨v, hcost, hpos⟩
    · exact hcost.trans_lt (lt_of_end 5 6 (by decide))
    · exact hcost.trans_lt (lt_of_number 8 6 (by decide) hpos)
  | child1Got num ret =>
    show _ < if ret = 0 then 5 else 3 * s.unread vs i + 8
    simp only [code] at hact
    split at hact
    next hret =>
      rw [if_pos (Nat.le_zero.mp hret)]
      exact h.cost_next_lt hact rfl
    next hret =>
      rw [if_neg (fun e => hret (Nat.le_of_eq e))]
      split at hact
      next => exact h.cost_next_lt hact rfl
      next => exact (h.cost_next hact rfl).trans_lt (Nat.lt_add_of_pos_right Nat.zero_lt_two)
  | child1Write num bs =>
    obtain ⟨-, -, d, v, -, rfl, -⟩ := hat
    exact (h.cost_write (h.next_lt hi hloc rfl) hact).trans_lt (Nat.lt_succ_self _)
  | _ => cases hpart

theorem Inv.cost_lt_childothers (hpart : loc.part = .childothers) (hforking : loc.forking = false) :
    s'.cost vs i < loc.cost (s.unread vs i) := by
  have hat := (h.procs i hi).place
  rw [hloc] at hat
  cases loc with
  | othersCall | othersNone | othersPipe | othersCloseRead | othersChildLeft | othersChildWrite =>
    exact h.cost_next_lt hact rfl
  | othersFork => cases hforking
  | othersFirst =>
    obtain ⟨hi₂, htaken, -⟩ := hat
    obtain ⟨i, rfl⟩ := Nat.exists_eq_add_of_le' (show 1 ≤ i by omega)
    rcases h.cost_read hi hloc rfl List.nil_prefix htaken hact with hcost | ⟨v, hcost, hpos⟩
    · exact hcost.trans_lt (lt_of_end 3 52 (by decide))
    · exact hcost.trans_lt (lt_of_number 51 52 (by decide) hpos)
  | othersGot prime ret =>
    show _ < if ret = 0 then 3 else 3 * s.unread vs i + 51
    simp only [code] at hact
    split at hact
    next hret =>
      rw [if_pos (Nat.le_zero.mp hret)]
      exact h.cost_next_lt hact rfl
    next hret =>
      have hline := length_primeLine_le (word prime)
      rw [if_neg (fun e => hret (Nat.le_of_eq e)), h.cost_next hact rfl]
      show 3 * _ + 10 + (primeLine (word prime)).length < 3 * _ + 51
      omega
  | othersPrint prime cs =>
    cases cs with
    | nil => exact h.cost_next_lt hact rfl
    | cons c cs => exact h.cost_next_lt hact rfl
  | othersRead prime =>
    obtain ⟨hi₂, -, d, -, hd⟩ := hat
    obtain ⟨i, rfl⟩ := Nat.exists_eq_add_of_le' (show 1 ≤ i by omega)
    rcases h.cost_read hi hloc rfl hd.part hd.taken hact with hcost | ⟨v, hcost, hpos⟩
    · exact hcost.trans_lt (lt_of_end 5 6 (by decide))
    · exact hcost.trans_lt (lt_of_number 8 6 (by decide) hpos)
  | othersMore prime ret =>
    show _ < if ret = 0 then 5 else 3 * s.unread vs i + 8
    simp only [code] at hact
    split at hact
    next hret =>
      rw [if_pos (Nat.le_zero.mp hret)]
      exact h.cost_next_lt hact rfl
    next hret =>
      rw [if_neg (fun e => hret (Nat.le_of_eq e))]
      exact h.cost_next_lt hact rfl
  | othersWrite prime bs =>
    obtain ⟨-, -, d, v, -, rfl, -⟩ := hat
    exact (h.cost_write (h.next_lt hi hloc rfl) hact).trans_lt (Nat.lt_succ_self _)
  | _ => cases hpart

end

theorem Inv.cost_lt_finish (h : Inv vs s) (hact : act s i (s.procs i) (code loc) = some s')
    (hpart : loc.part = .finish) : s'.cost vs i < loc.cost (s.unread vs i) := by
  cases loc with
  | finishLeft | finishWrite | othersExit => exact h.cost_next_lt hact rfl
  | finishWait =>
    rw [h.cost_next hact rfl]
    exact Nat.zero_lt_two
  | exited | exitedAlone => cases hact
  | _ => cases hpart

/-- A process that does not fork has fewer steps left. -/
theorem Inv.cost_lt (h : Inv vs s) (hi : i < s.nproc) (hact : act s i (s.procs i) (code (s.procs i).loc) = some s')
    (hforking : (s.procs i).loc.forking = false) : s'.cost vs i < s.cost vs i := by
  cases hpart : (s.procs i).loc.part with
  | main => exact h.cost_lt_main hi rfl hact hpart hforking
  | child1 => exact h.cost_lt_child1 hi rfl hact hpart hforking
  | childothers => exact h.cost_lt_childothers hi rfl hact hpart hforking
  | finish => exact h.cost_lt_finish hact hpart

/-! ## All processes -/

/-- How many steps process `i` can take at most, from when it is forked. -/
def birth (vs : List Word) (i : Nat) : Nat :=
  if i ≤ 1 then Loc.mainChild.cost (input vs i).length else Loc.othersChildLeft.cost (input vs i).length

def Sys.work (vs : List Word) (s : Sys) (i : Nat) : Nat := if i < s.nproc then s.cost vs i else birth vs i

theorem Sys.work_eq {j : Nat} (h : Apart s s' j) (hn : s'.nproc = s.nproc) : s'.work vs j = s.work vs j := by
  unfold Sys.work Sys.cost Sys.unread
  rw [hn, h.procs, h.taken]

/-- Where a process forks. -/
theorem code_of_forking (h : loc.forking = true) :
    (∃ todo, loc = .mainFork todo ∧ code loc = .fork .mainChild (.mainCloseRead todo)) ∨
      (loc = .child1Fork ∧ code loc = .fork .child1Child .child1CloseRead) ∨
      ∃ prime, loc = .othersFork prime ∧ code loc = .fork .othersChildLeft (.othersCloseRead prime) := by
  cases loc with
  | mainFork todo => exact .inl ⟨todo, rfl, rfl⟩
  | child1Fork => exact .inr (.inl ⟨rfl, rfl⟩)
  | othersFork prime => exact .inr (.inr ⟨prime, rfl, rfl⟩)
  | _ => cases h

/-- A `fork` takes one step of the parent, and the child has no more steps than were counted for it.
-/
theorem Inv.work_fork (h : Inv vs s) (hi : i < s.nproc) {kc kp : Loc}
    (hloc : (s.procs i).loc = loc) (hforked : loc.forked = false)
    (hlt : kp.cost (s.unread vs i) < loc.cost (s.unread vs i))
    (hborn : kc.cost (input vs (i + 1)).length ≤ birth vs (i + 1))
    (hact : act s i (s.procs i) (.fork kc kp) = some s') :
    (∀ j, s'.work vs j ≤ s.work vs j) ∧ s'.work vs i < s.work vs i := by
  have hlast := h.last hi hloc hforked
  subst hloc
  cases hact
  generalize hs' : (s.setProc i ((s.procs i).parent s.nproc kp)).newProc ((s.procs i).born kc) = s'
  have hn : s'.nproc = s.nproc + 1 := by rw [← hs']; rfl
  have htaken : ∀ j, s'.taken j = s.taken j := fun j => by rw [← hs']; cases j <;> rfl
  have hprocs : ∀ j, j ≠ s.nproc → s'.procs j = update s.procs i ((s.procs i).parent s.nproc kp) j := fun j hj => by
    rw [← hs']
    exact update_of_ne hj ..
  have hnew : (s'.procs s.nproc).loc = kc := by
    rw [← hs']
    show (update (s.setProc i ((s.procs i).parent s.nproc kp)).procs s.nproc ((s.procs i).born kc) s.nproc).loc = kc
    rw [update_self]
    rfl
  have hself : s'.work vs i < s.work vs i := by
    unfold Sys.work
    rw [if_pos (by omega), if_pos hi]
    have hk : (s'.procs i).loc = kp := by
      rw [hprocs i (by omega), update_self]
      rfl
    exact (Sys.cost_eq hk (htaken i)).trans_lt hlt
  refine ⟨fun j => ?_, hself⟩
  by_cases hji : j = i
  · subst hji
    exact le_of_lt hself
  · by_cases hjn : j = s.nproc
    · subst hjn
      have hunread : s.unread vs s.nproc = (input vs s.nproc).length := by
        unfold Sys.unread
        rw [← hlast, show s.taken (i + 1) = 0 from h.unread i (by omega)]
        rfl
      unfold Sys.work
      rw [if_pos (by omega), if_neg (lt_irrefl _), Sys.cost_eq hnew (htaken _), hunread, ← hlast]
      exact hborn
    · have happart : Apart s s' j := ⟨by rw [hprocs j hjn, update_of_ne hji], htaken j⟩
      apply Nat.le_of_eq
      unfold Sys.work Sys.cost Sys.unread
      rw [hn, happart.procs, happart.taken]
      simp only [show j < s.nproc + 1 ↔ j < s.nproc by omega]

/-- Where a process reads. -/
theorem Inv.left_of_read (h : Inv vs s) (hi : i < s.nproc) {k : List Byte → Loc} (hcode : code (s.procs i).loc = .read k) :
    (s.procs i).left + 1 = i := by
  have hlocal := h.procs i hi
  have hat := hlocal.place
  have hread : (s.procs i).loc.called = true ∧ 1 ≤ i := by
    cases hloc : (s.procs i).loc with
    | child1Read num =>
      rw [hloc] at hat
      exact ⟨rfl, Nat.le_of_eq hat.1.symm⟩
    | othersFirst | othersRead prime =>
      rw [hloc] at hat
      exact ⟨rfl, Nat.le_of_succ_le hat.1⟩
    | mainFor todo =>
      rw [hloc] at hcode
      cases todo <;> cases hcode
    | mainError msg =>
      rw [hloc] at hcode
      cases msg <;> cases hcode
    | othersPrint prime cs =>
      rw [hloc] at hcode
      cases cs <;> cases hcode
    | child1Got num ret =>
      rw [hloc] at hcode
      simp only [code] at hcode
      split at hcode
      next => cases hcode
      next => split at hcode <;> cases hcode
    | othersGot prime ret | othersMore prime ret =>
      rw [hloc] at hcode
      simp only [code] at hcode
      split at hcode <;> cases hcode
    | _ =>
      rw [hloc] at hcode
      cases hcode
  have := hlocal.left hread.1
  omega

theorem not_fork_of_not_forking (h : loc.forking = false) (kc kp : Loc) :
    code loc ≠ .fork kc kp := by
  intro hcode
  cases loc with
  | mainFork | child1Fork | othersFork => cases h
  | mainFor todo => cases todo <;> cases hcode
  | mainError msg => cases msg <;> cases hcode
  | othersPrint prime cs => cases cs <;> cases hcode
  | child1Got num ret =>
    simp only [code] at hcode
    split at hcode
    next => cases hcode
    next => split at hcode <;> cases hcode
  | othersGot prime ret | othersMore prime ret =>
    simp only [code] at hcode
    split at hcode <;> cases hcode
  | _ => cases hcode

theorem Inv.work_step (h : Inv vs s) (hstep : Primes.step s i = some s') :
    i < s.nproc ∧ (∀ j, s'.work vs j ≤ s.work vs j) ∧ s'.work vs i < s.work vs i := by
  unfold Primes.step at hstep
  split at hstep
  next hi =>
    refine ⟨hi, ?_⟩
    have hat := (h.procs i hi).place
    cases hforking : (s.procs i).loc.forking with
    | true =>
      rcases code_of_forking hforking with ⟨todo, hloc, hcode⟩ | ⟨hloc, hcode⟩ | ⟨prime, hloc, hcode⟩
      · rw [hcode] at hstep
        rw [hloc] at hat
        obtain ⟨rfl, -⟩ := hat
        exact h.work_fork hi hloc rfl (Nat.lt_succ_self _) le_rfl hstep
      · rw [hcode] at hstep
        rw [hloc] at hat
        obtain ⟨rfl, -⟩ := hat
        exact h.work_fork hi hloc rfl (Nat.lt_succ_self _) (Nat.le_succ _) hstep
      · rw [hcode] at hstep
        rw [hloc] at hat
        refine h.work_fork hi hloc rfl (Nat.lt_succ_self _) ?_ hstep
        unfold birth
        rw [if_neg (by have := hat.1; omega)]
    | false =>
      obtain ⟨hn, happart⟩ := act_apart h hstep (not_fork_of_not_forking hforking) (fun k hk => h.left_of_read hi hk)
      have hself : s'.work vs i < s.work vs i := by
        unfold Sys.work
        rw [hn, if_pos hi, if_pos hi]
        exact h.cost_lt hi hstep hforking
      refine ⟨fun j => ?_, hself⟩
      by_cases hji : j = i
      · rw [hji]
        exact le_of_lt hself
      · exact Nat.le_of_eq (Sys.work_eq (happart j hji) hn)
  next => cases hstep

/-! ## How many processes there are -/

/-- `childothers` forks only if it has got a number. -/
theorem At.input_ne_nil {taken : Nat} {sent : List Byte} (h : At vs i taken sent loc) (hi : 2 ≤ i)
    (hforked : loc.forked = true) : input vs i ≠ [] := by
  have hnil : ∀ {d}, d ≠ [] → d <+: input vs i → input vs i ≠ [] := fun hd hprefix e => by
    rw [e] at hprefix
    exact hd (List.prefix_nil.mp hprefix)
  cases loc with
  | mainCloseRead | mainFor | mainWrite | child1CloseRead | child1Read | child1Got | child1Write =>
    have := h.1
    omega
  | mainFailed | mainError => exact h.elim
  | othersCloseRead prime =>
    obtain ⟨v, hv, -⟩ := h.2.head
    intro e
    rw [e] at hv
    cases hv
  | othersRead prime =>
    obtain ⟨-, -, d, hne, hd⟩ := h
    exact hnil hne hd.part
  | othersMore prime ret => exact h.2.2.1
  | othersWrite prime bs =>
    obtain ⟨-, -, d, v, hne, -, hv⟩ := h
    exact hnil hne ((List.prefix_append d [v]).trans hv.part)
  | finishLeft => exact h.2.1 hi
  | finishWrite | finishWait | exited => exact h.1 hi
  | _ => cases hforked

theorem Inv.nproc_le (h : Inv vs s) : s.nproc ≤ vs.length + 3 := by
  by_contra hlt
  obtain ⟨k, hk⟩ := Nat.exists_eq_add_of_le' (show 4 ≤ s.nproc by omega)
  have hne := (h.procs (k + 2) (by omega)).place.input_ne_nil (by omega) ((h.forked (k + 2) (by omega)).mpr (by omega))
  rw [input_add_two] at hne
  have hlen : k < (vs.filter passed).length := by
    by_contra hge
    exact hne (List.drop_eq_nil_of_le (by omega))
  have := List.length_filter_le passed vs
  omega

/-! ## All steps -/

def Sys.total (vs : List Word) (s : Sys) : Nat := ∑ i ∈ Finset.range (vs.length + 3), s.work vs i

theorem Inv.total_lt (h : Inv vs s) (hstep : Primes.step s i = some s') : s'.total vs < s.total vs := by
  obtain ⟨hi, hle, hlt⟩ := h.work_step hstep
  exact Finset.sum_lt_sum (fun j _ => hle j) ⟨i, Finset.mem_range.mpr (lt_of_lt_of_le hi h.nproc_le), hlt⟩

theorem length_input_le (vs : List Word) (i : Nat) : (input vs i).length ≤ vs.length := by
  match i with
  | 0 => exact le_rfl
  | 1 => exact le_rfl
  | i + 2 =>
    rw [input_add_two, List.length_drop]
    exact (Nat.sub_le _ _).trans (List.length_filter_le ..)

/-- A bound on the steps of a schedule. -/
def bound (vs : List Word) : Nat := (vs.length + 3) * (3 * vs.length + 55)

theorem total_init_le (vs : List Word) : (Primes.init vs).total vs ≤ bound vs := by
  have hwork : ∀ i ∈ Finset.range (vs.length + 3), (Primes.init vs).work vs i ≤ 3 * vs.length + 55 := by
    intro i _
    have hlen := length_input_le vs i
    unfold Sys.work birth
    split
    · show 2 * vs.length + 6 ≤ _
      omega
    · split
      · show 3 * (input vs i).length + 11 ≤ _
        omega
      · show 3 * (input vs i).length + 55 ≤ _
        omega
  have hsum := Finset.sum_le_card_nsmul _ _ _ hwork
  rw [Finset.card_range] at hsum
  exact hsum

end Xv6.Primes
