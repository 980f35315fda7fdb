import Xv6.Primes.Work

/-!
# Every schedule of the pipeline

The invariant holds in every state that the system comes to. In a state in which no process has a
step all have exited: a reader that waits has a writer before it that waits for its own input, a
writer that waits has a reader behind it that waits for room, and neither chain has an end that
could wait. And there is no infinite schedule, because every step makes the work that is left
smaller.
-/

namespace Xv6.Primes

open List

variable {vs : List Word} {s s' : Sys} {i : Nat}

theorem Inv.reaches {is : List Nat} (h : Reaches (Primes.init vs) is s) : Inv vs s := by
  induction h with
  | start => exact .init vs
  | next i _ hstep ih => exact ih.step hstep

/-! ## Nobody waits for ever -/

/-- Why a process has no step. -/
inductive Stuck (s : Sys) (i : Nat) : Prop
  | exited (hloc : (s.procs i).loc = .exited ∨ (s.procs i).loc = .exitedAlone)
  | waits (hloc : (s.procs i).loc = .finishWait) (hchild : ¬ s.Reaped (s.procs i))
  | reads (j : Nat) (hj : i = j + 1) (hbuf : (s.pipes j).buf = []) (hopen : s.Open j .wr) (hcalled : (s.procs i).loc.called = true)
      (hpipe : (s.procs i).loc.holdsWrite = (s.procs i).loc.hasPipe)
  | writes (hfull : (s.pipes i).room = 0) (hforked : (s.procs i).loc.forked = true) (hwrite : (s.procs i).loc.holdsWrite = true)

theorem Stuck.of_read (h : Inv vs s) (hi : i < s.nproc) {loc : Loc} {k : List Byte → Loc} (hloc : (s.procs i).loc = loc)
    (hpos : 1 ≤ i) (hact : act s i (s.procs i) (.read k) = none) (hcalled : loc.called = true) (hpipe : loc.holdsWrite = loc.hasPipe) :
    Stuck s i := by
  subst hloc
  obtain ⟨j, rfl⟩ := Nat.exists_eq_add_of_le' hpos
  have hleft : (s.procs (j + 1)).left = j := (h.procs (j + 1) hi).left hcalled
  unfold act at hact
  simp only [hleft] at hact
  split at hact
  next hwait => exact .reads j rfl hwait.1 hwait.2 hcalled hpipe
  next => cases hact

theorem Stuck.of_write (h : Inv vs s) (hi : i < s.nproc) {loc : Loc} {bs : List Byte} {again : List Byte → Loc} {failed k : Loc}
    (hloc : (s.procs i).loc = loc) (hact : act s i (s.procs i) (.write bs again failed k) = none) (hforked : loc.forked = true)
    (hwrite : loc.holdsWrite = true) : Stuck s i := by
  subst hloc
  have hright : (s.procs i).right = i := by
    rw [(h.procs i hi).right, Loc.hasPipe_of_forked hforked, if_pos rfl]
  unfold act at hact
  simp only [hright] at hact
  split at hact
  next hfull => exact .writes hfull hforked hwrite
  next =>
    split at hact
    next => cases hact
    next => cases hact

theorem Inv.stuck (h : Inv vs s) (hi : i < s.nproc) (hnone : Primes.step s i = none) : Stuck s i := by
  unfold Primes.step at hnone
  rw [if_pos hi] at hnone
  have hat := (h.procs i hi).place
  cases hloc : (s.procs i).loc with
  | exited => exact .exited (.inl hloc)
  | exitedAlone => exact .exited (.inr hloc)
  | finishWait =>
    rw [hloc] at hnone
    unfold code act at hnone
    simp only at hnone
    split at hnone
    next => cases hnone
    next hchild => exact .waits hloc hchild
  | child1Read num =>
    rw [hloc] at hnone hat
    exact .of_read h hi hloc (by rw [hat.1]) hnone rfl rfl
  | othersFirst =>
    rw [hloc] at hnone hat
    exact .of_read h hi hloc (Nat.le_of_succ_le hat.1) hnone rfl rfl
  | othersRead prime =>
    rw [hloc] at hnone hat
    exact .of_read h hi hloc (Nat.le_of_succ_le hat.1) hnone rfl rfl
  | mainWrite bs todo =>
    rw [hloc] at hnone
    exact .of_write h hi hloc hnone rfl rfl
  | child1Write num bs =>
    rw [hloc] at hnone
    exact .of_write h hi hloc hnone rfl rfl
  | othersWrite prime bs =>
    rw [hloc] at hnone
    exact .of_write h hi hloc hnone rfl rfl
  | mainFor todo =>
    rw [hloc] at hnone
    cases todo with
    | nil => cases hnone
    | cons => cases hnone
  | mainError msg =>
    rw [hloc] at hnone
    cases msg with
    | nil => cases hnone
    | cons => cases hnone
  | othersPrint prime cs =>
    rw [hloc] at hnone
    cases cs with
    | nil => cases hnone
    | cons => cases hnone
  | child1Got num ret =>
    rw [hloc] at hnone
    simp only [code] at hnone
    split at hnone
    next => cases hnone
    next =>
      split at hnone
      next => cases hnone
      next => cases hnone
  | othersGot prime ret =>
    rw [hloc] at hnone
    simp only [code] at hnone
    split at hnone
    next => cases hnone
    next => cases hnone
  | othersMore prime ret =>
    rw [hloc] at hnone
    simp only [code] at hnone
    split at hnone
    next => cases hnone
    next => cases hnone
  | _ =>
    rw [hloc] at hnone
    cases hnone

/-- Who has the write end of a pipe that is read from. -/
theorem Inv.writer (h : Inv vs s) {j : Nat} (hopen : s.Open j .wr)
    (hreader : (s.procs (j + 1)).loc.holdsWrite = (s.procs (j + 1)).loc.hasPipe) : (s.procs j).loc.holdsWrite = true := by
  obtain ⟨q, hq, hmem⟩ := hopen
  have hlocal := h.procs q hq
  obtain ⟨hwrite, hright⟩ := (hlocal.wr j).mp hmem
  rw [hlocal.right] at hright
  split at hright
  next => rw [hright]; exact hwrite
  next hpipe =>
    cases q with
    | zero => rw [hright]; exact hwrite
    | succ q =>
      -- then it is the reader itself, before it has called its function
      obtain rfl : j = q := hright
      rw [hreader] at hwrite
      exact absurd hwrite hpipe

/-- A process that has the write end of its pipe waits for its input, or for room. -/
theorem Stuck.of_holdsWrite (h : Stuck s i) (hwrite : (s.procs i).loc.holdsWrite = true) :
    (∃ j, i = j + 1 ∧ (s.pipes j).buf = [] ∧ s.Open j .wr ∧
      (s.procs i).loc.holdsWrite = (s.procs i).loc.hasPipe) ∨ (s.pipes i).room = 0 := by
  cases h with
  | exited hloc =>
    rcases hloc with hloc | hloc
    · rw [hloc] at hwrite
      cases hwrite
    · rw [hloc] at hwrite
      cases hwrite
  | waits hloc =>
    rw [hloc] at hwrite
    cases hwrite
  | reads j hj hbuf hopen _ hpipe => exact .inl ⟨j, hj, hbuf, hopen, hpipe⟩
  | writes hfull => exact .inr hfull

theorem room_of_empty {p : Pipe} (h : p.buf = []) : p.room ≠ 0 := by
  unfold Pipe.room PIPESIZE
  rw [h]
  decide

/-- A reader does not wait: the writer before it would wait for its own input, and so on down to
`main`. -/
theorem Inv.no_reader (h : Inv vs s) (hstuck : ∀ i < s.nproc, Stuck s i) (j : Nat) (hj : j + 1 < s.nproc)
    (hbuf : (s.pipes j).buf = []) (hopen : s.Open j .wr)
    (hreader : (s.procs (j + 1)).loc.holdsWrite = (s.procs (j + 1)).loc.hasPipe) : False := by
  induction j with
  | zero =>
    rcases (hstuck 0 (by omega)).of_holdsWrite (h.writer hopen hreader) with ⟨k, hk, -⟩ | hfull
    · omega
    · exact room_of_empty hbuf hfull
  | succ j ih =>
    rcases (hstuck (j + 1) (by omega)).of_holdsWrite (h.writer hopen hreader) with ⟨k, hk, hbuf', hopen', hpipe⟩ | hfull
    · obtain rfl : j = k := by omega
      exact ih (by omega) hbuf' hopen' hpipe
    · exact room_of_empty hbuf hfull

/-- A process that has exited or waits for its child has read all its input. -/
theorem Inv.takenAll (h : Inv vs s) (hi : i + 1 < s.nproc)
    (hloc : (s.procs (i + 1)).loc = .exited ∨ (s.procs (i + 1)).loc = .exitedAlone ∨ (s.procs (i + 1)).loc = .finishWait) :
    (s.pipes i).buf = [] := by
  obtain ⟨w, hw, hprefix⟩ := (h.procs i (by omega)).place.sentPrefix
  have hall : (s.pipes i).nread = 4 * (stream vs i).length := by
    apply (h.procs (i + 1) hi).place.takenAll (Nat.succ_ne_zero i)
    · rcases hloc with hloc | hloc | hloc <;> rw [hloc] <;> rfl
    · rcases hloc with hloc | hloc | hloc <;> rw [hloc] <;> rfl
  have hle := hprefix.length_le
  unfold Pipe.buf
  apply drop_eq_nil_of_le
  rw [hw, length_enc, hall]
  omega

/-- A writer does not wait, and a parent does not: the child would wait in the same way, and so on
up to the last process. -/
theorem Inv.exited_of_stuck (h : Inv vs s) (hstuck : ∀ i < s.nproc, Stuck s i) (n : Nat) (i : Nat) (hn : s.nproc = i + 1 + n) :
    (s.procs i).loc = .exited ∨ (s.procs i).loc = .exitedAlone := by
  induction n generalizing i with
  | zero =>
    have hlast : (s.procs i).loc.forked = false := by
      have := (not_congr (h.forked i (by omega))).mpr (by omega)
      simpa using this
    cases hstuck i (by omega) with
    | exited hloc => exact hloc
    | waits hloc => rw [hloc] at hlast; cases hlast
    | reads j hj hbuf hopen _ hpipe =>
      subst hj
      exact (h.no_reader hstuck j (by omega) hbuf hopen hpipe).elim
    | writes _ hforked => rw [hlast] at hforked; cases hforked
  | succ n ih =>
    have hnext := ih (i + 1) (by omega)
    cases hstuck i (by omega) with
    | exited hloc => exact hloc
    | waits hloc hchild =>
      have hc := (h.procs i (by omega)).child (by rw [hloc]; rfl)
      unfold Sys.Reaped at hchild
      rw [hc] at hchild
      exact absurd hnext hchild
    | reads j hj hbuf hopen _ hpipe =>
      subst hj
      exact (h.no_reader hstuck j (by omega) hbuf hopen hpipe).elim
    | writes hfull =>
      have hbuf := h.takenAll (i := i) (by omega) (by rcases hnext with hloc | hloc <;> simp [hloc])
      exact absurd hfull (room_of_empty hbuf)

theorem lines_of_drop {n : Nat} (h : (vs.filter passed).drop n = []) : lines vs n = (vs.filter passed).flatMap primeLine := by
  unfold lines
  rw [take_of_length_le (drop_eq_nil_iff.mp h)]

/-- Where no process has a step, everything has been printed. -/
theorem Inv.out_of_stuck (h : Inv vs s) (hstuck : ∀ i < s.nproc, Stuck s i) (hpos : 0 < s.nproc) :
    s.out = (vs.filter passed).flatMap primeLine := by
  obtain ⟨i, hi⟩ := Nat.exists_eq_add_of_le' hpos
  have hlocal := h.procs i (by omega)
  have hat := hlocal.place
  have hprinted := h.printed i hi.symm
  have hlast : (s.procs i).loc.forked = false := by
    have := (not_congr (h.forked i (by omega))).mpr (by omega)
    simpa using this
  rcases h.exited_of_stuck hstuck 0 i hi with hloc | hloc
  · rw [hloc] at hlast
    cases hlast
  · rw [hloc] at hat hprinted
    obtain ⟨hi₂, hnone, -⟩ := hat
    obtain ⟨k, rfl⟩ := Nat.exists_eq_add_of_le' hi₂
    have hout : s.out = lines vs k := hprinted
    rw [input_add_two] at hnone
    rw [hout, lines_of_drop hnone]

/-- What has been printed is always the beginning of it. -/
theorem Inv.out_prefix (h : Inv vs s) (hpos : 0 < s.nproc) : s.out <+: (vs.filter passed).flatMap primeLine := by
  have hlines : ∀ n, lines vs n <+: (vs.filter passed).flatMap primeLine := fun n =>
    ⟨((vs.filter passed).drop n).flatMap primeLine, by
      unfold lines
      rw [← flatMap_append, take_append_drop]⟩
  obtain ⟨i, hi⟩ := Nat.exists_eq_add_of_le' hpos
  have hprinted := h.printed i hi.symm
  cases hphase : (s.procs i).loc.phase with
  | before =>
    rw [hphase] at hprinted
    exact hprinted ▸ hlines (i - 2)
  | printing cs =>
    rw [hphase] at hprinted
    exact List.IsPrefix.trans ⟨cs, hprinted⟩ (hlines (i - 1))
  | after =>
    rw [hphase] at hprinted
    exact hprinted ▸ hlines (i - 1)

/-! ## The program -/

/-- A process that has just returned from `read`: what the `int` has become, and the return value.
-/
def Loc.justRead : Loc → Option (List Byte × Nat)
  | child1Got num ret | othersGot num ret | othersMore num ret => some (num, ret)
  | _ => none

theorem mem_of_input {v : Word} (h : v ∈ input vs i) : v ∈ vs := by
  match i with
  | 0 => exact h
  | 1 => exact h
  | i + 2 =>
    rw [input_add_two] at h
    exact mem_of_mem_filter (mem_of_mem_drop h)

/-- A `read` returns a whole number, one of those that `main` has written, or nothing. -/
theorem Inv.justRead (h : Inv vs s) (hi : i < s.nproc) {num : List Byte} {ret : Nat}
    (hread : (s.procs i).loc.justRead = some (num, ret)) :
    ret = 0 ∨ ret = 4 ∧ ∃ v ∈ vs, num = bytes v := by
  have hat := (h.procs i hi).place
  have hhas : ∀ {d v taken sent}, Has vs i d v taken sent → v ∈ vs :=
    fun hv => mem_of_input (hv.part.subset (mem_append_right _ (mem_singleton_self _)))
  cases hloc : (s.procs i).loc with
  | child1Got num' ret' =>
    rw [hloc] at hat hread
    cases hread
    rcases hat.2.2 with ⟨hret, -⟩ | ⟨hret, d, v, hnum, hv⟩
    · exact .inl hret
    · exact .inr ⟨hret, v, hhas hv, hnum⟩
  | othersGot num' ret' =>
    rw [hloc] at hat hread
    cases hread
    rcases hat.2 with ⟨hret, -⟩ | ⟨hret, hfirst⟩
    · exact .inl hret
    · obtain ⟨v, hv, hnum⟩ := hfirst.head
      exact .inr ⟨hret, v, mem_of_input (mem_of_head? hv), hnum⟩
  | othersMore num' ret' =>
    rw [hloc] at hat hread
    cases hread
    rcases hat.2.2.2 with ⟨hret, -⟩ | ⟨hret, d, v, -, hnum, hv⟩
    · exact .inl hret
    · exact .inr ⟨hret, v, hhas hv, hnum⟩
  | _ =>
    rw [hloc] at hread
    cases hread

/-- What the program prints: a line for each prime, in the order of the numbers. -/
def expected (vs : List Word) : List Byte :=
  (vs.filter fun v => decide v.toNat.Prime).flatMap fun p => "prime ".toList.map ascii ++ Printf.decimal p.toInt ++ [ascii '\n']

theorem expected_eq (hvs : ∀ v ∈ vs, 2 ≤ v.toInt) : (vs.filter passed).flatMap primeLine = expected vs := by
  unfold expected
  have hfilter : vs.filter passed = vs.filter fun v => decide v.toNat.Prime := by
    apply filter_congr
    intro v hv
    rw [Bool.eq_iff_iff, decide_eq_true_iff]
    exact isPrime_iff (hvs v hv)
  rw [hfilter]
  apply flatMap_congr
  intro v hv
  exact primeLine_eq v

theorem nproc_le_act {t : Thread} {a : Act} (h : act s i t a = some s') : s.nproc ≤ s'.nproc := by
  cases a with
  | goto | pipe | call | close | putc | exit =>
    cases h
    exact le_rfl
  | fork =>
    cases h
    exact Nat.le_succ _
  | none => cases h
  | read k | wait k =>
    unfold act at h
    simp only at h
    split at h <;> cases h
    exact le_rfl
  | write bs again failed k =>
    unfold act at h
    simp only at h
    split at h <;> split at h <;> cases h <;> exact le_rfl

theorem nproc_pos {is : List Nat} (h : Reaches (Primes.init vs) is s) : 0 < s.nproc := by
  induction h with
  | start => exact Nat.one_pos
  | next i h hstep _ =>
    -- the process that takes the step is still there
    have hlt := ((Inv.reaches h).work_step hstep).1
    unfold Primes.step at hstep
    rw [if_pos hlt] at hstep
    exact lt_of_lt_of_le (Nat.zero_lt_of_lt hlt) (nproc_le_act hstep)

theorem total_add_length_le {is : List Nat} (h : Reaches (Primes.init vs) is s) : s.total vs + is.length ≤ bound vs := by
  induction h with
  | start => exact total_init_le vs
  | next i h hstep ih =>
    have := (Inv.reaches h).total_lt hstep
    rw [length_append, length_singleton]
    omega

/-- Whatever the schedule: a `read` never returns a part of a number; what has been printed is the
beginning of the lines for the primes; where no process can go on it is all of them; and that comes
after a bounded number of steps. -/
theorem pipeline_correct (vs : List Word) (hvs : ∀ v ∈ vs, 2 ≤ v.toInt) (is : List Nat) (s : Sys) (h : Reaches (init vs) is s) :
    (∀ i < s.nproc, ∀ num ret, (s.procs i).loc.justRead = some (num, ret) → ret = 0 ∨ ret = 4 ∧ ∃ v ∈ vs, num = bytes v) ∧
      s.out <+: expected vs ∧ ((∀ i, step s i = none) → s.out = expected vs) ∧ is.length ≤ bound vs := by
  have hinv := Inv.reaches h
  have hpos := nproc_pos h
  refine ⟨fun i hi num ret hread => hinv.justRead hi hread, ?_, fun hnone => ?_, ?_⟩
  · rw [← expected_eq hvs]
    exact hinv.out_prefix hpos
  · rw [← expected_eq hvs]
    exact hinv.out_of_stuck (fun i hi => hinv.stuck hi (hnone i)) hpos
  · exact Nat.le_of_add_left_le (total_add_length_le h)

/-- The state after a schedule. -/
def exec : Sys → List Nat → Option Sys
  | s, [] => some s
  | s, i :: is => (step s i).bind fun s' => exec s' is

theorem Reaches.exec {s₀ : Sys} {is js : List Nat} (h : Reaches s₀ is s)
    (hexec : Primes.exec s js = some s') : Reaches s₀ (is ++ js) s' := by
  induction js generalizing is s with
  | nil =>
    cases hexec
    rw [append_nil]
    exact h
  | cons j js ih =>
    obtain ⟨t, ht, hrest⟩ := Option.bind_eq_some_iff.mp hexec
    rw [← singleton_append, ← append_assoc]
    exact ih (.next j h ht) hrest

/-- A schedule for two numbers, up to where all four processes have exited. -/
def schedule : List Nat :=
  replicate 8 0 ++ replicate 14 1 ++ replicate 20 2 ++ replicate 7 3 ++ [2, 1, 0]

theorem pipeline_correct_two_four :
    ∃ s, Reaches (init [2, 4]) schedule s ∧ (∀ i, step s i = none) ∧ s.out = "prime 2\n".toList.map ascii := by
  have hend : (exec (init [2, 4]) schedule).any (fun s => decide (∀ i < s.nproc, step s i = none)) = true := by decide +kernel
  obtain ⟨s, hexec, hnone⟩ := (Option.any_eq_true _ _).mp hend
  have hreach : Reaches (init [2, 4]) schedule s := Reaches.start.exec hexec
  have hall : ∀ i, step s i = none := by
    intro i
    by_cases hi : i < s.nproc
    · exact of_decide_eq_true hnone i hi
    · exact if_neg hi
  have hvs : ∀ v ∈ ([2, 4] : List Word), 2 ≤ v.toInt :=
    forall_mem_cons.mpr ⟨by decide, forall_mem_singleton.mpr (by decide)⟩
  have hlines : expected [2, 4] = "prime 2\n".toList.map ascii := by decide +kernel
  have hout := (pipeline_correct [2, 4] hvs schedule s hreach).2.2.1 hall
  exact ⟨s, hreach, hall, hout.trans hlines⟩

end Xv6.Primes
