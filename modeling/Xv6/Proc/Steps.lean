import Xv6.Proc.Move
import Xv6.Proc.World

/-!
# A process runs on at most one CPU

Every step keeps `World`. For a step of the code on a kernel stack this is put together from what it
does to the process itself (`did_self`), to the slots of others (`did_touch`) and to the locks
(`did_locks`). The scheduler is not assumed to be fair, and that a process runs again is not shown.
-/

namespace Xv6.Proc

open Function
open State (setEntry setStack held allocpid start)

variable {n : Nat} {C : Type} [DecidableEq C] {s s' : State n C} {c : C} {p : Slot n} {ok : Bool} {a : Act n C}
  {e : Effect n C} {j : Slot n} {c' : C} {y : Cpu n}

section

variable (h : World s) (hr : (s.cpu c).run = .thread p) (hn : (s.thread p).next s p ok = some e) (hd : Did s c p e s')

include h hr hn hd

variable {q : Slot n}

theorem World.did_touch (hq : q ≠ p) : Touch s c q (s'.proc q) := by
  have howns := h.owns p
  have hheld : ∀ j, j ∈ (s.thread p).held p → (s.proc j).lock = some c := fun j hj =>
    (h.locks.mem c j).mpr (by rwa [held_thread hr])
  rcases ht : s.thread p with ⟨pc, trap⟩
  rw [ht] at hn howns hheld
  cases trap
  case off =>
    simp only [Thread.next] at hn
    cases pc <;> simp only [Pc.next] at hn
    all_goals repeat' split at hn
    all_goals cases hn
    all_goals cases hd
    all_goals simp only [setEntry, State.setThread, setStack, State.setCpu, allocpid, start, State.record, update_apply]
    all_goals try split
    all_goals first
      | exact .inl (.inl ⟨rfl, rfl⟩)
      | grind [Touch, Wake, Entry.withLock, Entry.wakeup, Entry.kill, Entry.free, Pc.Owns, Thread.held, Pc.held]
  all_goals
    simp only [Thread.next, Trap.next] at hn
    repeat' split at hn
  all_goals cases hn
  all_goals cases hd
  all_goals simp only [setEntry, State.setThread, setStack, State.setCpu, update_apply]
  all_goals try split
  all_goals first
    | exact .inl (.inl ⟨rfl, rfl⟩)
    | grind [Touch, Wake, Entry.withLock, Entry.wakeup]

theorem World.did_self :
    (s'.stack p = some c ∧ Running p (s'.proc p) (s'.thread p) ∨ s'.stack p = none ∧ Parked p (s'.proc p) (s'.thread p)) ∧
    ((s'.thread p).trap ≠ .off → (s'.thread p).pc.held p = []) ∧
    (s'.thread p).pc.Owns s' := by
  have howns := h.owns p
  have htrap := h.trap p
  have hs := (h.cpus.run c p).mp hr
  have hrun := h.running c p hs
  rcases ht : s.thread p with ⟨pc, trap⟩
  rw [ht] at hn howns htrap hrun
  cases trap
  case off =>
    simp only [Thread.next] at hn
    cases pc <;> simp only [Pc.next] at hn
    all_goals repeat' split at hn
    all_goals cases hn
    all_goals cases hd
    all_goals simp only [setEntry, State.setThread, setStack, State.setCpu, allocpid, start, State.record, update_apply]
    all_goals simp only [Running] at hrun
    all_goals grind [Running, Parked, Thread.base, Entry.withLock, Entry.wakeup, Entry.kill, Entry.free, Pc.Owns, Pc.held]
  -- under a trap the place has no lock, so it asks for nothing and the process is `RUNNING`
  all_goals
    have hpc : pc.held p = [] := htrap (fun e => by cases e)
    have hbase := fun x : Entry n C => (running_base (x := x) hpc).mpr
    simp only [Thread.next, Trap.next] at hn
    repeat' split at hn
  all_goals cases hn
  all_goals cases hd
  all_goals simp only [setEntry, State.setThread, setStack, State.setCpu, update_self]
  all_goals refine ⟨?_, fun _ => hpc, Pc.owns_of_nil hpc _⟩
  case yieldSched => exact .inr ⟨trivial, hrun⟩
  all_goals refine .inl ⟨hs, ?_⟩
  case yield => rfl
  case yieldBack => exact hbase _ hrun
  case h_2 => exact hbase _ hrun
  all_goals
    simp only [Running] at hrun ⊢
    grind [Entry.withLock, Entry.wakeup, update_apply]

/-- A slot whose lock another CPU has stays as it is. -/
theorem World.did_frame (hl : (s.proc j).lock = some c') (hc : c' ≠ c) :
    s'.proc j = s.proc j ∧ (j ≠ p → s'.thread j = s.thread j) := by
  have hfits := Thread.next_fits (h.trap p) hn
  have hne : ∀ k, (s.proc k).lock = none ∨ k ∈ (s.thread p).held p → j ≠ k := by
    rintro k (hk | hk) rfl
    · rw [hl] at hk; cases hk
    · rw [← held_thread hr, ← h.locks.mem c j, hl] at hk
      cases hk
      exact hc rfl
  cases hd <;> simp only [Effect.Fits] at hfits
  case goto t | swtch t => exact ⟨rfl, fun hj => update_of_ne hj ..⟩
  case acquire k f t hk => exact ⟨update_of_ne (hne k (.inl hk)) .., fun hj => update_of_ne hj ..⟩
  case release k f t hk =>
    refine ⟨update_of_ne (hne k (.inr (hfits.mem_iff.mp (List.mem_cons_self ..)))) .., fun hj => ?_⟩
    exact update_of_ne hj ..
  case context k t =>
    refine ⟨rfl, fun hj => (update_of_ne hj ..).trans ?_⟩
    exact update_of_ne (hne k (.inr hfits.2)) ..
  case store k f t =>
    refine ⟨update_of_ne (hne _ (.inr hfits.1.2)) .., fun hj => ?_⟩
    exact update_of_ne hj ..
  all_goals
    refine ⟨update_of_ne (hne _ (.inr hfits.2)) .., fun hj => ?_⟩
    exact update_of_ne hj ..

omit h hr in
theorem World.did_thread (hq : q ≠ p) :
    s'.thread q = s.thread q ∨ s'.thread q = .base .forkret := by
  cases hd
  case context k t =>
    by_cases hk : q = k
    · exact .inr ((update_of_ne hq ..).trans (by rw [hk]; exact update_self ..))
    · exact .inl ((update_of_ne hq ..).trans (update_of_ne hk ..))
  all_goals exact .inl (update_of_ne hq ..)

/-- What another process relies on stays: the CPU that runs it has the lock of the slot. -/
theorem World.did_owns (hq : q ≠ p) : (s'.thread q).pc.Owns s' := by
  rcases World.did_thread hn hd hq with ht | ht
  · rw [ht]
    cases hf : (s.thread q).pc.found with
    | none => exact Pc.owns_of_not_found hf s'
    | some j =>
      obtain ⟨hj, c', hs, hl⟩ := h.found hf
      obtain ⟨hproc, hthread⟩ := h.did_frame hr hn hd hl (h.cpu_ne hr hs hq)
      have hjp : j ≠ p := by
        rintro rfl
        rw [h.cpus.run c j, h.stack_unused hj] at hr
        cases hr
      exact Pc.owns_congr hf (by rw [hproc]) (hthread hjp) (h.owns q)
  · rw [ht]
    trivial

/-- No CPU is on the stack of a slot for which a context is set up. -/
theorem World.did_stack (hc : c' ≠ c) (hs : s.stack q = some c') :
    s'.stack q = some c' ∧ s'.thread q = s.thread q := by
  have hq : q ≠ p := by
    rintro rfl
    rw [h.cpus.run c q, hs] at hr
    cases hr
    exact hc rfl
  cases hd
  case context k t =>
    have hk : q ≠ k := by
      rintro rfl
      rw [h.stack_unused (h.found (Thread.next_found (.inl hn))).1] at hs
      cases hs
    exact ⟨(update_of_ne hk ..).trans hs, (update_of_ne hq ..).trans (update_of_ne hk ..)⟩
  case swtch t => exact ⟨(update_of_ne hq ..).trans hs, update_of_ne hq ..⟩
  all_goals exact ⟨hs, update_of_ne hq ..⟩

theorem World.did_held (hc : c' ≠ c) : s'.held c' = s.held c' := by
  have hcpu : s'.cpu c' = s.cpu c' := by
    cases hd
    case swtch => exact update_of_ne hc ..
    all_goals rfl
  unfold held
  rw [hcpu]
  cases hr' : (s.cpu c').run with
  | thread q =>
    show Thread.held q (s'.thread q) = Thread.held q (s.thread q)
    rw [(h.did_stack hr hn hd hc ((h.cpus.run c' q).mp hr')).2]
  | sched | look | back | irq | irqHold => rfl

theorem World.did_locks : Locks s' := by
  have hfits := Thread.next_fits (h.trap p) hn
  have hother : ∀ c', c' ≠ c → s'.held c' = s.held c' := fun c' => h.did_held hr hn hd
  have hall : s'.held c = s.held c → ∀ c', s'.held c' = s.held c' := fun hc c' => by
    by_cases hcc : c' = c
    · rw [hcc, hc]
    · exact hother c' hcc
  rw [← held_thread hr] at hfits
  have hself : ∀ {u : State n C} {t : Thread n}, u.cpu c = s.cpu c → (u.setThread p t).held c = t.held p :=
    fun {u} {t} hu => held_setThread (by rw [hu, hr])
  cases hd <;> simp only [Effect.Fits] at hfits
  case acquire k f t hk =>
    refine h.locks.acquire hk (fun j => ?_) ((hself rfl).symm ▸ hfits) hother
    simp only [State.setThread, setEntry, update_apply]
    split <;> rfl
  case release k f t hk =>
    refine h.locks.release (j := k) (c := c) (fun j => ?_) ((hself rfl).symm ▸ hfits) hother
    simp only [State.setThread, setEntry, update_apply]
    split <;> rfl
  case swtch t hl =>
    refine h.locks.same (fun j => rfl) (hall ?_)
    rw [hfits.2]
    simp [held, State.setCpu]
  case goto t => exact h.locks.same (fun j => rfl) (hall ((hself rfl).trans hfits))
  case context k t =>
    have hu := hself (u := (s.setThread k (.base .forkret)).setStack k none) (t := t) rfl
    exact h.locks.same (fun j => rfl) (hall (hu.trans hfits.1))
  case store k f t =>
    refine h.locks.same (fun j => ?_) (hall ((hself rfl).trans hfits.1.1))
    simp only [State.setThread, setEntry, update_apply]
    split
    next hj => rw [hfits.2, hj]
    next => rfl
  case wakeup1 k t hl =>
    refine h.locks.same (fun j => ?_) (hall ((hself rfl).trans hfits.1))
    simp only [State.setThread, setEntry, update_apply]
    split
    next hj => rw [Entry.wakeup_lock, hj]
    next => rfl
  all_goals
    refine h.locks.same (fun j => ?_) (hall ((hself rfl).trans hfits.1))
    simp only [State.setThread, setEntry, allocpid, start, State.record, update_apply]
    split
    next hj => subst hj; rfl
    next => rfl

theorem World.did_cpus : Stacks s' := by
  obtain ⟨run, proc⟩ := h.cpus
  cases hd
  case context k t =>
    have hk := h.stack_unused (h.found (Thread.next_found (.inl hn))).1
    exact ⟨by simpa [setStack, State.setThread, ← hk] using run, proc⟩
  case swtch t hl =>
    constructor <;> simp only [State.setThread, setStack, State.setCpu, update_apply] <;> grind [Run.proc]
  all_goals exact ⟨run, proc⟩

omit hr in
/-- A process that is on no CPU, or whose context is set up now. -/
theorem World.did_parked (hq : q ≠ p) (hs : s'.stack q = none) :
    s.stack q = none ∧ (s'.thread q = s.thread q ∨ s'.thread q = .base .forkret ∧ (s'.proc q).state = .unused) := by
  cases hd
  case context k t =>
    by_cases hk : q = k
    · have hu := (h.found (Thread.next_found (.inl hn))).1
      rw [hk]
      refine ⟨h.stack_unused hu, .inr ⟨?_, hu⟩⟩
      exact (update_of_ne (hk ▸ hq) ..).trans (update_self ..)
    · refine ⟨(update_of_ne hk ..).symm.trans hs, .inl ?_⟩
      exact (update_of_ne hq ..).trans (update_of_ne hk ..)
  case swtch t hl => exact ⟨(update_of_ne hq ..).symm.trans hs, .inl (update_of_ne hq ..)⟩
  all_goals exact ⟨hs, .inl (update_of_ne hq ..)⟩

theorem World.did_running (hq : q ≠ p) (hs : s'.stack q = some c') :
    c' ≠ c ∧ s.stack q = some c' := by
  have hs₀ : s.stack q = some c' := by
    cases hd
    case context k t =>
      by_cases hk : q = k
      · subst hk
        exact absurd ((update_self ..).symm.trans hs) (fun e => by cases e)
      · exact (update_of_ne hk ..).symm.trans hs
    case swtch t hl => exact (update_of_ne hq ..).symm.trans hs
    all_goals exact hs
  exact ⟨h.cpu_ne hr hs₀ hq, hs₀⟩

theorem World.did : World s' := by
  obtain ⟨hplace, htrap, howns⟩ := h.did_self hr hn hd
  refine ⟨h.did_locks hr hn hd, h.did_cpus hr hn hd, fun q => ?_, fun c' q hs => ?_, fun q hs => ?_, fun q => ?_⟩
  all_goals by_cases hq : q = p
  · exact hq ▸ htrap
  · rcases World.did_thread hn hd hq with ht | ht
    · rw [ht]; exact h.trap q
    · rw [ht]; exact fun hne => absurd rfl hne
  · subst hq
    rcases hplace with ⟨-, hrun⟩ | ⟨hnone, -⟩
    · exact hrun
    · rw [hs] at hnone; cases hnone
  · obtain ⟨hc, hs₀⟩ := h.did_running hr hn hd hq hs
    rw [(h.did_stack hr hn hd hc hs₀).2]
    exact h.running_touch (h.did_touch hr hn hd hq) hs₀ hc
  · subst hq
    rcases hplace with ⟨hsome, -⟩ | ⟨-, hpark⟩
    · rw [hs] at hsome; cases hsome
    · exact hpark
  · obtain ⟨hs₀, ht | ⟨ht, hu⟩⟩ := h.did_parked hn hd hq hs
    · rw [ht]; exact h.parked_touch (h.did_touch hr hn hd hq) hs₀
    · rw [ht]; exact .inr hu
  · exact hq ▸ howns
  · exact h.did_owns hr hn hd hq

end

omit [DecidableEq C] in
theorem World.record (h : World s) (ev : Event) : World (s.record ev) :=
  have howns : ∀ p, (s.thread p).pc.Owns (s.record ev) := fun p => by
    have := h.owns p
    cases hpc : (s.thread p).pc <;> rw [hpc] at this <;> exact this
  ⟨⟨h.locks.mem, h.locks.nodup⟩, ⟨h.cpus.run, h.cpus.proc⟩, h.trap, h.running, h.parked, howns⟩

omit [DecidableEq C] in
/-- The process on CPU `c` goes to a place where it holds the same locks and is `RUNNING`. -/
theorem World.setThread (h : World s) (hr : (s.cpu c).run = .thread p) {t : Thread n} (hh : t.held p = (s.thread p).held p)
    (ht : Running p (s.proc p) t) (htrap : t.trap ≠ .off → t.pc.held p = []) (howns : ∀ s' : State n C, t.pc.Owns s') :
    World (s.setThread p t) := by
  have hs := (h.cpus.run c p).mp hr
  have hsame : ∀ q, q ≠ p → (s.setThread p t).thread q = s.thread q := fun q hq => update_of_ne hq ..
  have hself : (s.setThread p t).thread p = t := update_self ..
  refine ⟨h.locks.same (fun _ => rfl) fun c' => ?_, ⟨h.cpus.run, h.cpus.proc⟩, fun q => ?_, fun c' q hq => ?_,
    fun q hq => ?_, fun q => ?_⟩
  · cases hr' : (s.cpu c').run with
    | thread q =>
      rw [held_thread (s := s.setThread p t) hr', held_thread hr']
      by_cases hq : q = p
      · rw [hq, hself, hh]
      · rw [hsame q hq]
    | sched | look | back | irq | irqHold => simp [held, State.setThread, hr']
  all_goals by_cases hqp : q = p
  · rw [hqp, hself]; exact htrap
  · rw [hsame q hqp]; exact h.trap q
  · rw [hqp, hself]; exact ht
  · rw [hsame q hqp]; exact h.running c' q hq
  · rw [hqp] at hq; rw [show s.stack p = none from hq] at hs; cases hs
  · rw [hsame q hqp]; exact h.parked q hq
  · rw [hqp, hself]; exact howns _
  · rw [hsame q hqp]
    cases hf : (s.thread q).pc.found with
    | none => exact Pc.owns_of_not_found hf _
    | some j =>
      have hj : j ≠ p := by
        rintro rfl
        rw [h.stack_unused (h.found hf).1] at hs
        cases hs
      exact Pc.owns_congr (s := s) hf rfl (hsame j hj) (h.owns q)

/-- CPU `c` in `scheduler` takes or gives up a lock, and may wake the process. -/
theorem World.setSched (h : World s) {x : Entry n C} (hr : ∀ p, (s.cpu c).run ≠ .thread p)
    (hx : Wake s c j x) (hy : ∀ p, y.run ≠ .thread p) (hp : y.proc = y.run.proc)
    (hl : Locks ((s.setEntry j x).setCpu c y)) : World ((s.setEntry j x).setCpu c y) := by
  have hstate : (s.proc j).state = .unused → x.state = .unused := fun hu => by
    rcases hx with ⟨hst, -⟩ | ⟨-, hsl, -⟩
    · rw [hst, hu]
    · rw [hu] at hsl; cases hsl
  have hcpus : Stacks ((s.setEntry j x).setCpu c y) := by
    obtain ⟨run, proc⟩ := h.cpus
    constructor <;> simp only [setEntry, State.setCpu, update_apply] <;> grind
  refine ⟨hl, hcpus, h.trap, fun c' => ?_, ?_, fun q => ?_⟩
  · refine forall_update (C := fun q (x : Entry n C) => s.stack q = some c' → Running q x (s.thread q)) (fun hs => ?_)
      fun q _ hs => h.running c' q hs
    refine h.running_touch (.inl hx) hs ?_
    rintro rfl
    exact hr j ((h.cpus.run c' j).mpr hs)
  · exact forall_update (C := fun q (x : Entry n C) => s.stack q = none → Parked q x (s.thread q))
      (h.parked_touch (.inl hx)) fun q _ => h.parked q
  · cases hf : (s.thread q).pc.found with
    | none => exact Pc.owns_of_not_found hf _
    | some k =>
      refine Pc.owns_congr (s := s) hf ?_ rfl (h.owns q)
      have hu := (h.found hf).1
      by_cases hk : k = j
      · subst hk
        rw [hu, ← hstate hu]
        exact congrArg _ (update_self ..)
      · exact congrArg _ (update_of_ne hk ..)

theorem held_setCpu {x : Entry n C} (hc : c' ≠ c) :
    ((s.setEntry j x).setCpu c y).held c' = s.held c' := by
  simp only [held, State.setCpu, setEntry, update_of_ne hc]

section

variable (h : World s) (hr : ∀ p, (s.cpu c).run ≠ .thread p)
include h hr

/-- CPU `c` takes a lock in `scheduler`. -/
theorem World.acquire (hl : (s.proc j).lock = none) (hheld : s.held c = [])
    (hy : ∀ p, y.run ≠ .thread p) (hp : y.proc = y.run.proc)
    (hy' : ∀ s' : State n C, (s'.setCpu c y).held c = [j]) :
    World ((s.setEntry j ((s.proc j).withLock (some c))).setCpu c y) := by
  refine h.setSched hr (.inl ⟨rfl, rfl⟩) hy hp (h.locks.acquire hl (fun k => ?_) ?_ fun c' hc => held_setCpu hc)
  · simp only [State.setCpu, setEntry, update_apply]
    split <;> rfl
  · rw [hy', hheld]

/-- CPU `c` gives up a lock in `scheduler`. -/
theorem World.release {x : Entry n C} (hx : Wake s c j x) (hheld : s.held c = [j])
    (hy : ∀ p, y.run ≠ .thread p) (hp : y.proc = y.run.proc)
    (hy' : ∀ s' : State n C, (s'.setCpu c y).held c = []) :
    World ((s.setEntry j (x.withLock none)).setCpu c y) := by
  refine h.setSched hr hx hy hp (h.locks.release (j := j) (c := c) (fun k => ?_) ?_ fun c' hc => held_setCpu hc)
  · simp only [State.setCpu, setEntry, update_apply]
    split <;> rfl
  · rw [hy', hheld]

theorem World.setCpu (hheld : s.held c = []) (hy : ∀ p, y.run ≠ .thread p)
    (hp : y.proc = y.run.proc) (hy' : ∀ s' : State n C, (s'.setCpu c y).held c = []) :
    World (s.setCpu c y) := by
  have hsame : s.setEntry initproc (s.proc initproc) = s := by
    rw [setEntry, update_eq_self]
  have := h.setSched (j := initproc) (x := s.proc initproc) hr (.inl ⟨rfl, rfl⟩) hy hp
  rw [hsame] at this
  refine this (h.locks.same (fun _ => rfl) fun c' => ?_)
  by_cases hc : c' = c
  · rw [hc, hy', hheld]
  · rw [← hsame, held_setCpu hc, hsame]

end

/-- `scheduler` switches to a process whose context is saved. -/
theorem World.setRunning (h : World s) (hr : (s.cpu c).run = .look j)
    (hj : (s.proc j).state = .runnable) :
    World (((s.setEntry j { s.proc j with state := .running }).setStack j (some c)).setCpu c ⟨some j, .thread j⟩) := by
  have hheld : s.held c = [j] := by rw [held, hr]
  have hlock : (s.proc j).lock = some c := (h.locks.mem c j).mpr (by rw [hheld]; exact List.mem_cons_self ..)
  have hs : s.stack j = none := h.stack_none hlock (by rw [hr]; exact fun e => by cases e) (by rw [hj]; decide)
  have hpark := h.parked j hs
  have hcpus : Stacks (((s.setEntry j { s.proc j with state := .running }).setStack j (some c)).setCpu c
      ⟨some j, .thread j⟩) := by
    obtain ⟨run, proc⟩ := h.cpus
    constructor <;> simp only [setEntry, setStack, State.setCpu, update_apply] <;> grind [Run.proc]
  refine ⟨h.locks.same (fun k => ?_) fun c' => ?_, hcpus, h.trap, fun c' q hq => ?_, fun q hq => ?_, fun q => ?_⟩
  · simp only [setEntry, setStack, State.setCpu, update_apply]
    split
    next hk => rw [hk]
    next => rfl
  · by_cases hc : c' = c
    · rw [hc, held_thread (p := j) (by simp [State.setCpu]), hheld]
      exact hpark.held hj
    · exact held_setCpu (j := j) (x := { s.proc j with state := .running }) hc
  · by_cases hqj : q = j
    · subst hqj
      exact hpark.resume hj (by simp [setEntry, setStack, State.setCpu])
    · have hq₀ : s.stack q = some c' := (update_of_ne hqj ..).symm.trans hq
      exact (h.running c' q hq₀).congr (by simp [setEntry, setStack, State.setCpu, hqj])
        (by simp [setEntry, setStack, State.setCpu, hqj])
  · have hqj : q ≠ j := by
      rintro rfl
      exact absurd ((update_self ..).symm.trans hq) (fun e => by cases e)
    have hq₀ : s.stack q = none := (update_of_ne hqj ..).symm.trans hq
    exact (h.parked q hq₀).congr (by simp [setEntry, setStack, State.setCpu, hqj])
      (by simp [setEntry, setStack, State.setCpu, hqj])
  · cases hf : (s.thread q).pc.found with
    | none => exact Pc.owns_of_not_found hf _
    | some k =>
      refine Pc.owns_congr (s := s) hf (congrArg _ (update_of_ne ?_ ..)) rfl (h.owns q)
      rintro rfl
      rw [(h.found hf).1] at hj
      cases hj

omit [DecidableEq C] in
theorem Call.held_entry (k : Call) : (k.entry : Pc n).held p = [] := by cases k <;> rfl

omit [DecidableEq C] in
/-- An interrupt comes in where no lock is held. -/
theorem World.interrupt (h : World s) (hr : (s.cpu c).run = .thread p) (hi : (s.thread p).interruptible p) {trap : Trap n}
    (ht : trap = .yield ∨ ∃ chan, trap = .wakeup chan 0) : World (s.setThread p ⟨(s.thread p).pc, trap⟩) := by
  obtain ⟨hoff, hpc⟩ := hi
  have hrun := h.running c p ((h.cpus.run c p).mp hr)
  have hheld : (s.thread p).held p = [] := by rw [Thread.held, hoff]; exact hpc
  have hthread : s.thread p = ⟨(s.thread p).pc, .off⟩ := by rw [← hoff]
  rw [hthread, running_base hpc] at hrun
  rcases ht with rfl | ⟨chan, rfl⟩
  all_goals exact h.setThread hr hheld.symm hrun (fun _ => hpc) (Pc.owns_of_nil hpc)

theorem World.boot (n : Nat) (C : Type) : World (boot n C) := by
  have hthread : ∀ p : Slot n, (Proc.boot n C).thread p = .base .forkret ∨ (Proc.boot n C).thread p = .base .dead := by
    intro p
    simp only [Proc.boot]
    split
    · exact .inl rfl
    · exact .inr rfl
  refine ⟨⟨fun c j => ?_, fun c => List.nodup_nil⟩, ⟨fun c p => ?_, fun c => rfl⟩, fun p => ?_, fun c p hs => ?_,
    fun p _ => ?_, fun p => ?_⟩
  · simp only [Proc.boot, held]
    split <;> simp [Entry.empty]
  · simp [Proc.boot]
  · rcases hthread p with ht | ht <;> rw [ht] <;> exact fun hne => absurd rfl hne
  · cases hs
  · simp only [Proc.boot]
    split
    · exact .inl rfl
    · exact .inr rfl
  · rcases hthread p with ht | ht <;> rw [ht] <;> trivial

theorem World.move (h : World s) (hm : Move s a s') : World s' := by
  cases hm
  case call c p k hr ht hk =>
    have hrun := h.running c p ((h.cpus.run c p).mp hr)
    rw [ht] at hrun
    exact h.setThread hr (by rw [ht]; exact k.held_entry) ((running_base k.held_entry).mpr hrun)
      (fun hne => absurd rfl hne) (Pc.owns_of_nil (p := p) k.held_entry)
  case exit c p st hr ht hp =>
    have hrun := h.running c p ((h.cpus.run c p).mp hr)
    rw [ht] at hrun
    exact (h.record _).setThread hr (by rw [State.record, ht]; rfl) ((running_base rfl).mpr hrun)
      (fun hne => absurd rfl hne) (Pc.owns_of_nil (p := p) rfl)
  case timer c p hr hi => exact h.interrupt hr hi (.inl rfl)
  case wakeup c p chan hr hi => exact h.interrupt hr hi (.inr ⟨chan, rfl⟩)
  case interrupt c i chan hr =>
    apply h.setCpu <;> simp [held, State.setCpu, Run.proc, h.cpus.proc, hr]
  case thread c p ok e hr hn hd => exact h.did hr hn hd
  case acquire c ok i j hr hi hl =>
    apply h.acquire _ hl <;> simp [held, State.setCpu, Run.proc, h.cpus.proc, hr]
  case again c ok i hr =>
    apply h.setCpu <;> simp [held, State.setCpu, Run.proc, h.cpus.proc, hr]
  case dispatch c ok j hr hj => exact h.setRunning hr hj
  case skip c ok j hr hl =>
    apply h.release _ (.inl ⟨rfl, rfl⟩) <;> simp [held, State.setCpu, Run.proc, h.cpus.proc, hr]
  case back c ok j hr hl =>
    apply h.release _ (.inl ⟨rfl, rfl⟩) <;> simp [held, State.setCpu, Run.proc, hr]
  case irqAcquire c ok chan i resume j hr hi hl =>
    apply h.acquire _ hl <;> simp [held, State.setCpu, Run.proc, h.cpus.proc, hr]
  case irqEnd c ok chan i resume hr =>
    apply h.setCpu <;> simp [held, State.setCpu, Run.proc, h.cpus.proc, hr]
  case irqRelease c ok chan resume j hr hl =>
    have hx : Wake s c j ((s.proc j).wakeup chan) := by
      unfold Entry.wakeup
      split
      next hw => exact .inr ⟨.inr hl, hw.1, rfl, rfl⟩
      next => exact .inl ⟨rfl, rfl⟩
    apply h.release _ hx <;> simp [held, State.setCpu, Run.proc, h.cpus.proc, hr]

theorem World.step (h : World s) (hs : step s a = some (.ok s')) : World s' := h.move (step_move hs)

section

omit [DecidableEq C]

variable {x y : Entry n C}

theorem Entry.Stirred.refl (x : Entry n C) : x.Stirred x := ⟨rfl, .inl rfl⟩

theorem Entry.stirred_withLock (l : Option C) (x : Entry n C) : (x.withLock l).Stirred x := ⟨rfl, .inl rfl⟩

theorem Entry.stirred_wakeup (l : Option C) (chan : Chan n) (x : Entry n C) : ((x.wakeup chan).withLock l).Stirred x := by
  unfold Entry.wakeup
  split
  next hx => exact ⟨rfl, .inr ⟨.inl rfl, by rw [hx.1]; rfl⟩⟩
  next => exact ⟨rfl, .inl rfl⟩

theorem Entry.Stirred.parent (h : x.Stirred y) : x.parent = y.parent := by rw [h.eq]

theorem Entry.Stirred.life (h : x.Stirred y) : Proc.life x.state = Proc.life y.state := by
  rcases h.state with hs | ⟨hs | hs, hy⟩
  · rw [hs]
  · rw [hs, hy]; rfl
  · rw [hs, hy]; rfl

/-- Nobody falls asleep, dies or leaves a slot. -/
theorem Entry.Stirred.state_of (h : x.Stirred y) (hr : x.state ≠ .runnable) (hr' : x.state ≠ .running) : y.state = x.state :=
  (h.state.resolve_right fun hs => hs.1.elim hr hr').symm

end

omit [DecidableEq C] in
/-- One slot is stirred. -/
theorem Quiet.setEntry {x : Entry n C} (hx : x.Stirred (s.proc j)) (hp : s'.proc = (s.setEntry j x).proc)
    (ht : ∀ q, (s'.thread q).pc = (s.thread q).pc) (hb : s'.births = s.births) (hh : s'.history = s.history) : Quiet s s' := by
  refine ⟨ht, ?_, hb, hh⟩
  rw [hp]
  exact forall_update (C := fun q (x : Entry n C) => x.Stirred (s.proc q)) hx fun _ _ => .refl _

omit [DecidableEq C] in
theorem setThread_pc {t : Thread n} (ht : t.pc = (s.thread p).pc) (q : Slot n) :
    ((s.setThread p t).thread q).pc = (s.thread q).pc := by
  by_cases hq : q = p
  · rw [hq, State.setThread_self, ht]
  · rw [State.setThread_of_ne _ hq]

/-- The code of `yield` and `wakeup` on top of a call. -/
theorem World.did_trap (h : World s) (hr : (s.cpu c).run = .thread p) (hn : (s.thread p).next s p ok = some e) (hd : Did s c p e s')
    (hoff : (s.thread p).trap ≠ .off) : Quiet s s' := by
  have hrun := h.running c p ((h.cpus.run c p).mp hr)
  rcases ht : s.thread p with ⟨pc, trap⟩
  have hpc : ∀ trap q, (update s.thread p ⟨pc, trap⟩ q).pc = (s.thread q).pc := fun trap => setThread_pc (by rw [ht])
  rw [ht] at hn hrun hoff
  cases trap
  case off => exact absurd rfl hoff
  all_goals
    simp only [Thread.next, Trap.next] at hn
    repeat' split at hn
  all_goals cases hn
  all_goals cases hd
  case yield => exact .setEntry ⟨rfl, .inr ⟨.inl rfl, by rw [show (s.proc p).state = _ from hrun]; rfl⟩⟩ rfl (hpc _) rfl rfl
  case waking => exact .setEntry (Entry.stirred_wakeup _ _ _) rfl (hpc _) rfl rfl
  all_goals first
    | exact ⟨hpc _, fun _ => .refl _, rfl, rfl⟩
    | exact .setEntry (Entry.stirred_withLock _ _) rfl (hpc _) rfl rfl

theorem World.moved (h : World s) (hm : Move s a s') : Moved s a s' := by
  cases hm
  case call c p k hr ht hk => exact .call k hr ht hk
  case exit c p st hr ht hp => exact .exit st hr ht hp
  case thread c p ok e hr hn hd =>
    by_cases hoff : (s.thread p).trap = .off
    · have ht : s.thread p = .base (s.thread p).pc := by rw [Thread.base, ← hoff]
      rw [ht] at hn
      exact .code hr ht hn hd
    · exact .quiet (h.did_trap hr hn hd hoff)
  all_goals apply Moved.quiet
  case timer | wakeup => exact ⟨setThread_pc rfl, fun _ => .refl _, rfl, rfl⟩
  case interrupt | again | irqEnd => exact ⟨fun _ => rfl, fun _ => .refl _, rfl, rfl⟩
  case dispatch c ok j hr hj => exact .setEntry ⟨rfl, .inr ⟨.inr rfl, by rw [hj]; rfl⟩⟩ rfl (fun _ => rfl) rfl rfl
  case irqRelease => exact .setEntry (Entry.stirred_wakeup _ _ _) rfl (fun _ => rfl) rfl rfl
  all_goals exact .setEntry (Entry.stirred_withLock _ _) rfl (fun _ => rfl) rfl rfl

theorem World.reachable {as : List (Act n C)} (h : run Proc.step (Proc.boot n C) as = some (.ok s)) : World s :=
  run_invariant (C := fun _ _ => True) (fun _ _ _ hw _ => hw.step) (World.boot n C) (eachStep_true as _) h

/-- For any number of slots and CPUs, in every state reached: at most one CPU is on the kernel stack
of a process; when `p->lock` is free, `p` is `RUNNING` if and only if exactly one CPU has `c->proc
== p`; and the process that `scheduler` is about to switch to is on no CPU, and its registers are
saved. -/
theorem runs_on_one_cpu (as : List (Act n C)) (h : run step (boot n C) as = some (.ok s)) :
    (∀ c c' p, (s.cpu c).run = .thread p → (s.cpu c').run = .thread p → c' = c) ∧
    (∀ p, (s.proc p).lock = none → ((s.proc p).state = .running ↔ ∃! c, (s.cpu c).proc = some p)) ∧
    (∀ c j, (s.cpu c).run = .look j → (s.proc j).state = .runnable →
      s.stack j = none ∧ (∀ c', (s.cpu c').run ≠ .thread j) ∧ (s.thread j).saved = true) := by
  have hw := World.reachable h
  refine ⟨fun c c' p hc hc' => ?_, fun p hl => ⟨fun hrun => ?_, ?_⟩, fun c j hr hj => ?_⟩
  · rw [hw.cpus.run] at hc hc'
    exact Option.some.inj (hc'.symm.trans hc)
  · obtain ⟨c, hs⟩ : ∃ c, s.stack p = some c := hw.on_cpu hrun
    have hr := (hw.cpus.run c p).mpr hs
    refine ⟨c, (hw.cpus.proc c).trans (by rw [hr]; rfl), fun c' hc' => ?_⟩
    have hr' := hw.thread_of_proc hl hc'
    rw [hw.cpus.run, hs] at hr'
    exact (Option.some.inj hr').symm
  · rintro ⟨c, hc, -⟩
    have hs := (hw.cpus.run c p).mp (hw.thread_of_proc hl hc)
    exact hw.running_of_unlocked hs (by rw [hl]; exact fun e => by cases e)
  · have hheld : s.held c = [j] := by rw [held, hr]
    have hlock := (hw.locks.mem c j).mpr (by rw [hheld]; exact List.mem_cons_self ..)
    have hs := hw.stack_none hlock (by rw [hr]; exact fun e => by cases e) (by rw [hj]; decide)
    refine ⟨hs, fun c' hc' => ?_, (hw.parked j hs).saved⟩
    rw [hw.cpus.run, hs] at hc'
    cases hc'

/-- One of two CPUs switches to `initproc`, which gives up the lock that `scheduler` took. -/
theorem runs_on_one_cpu_first : ∃ s : State 1 Bool,
    run step (boot 1 Bool) [.go false true, .go false true, .go false true] = some (.ok s) ∧
      (s.proc initproc).lock = none ∧ (s.proc initproc).state = .running ∧
      (∀ c c' p, (s.cpu c).run = .thread p → (s.cpu c').run = .thread p → c' = c) ∧
      (∀ p, (s.proc p).lock = none → ((s.proc p).state = .running ↔ ∃! c, (s.cpu c).proc = some p)) ∧
      (∀ c j, (s.cpu c).run = .look j → (s.proc j).state = .runnable →
        s.stack j = none ∧ (∀ c', (s.cpu c').run ≠ .thread j) ∧ (s.thread j).saved = true) :=
  ⟨_, rfl, rfl, rfl, runs_on_one_cpu [.go false true, .go false true, .go false true] rfl⟩

/-! ## Panics -/

variable {e : Effect n C} {x : SpinPanic}

theorem acquiring_error {l : Option C} (h : acquiring l c s' = some (.error x)) : x = .acquire := by
  unfold acquiring at h
  repeat' split at h
  all_goals cases h
  rfl

theorem World.releasing_ne (h : World s) (hj : j ∈ s.held c) :
    releasing (s.proc j).lock c s' ≠ some (.error x) := by
  unfold releasing
  rw [if_pos ((h.locks.mem c j).mpr hj)]
  exact fun e => by cases e

omit [DecidableEq C] in
/-- A process gives up its CPU in another state than `RUNNING`, and one that has exited does not go
on. -/
theorem Running.next {t : Thread n} {y : Entry n C} (h : Running p y t) (hn : t.next s p ok = some e) :
    (∀ u, e = .swtch u → y.state ≠ .running) ∧ e ≠ .panic x := by
  obtain ⟨pc, trap⟩ := t
  cases trap
  case off =>
    cases pc <;> simp only [Thread.next, Pc.next] at hn
    all_goals repeat' split at hn
    all_goals cases hn
    all_goals simp_all [Running]
  all_goals
    simp only [Thread.next, Trap.next] at hn
    repeat' split at hn
  all_goals cases hn
  all_goals simp_all [Running]

/-- `sched` is called with `p->lock` and no other. -/
theorem World.noff_eq_one (h : World s) (hheld : s.held c = [p]) : s.noff c = 1 := by
  have hlock : (fun j => decide ((s.proc j).lock = some c)) = (· == p) := by
    funext j
    rw [Bool.beq_eq_decide_eq]
    apply decide_eq_decide.mpr
    rw [h.locks.mem, hheld, List.mem_singleton]
  unfold State.noff
  rw [hlock]
  exact List.count_eq_one_of_mem (List.nodup_finRange _) (List.mem_finRange p)

theorem World.exec_error (h : World s) (hr : (s.cpu c).run = .thread p) (hn : (s.thread p).next s p ok = some e)
    (hx : e.exec s c p = some (.error x)) : x = .acquire := by
  have hfits := Thread.next_fits (h.trap p) hn
  have hnext := (h.running c p ((h.cpus.run c p).mp hr)).next (x := x) hn
  rw [← held_thread hr] at hfits
  cases e with
  | acquire j f t => exact acquiring_error hx
  | release j f t => exact absurd hx (h.releasing_ne (hfits.subset List.mem_cons_self))
  | wakeup1 j t =>
    rw [Effect.exec, if_pos ((h.locks.mem c j).mpr hfits.2)] at hx
    cases hx
  | swtch t =>
    have hlock : (s.proc p).lock = some c := (h.locks.mem c p).mpr (hfits.2 ▸ List.mem_cons_self)
    have hnoff := h.noff_eq_one hfits.2
    have hintr : ¬ s.intr c := by
      rw [State.intr, hnoff]
      decide
    rw [Effect.exec, if_neg (not_not.mpr hlock), if_neg (not_not.mpr hnoff), if_neg (hnext.1 t rfl), if_neg hintr] at hx
    cases hx
  | panic y => cases hx; exact absurd rfl hnext.2
  | _ => cases hx

theorem World.step_error (h : World s) (hx : Proc.step s a = some (.error x)) : x = .acquire ∨ x = .initExiting := by
  cases a with
  | call c k =>
    simp only [Proc.step] at hx
    cases k <;> simp only [callStep] at hx
    all_goals repeat' split at hx
    all_goals cases hx
    exact .inr rfl
  | timer c | wakeup c chan =>
    simp only [Proc.step] at hx
    repeat' split at hx
    all_goals cases hx
  | go c ok =>
    left
    simp only [Proc.step] at hx
    cases hr : (s.cpu c).run
    all_goals
      rw [hr] at hx
      simp only [Run.step] at hx
    case thread p =>
      split at hx
      next hn => exact h.exec_error hr hn hx
      next => cases hx
    all_goals repeat' split at hx
    all_goals first
      | exact acquiring_error hx
      | exact absurd hx (h.releasing_ne (by rw [held, hr]; exact List.mem_cons_self))
      | cases hx

end Xv6.Proc
