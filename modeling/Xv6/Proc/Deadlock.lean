import Xv6.Lib.WaitFor
import Xv6.Proc.WaitSleep

/-!
# Deadlock on process locks

Where the code takes a lock while it holds another, it goes from a parent to a child, and a parent
was born before its children. So the births are a lock order, but for one place: `exit` reads
`p->parent` and gives up `p->lock` before it locks the parent. If that slot is freed in between and
`allocproc` takes it for a process that was born after `p`, then `exit` goes against the order, and
two CPUs can wait for each other for ever. Locks other than those of `proc[]` are not modelled, and
starvation is not excluded.
-/

namespace Xv6.Proc

variable {n : Nat} {C : Type}

/-- The lock that CPU `c` takes in its next step. -/
def State.wants (s : State n C) (c : C) : Option (Slot n) :=
  match (s.cpu c).run with
  | .sched i | .irq _ i _ => slot? i
  | .thread p =>
    match (s.thread p).next s p true with
    | some (.acquire j _ _) => some j
    | _ => none
  | _ => none

/-- CPU `c` spins in `acquire` on a process lock that CPU `c'` holds. -/
def SpinsOn (s : State n C) (c c' : C) : Prop := WaitsFor s.wants (fun j => (s.proc j).lock) c c'

/-- The slot that `exit` has read as its parent and has not locked yet. -/
def Pc.remembers : Pc n → Option (Slot n)
  | .exitParent _ op => some op
  | _ => none

/-- The slot that `allocproc` takes in this step. -/
def takes (s : State n C) : Act n C → Option (Slot n)
  | .go c ok =>
    match (s.cpu c).run with
    | .thread p =>
      match (s.thread p).next s p ok with
      | some (.acquire _ _ ⟨.allocPid j, _⟩) => some j
      | _ => none
    | _ => none
  | _ => none

/-- `allocproc` takes no slot that an exiting process is about to lock as its parent. -/
def NotRemembered (s : State n C) (a : Act n C) : Prop :=
  ∀ j, takes s a = some j → ∀ q, (s.thread q).pc.remembers ≠ some j

instance (s : State n C) (a : Act n C) : Decidable (NotRemembered s a) :=
  inferInstanceAs (Decidable (∀ j, takes s a = some j → ∀ q, (s.thread q).pc.remembers ≠ some j))

/-- The saved parent is older than the process that exits. -/
structure Ordered (s : State n C) : Prop where
  original : ∀ q op, (s.thread q).pc.original = some op → (s.proc op).birth < (s.proc q).birth
  fresh : ∀ q j, (s.thread q).pc.found = some j → ∀ r, (s.thread r).pc.remembers ≠ some j

variable {s s' : State n C} {c : C} {p : Slot n} {ok : Bool} {a : Act n C} {e : Effect n C}
  {pc : Pc n} {j : Slot n}

/-- `exit` is about to lock the parent that it saved, or has locked it. -/
theorem Pc.original_cases {q op : Slot n} (h : pc.original = some op) :
    pc.remembers = some op ∨ op ∈ pc.held q ∧ pc.resumes = false := by
  cases pc <;> cases h <;> first | exact .inl rfl | exact .inr ⟨by simp [Pc.held], rfl⟩

theorem Pc.not_remembers_of_found (h : pc.found = some j) : pc.remembers ≠ some j := by
  cases pc <;> cases h <;> exact fun e => by cases e

theorem life_unused {x : ProcState} (h : life x = .unused) : x = .unused := by
  cases x <;> first | rfl | cases h

theorem Inv.older (h : Inv s) (hp : (s.proc j).parent = some p)
    (hf : (s.thread p).pc ≠ .forkRun j) : (s.proc p).birth < (s.proc j).birth :=
  h.sound.ages.older j p (fun hu => hf (h.kinship.unborn j p (life_unused hu) hp)) hp

/-- Where the code takes a lock while it holds another, it takes that of a younger process. -/
theorem Inv.rank_thread (h : Inv s) (ho : Ordered s) {i : Slot n} {f : Entry n C → Entry n C}
    {t : Thread n} (hn : (s.thread p).next s p true = some (.acquire i f t))
    (hj : j ∈ (s.thread p).held p) : (s.proc j).birth < (s.proc i).birth := by
  have hkin := h.kinship.kin p
  have horiginal := ho.original p
  have holder := fun k => h.older (p := p) (j := k)
  rcases ht : s.thread p with ⟨pc, trap⟩
  rw [ht] at hn hj hkin horiginal holder
  cases trap
  case off =>
    simp only [Thread.next] at hn
    cases pc <;> simp only [Pc.next] at hn
    case exitBoth st op =>
      cases hn
      obtain rfl : j = op := List.mem_singleton.mp hj
      exact horiginal j rfl
    case reparentLock st op k =>
      cases hn
      have hpk : (s.proc p).birth < (s.proc i).birth := holder i hkin.1 (fun e => by cases e)
      rcases List.mem_cons.mp hj with rfl | hj
      · exact (horiginal j rfl).trans hpk
      · rwa [List.mem_singleton.mp hj]
    case scanLock copy k =>
      cases hn
      rw [List.mem_singleton.mp hj]
      exact holder i hkin (fun e => by cases e)
    all_goals repeat' split at hn
    all_goals first | (cases hn; cases hj) | cases hn
  all_goals
    simp only [Thread.next, Trap.next] at hn
    repeat' split at hn
  all_goals first | (cases hn; cases hj) | cases hn

theorem Inv.rank (h : Inv s) (ho : Ordered s) {i : Slot n} (hi : s.wants c = some i)
    (hj : (s.proc j).lock = some c) : (s.proc j).birth < (s.proc i).birth := by
  rw [h.world.locks.mem] at hj
  unfold State.wants at hi
  cases hr : (s.cpu c).run with
  | thread p =>
    rw [held_thread hr] at hj
    simp only [hr] at hi
    split at hi
    next hn => cases hi; exact h.rank_thread ho hn hj
    next => cases hi
  | sched k | irq chan k resume =>
    rw [State.held, hr] at hj
    cases hj
  | look k | back k | irqHold chan k resume =>
    rw [hr] at hi
    cases hi

theorem Inv.no_cycle (h : Inv s) (ho : Ordered s) (c : C) : ¬ Relation.TransGen (SpinsOn s) c c :=
  no_cycle_of_rank (fun j => (s.proc j).birth) (fun _ _ _ => h.rank ho) c

variable [DecidableEq C]

section

variable (h : Inv s) (ho : Ordered s) (hr : (s.cpu c).run = .thread p) (ht : s.thread p = .base pc)
  (hn : pc.next s p ok = some e) (hd : Did s c p e s')

include ht hn hd

/-- A birth is given in `fork`, `exit` saves the parent of the process, and `allocproc` takes the
slot that it finds. -/
theorem did_place :
    (∀ k, (s'.proc k).birth = (s.proc k).birth ∨ (s.thread p).pc = .forkRun k) ∧
    (∀ op, (s'.thread p).pc.original = some op → (s.thread p).pc.original = some op ∨
      (s.proc p).parent = some op ∧ ∀ k, (s.thread p).pc ≠ .forkRun k) ∧
    (∀ op, (s'.thread p).pc.remembers = some op → (s.thread p).pc.remembers = some op ∨ (s.proc p).parent = some op) ∧
    (∀ j, (s'.thread p).pc.found = some j → (s.thread p).pc.found = some j ∨ ∃ f, e = .acquire j f (.base (.allocPid j))) := by
  rw [ht]
  cases pc <;> simp only [Pc.next] at hn
  all_goals repeat' split at hn
  all_goals cases hn
  all_goals cases hd
  all_goals simp only [State.setEntry, State.setThread, State.setStack, State.setCpu, State.allocpid, State.record,
    State.start, Function.update_self]
  all_goals refine ⟨fun k => ?_, ?_⟩
  all_goals first
    | exact ⟨(fun _ e => by cases e), (fun _ e => by cases e), fun _ e => by cases e; exact .inr ⟨id, rfl⟩⟩
    | grind [Pc.original, Pc.remembers, Pc.found, Thread.base, Entry.withLock, Entry.wakeup,
        Entry.kill, Entry.free, Function.update_apply]

include h ho hr

theorem Ordered.did (hc : NotRemembered s (.go c ok)) : Ordered s' := by
  obtain ⟨hbirths, hop, hre, hfo⟩ := did_place ht hn hd
  have hbirth : ∀ k, (∀ j, (s.thread p).pc ≠ .forkRun j) ∨ (s.thread p).pc ≠ .forkRun k →
      (s'.proc k).birth = (s.proc k).birth := fun k hk =>
    (hbirths k).resolve_right fun he => hk.elim (fun hk => hk k he) fun hk => hk he
  refine ⟨fun q op hq => ?_, fun q j hq r hr' => ?_⟩
  · by_cases hqp : q = p
    · subst hqp
      have hne : (s.proc op).birth < (s.proc q).birth ∧ ∀ k, (s.thread q).pc ≠ .forkRun k := by
        rcases hop op hq with hq | ⟨hpar, hne⟩
        · refine ⟨ho.original q op hq, fun k he => ?_⟩
          rw [he] at hq
          cases hq
        · have hused := (h.world.running c q ((h.world.cpus.run c q).mp hr)).used
          exact ⟨h.sound.ages.older q op (fun hu => hused (life_unused hu)) hpar, hne⟩
      rw [hbirth op (.inl hne.2), hbirth q (.inl hne.2)]
      exact hne.1
    · rcases World.did_thread (next_base ht hn) hd hqp with ht' | ht'
      · rw [ht'] at hq
        rw [hbirth op (.inr fun he => ?_), hbirth q (.inr fun he => ?_)]
        · exact ho.original q op hq
        · have hfound : (s.thread p).pc.found = some q := by rw [he]; rfl
          have halive := h.world.alive_of_original hq
          rw [(h.world.found hfound).1] at halive
          cases halive
        · have hfound : (s.thread p).pc.found = some op := by rw [he]; rfl
          rcases Pc.original_cases hq with hre | ⟨hmem, hres⟩
          · exact ho.fresh p op hfound q hre
          · obtain ⟨c', hs', hl'⟩ := h.world.holder hmem hres
            obtain ⟨-, c'', hs, hl⟩ := h.world.found hfound
            cases hl.symm.trans hl'
            exact h.world.cpu_ne ((h.world.cpus.run c' p).mpr hs) hs' hqp rfl
      · rw [ht'] at hq
        cases hq
  · by_cases hqp : q = p
    · subst hqp
      by_cases hrq : r = q
      · exact Pc.not_remembers_of_found hq (hrq ▸ hr')
      · rcases World.did_thread (next_base ht hn) hd hrq with ht' | ht'
        · rw [ht'] at hr'
          rcases hfo j hq with hfound | ⟨f, rfl⟩
          · exact ho.fresh q j hfound r hr'
          · exact hc j (by simp only [takes, hr, next_base ht hn]; rfl) r hr'
        · rw [ht'] at hr'
          cases hr'
    · rcases World.did_thread (next_base ht hn) hd hqp with ht' | ht'
      · rw [ht'] at hq
        by_cases hrp : r = p
        · subst hrp
          rcases hre j hr' with hre | hpar
          · exact ho.fresh q j hq r hre
          · exact h.parent_used r j hpar (h.world.found hq).1
        · rcases World.did_thread (next_base ht hn) hd hrp with ht' | ht'
          · exact ho.fresh q j hq r (ht' ▸ hr')
          · rw [ht'] at hr'
            cases hr'
      · rw [ht'] at hq
        cases hq

end

omit [DecidableEq C] in
theorem Ordered.quiet (h : Ordered s) (hq : Quiet s s') : Ordered s' := by
  have hb : ∀ q, (s'.proc q).birth = (s.proc q).birth := fun q => by rw [(hq.stirred q).eq]
  refine ⟨fun q op ho => ?_, fun q j hj r => ?_⟩
  · rw [hb, hb]
    exact h.original q op (hq.pc q ▸ ho)
  · rw [hq.pc]
    exact h.fresh q j (hq.pc q ▸ hj) r

omit [DecidableEq C] in
theorem Ordered.setThread (h : Ordered s) (ho : pc.original = none) (hf : pc.found = none)
    (hr : pc.remembers = none) : Ordered (s.setThread p (.base pc)) := by
  have hthread : ∀ q, (s.setThread p (.base pc)).thread q = s.thread q ∨ (s.setThread p (.base pc)).thread q = .base pc :=
    fun q => by
      by_cases hq : q = p
      · rw [hq]; exact .inr (State.setThread_self ..)
      · exact .inl (State.setThread_of_ne _ hq _)
  refine ⟨fun q op hq => ?_, fun q j hq r hr' => ?_⟩
  · rcases hthread q with ht | ht <;> rw [ht] at hq
    · exact h.original q op hq
    · cases ho.symm.trans hq
  · rcases hthread q with ht | ht <;> rw [ht] at hq
    · rcases hthread r with ht | ht <;> rw [ht] at hr'
      · exact h.fresh q j hq r hr'
      · cases hr.symm.trans hr'
    · cases hf.symm.trans hq

theorem Ordered.move (h : Inv s) (ho : Ordered s) (hc : NotRemembered s a) (hm : Move s a s') : Ordered s' := by
  cases h.world.moved hm
  case call c p k hr ht hk => exact ho.setThread (by cases k <;> rfl) (by cases k <;> rfl) (by cases k <;> rfl)
  case exit c p st hr ht hp =>
    have ho' : Ordered (s.record (.exit (s.proc p).birth (s.proc p).pid st)) := ⟨ho.original, ho.fresh⟩
    exact ho'.setThread rfl rfl rfl
  case code c p ok pc e hr ht hn hd => exact ho.did h hr ht hn hd hc
  case quiet hq => exact ho.quiet hq

theorem Ordered.boot (n : Nat) (C : Type) : Ordered (boot n C) := by
  have hpc : ∀ q, ((Proc.boot n C).thread q).pc = .forkret ∨ ((Proc.boot n C).thread q).pc = .dead := fun q => by
    simp only [Proc.boot]
    split
    · exact .inl rfl
    · exact .inr rfl
  refine ⟨fun q op ho => ?_, fun q j hf => ?_⟩
  · rcases hpc q with h | h <;> rw [h] at ho <;> cases ho
  · rcases hpc q with h | h <;> rw [h] at hf <;> cases hf

/-- If `allocproc` never takes a slot that an exiting process is about to lock as its parent, then
in no state reached do CPUs spin in a circle, each on a process lock that the next one holds. -/
theorem no_lock_cycle (as : List (Act n C)) (hc : EachStep step NotRemembered (boot n C) as)
    (h : run step (boot n C) as = some (.ok s)) (c : C) : ¬ Relation.TransGen (SpinsOn s) c c := by
  have hinv : Inv s ∧ Ordered s :=
    run_invariant (I := fun s => Inv s ∧ Ordered s)
      (fun _ _ _ hi hc hs => ⟨hi.1.step hs, hi.2.move hi.1 hc (step_move hs)⟩) ⟨Inv.boot n C, Ordered.boot n C⟩ hc h
  exact hinv.1.no_cycle hinv.2 c

/-- `initproc` (slot 0) forks A (slot 1), which forks B (slot 2), which forks D (slot 3). B exits on
the second CPU: it reads its parent A and gives up its lock. On the first CPU A exits, `initproc`
reaps it, D forks a child, which gets slot 1 and exits: it locks D and is about to lock itself. B
now locks slot 1, itself, and is about to lock D. -/
def slotReused : List (Act 3 Bool) :=
  [goes false 3, [.call false .fork], goes false 9, [.call false (.wait true)], goes false 14, [.call false .fork],
    goes false 11, goes true 7, [.call true .fork], goes true 13, [.call true (.exit 0)], goes true 4,
    [.call false (.exit 0)], goes false 23, [.timer false], goes false 13, [.call false (.wait true)], goes false 18,
    [.call false .fork], goes false 9, [.timer false], goes false 9, [.call false (.exit 0)], goes false 5,
    goes true 6].flatten

/-- Before that, with A reaped: the second CPU spins on a lock that the first one holds. -/
theorem no_lock_cycle_spinning : ∃ s : State 3 Bool, run step (boot 3 Bool) (slotReused.take 117) = some (.ok s) ∧
    EachStep step NotRemembered (boot 3 Bool) (slotReused.take 117) ∧ SpinsOn s true false ∧ ∀ c,
      ¬ Relation.TransGen (SpinsOn s) c c := by
  obtain ⟨s, hs, h₁, h₂⟩ := exists_of_endsIn (P := fun s : State 3 Bool => s.wants true = some 1 ∧ (s.proc 1).lock = some false)
    (r := run step (boot 3 Bool) (slotReused.take 117)) (by decide +kernel)
  have hc : EachStep step NotRemembered (boot 3 Bool) (slotReused.take 117) := by decide +kernel
  exact ⟨s, hs, hc, ⟨by decide, 1, h₁, h₂⟩, no_lock_cycle _ hc hs⟩

/-- The two CPUs wait for each other. -/
theorem lock_cycle_after_reuse : ∃ s : State 3 Bool, run step (boot 3 Bool) slotReused = some (.ok s) ∧
    SpinsOn s false true ∧ SpinsOn s true false ∧ Relation.TransGen (SpinsOn s) false false := by
  obtain ⟨s, hs, h₁, h₂, h₃, h₄⟩ := exists_of_endsIn (P := fun s : State 3 Bool => s.wants false = some 1 ∧
    (s.proc 1).lock = some true ∧ s.wants true = some 3 ∧ (s.proc 3).lock = some false)
    (r := run step (boot 3 Bool) slotReused) (by decide +kernel)
  have hft : SpinsOn s false true := ⟨by decide, 1, h₁, h₂⟩
  have htf : SpinsOn s true false := ⟨by decide, 3, h₃, h₄⟩
  exact ⟨s, hs, hft, htf, .tail (.single hft) htf⟩

end Xv6.Proc
