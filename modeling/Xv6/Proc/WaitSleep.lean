import Xv6.Proc.Refine

/-!
# No missed wakeup in `wait`

`wait` holds its own lock from before it looks at the first slot until it has left the CPU, so the
children that it has seen alive stay alive (`Pc.Looked`): a child that exits holds the lock of its
parent from before it wakes the parent until it is a zombie. This rests on the parent that the child
has saved in `original_parent`, which is still its parent, or else the parent gave it to `initproc`
(`Attentive.original`).
-/

namespace Xv6.Proc

open Function

variable {n : Nat} {C : Type}

/-- The slots below `i` have no zombie whose parent is `q`. -/
def Seen (s : State n C) (q : Slot n) (i : Nat) : Prop :=
  ∀ k : Slot n, k.val < i → (s.proc k).parent = some q → (s.proc k).state ≠ .zombie

/-- What `wait` of `q` knows of its children, by the place where it is. -/
def Pc.Looked (s : State n C) (q : Slot n) : Pc n → Prop
  | .scan _ i _ => Seen s q i
  | .scanLock _ j | .scanLook _ j => Seen s q j.val
  | .waitSleep _ | .waitSched _ => Seen s q (n + 1)
  | .waitBack _ => (s.proc q).state = .sleeping → Seen s q (n + 1)
  | _ => True

/-- `original_parent` in `exit` -/
def Pc.original : Pc n → Option (Slot n)
  | .exitParent _ op | .exitBoth _ op | .reparent _ op _ | .reparentLock _ op _ | .reparentSet _ op _ | .exitWake _ op
  | .exitZombie _ op => some op
  | _ => none

variable {pc : Pc n} {op q : Slot n}

structure Attentive (s : State n C) : Prop where
  looked : ∀ q, q ≠ initproc → (s.thread q).pc.Looked s q
  original : ∀ q op, (s.thread q).pc.original = some op →
    (s.proc q).parent = some op ∨ (s.proc q).parent = some initproc
  woken : ∀ q st op, (s.thread q).pc = .exitZombie st op →
    ¬ ((s.proc op).state = .sleeping ∧ (s.proc op).chan = some (.proc op))

variable {s s' : State n C} {c : C} {p : Slot n} {ok : Bool} {a : Act n C} {e : Effect n C}

theorem World.alive_of_original (h : World s) (ho : (s.thread p).pc.original = some op) :
    life (s.proc p).state = .alive := by
  have hrun := h.running
  have hpark := h.parked p
  rcases ht : s.thread p with ⟨pc, trap⟩
  rw [ht] at ho hpark
  cases hs : s.stack p with
  | none =>
    have hpark := hpark hs
    cases pc <;> cases ho <;> cases trap <;> simp only [Parked] at hpark <;> rw [hpark] <;> rfl
  | some c =>
    have hrun := hrun c p hs
    rw [ht] at hrun
    cases pc <;> cases ho <;> cases trap <;> simp only [Running] at hrun <;> rw [hrun] <;> rfl

theorem Touch.sleeping {x : Entry n C} (h : Touch s c q x) (hx : x.state = .sleeping) :
    (s.proc q).state = .sleeping := by
  rcases h with (⟨hst, -⟩ | ⟨-, hsl, -⟩) | ⟨-, -, hst⟩ | ⟨-, hst⟩
  · rw [← hst, hx]
  · exact hsl
  · cases hx.symm.trans hst
  · cases hx.symm.trans hst

/-- A process that sleeps in `wait` sleeps on itself. -/
theorem World.chan_of_waitBack (h : World s) {copy : Bool} (hpc : (s.thread p).pc = .waitBack copy)
    (hs : (s.proc p).state = .sleeping) : (s.proc p).chan = some (.proc p) := by
  have hoff : s.thread p = .base (.waitBack copy) := by
    rw [← hpc]
    exact h.base_of_held (by rw [hpc]; exact List.mem_cons_self ..)
  cases hc : s.stack p with
  | none =>
    have hpark := h.parked p hc
    rw [hoff] at hpark
    rcases hpark with hst | ⟨-, hch⟩
    · cases hs.symm.trans hst
    · exact hch
  | some c =>
    have hrun := h.running c p hc
    rw [hoff] at hrun
    cases hs.symm.trans hrun

/-- Who sleeps on itself, with its lock free, sleeps in `wait`. -/
theorem World.waitBack_of_sleeping (h : World s) (hl : (s.proc p).lock = none) (hs : (s.proc p).state = .sleeping)
    (hc : (s.proc p).chan = some (.proc p)) : ∃ copy, (s.thread p).pc = .waitBack copy := by
  cases hst : s.stack p with
  | none =>
    have hpark := h.parked p hst
    rcases ht : s.thread p with ⟨pc, trap⟩
    rw [ht] at hpark
    cases trap <;> cases pc <;> simp_all [Parked]
  | some c =>
    have := h.running_of_unlocked hst (by rw [hl]; exact fun e => by cases e)
    cases hs.symm.trans this

theorem Seen.stirred {i : Nat} (h : Seen s q i) (hx : ∀ k, (s'.proc k).Stirred (s.proc k)) : Seen s' q i := by
  intro k hk hq hz
  refine h k hk ((hx k).parent ▸ hq) (((hx k).state_of ?_ ?_).trans hz)
  all_goals rw [hz]; decide

theorem Entry.Stirred.sleeping {x y : Entry n C} (h : x.Stirred y) (hx : x.state = .sleeping) :
    y.state = .sleeping ∧ y.chan = x.chan := by
  refine ⟨(h.state_of ?_ ?_).trans hx, by rw [h.eq]⟩
  all_goals rw [hx]; decide

theorem Pc.Looked.stirred (h : pc.Looked s q) (hx : ∀ k, (s'.proc k).Stirred (s.proc k)) : pc.Looked s' q := by
  cases pc
  case scan | scanLock | scanLook | waitSleep | waitSched => exact Seen.stirred h hx
  case waitBack copy => exact fun hs => (h ((hx q).sleeping hs).1).stirred hx
  all_goals trivial

theorem Attentive.quiet (h : Attentive s) (ht : ∀ q, (s'.thread q).pc = (s.thread q).pc)
    (hx : ∀ k, (s'.proc k).Stirred (s.proc k)) : Attentive s' := by
  refine ⟨fun q hq => ?_, fun q op ho => ?_, fun q st op ho hs => ?_⟩
  · rw [ht]
    exact (h.looked q hq).stirred hx
  · rw [(hx q).parent]
    exact h.original q op (ht q ▸ ho)
  · obtain ⟨hst, hch⟩ := (hx op).sleeping hs.1
    exact h.woken q st op (ht q ▸ ho) ⟨hst, hch.trans hs.2⟩

theorem Attentive.setThread (h : Attentive s) (hl : ∀ s' : State n C, pc.Looked s' p)
    (ho : pc.original = none) (hz : ∀ st op, pc ≠ .exitZombie st op) :
    Attentive (s.setThread p (.base pc)) := by
  refine ⟨fun q hq => ?_, fun q op hop => ?_, fun q st op hop => ?_⟩
  all_goals by_cases hqp : q = p
  · rw [hqp, State.setThread_self]
    exact hl _
  · rw [State.setThread_of_ne _ hqp]
    exact (h.looked q hq).stirred fun k => .refl _
  · rw [hqp, State.setThread_self] at hop
    cases ho.symm.trans hop
  · rw [State.setThread_of_ne _ hqp] at hop
    exact h.original q op hop
  · rw [hqp, State.setThread_self] at hop
    exact absurd hop (hz st op)
  · rw [State.setThread_of_ne _ hqp] at hop
    exact h.woken q st op hop

variable [DecidableEq C]

section

variable (h : Inv s) (ha : Attentive s) (hr : (s.cpu c).run = .thread p) (ht : s.thread p = .base pc)
  (hn : pc.next s p ok = some e) (hd : Did s c p e s')

include h hr ht hn hd

omit h hr in
theorem Inv.did_zombie {k : Slot n} (hk : (s'.proc k).state = .zombie) :
    (s.proc k).state = .zombie ∨ k = p ∧ ∃ st op, s.thread p = .base (.exitZombie st op) := by
  rw [ht]
  cases pc <;> simp only [Pc.next] at hn
  all_goals repeat' split at hn
  all_goals cases hn
  all_goals cases hd
  all_goals simp only [State.setEntry, State.setThread, State.setStack, State.setCpu, State.allocpid, State.record,
    State.start, update_apply] at hk
  all_goals grind [Entry.withLock, Entry.wakeup, Entry.kill, Entry.free, Thread.base]

include ha

theorem Attentive.did_self : (p ≠ initproc → (s'.thread p).pc.Looked s' p) ∧
    (∀ op, (s'.thread p).pc.original = some op → (s'.proc p).parent = some op ∨ (s'.proc p).parent = some initproc) ∧
    (∀ st op, (s'.thread p).pc = .exitZombie st op → ¬ ((s'.proc op).state = .sleeping ∧ (s'.proc op).chan = some (.proc op))) := by
  have hlooked := ha.looked p
  have horiginal := ha.original p
  have hrun := h.world.running c p ((h.world.cpus.run c p).mp hr)
  rw [ht] at hlooked horiginal hrun
  cases pc <;> simp only [Pc.next] at hn
  all_goals repeat' split at hn
  all_goals cases hn
  all_goals cases hd
  all_goals simp only [Running, Thread.base] at hrun
  all_goals simp only [State.setEntry, State.setThread, State.setStack, State.setCpu, State.allocpid, State.record,
    State.start, update_self]
  all_goals simp only [Pc.Looked, Pc.original, Seen, Thread.base, update_apply] at hlooked horiginal ⊢
  all_goals grind [Entry.withLock, Entry.wakeup, Entry.kill, Entry.free, slot?_some, slot?_none]

/-- Who becomes a zombie has the lock of its parent, and has woken it. -/
theorem Attentive.did_seen {i : Nat} (hq : q ≠ p) (hi : q ≠ initproc) (hseen : Seen s q i)
    (hx : (∃ c', s.stack q = some c' ∧ (s.proc q).lock = some c') ∨ (s.proc q).state = .sleeping ∧ (s.proc q).chan = some (.proc q)) :
    Seen s' q i := by
  intro k hk hparent hz
  have hparent : (s.proc k).parent = some q := (h.did_tree hr ht hn hd).parent_of_ne hq hi hparent
  rcases Inv.did_zombie ht hn hd hz with hz | ⟨rfl, st, op, ht⟩
  · exact hseen k hk hparent hz
  · obtain rfl : op = q := by
      rcases ha.original k op (by rw [ht]; rfl) with ho | ho
      · exact Option.some.inj (ho.symm.trans hparent)
      · exact absurd (Option.some.inj (hparent.symm.trans ho)) hi
    rcases hx with ⟨c', hs, hl⟩ | hx
    · have hl' : (s.proc op).lock = some c := by
        rw [h.world.locks.mem, held_thread hr, ht]
        exact List.mem_cons_self ..
      exact h.world.cpu_ne hr hs hq (Option.some.inj (hl.symm.trans hl'))
    · exact ha.woken k st op (by rw [ht]; rfl) hx

theorem Attentive.did_looked (hq : q ≠ p) (hi : q ≠ initproc) : (s'.thread q).pc.Looked s' q := by
  rcases World.did_thread (next_base ht hn) hd hq with ht' | ht'
  · rw [ht']
    have hlooked := ha.looked q hi
    have hseen := fun i hs hx => ha.did_seen h hr ht hn hd hq hi (i := i) hs hx
    have hholder := h.world.holder (p := q) (j := q)
    cases hpc : (s.thread q).pc
    case scan | scanLock | scanLook | waitSleep | waitSched =>
      rw [hpc] at hlooked hholder
      exact hseen _ hlooked (.inl (hholder (by simp [Pc.held]) rfl))
    case waitBack copy =>
      rw [hpc] at hlooked
      intro hsl
      have hsl₀ := (h.world.did_touch hr (next_base ht hn) hd hq).sleeping hsl
      exact hseen _ (hlooked hsl₀) (.inr ⟨hsl₀, h.world.chan_of_waitBack hpc hsl₀⟩)
    all_goals trivial
  · rw [ht']
    trivial

theorem Attentive.did_original (hq : q ≠ p) (hop : (s'.thread q).pc.original = some op) :
    (s'.proc q).parent = some op ∨ (s'.proc q).parent = some initproc := by
  have hstep := h.did_tree hr ht hn hd
  rcases World.did_thread (next_base ht hn) hd hq with ht' | ht'
  · rw [ht'] at hop
    have halive : (s.tree.node q).life = .alive := h.world.alive_of_original hop
    rcases ha.original q op hop with ho | ho
    · exact hstep.parent_or halive ho
    · exact .inr ((hstep.parent_or halive ho).elim id id)
  · rw [ht'] at hop
    cases hop

theorem Attentive.did_woken {st : Int} (hq : q ≠ p) (hop : (s'.thread q).pc = .exitZombie st op) :
    ¬ ((s'.proc op).state = .sleeping ∧ (s'.proc op).chan = some (.proc op)) := by
  rcases World.did_thread (next_base ht hn) hd hq with ht' | ht'
  · rw [ht'] at hop
    obtain ⟨c', hs, hl⟩ := h.world.holder (p := q) (j := op) (by rw [hop]; exact List.mem_cons_self ..) (by rw [hop]; rfl)
    rw [(h.world.did_frame hr (next_base ht hn) hd hl (h.world.cpu_ne hr hs hq)).1]
    exact ha.woken q st op hop
  · rw [ht'] at hop
    cases hop

theorem Attentive.did : Attentive s' := by
  obtain ⟨hlooked, horiginal, hwoken⟩ := ha.did_self h hr ht hn hd
  refine ⟨fun q => ?_, fun q => ?_, fun q => ?_⟩
  all_goals by_cases hq : q = p
  · rw [hq]; exact hlooked
  · exact ha.did_looked h hr ht hn hd hq
  · rw [hq]; exact horiginal
  · exact fun op => ha.did_original h hr ht hn hd hq
  · rw [hq]; exact hwoken
  · exact fun st op => ha.did_woken h hr ht hn hd hq

end

theorem Attentive.move (h : Inv s) (ha : Attentive s) (hm : Move s a s') : Attentive s' := by
  cases h.world.moved hm
  case call c p k hr ht hk =>
    exact ha.setThread (by cases k <;> exact fun _ => trivial) (by cases k <;> rfl) (by cases k <;> exact fun _ _ e => by cases e)
  case exit c p st hr ht hp =>
    have ha' : Attentive (s.record (.exit (s.proc p).birth (s.proc p).pid st)) := ha.quiet (fun _ => rfl) fun _ => .refl _
    exact ha'.setThread (fun _ => trivial) rfl (fun _ _ e => by cases e)
  case code c p ok pc e hr ht hn hd => exact ha.did h hr ht hn hd
  case quiet hq => exact ha.quiet hq.pc hq.stirred

theorem Attentive.boot (n : Nat) (C : Type) : Attentive (boot n C) := by
  have hpc : ∀ q, ((Proc.boot n C).thread q).pc = .forkret ∨ ((Proc.boot n C).thread q).pc = .dead := fun q => by
    simp only [Proc.boot]
    split
    · exact .inl rfl
    · exact .inr rfl
  refine ⟨fun q _ => ?_, fun q op ho => ?_, fun q st op ho => ?_⟩
  · rcases hpc q with h | h <;> rw [h] <;> trivial
  · rcases hpc q with h | h <;> rw [h] at ho <;> cases ho
  · rcases hpc q with h | h <;> rw [h] at ho <;> cases ho

theorem Attentive.reachable {as : List (Act n C)} (h : run step (Proc.boot n C) as = some (.ok s)) : Inv s ∧ Attentive s :=
  run_invariant (C := fun _ _ => True) (I := fun s => Inv s ∧ Attentive s)
    (fun _ _ _ hi _ hs => ⟨hi.1.step hs, hi.2.move hi.1 (step_move hs)⟩) ⟨Inv.boot n C, Attentive.boot n C⟩ (eachStep_true as _) h

/-- No wakeup is missed in `wait`: for any number of slots and CPUs and in every state reached,
while the lock of a process other than `initproc` is free and the process sleeps in `wait`, none of
its children is a zombie. -/
theorem wait_misses_no_zombie (as : List (Act n C)) (h : run step (boot n C) as = some (.ok s)) (p : Slot n)
    (hp : p ≠ initproc) (hl : (s.proc p).lock = none) (hs : (s.proc p).state = .sleeping)
    (hc : (s.proc p).chan = some (.proc p)) (q : Slot n) (hq : (s.proc q).parent = some p) :
    (s.proc q).state ≠ .zombie := by
  obtain ⟨hi, ha⟩ := Attentive.reachable h
  obtain ⟨copy, hpc⟩ := hi.world.waitBack_of_sleeping hl hs hc
  have hlooked := ha.looked p hp
  rw [hpc] at hlooked
  exact hlooked hs q q.isLt hq

/-- `initproc` forks a child, which forks a child of its own and waits for it. -/
def waitForChild : List (Act 2 Unit) :=
  [goes () 3, [.call () .fork], goes () 9, [.timer ()], goes () 6, [.call () .fork], goes () 11, [.call () (.wait false)],
    goes () 10].flatten

theorem wait_misses_no_zombie_asleep : ∃ s : State 2 Unit, run step (boot 2 Unit) waitForChild = some (.ok s) ∧
    (s.proc 1).lock = none ∧ (s.proc 1).state = .sleeping ∧ (s.proc 1).chan = some (.proc 1) ∧
    (s.proc 2).parent = some 1 ∧ (s.proc 2).state ≠ .zombie := by
  obtain ⟨s, hs, hl, hst, hc, hq⟩ := exists_of_endsIn (P := fun s : State 2 Unit => (s.proc 1).lock = none ∧
    (s.proc 1).state = .sleeping ∧ (s.proc 1).chan = some (.proc 1) ∧ (s.proc 2).parent = some 1)
    (r := run step (boot 2 Unit) waitForChild) (by decide +kernel)
  exact ⟨s, hs, hl, hst, hc, hq, wait_misses_no_zombie waitForChild hs 1 (by decide) hl hst hc 2 hq⟩

end Xv6.Proc
