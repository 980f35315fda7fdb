import Xv6.Proc.Steps

/-!
# The process table keeps a process tree

`tree` reads the process tree off a state of the machine. Each step of the code on a kernel stack is
a step of the tree (`did_tree`), and the steps of `scheduler` leave the tree as it is. What the code
may rely on between two steps, of parents that it has read without a lock, is `Pc.Kin`.
-/

namespace Xv6.Proc

open Function State Entry Thread

variable {n : Nat} {C : Type}

/-- The status that `exit` was called with. -/
def Pc.status : Pc n → Option Int
  | .exit st | .exitInit st | .exitSelf st | .exitRead st | .exitParent st _ | .exitBoth st _ | .reparent st _ _
  | .reparentLock st _ _ | .reparentSet st _ _ | .exitWake st _ | .exitZombie st _ => some st
  | _ => none

def Entry.node (x : Entry n C) (t : Thread n) : Node (Slot n) where
  life := life x.state
  parent := x.parent
  leaving :=
    match life x.state with
    | .unused => none
    | .alive => t.pc.status
    | .zombie => some x.xstate
  pid := x.pid
  birth := x.birth
  creator := x.creator

def State.tree (s : State n C) : Tree (Slot n) := ⟨fun j => (s.proc j).node (s.thread j), s.births, s.history⟩

/-- What the code on the stack of `q` relies on, of the parents of other slots. -/
def Pc.Kin (s : State n C) (q : Slot n) : Pc n → Prop
  | .allocPid j | .allocPagetable j | .forkCopy j | .forkParent j => (s.proc j).parent = none
  | .forkRun j => (s.proc j).parent = some q
  | .reparent _ _ i => ∀ k : Slot n, k.val < i → (s.proc k).parent ≠ some q
  | .reparentLock _ _ j | .reparentSet _ _ j =>
    (s.proc j).parent = some q ∧ ∀ k : Slot n, k.val < j.val → (s.proc k).parent ≠ some q
  | .exitWake .. | .exitZombie .. => ∀ k, (s.proc k).parent ≠ some q
  | .scanLock _ j | .scanLook _ j => (s.proc j).parent = some q
  | _ => True

structure Kinship (s : State n C) : Prop where
  kin : ∀ q, (s.thread q).pc.Kin s q
  /-- a slot without a process has a parent only while that parent is in `fork` -/
  unborn : ∀ j q, (s.proc j).state = .unused → (s.proc j).parent = some q → (s.thread q).pc = .forkRun j

/-- What holds in every state that is reached. -/
structure Inv (s : State n C) : Prop where
  world : World s
  kinship : Kinship s
  sound : Sound initproc s.tree

variable {s s' : State n C} {p : Slot n}

theorem State.tree_congr (hn : ∀ q, (s'.proc q).node (s'.thread q) = (s.proc q).node (s.thread q))
    (hb : s'.births = s.births) (hh : s'.history = s.history) : s'.tree = s.tree := by
  rw [tree, tree, hb, hh, funext hn]

variable {j q : Slot n} {pc : Pc n} {x : Entry n C}

/-- The node of one slot changes. -/
theorem step_update {x : Node (Slot n)}
    (h : Step initproc p s.tree ⟨(s.tree.setNode j x).node, s'.births, s'.history⟩)
    (hj : (s'.proc j).node (s'.thread j) = x)
    (ho : ∀ q, q ≠ j → (s'.proc q).node (s'.thread q) = (s.proc q).node (s.thread q)) :
    Step initproc p s.tree s'.tree := by
  have hnode : (s.tree.setNode j x).node = s'.tree.node := by
    funext q
    by_cases hq : q = j
    · simp only [hq, Tree.setNode, update_self]
      exact hj.symm
    · simp only [Tree.setNode, update_of_ne hq]
      exact (ho q hq).symm
  rw [hnode] at h
  exact h

theorem step_idle (hn : ∀ q, (s'.proc q).node (s'.thread q) = (s.proc q).node (s.thread q))
    (hb : s'.births = s.births) (hh : s'.history = s.history) : Step initproc p s.tree s'.tree := by
  rw [tree_congr hn hb hh]
  exact .idle

/-- What another process relies on is not touched by a step of `p`: only a parent changes who its
children are. -/
theorem Pc.kin_step (hk : pc.Kin s q) (hs : Step initproc p s.tree s'.tree) (hq : q ≠ p)
    (hi : pc.status ≠ none → q ≠ initproc) (hf : ∀ j, pc.found = some j → s'.proc j = s.proc j) :
    pc.Kin s' q := by
  have hkeeps : ∀ j, (s.proc j).parent = some q → (s'.proc j).parent = some q := fun j => hs.parent_keeps hq
  have hother : q ≠ initproc → ∀ j, (s.proc j).parent ≠ some q → (s'.proc j).parent ≠ some q := fun hi j hj hj' =>
    hj (hs.parent_of_ne hq hi hj')
  cases pc
  case allocPid j | allocPagetable j | forkCopy j | forkParent j =>
    show (s'.proc j).parent = none
    rw [hf j rfl]
    exact hk
  case forkRun j | scanLock copy j | scanLook copy j => exact hkeeps j hk
  case reparent st op i => exact fun k hlt => hother (hi (fun e => by cases e)) k (hk k hlt)
  case reparentLock st op j | reparentSet st op j =>
    exact ⟨hkeeps j hk.1, fun k hlt => hother (hi (fun e => by cases e)) k (hk.2 k hlt)⟩
  case exitWake st op | exitZombie st op => exact fun k => hother (hi (fun e => by cases e)) k (hk k)
  all_goals trivial

theorem Pc.kin_congr (hp : ∀ j, (s'.proc j).parent = (s.proc j).parent) (hk : pc.Kin s q) :
    pc.Kin s' q := by
  cases pc <;> first | trivial | (simp only [Pc.Kin, hp] at hk ⊢; exact hk)

theorem Inv.parent_used (h : Inv s) (j q : Slot n) (hj : (s.proc j).parent = some q) : (s.proc q).state ≠ .unused := by
  intro hq
  have := h.sound.family.parent j q hj
  simp [tree, node, hq, life] at this

/-- `initproc` does not exit. -/
theorem Inv.status_init (h : Inv s) (hq : (s.thread q).pc.status ≠ none) : q ≠ initproc := by
  rintro rfl
  obtain ⟨halive, hleaving, -⟩ := h.sound.family.init
  have hnode : (s.tree.node initproc).leaving = (s.thread initproc).pc.status := by
    simp only [tree, node] at halive ⊢
    rw [halive]
  exact hq (hnode.symm.trans hleaving)

/-- A slot that is free for `allocproc` has no parent. -/
theorem Inv.parent_of_unused (h : Inv s) (j : Slot n) (hj : (s.proc j).state = .unused) (hl : (s.proc j).lock = none) :
    (s.proc j).parent = none := by
  cases hq : (s.proc j).parent with
  | none => rfl
  | some q =>
    obtain ⟨-, c, -, hc⟩ := h.world.found (p := q) (j := j) (by rw [h.kinship.unborn j q hj hq]; rfl)
    rw [hl] at hc
    cases hc

theorem Entry.Stirred.node {y : Entry n C} {t u : Thread n} (h : x.Stirred y)
    (ht : t.pc.status = u.pc.status) : x.node t = y.node u := by
  unfold Entry.node
  rw [h.life, ht, h.eq]

/-- A process makes a call. -/
theorem Kinship.setThread (h : Kinship s) (ht : s.thread p = .base .user)
    (hk : ∀ s' : State n C, pc.Kin s' p) : Kinship (s.setThread p (.base pc)) := by
  refine ⟨fun q => ?_, fun j q hj hq => ?_⟩
  · by_cases hq : q = p
    · rw [hq, setThread_self]
      exact hk _
    · rw [setThread_of_ne _ hq]
      exact Pc.kin_congr (s := s) (fun _ => rfl) (h.kin q)
  · have hpc := h.unborn j q hj hq
    rw [setThread_of_ne _ ?_, hpc]
    rintro rfl
    rw [ht] at hpc
    cases hpc

theorem Kinship.record (h : Kinship s) (ev : Event) : Kinship (s.record ev) :=
  ⟨fun q => Pc.kin_congr (s := s) (fun _ => rfl) (h.kin q), h.unborn⟩

theorem Quiet.tree (h : Quiet s s') : s'.tree = s.tree :=
  tree_congr (fun q => (h.stirred q).node (by rw [h.pc])) h.births h.history

theorem Inv.quiet (h : Inv s) (hw : World s') (hq : Quiet s s') : Inv s' := by
  refine ⟨hw, ⟨fun q => ?_, fun j q hj hq' => ?_⟩, hq.tree ▸ h.sound⟩
  · rw [hq.pc]
    exact Pc.kin_congr (fun j => (hq.stirred j).parent) (h.kinship.kin q)
  · rw [hq.pc]
    refine h.kinship.unborn j q (((hq.stirred j).state_of ?_ ?_).trans hj) ((hq.stirred j).parent ▸ hq')
    all_goals rw [hj]; decide

theorem Inv.call (h : Inv s) {k : Call} (ht : s.thread p = .base .user) (hk : ∀ st, k ≠ .exit st)
    (hw : World (s.setThread p (.base k.entry))) : Inv (s.setThread p (.base k.entry)) := by
  refine ⟨hw, h.kinship.setThread ht (fun s' => by cases k <;> trivial), ?_⟩
  have htree : (s.setThread p (.base k.entry)).tree = s.tree := by
    refine tree_congr (fun q => (Entry.Stirred.refl _).node ?_) rfl rfl
    by_cases hq : q = p
    · rw [hq, setThread_self, ht]
      cases k with
      | exit st => exact absurd rfl (hk st)
      | fork | wait | kill | sleep => rfl
    · rw [setThread_of_ne _ hq]
  rw [htree]
  exact h.sound

theorem Inv.exit (h : Inv s) {st : Int} (ht : s.thread p = .base .user) (hp : p ≠ initproc)
    (hrun : (s.proc p).state = .running)
    (hw : World ((s.record (.exit (s.proc p).birth (s.proc p).pid st)).setThread p (.base (.exit st)))) :
    Inv ((s.record (.exit (s.proc p).birth (s.proc p).pid st)).setThread p (.base (.exit st))) := by
  refine ⟨hw, (h.kinship.record _).setThread ht fun _ => trivial, h.sound.step (p := p) ?_⟩
  refine step_update (.exit st (congrArg life hrun) ?_ hp) ?_ fun q hq => ?_
  all_goals simp only [tree, record, setThread, update_apply]
  all_goals grind [node, life, Pc.status, base]

variable [DecidableEq C] {c : C} {ok : Bool} {a : Act n C} {e : Effect n C}

omit [DecidableEq C] in
theorem next_base (ht : s.thread p = .base pc) (hn : pc.next s p ok = some e) : (s.thread p).next s p ok = some e := by
  rw [ht]
  exact hn

section

variable (h : Inv s) (hr : (s.cpu c).run = .thread p) (ht : s.thread p = .base pc) (hn : pc.next s p ok = some e)
  (hd : Did s c p e s')

include h hr ht hn hd

theorem Inv.did_tree : Step initproc p s.tree s'.tree := by
  have howns := h.world.owns p
  have hkin := h.kinship.kin p
  have hrun := h.world.running c p ((h.world.cpus.run c p).mp hr)
  rw [ht] at howns hkin hrun
  cases pc <;> simp only [Pc.next] at hn
  all_goals repeat' split at hn
  all_goals cases hn
  all_goals cases hd
  all_goals simp only [Running, base] at hrun
  case allocPid.isTrue.refl.allocpid j _ | allocPid.isFalse.refl.allocpid j _ =>
    have hne : j ≠ p := by rintro rfl; rw [howns] at hrun; cases hrun
    refine step_update (.prepare j s.nextpid (congrArg life howns)) ?_ fun q hq => ?_
    all_goals simp only [tree, allocpid, setThread, update_apply]
    all_goals grind [node, life, Pc.status, base]
  case allocPagetable.isFalse.refl.free j _ =>
    have hne : j ≠ p := by rintro rfl; rw [howns] at hrun; cases hrun
    refine step_update (.prepare j 0 (congrArg life howns)) ?_ fun q hq => ?_
    all_goals simp only [tree, setEntry, setThread, update_apply]
    all_goals grind [node, free, life, Pc.status, base, Pc.Kin, Pc.Owns]
  case forkCopy.isFalse.refl.free j _ =>
    have hne : j ≠ p := by rintro rfl; rw [howns.1] at hrun; cases hrun
    refine step_update (.prepare j 0 (congrArg life howns.1)) ?_ fun q hq => ?_
    all_goals simp only [tree, setEntry, setThread, update_apply]
    all_goals grind [node, free, life, Pc.status, base, Pc.Kin, Pc.Owns]
  case forkParent.refl.store j =>
    have hne : j ≠ p := by rintro rfl; rw [howns.1] at hrun; cases hrun
    refine step_update (.adopt j (congrArg life howns.1) hkin (congrArg life hrun)) ?_ fun q hq => ?_
    all_goals simp only [tree, setEntry, setThread, update_apply]
    all_goals grind [node, life, Pc.status, base, Pc.Owns]
  case forkRun.refl.start j =>
    have hne : j ≠ p := by rintro rfl; rw [howns.1] at hrun; cases hrun
    refine step_update (.start j (congrArg life howns.1) hkin) ?_ fun q hq => ?_
    all_goals simp only [tree, start, setThread, update_apply]
    all_goals grind [node, life, Pc.status, base, Pc.Owns]
  case reparentSet.refl.release st op j hl =>
    refine step_update (.orphan j hkin.1 ?_) ?_ fun q hq => ?_
    all_goals simp only [tree, setEntry, setThread, update_apply]
    all_goals grind [node, withLock, life, Pc.status, base]
  case exitZombie.refl.store st op =>
    refine step_update (.die (congrArg life hrun) ?_ hkin) ?_ fun q hq => ?_
    all_goals simp only [tree, setEntry, setThread, update_apply]
    all_goals grind [node, life, Pc.status, base]
  case scanLook.isTrue.isFalse.refl.reap copy j hz hcopy =>
    refine step_update (.reap j (s.proc j).xstate (congrArg life hz) hkin ?_) ?_ fun q hq => ?_
    all_goals simp only [tree, record, setEntry, setThread, update_apply]
    all_goals grind [node, free, life, Pc.status, base]
  all_goals
    refine step_idle (fun q => ?_) rfl rfl
    simp only [setEntry, setThread, setStack, setCpu, update_apply]
    grind [node, life, Pc.status, base, withLock, wakeup, kill, Pc.Owns]

theorem Inv.did_kin_other (hq : q ≠ p) : (s'.thread q).pc.Kin s' q := by
  rcases World.did_thread (next_base ht hn) hd hq with hthread | hthread
  · rw [hthread]
    refine Pc.kin_step (h.kinship.kin q) (h.did_tree hr ht hn hd) hq h.status_init fun j hj => ?_
    obtain ⟨-, c', hs, hl⟩ := h.world.found hj
    exact (h.world.did_frame hr (next_base ht hn) hd hl (h.world.cpu_ne hr hs hq)).1
  · rw [hthread]
    trivial

omit hr in
theorem Inv.did_kin_self : (s'.thread p).pc.Kin s' p := by
  have hkin := h.kinship.kin p
  have hinit := h.status_init (q := p)
  have hfree := h.parent_of_unused
  rw [ht] at hkin hinit
  cases pc <;> simp only [Pc.next] at hn
  all_goals repeat' split at hn
  all_goals cases hn
  all_goals cases hd
  all_goals simp only [setEntry, setThread, setStack, setCpu, allocpid, record,
    start, update_self]
  all_goals try trivial
  all_goals simp only [Pc.Kin, base, update_apply] at hkin hinit ⊢
  all_goals grind [withLock, wakeup, Pc.status, slot?_some, slot?_none]

theorem Inv.did_unborn (j q : Slot n) (hj : (s'.proc j).state = .unused) (hq : (s'.proc j).parent = some q) :
    (s'.thread q).pc = .forkRun j := by
  have howns := h.world.owns p
  have hkin := h.kinship.kin p
  have hrun := h.world.running c p ((h.world.cpus.run c p).mp hr)
  have hunborn := h.kinship.unborn
  have hparent := h.parent_used
  rw [ht] at howns hkin hrun
  cases pc <;> simp only [Pc.next] at hn
  all_goals repeat' split at hn
  all_goals cases hn
  all_goals cases hd
  all_goals simp only [Running, base] at hrun
  all_goals simp only [setEntry, setThread, setStack, setCpu, allocpid, record,
    start, update_apply] at hj hq ⊢
  all_goals grind [withLock, wakeup, kill, free, Pc.Owns, Pc.Kin, base]

theorem Inv.did : Inv s' := by
  refine ⟨h.world.did hr (next_base ht hn) hd, ⟨fun q => ?_, h.did_unborn hr ht hn hd⟩, h.sound.step (h.did_tree hr ht hn hd)⟩
  by_cases hq : q = p
  · rw [hq]
    exact h.did_kin_self ht hn hd
  · exact h.did_kin_other hr ht hn hd hq

end

theorem Inv.move (h : Inv s) (hm : Move s a s') : Inv s' := by
  have hw := h.world.move hm
  cases h.world.moved hm
  case call c p k hr ht hk => exact h.call ht hk hw
  case exit c p st hr ht hp =>
    have hrun := h.world.running c p ((h.world.cpus.run c p).mp hr)
    rw [ht] at hrun
    exact h.exit ht hp hrun hw
  case code c p ok pc e hr ht hn hd => exact h.did hr ht hn hd
  case quiet hq => exact h.quiet hw hq

/-- At boot the tree has one process. -/
theorem Sound.boot (n : Nat) (C : Type) : Sound initproc (boot n C).tree := by
  have hparent : ∀ j, ((Proc.boot n C).tree.node j).parent = none := fun j => by
    simp only [tree, node, Proc.boot]
    split <;> rfl
  have hfirst : ∀ j, ((Proc.boot n C).tree.node j).life ≠ .unused → j = initproc := fun j hj => by
    by_contra hne
    simp [tree, node, Proc.boot, hne, empty, life] at hj
  have hinit : (Proc.boot n C).tree.node initproc = ⟨.alive, none, none, 1, 0, 0⟩ := by
    simp [tree, node, Proc.boot, empty, life, base, Pc.status]
  refine ⟨⟨fun j q hq => ?_, by simp [hinit], fun j hj hne => absurd (hfirst j hj) hne⟩,
    ⟨by simp [hinit], fun j hj => ?_, fun i j hi hj _ => (hfirst i hi).trans (hfirst j hj).symm, fun j q _ hq => ?_⟩,
    ⟨fun e he => ?_, fun j q _ hq => ?_, fun j st hj hst => ?_, fun j _ _ pid st he => ?_, fun j _ w cr pid st he => ?_,
      trivial⟩⟩
  · rw [hparent] at hq; cases hq
  · rw [hfirst j hj, hinit]; exact Nat.one_pos
  · rw [hparent] at hq; cases hq
  · cases he
  · rw [hparent] at hq; cases hq
  · rw [hfirst j hj, hinit] at hst; cases hst
  · cases he
  · cases he

theorem Inv.boot (n : Nat) (C : Type) : Inv (boot n C) := by
  refine ⟨World.boot n C, ⟨fun q => ?_, fun j q _ hq => ?_⟩, Sound.boot n C⟩
  · simp only [Proc.boot]
    split <;> trivial
  · simp only [Proc.boot] at hq
    split at hq <;> cases hq

theorem Inv.step (h : Inv s) (hs : step s a = some (.ok s')) : Inv s' := h.move (step_move hs)

theorem Inv.reachable {as : List (Act n C)} (h : run Proc.step (Proc.boot n C) as = some (.ok s)) : Inv s :=
  run_invariant (C := fun _ _ => True) (fun _ _ _ hi _ => hi.step) (Inv.boot n C) (eachStep_true as _) h

/-- The slot that a step gives to `freeproc`. -/
def frees (s : State n C) : Act n C → Option (Slot n)
  | .go c ok =>
    match (s.cpu c).run with
    | .thread p =>
      match (s.thread p).next s p ok with
      | some (.free j _) | some (.reap j _) => some j
      | _ => none
    | _ => none
  | _ => none

omit [DecidableEq C] in
theorem Inv.freed (h : Inv s) (hj : frees s a = some j) :
    (∀ c, (s.cpu c).run ≠ .thread j) ∧ ((s.proc j).state = .zombie → s.thread j = .base .dead) := by
  have hnone : s.stack j = none → ∀ c, (s.cpu c).run ≠ .thread j := fun hs c hr => by
    rw [h.world.cpus.run, hs] at hr
    cases hr
  unfold frees at hj
  split at hj
  next c ok =>
    split at hj
    next p hr =>
      split at hj
      next k t hn =>
        cases hj
        have hu := (h.world.found (next_found (.inr hn))).1
        exact ⟨hnone (h.world.stack_unused hu), fun hz => absurd (hu.symm.trans hz) (by decide)⟩
      next k t hn =>
        cases hj
        obtain ⟨⟨copy, ht⟩, hz⟩ := next_reap hn
        have hlock : (s.proc j).lock = some c := by
          rw [h.world.locks.mem, held_thread hr, ht]
          exact List.mem_cons_self ..
        have hpj : (s.cpu c).run ≠ .thread j := fun hr' => by
          cases hr.symm.trans hr'
          have hrun := h.world.running c j ((h.world.cpus.run c j).mp hr)
          rw [ht] at hrun
          cases hz.symm.trans hrun
        have hs := h.world.stack_none hlock hpj (by rw [hz]; decide)
        exact ⟨hnone hs, (h.world.parked j hs).dead⟩
      next => cases hj
    next => cases hj
  next => cases hj

/-- `initproc` forks a child and waits for it; the child exits with status 7. -/
def forkExitWait : List (Act 1 Unit) :=
  [goes () 3, [.call () .fork], goes () 9, [.call () (.wait true)], goes () 12, [.call () (.exit 7)], goes () 24].flatten

end Xv6.Proc
