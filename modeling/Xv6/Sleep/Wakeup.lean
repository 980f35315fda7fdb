import Xv6.Sleep.Machine

/-!
# No lost wakeup

`Move` lists what a step can be. `Locks` ties each lock to the place of the thread that holds it,
and `Dozing` ties `p->state` and `p->chan` to the place of `p`'s own thread. From these follows the
rule `Asleep.move` for guarded code: let `needs c r` be what must hold of the data while a process
sleeps on channel `c`. A process that sleeps there has what it needs, or else the holder of the lock
is going to wake it: its code owes the channel a `wakeup`, or it is in the `wakeup` and has not come
to the sleeper yet. Code may leave the lock only when it owes nothing to anyone who sleeps.
-/

namespace Xv6.Sleep

open Function Xv6.Sleep.System

variable {N : Nat} {M R C L O : Type} [DecidableEq M] [DecidableEq C]

/-- The ways in which the system moves on from `s`, by thread `p` or by a scheduler that looks at
`p`. -/
inductive Move (code : Code M R C L O) (s : System N M R C L) (p : Fin N) : Act N O → System N M R C L → Prop
  | call {o l m l'} (h : s.thread p = .out l) (hc : code.call o l = some (m, l')) :
    Move code s p (.call p o) (s.setThread p (.enter m l'))
  | kill {l} (pid : Int) (h : s.thread p = .out l) : Move code s p (.kill p pid) (s.setThread p (.kill pid 0 l))
  | enter {m l} (h : s.thread p = .enter m l) (hl : s.lock m = none) :
    Move code s p (.go p) ((s.setLock m (some p)).setThread p (.body m l))
  | modify {m l r l'} (h : s.thread p = .body m l) (hb : code.body m l (s.proc p).self (s.data m) = .modify r l') :
    Move code s p (.go p) ((s.setData m r).setThread p (.body m l'))
  | sleep {m l c l'} (h : s.thread p = .body m l) (hb : code.body m l (s.proc p).self (s.data m) = .sleep c l') :
    Move code s p (.go p) (s.setThread p (.sleep m c l'))
  | wakeup {m l c l'} (h : s.thread p = .body m l) (hb : code.body m l (s.proc p).self (s.data m) = .wakeup c l') :
    Move code s p (.go p) (s.setThread p (.wakeup m c 0 l'))
  | leave {m l l'} (h : s.thread p = .body m l) (hb : code.body m l (s.proc p).self (s.data m) = .leave l')
    (hl : s.lock m = some p) :
    Move code s p (.go p) ((s.setLock m none).setThread p (.out l'))
  | sleepLock {m c l} (h : s.thread p = .sleep m c l) (hl : (s.proc p).lock = none) :
    Move code s p (.go p) ((s.setProc p ((s.proc p).setLock (some (.proc p)))).setThread p (.sleepBoth m c l))
  | sleepUnlock {m c l} (h : s.thread p = .sleepBoth m c l) (hl : s.lock m = some p) :
    Move code s p (.go p) ((s.setLock m none).setThread p (.sleepSelf m c l))
  | doze {m c l} (h : s.thread p = .sleepSelf m c l) :
    Move code s p (.go p) ((s.setProc p ((s.proc p).doze (m, c))).setThread p (.sched m c l))
  | swtch {m c l} (h : s.thread p = .sched m c l) (hl : (s.proc p).lock = some (.proc p)) :
    Move code s p (.go p) ((s.setProc p ((s.proc p).setLock (some .cpu))).setThread p (.saved m c l))
  | awake {m l} (h : s.thread p = .awake m l) (hl : (s.proc p).lock = some (.proc p)) :
    Move code s p (.go p) ((s.setProc p ((s.proc p).tidy.setLock none)).setThread p (.enter m l))
  | wakeLock {m c l} (i : Fin N) (h : s.thread p = .wakeup m c i l) (hl : (s.proc i).lock = none) :
    Move code s p (.go p) ((s.setProc i ((s.proc i).setLock (some (.proc p)))).setThread p (.waking m c i l))
  | wakeEnd {m c i l} (h : s.thread p = .wakeup m c i l) (hi : N ≤ i) : Move code s p (.go p) (s.setThread p (.body m l))
  | wake {m c i l} (h : s.thread p = .waking m c i l) (hl : (s.proc i).lock = some (.proc p)) :
    Move code s p (.go p) ((s.setProc i (((s.proc i).wake (m, c)).setLock none)).setThread p (.wakeup m c (i + 1) l))
  | killLock {pid l} (i : Fin N) (h : s.thread p = .kill pid i l) (hl : (s.proc i).lock = none) :
    Move code s p (.go p) ((s.setProc i ((s.proc i).setLock (some (.proc p)))).setThread p (.killing pid i l))
  | killEnd {pid i l} (h : s.thread p = .kill pid i l) : Move code s p (.go p) (s.setThread p (.out l))
  | slay {pid i l} (h : s.thread p = .killing pid i l) (hl : (s.proc i).lock = some (.proc p)) :
    Move code s p (.go p) ((s.setProc i ((s.proc i).slay.setLock none)).setThread p (.out l))
  | spare {pid i l} (h : s.thread p = .killing pid i l) (hl : (s.proc i).lock = some (.proc p)) :
    Move code s p (.go p) ((s.setProc i ((s.proc i).setLock none)).setThread p (.kill pid (i + 1) l))
  | look (hl : (s.proc p).lock = none) : Move code s p (.look p) (s.setProc p ((s.proc p).setLock (some .cpu)))
  | run {m c l} (hl : (s.proc p).lock = some .cpu) (hr : (s.proc p).state = .runnable) (h : s.thread p = .saved m c l) :
    Move code s p (.dispatch p) ((s.setProc p ((s.proc p).run.setLock (some (.proc p)))).setThread p (.awake m l))
  | pass (hl : (s.proc p).lock = some .cpu) : Move code s p (.dispatch p) (s.setProc p ((s.proc p).setLock none))

variable {i p q : Fin N} {m : M} {a : Act N O} {x : Proc N M C} {t : At N M C L}

section

variable {code : Code M R C L O} {s s' : System N M R C L}

theorem bodyStep_move {l : L} (h : s.thread p = .body m l)
    (hs : bodyStep code s p m l = some (.ok s')) : Move code s p (.go p) s' := by
  unfold bodyStep at hs
  split at hs
  next hb => cases hs; exact .modify h hb
  next hb => cases hs; exact .sleep h hb
  next hb => cases hs; exact .wakeup h hb
  next hb =>
    obtain ⟨hl, rfl⟩ := releasing_ok hs
    exact .leave h hb hl

theorem threadStep_move (hs : threadStep code s p (s.thread p) = some (.ok s')) :
    Move code s p (.go p) s' := by
  cases h : s.thread p with
  | out l => rw [h] at hs; cases hs
  | enter m l =>
    rw [h] at hs
    obtain ⟨hl, rfl⟩ := acquiring_ok hs
    exact .enter h hl
  | body m l =>
    rw [h] at hs
    exact bodyStep_move h hs
  | sleep m c l =>
    rw [h] at hs
    obtain ⟨hl, rfl⟩ := acquiring_ok hs
    exact .sleepLock h hl
  | sleepBoth m c l =>
    rw [h] at hs
    obtain ⟨hl, rfl⟩ := releasing_ok hs
    exact .sleepUnlock h hl
  | sleepSelf m c l =>
    rw [h] at hs
    cases hs
    exact .doze h
  | sched m c l =>
    rw [h] at hs
    simp only [threadStep, schedStep] at hs
    split at hs
    next => cases hs
    next hl =>
      split at hs
      next => cases hs
      next =>
        cases hs
        exact .swtch h (not_not.mp hl)
  | saved m c l => rw [h] at hs; cases hs
  | awake m l =>
    rw [h] at hs
    obtain ⟨hl, rfl⟩ := releasing_ok hs
    exact .awake h hl
  | wakeup m c i l =>
    rw [h] at hs
    simp only [threadStep] at hs
    split at hs
    next hi =>
      obtain ⟨hl, rfl⟩ := acquiring_ok hs
      exact .wakeLock ⟨i, hi⟩ h hl
    next hi =>
      cases hs
      exact .wakeEnd h (Nat.le_of_not_lt hi)
  | waking m c i l =>
    rw [h] at hs
    obtain ⟨hl, rfl⟩ := releasing_ok hs
    exact .wake h hl
  | kill pid i l =>
    rw [h] at hs
    simp only [threadStep] at hs
    split at hs
    next hi =>
      obtain ⟨hl, rfl⟩ := acquiring_ok hs
      exact .killLock ⟨i, hi⟩ h hl
    next hi =>
      cases hs
      exact .killEnd h
  | killing pid i l =>
    rw [h] at hs
    simp only [threadStep] at hs
    split at hs
    next =>
      obtain ⟨hl, rfl⟩ := releasing_ok hs
      exact .slay h hl
    next =>
      obtain ⟨hl, rfl⟩ := releasing_ok hs
      exact .spare h hl

theorem step_move (hs : step code s a = some (.ok s')) : ∃ p, Move code s p a s' := by
  cases a with
  | call p o =>
    simp only [step] at hs
    split at hs
    next l h =>
      obtain ⟨⟨m, l'⟩, hc, he⟩ := Option.map_eq_some_iff.mp hs
      cases he
      exact ⟨p, .call h hc⟩
    next => cases hs
  | kill p pid =>
    simp only [step] at hs
    split at hs
    next l h =>
      cases hs
      exact ⟨p, .kill pid h⟩
    next => cases hs
  | go p => exact ⟨p, threadStep_move hs⟩
  | look p =>
    simp only [step] at hs
    split at hs
    next hl =>
      cases hs
      exact ⟨p, .look hl⟩
    next => cases hs
  | dispatch p =>
    simp only [step] at hs
    split at hs
    next hl =>
      split at hs
      next hr =>
        split at hs
        next m c l h =>
          cases hs
          exact ⟨p, .run hl hr h⟩
        next => cases hs
      next =>
        cases hs
        exact ⟨p, .pass hl⟩
    next => cases hs

end

/-! ## Locks -/

/-- The guarding lock that a thread holds. -/
def At.lk : At N M C L → Option M
  | .body m _ | .sleep m _ _ | .sleepBoth m _ _ | .wakeup m _ _ _ | .waking m _ _ _ => some m
  | _ => none

/-- The process whose `p->lock` the thread of `p` holds. -/
def At.plock (p : Fin N) : At N M C L → Option (Fin N)
  | .sleepBoth .. | .sleepSelf .. | .sched .. | .awake .. => some p
  | .waking _ _ i _ | .killing _ i _ => some i
  | _ => none

structure Locks (s : System N M R C L) : Prop where
  lk : ∀ m p, s.lock m = some p ↔ (s.thread p).lk = some m
  plock : ∀ p q, (s.proc p).lock = some (.proc q) ↔ (s.thread q).plock q = some p

section

variable {code : Code M R C L O} {s s' : System N M R C L}

theorem Locks.move (h : Locks s) (hm : Move code s p a s') : Locks s' := by
  have hlk := h.lk
  have hpl := h.plock
  cases hm <;> refine ⟨fun m q => ?_, fun i q => ?_⟩ <;>
    simp only [setThread_thread, setThread_proc, setThread_lock, setProc_thread, setProc_proc,
      setProc_lock, setLock_thread, setLock_proc, setLock_lock, setData_thread,
      setData_proc, setData_lock, update_apply, Proc.setLock] <;>
    grind [At.lk, At.plock, Proc.doze, Proc.tidy, Proc.wake, Proc.slay, Proc.run]

/-! ## States -/

/-- What a process's `state` and `chan` are, by where its thread is. -/
def At.Dozing (state : ProcState) (chan : Option (M × C)) : At N M C L → Prop
  | .sched m c _ => state = .sleeping ∧ chan = some (m, c)
  | .saved m c _ => (state = .sleeping ∨ state = .runnable) ∧ chan = some (m, c)
  | _ => state = .running

/-- `state` and `chan` are what the thread's place says. -/
def Dozing (s : System N M R C L) : Prop := ∀ p, (s.thread p).Dozing (s.proc p).state (s.proc p).chan

theorem Proc.wake_state (x : Proc N M C) (c : M × C) :
    (x.wake c).state = x.state ∨ x.state = .sleeping ∧ (x.wake c).state = .runnable := by
  unfold Proc.wake
  split
  next h => exact .inr ⟨h.1, rfl⟩
  next => exact .inl rfl

theorem Proc.wake_chan (x : Proc N M C) (c : M × C) : (x.wake c).chan = x.chan := by
  unfold Proc.wake
  split <;> rfl

omit [DecidableEq M] [DecidableEq C]

theorem Proc.slay_state (x : Proc N M C) : x.slay.state = x.state ∨ x.state = .sleeping ∧ x.slay.state = .runnable := by
  unfold Proc.slay
  split
  next h => exact .inr ⟨h, rfl⟩
  next => exact .inl rfl

theorem Proc.slay_chan (x : Proc N M C) : x.slay.chan = x.chan := by
  unfold Proc.slay
  split <;> rfl

/-- Who holds the lock of process `i`, and is not in `sched`, finds it not in `sched` either. -/
theorem Locks.not_sched (hl : Locks s) (hi : (s.proc i).lock = some (.proc p))
    (hp : ∀ m c l, s.thread p ≠ .sched m c l) (m : M) (c : C) (l : L) :
    s.thread i ≠ .sched m c l := by
  intro ht
  have hlock := (hl.plock i i).mpr (by rw [ht]; rfl)
  rw [hi] at hlock
  cases hlock
  exact hp m c l ht

/-- A process that is not in `sched` is made runnable if it sleeps, or keeps its state. -/
theorem Dozing.setProc (h : Dozing s) (hi : ∀ m c l, s.thread i ≠ .sched m c l)
    (hx : x.state = (s.proc i).state ∨ (s.proc i).state = .sleeping ∧ x.state = .runnable)
    (hc : x.chan = (s.proc i).chan) : Dozing (s.setProc i x) := by
  refine forall_update (C := fun q (y : Proc N M C) => (s.thread q).Dozing y.state y.chan) ?_ fun q _ => h q
  have hd := h i
  rw [hc]
  rcases hx with hx | ⟨hs, hx⟩
  · rw [hx]
    exact hd
  · cases ht : s.thread i with
    | saved m c l =>
      rw [ht] at hd
      exact ⟨.inr hx, hd.2⟩
    | sched m c l => exact absurd ht (hi m c l)
    | _ => rw [ht, hs] at hd; cases hd

theorem Dozing.setLock (h : Dozing s) (i : Fin N) (k : Option (Holder N)) : Dozing (s.setProc i ((s.proc i).setLock k)) :=
  forall_update (C := fun q (y : Proc N M C) => (s.thread q).Dozing y.state y.chan) (h i) fun q _ => h q

theorem Dozing.setThread (h : Dozing s) (ht : ∀ st c, (s.thread p).Dozing st c → t.Dozing st c) :
    Dozing (s.setThread p t) :=
  forall_update (C := fun q (t : At N M C L) => t.Dozing (s.proc q).state (s.proc q).chan) (ht _ _ (h p)) fun q _ => h q

/-- A process's own thread changes it. -/
theorem Dozing.setBoth (h : Dozing s) (ht : t.Dozing x.state x.chan) :
    Dozing ((s.setProc p x).setThread p t) := by
  intro q
  by_cases hq : q = p
  · subst hq
    simpa using ht
  · simpa [hq] using h q

variable [DecidableEq M] [DecidableEq C]

theorem Dozing.move (h : Dozing s) (hl : Locks s) (hm : Move code s p a s') : Dozing s' := by
  have hp := h p
  cases hm with
  | call ht _ | kill _ ht | killEnd ht | sleep ht _ | wakeup ht _ | wakeEnd ht _ =>
    exact h.setThread fun _ _ => by rw [ht]; exact id
  | enter ht _ | leave ht _ _ | sleepUnlock ht _ | modify ht _ =>
    exact Dozing.setThread (s := mk s.proc s.thread _ _) h fun _ _ => by rw [ht]; exact id
  | wakeLock i ht _ | killLock i ht _ | spare ht _ =>
    exact (h.setLock _ _).setThread fun _ _ => by show (s.thread p).Dozing _ _ → _; rw [ht]; exact id
  | look _ | pass _ => exact h.setLock _ _
  | doze ht => exact h.setBoth ⟨rfl, rfl⟩
  | swtch ht _ =>
    rw [ht] at hp
    exact h.setBoth ⟨.inl hp.1, hp.2⟩
  | awake ht _ | sleepLock ht _ =>
    rw [ht] at hp
    exact h.setBoth hp
  | run hlock hr ht => exact h.setBoth rfl
  | @wake m c i l ht hlock =>
    have hi := hl.not_sched hlock fun _ _ _ e => by rw [ht] at e; cases e
    have := h.setProc (x := ((s.proc i).wake (m, c)).setLock none) hi ((s.proc i).wake_state (m, c)) ((s.proc i).wake_chan (m, c))
    exact this.setThread fun _ _ => by show (s.thread p).Dozing _ _ → _; rw [ht]; exact id
  | @slay pid i l ht hlock =>
    have hi := hl.not_sched hlock fun _ _ _ e => by rw [ht] at e; cases e
    have := h.setProc (x := (s.proc i).slay.setLock none) hi (s.proc i).slay_state (s.proc i).slay_chan
    exact this.setThread fun _ _ => by show (s.thread p).Dozing _ _ → _; rw [ht]; exact id

end

/-! ## Sleepers -/

/-- The thread is asleep on the channel, or is past the test that sends it there. -/
def At.Waiting (state : ProcState) (m : M) (c : C) : At N M C L → Prop
  | .sleep m' c' _ | .sleepBoth m' c' _ | .sleepSelf m' c' _ => m' = m ∧ c' = c
  | .sched m' c' _ | .saved m' c' _ => (m' = m ∧ c' = c) ∧ state = .sleeping
  | _ => False

/-- Process `q` waits on a channel. -/
def Waiting (s : System N M R C L) (q : Fin N) (m : M) (c : C) : Prop := (s.thread q).Waiting (s.proc q).state m c

/-- What there is to say of guarded code. -/
structure Spec (R C L : Type) where
  /-- what holds of the data while a process sleeps on a channel -/
  needs : C → R → Prop
  /-- at the location, the code has a `wakeup` of the channel ahead of it -/
  owes : L → C → Prop
  /-- what the code knows of the data at a location, under the lock -/
  fits : L → R → Prop
  /-- a process that sleeps on the channel goes on at such a location -/
  naps : C → L → Prop

section

variable (code : Code M R C L O) (sp : Spec R C L)

/-- What guarded code keeps to: it sleeps on a channel only when `needs` holds, and when it makes
`needs` false, or owes a channel a wakeup already, it goes on owing it until it calls `wakeup`. Once
the lock has been given up, nothing is known of the data. -/
structure Keeps : Prop where
  call : ∀ {o l m l'}, code.call o l = some (m, l') → ∀ r, sp.fits l' r
  sleep : ∀ {m l k r c l'}, sp.fits l r → code.body m l k r = .sleep c l' →
    sp.needs c r ∧ sp.naps c l' ∧ ∀ r', sp.fits l' r'
  modify : ∀ {m l k r r' l'}, sp.fits l r → code.body m l k r = .modify r' l' →
    sp.fits l' r' ∧ ∀ c, sp.needs c r ∨ sp.owes l c → sp.needs c r' ∨ sp.owes l' c
  wakeup : ∀ {m l k r c l'}, sp.fits l r → code.body m l k r = .wakeup c l' →
    sp.fits l' r ∧ ∀ c', c' ≠ c → sp.owes l c' → sp.owes l' c'

/-- What a thread knows of the data. -/
def At.Fits (data : M → R) : At N M C L → Prop
  | .body m l | .wakeup m _ _ l | .waking m _ _ l => sp.fits l (data m)
  | .enter _ l | .awake _ l => ∀ r, sp.fits l r
  | .sleep _ c l | .sleepBoth _ c l | .sleepSelf _ c l | .sched _ c l | .saved _ c l => sp.naps c l ∧ ∀ r, sp.fits l r
  | _ => True

def Fits (s : System N M R C L) : Prop := ∀ p, (s.thread p).Fits sp s.data

/-- The thread will come to wake process `q` from channel `c`. -/
def At.Owes (q : Fin N) (c : C) : At N M C L → Prop
  | .body _ l => sp.owes l c
  | .wakeup _ c' i l => (c' = c ∧ i ≤ q) ∨ sp.owes l c
  | .waking _ c' i l => (c' = c ∧ i ≤ q) ∨ sp.owes l c
  | _ => False

/-- Who waits has what it needs to wait, or the holder of the lock will come to wake it. -/
def Asleep (s : System N M R C L) : Prop :=
  ∀ q m c, Waiting s q m c → sp.needs c (s.data m) ∨ ∃ p, s.lock m = some p ∧ (s.thread p).Owes sp q c

/-- When a thread gives up its guarding lock, it owes no wakeup to anyone who waits. -/
def Clean (s : System N M R C L) (a : Act N O) : Prop :=
  ∀ p m l, a = .go p → s.thread p = .body m l →
    (∃ l', code.body m l (s.proc p).self (s.data m) = .leave l' ∨
      ∃ c, code.body m l (s.proc p).self (s.data m) = .sleep c l') →
    ∀ c, sp.owes l c → ∀ q, ¬ Waiting s q m c

end

section

variable {code : Code M R C L O} {sp : Spec R C L} {s s' : System N M R C L}

omit [DecidableEq M] [DecidableEq C]

variable {c : C}

/-- A process that was not asleep does not wait because of its state. -/
theorem At.Waiting.mono {st st' : ProcState} (h : t.Waiting st' m c)
    (hst : st' = .sleeping → st = .sleeping) : t.Waiting st m c := by
  cases t with
  | sched m' c' l => exact ⟨h.1, hst h.2⟩
  | saved m' c' l => exact ⟨h.1, hst h.2⟩
  | sleep m' c' l => exact h
  | sleepBoth m' c' l => exact h
  | sleepSelf m' c' l => exact h
  | _ => cases h

theorem waiting_setThread (ht : ∀ st m c, t.Waiting st m c → (s.thread p).Waiting st m c)
    (h : Waiting (s.setThread p t) q m c) : Waiting s q m c := by
  by_cases hq : q = p
  · subst hq
    refine ht _ m c ?_
    simpa [Waiting] using h
  · simpa [Waiting, hq] using h

theorem waiting_setProc (hx : x.state = .sleeping → (s.proc i).state = .sleeping)
    (h : Waiting (s.setProc i x) q m c) : Waiting s q m c := by
  refine h.mono ?_
  by_cases hq : q = i
  · subst hq
    simpa using hx
  · simp [hq]

/-- Nobody new waits, and nobody forgets what it owes. -/
theorem Asleep.mono (h : Asleep sp s) (hd : s'.data = s.data) (hw : ∀ q m c, Waiting s' q m c → Waiting s q m c)
    (ho : ∀ q m c p, Waiting s' q m c → s.lock m = some p → (s.thread p).Owes sp q c →
      s'.lock m = some p ∧ (s'.thread p).Owes sp q c) : Asleep sp s' := by
  intro q m c hq
  rw [hd]
  rcases h q m c (hw q m c hq) with hneeds | ⟨p, hl, howes⟩
  · exact .inl hneeds
  · exact .inr ⟨p, ho q m c p hq hl howes⟩

/-- Who waits under a lock that another thread holds, while that thread holds its `p->lock` too, is
off the CPU. -/
theorem Waiting.saved (hl : Locks s) (hw : Waiting s q m c) (hpq : p ≠ q)
    (hp : (s.thread p).lk = some m) (hq : (s.proc q).lock = some (.proc p)) :
    (∃ l, s.thread q = .saved m c l) ∧ (s.proc q).state = .sleeping := by
  have hlk := (hl.lk m p).mpr hp
  have hself : (s.thread q).plock q ≠ some q := fun e => by
    cases ((hl.plock q q).mpr e).symm.trans hq
    exact hpq rfl
  have hother : (s.thread q).lk ≠ some m := fun e => by
    cases ((hl.lk m q).mpr e).symm.trans hlk
    exact hpq rfl
  unfold Waiting at hw
  cases ht : s.thread q with
  | saved m' c' l =>
    rw [ht] at hw
    obtain ⟨⟨rfl, rfl⟩, hs⟩ := hw
    exact ⟨⟨l, rfl⟩, hs⟩
  | sleep m' c' l =>
    rw [ht] at hw hother
    exact absurd (congrArg some hw.1) hother
  | sleepBoth m' c' l | sleepSelf m' c' l | sched m' c' l => exact absurd (by rw [ht]; rfl) hself
  | _ => rw [ht] at hw; cases hw

/-- A step of the thread that holds lock `m` concerns only those who wait under that lock. -/
theorem Asleep.under (h : Asleep sp s) (hl : Locks s) (hp : (s.thread p).lk = some m)
    (hdata : ∀ m', m' ≠ m → s'.data m' = s.data m')
    (hlock : ∀ m', m' ≠ m → s'.lock m' = s.lock m')
    (hthread : ∀ q, q ≠ p → s'.thread q = s.thread q)
    (hw : ∀ q m' c, m' ≠ m → Waiting s' q m' c → Waiting s q m' c)
    (hm : ∀ q c, Waiting s' q m c → sp.needs c (s'.data m) ∨ ∃ p', s'.lock m = some p' ∧ (s'.thread p').Owes sp q c) :
    Asleep sp s' := by
  intro q m' c hq
  by_cases hmm : m' = m
  · subst hmm
    exact hm q c hq
  · rw [hdata m' hmm, hlock m' hmm]
    rcases h q m' c (hw q m' c hmm hq) with hneeds | ⟨p', hlock', howes⟩
    · exact .inl hneeds
    · have hne : p' ≠ p := by
        rintro rfl
        have := (hl.lk m' p').mp hlock'
        rw [hp] at this
        exact hmm (Option.some.inj this).symm
      exact .inr ⟨p', hlock', by rw [hthread p' hne]; exact howes⟩

/-- The same for what the holder itself owes. -/
theorem Asleep.owed (h : Asleep sp s) (hl : Locks s) (hp : (s.thread p).lk = some m)
    (hq : Waiting s q m c) : sp.needs c (s.data m) ∨ (s.thread p).Owes sp q c := by
  refine (h q m c hq).imp_right ?_
  rintro ⟨p', hlock, howes⟩
  cases ((hl.lk m p).mpr hp).symm.trans hlock
  exact howes

variable [DecidableEq M] [DecidableEq C]

omit [DecidableEq M] [DecidableEq C] in
/-- The thread of `p` goes to a place that fits, and the data that others know of is as it was. -/
theorem Fits.setThread (h : Fits sp s) (ht : t.Fits sp s'.data)
    (hthread : s'.thread = update s.thread p t)
    (hdata : ∀ q, q ≠ p → ∀ m, (s.thread q).lk = some m → s'.data m = s.data m) : Fits sp s' := by
  intro q
  rw [hthread]
  by_cases hq : q = p
  · subst hq
    rwa [update_self]
  · rw [update_of_ne hq]
    have hfq := h q
    have hdq := hdata q hq
    cases hs : s.thread q with
    | body m l | wakeup m c i l | waking m c i l =>
      rw [hs] at hfq hdq
      show sp.fits l (s'.data m)
      rw [hdq m rfl]
      exact hfq
    | _ => rw [hs] at hfq; exact hfq

theorem Fits.move (hk : Keeps code sp) (hl : Locks s) (h : Fits sp s) (hm : Move code s p a s') :
    Fits sp s' := by
  have hp := h p
  have hsame : ∀ {t : At N M C L} {s' : System N M R C L}, s'.thread = update s.thread p t → s'.data = s.data →
      t.Fits sp s.data → Fits sp s' := fun hthread hd ht =>
    h.setThread (by rw [hd]; exact ht) hthread fun _ _ _ _ => by rw [hd]
  cases hm with
  | call ht hc => exact hsame rfl rfl (hk.call hc)
  | @modify m l r l' ht hb =>
    rw [ht] at hp
    refine h.setThread (p := p) (t := .body m l') ?_ rfl fun q hq m' hm' => ?_
    · show sp.fits l' (update s.data m r m)
      rw [update_self]
      exact (hk.modify hp hb).1
    · -- the others know nothing of the data that this lock guards
      have hmm : m' ≠ m := by
        rintro rfl
        cases ((hl.lk m' q).mpr hm').symm.trans ((hl.lk m' p).mpr (by rw [ht]; rfl))
        exact hq rfl
      exact update_of_ne hmm _ _
  | sleep ht hb =>
    rw [ht] at hp
    exact hsame rfl rfl (hk.sleep hp hb).2
  | wakeup ht hb =>
    rw [ht] at hp
    exact hsame rfl rfl (hk.wakeup hp hb).1
  | kill _ ht | killEnd ht | leave ht _ _ | killLock _ ht _ | slay ht _ | spare ht _ => exact hsame rfl rfl trivial
  | look _ | pass _ => exact h
  | enter ht _ =>
    rw [ht] at hp
    exact hsame rfl rfl (hp _)
  | awake ht _ | sleepLock ht _ | sleepUnlock ht _ | doze ht | swtch ht _ | wakeLock _ ht _ | wakeEnd ht _ | wake ht _ =>
    rw [ht] at hp
    exact hsame rfl rfl hp
  | run _ _ ht =>
    rw [ht] at hp
    exact hsame rfl rfl hp.2

theorem Asleep.move (hk : Keeps code sp) (hl : Locks s) (hd : Dozing s) (hf : Fits sp s)
    (h : Asleep sp s) (hc : Clean code sp s a) (hm : Move code s p a s') : Asleep sp s' := by
  have hfp := hf p
  cases hm with
  | @modify m l r l' ht hb =>
    rw [ht] at hfp
    -- who waits keeps what it needs, or is owed a wakeup from now on
    have hp : (s.thread p).lk = some m := by rw [ht]; rfl
    have hw : ∀ q m' c, Waiting ((s.setData m r).setThread p (.body m l')) q m' c → Waiting s q m' c := fun q m' c =>
      waiting_setThread (s := s.setData m r) fun _ _ _ hf => by cases hf
    refine h.under hl hp (fun m' hm' => update_of_ne hm' _ _) (fun _ _ => rfl)
      (fun q hq => update_of_ne hq _ _) (fun q m' c _ => hw q m' c) fun q c hq => ?_
    have howed := h.owed hl hp (hw q m c hq)
    rw [ht] at howed
    refine ((hk.modify hfp hb).2 c howed).imp (fun hneeds => ?_) fun howes => ⟨p, (hl.lk m p).mpr hp, ?_⟩
    · simpa using hneeds
    · rw [setThread_thread, update_self]
      exact howes
  | @sleep m l c l' ht hb =>
    have hp : (s.thread p).lk = some m := by rw [ht]; rfl
    -- the sleeper itself has what it needs, and it owes nothing to the others
    have hw : ∀ q m' c', Waiting (s.setThread p (.sleep m c l')) q m' c' → Waiting s q m' c' ∨ m' = m ∧ c' = c := by
      intro q m' c' hq
      by_cases hqp : q = p
      · subst hqp
        unfold Waiting at hq
        rw [setThread_thread, update_self] at hq
        exact .inr ⟨hq.1.symm, hq.2.symm⟩
      · exact .inl (by simpa [Waiting, hqp] using hq)
    refine h.under hl hp (fun _ _ => rfl) (fun _ _ => rfl) (fun q hq => update_of_ne hq _ _)
      (fun q m' c' hm' hq => (hw q m' c' hq).resolve_right fun e => hm' e.1) fun q c' hq => ?_
    rcases hw q m c' hq with hq' | ⟨-, rfl⟩
    · have howed := h.owed hl hp hq'
      rw [ht] at howed
      exact .inl (howed.resolve_right fun howes => hc p m l rfl ht ⟨l', .inr ⟨c, hb⟩⟩ c' howes q hq')
    · rw [ht] at hfp
      exact .inl (hk.sleep hfp hb).1
  | @wakeup m l c l' ht hb =>
    have hp : (s.thread p).lk = some m := by rw [ht]; rfl
    have hw : ∀ q m' c', Waiting (s.setThread p (.wakeup m c 0 l')) q m' c' → Waiting s q m' c' := fun q m' c' =>
      waiting_setThread fun _ _ _ hf => by cases hf
    refine h.under hl hp (fun _ _ => rfl) (fun _ _ => rfl) (fun q hq => update_of_ne hq _ _)
      (fun q m' c' _ => hw q m' c') fun q c' hq => ?_
    have howed := h.owed hl hp (hw q m c' hq)
    rw [ht] at howed hfp
    refine howed.imp_right fun howes => ⟨p, (hl.lk m p).mpr hp, ?_⟩
    rw [setThread_thread, update_self]
    by_cases hcc : c' = c
    · exact .inl ⟨hcc.symm, Nat.zero_le _⟩
    · exact .inr ((hk.wakeup hfp hb).2 c' hcc howes)
  | @leave m l l' ht hb hlm =>
    have hp : (s.thread p).lk = some m := by rw [ht]; rfl
    have hw : ∀ q m' c, Waiting ((s.setLock m none).setThread p (.out l')) q m' c → Waiting s q m' c := fun q m' c =>
      waiting_setThread (s := s.setLock m none) fun _ _ _ hf => by cases hf
    refine h.under hl hp (fun _ _ => rfl) (fun m' hm' => update_of_ne hm' _ _)
      (fun q hq => update_of_ne hq _ _) (fun q m' c _ => hw q m' c) fun q c hq => ?_
    have howed := h.owed hl hp (hw q m c hq)
    rw [ht] at howed
    exact .inl (howed.resolve_right fun howes => hc p m l rfl ht ⟨l', .inl hb⟩ c howes q (hw q m c hq))
  | @wake m c i l ht hli =>
    have hp : (s.thread p).lk = some m := by rw [ht]; rfl
    have hstate : (((s.proc i).wake (m, c)).setLock none).state = .sleeping → (s.proc i).state = .sleeping := fun e =>
      ((s.proc i).wake_state (m, c)).elim (fun e' => e'.symm.trans e) fun e' => e'.1
    have hw : ∀ q m' c', Waiting ((s.setProc i (((s.proc i).wake (m, c)).setLock none)).setThread p (.wakeup m c (i + 1) l)) q m' c' →
        Waiting (s.setProc i (((s.proc i).wake (m, c)).setLock none)) q m' c' := fun q m' c' =>
      waiting_setThread fun _ _ _ hf => by cases hf
    refine h.under hl hp (fun _ _ => rfl) (fun _ _ => rfl) (fun q hq => update_of_ne hq _ _)
      (fun q m' c' _ hq => waiting_setProc hstate (hw q m' c' hq)) fun q c' hq => ?_
    have howed := h.owed hl hp (waiting_setProc hstate (hw q m c' hq))
    rw [ht] at howed
    refine howed.imp_right fun howes => ⟨p, (hl.lk m p).mpr hp, ?_⟩
    rw [setThread_thread, update_self]
    refine howes.imp_left fun ⟨hcc, hle⟩ => ⟨hcc, ?_⟩
    -- the process just looked at does not wait any more
    have hqi : q ≠ i := by
      rintro rfl
      subst hcc
      have hw' := hw q m c hq
      have hpq : p ≠ q := by
        rintro rfl
        simp [Waiting, At.Waiting] at hq
      obtain ⟨⟨l', hsaved⟩, hsleep⟩ := (waiting_setProc hstate hw').saved hl hpq hp hli
      have hchan := hd q
      rw [hsaved] at hchan
      unfold Waiting at hw'
      simp [hsaved, Proc.wake, hsleep, hchan.2, At.Waiting, Proc.setLock] at hw'
    have : q.val ≠ i.val := fun e => hqi (Fin.ext e)
    omega
  | @slay pid i l ht hli =>
    have hstate : ((s.proc i).slay.setLock none).state = .sleeping → (s.proc i).state = .sleeping := fun e =>
      (s.proc i).slay_state.elim (fun e' => e'.symm.trans e) fun e' => e'.1
    refine h.mono rfl (fun q m c hq => waiting_setProc hstate (waiting_setThread (fun _ _ _ hf => by cases hf) hq))
      fun q m c p' _ hlock howes => ⟨hlock, ?_⟩
    have hne : p' ≠ p := by
      rintro rfl
      rw [ht] at howes
      exact howes
    rwa [setThread_thread, update_of_ne hne]
  | _ =>
    have hlk := hl.lk
    refine h.mono rfl (fun q m c => ?_) (fun q m c r => ?_) <;>
    simp only [Waiting, setThread_thread, setThread_proc, setThread_lock, setProc_thread,
      setProc_proc, setProc_lock, setLock_thread, setLock_proc, setLock_lock,
      update_apply, Proc.setLock] <;>
    grind [At.Waiting, At.Owes, At.lk, At.plock, Proc.doze, Proc.tidy, Proc.run]

/-- What is true of every state that guarded code comes to. -/
structure Sound (sp : Spec R C L) (s : System N M R C L) : Prop where
  locks : Locks s
  dozing : Dozing s
  fits : Fits sp s
  asleep : Asleep sp s

theorem Sound.move (h : Sound sp s) (hk : Keeps code sp) (hc : Clean code sp s a)
    (hm : Move code s p a s') : Sound sp s' :=
  ⟨h.locks.move hm, h.dozing.move h.locks hm, h.fits.move hk h.locks hm, h.asleep.move hk h.locks h.dozing h.fits hc hm⟩

omit [DecidableEq M] [DecidableEq C] in
theorem Sound.boot (pid : Fin N → Int) (l : L) (data : M → R) : Sound sp (boot (C := C) pid l data) := by
  refine ⟨⟨fun m p => ⟨?_, ?_⟩, fun p q => ⟨?_, ?_⟩⟩, fun p => rfl, fun p => trivial, fun q m c hw => by cases hw⟩
  all_goals
    intro e
    cases e

omit [DecidableEq M] [DecidableEq C] in
/-- While a lock is free, who sleeps under it has what it needs to sleep. -/
theorem Sound.sleeping (h : Sound sp s) (hlock : s.lock m = none)
    (hstate : (s.proc q).state = .sleeping) (hchan : (s.proc q).chan = some (m, c)) :
    sp.needs c (s.data m) := by
  have hd := h.dozing q
  rw [hstate, hchan] at hd
  have hw : Waiting s q m c := by
    unfold Waiting
    cases ht : s.thread q with
    | sched m' c' l =>
      rw [ht] at hd
      obtain ⟨-, e⟩ := hd
      cases e
      exact ⟨⟨rfl, rfl⟩, hstate⟩
    | saved m' c' l =>
      rw [ht] at hd
      obtain ⟨-, e⟩ := hd
      cases e
      exact ⟨⟨rfl, rfl⟩, hstate⟩
    | _ => rw [ht] at hd; cases hd
  refine (h.asleep q m c hw).resolve_right ?_
  rintro ⟨p, hl, -⟩
  cases hlock.symm.trans hl

end

/-- A process keeps its pid. -/
theorem Move.pid {code : Code M R C L O} {s s' : System N M R C L} (hm : Move code s p a s')
    (q : Fin N) : (s'.proc q).pid = (s.proc q).pid := by
  cases hm
  case wake m c i l h hl =>
    simp only [setThread_proc, setProc_proc, update_apply, Proc.setLock, Proc.wake]
    split
    next e => subst e; split <;> rfl
    next => rfl
  case slay pid i l h hl =>
    simp only [setThread_proc, setProc_proc, update_apply, Proc.setLock, Proc.slay]
    split
    next e => subst e; split <;> rfl
    next => rfl
  all_goals
    simp only [setThread_proc, setProc_proc, setLock_proc, setData_proc, update_apply]
  all_goals
    split
    next e => subst e; rfl
    next => rfl

/-! ## The code alone -/

/-- Where a thread is in the guarded code: under which lock, if any, and at which location. -/
def At.view : At N M C L → Option M × L
  | .out l | .kill _ _ l | .killing _ _ l => (none, l)
  | .enter m l | .body m l | .sleep m _ l | .sleepBoth m _ l | .sleepSelf m _ l | .sched m _ l | .saved m _ l | .awake m l
  | .wakeup m _ _ l | .waking m _ _ l => (some m, l)

def Do.view (m : M) : Do R C L → Option M × L
  | .modify _ l | .sleep _ l | .wakeup _ l => (some m, l)
  | .leave l => (none, l)

def Do.data (r : R) : Do R C L → R
  | .modify r' _ => r'
  | _ => r

section

variable {code : Code M R C L O} {s s' : System N M R C L}

/-- A step as the guarded code sees it: nothing, a call, or what the code does under its lock. -/
inductive Turn (code : Code M R C L O) (s : System N M R C L) (p : Fin N) : Act N O → System N M R C L → Prop
  | stay {a : Act N O} {s'} (hv : ∀ q, (s'.thread q).view = (s.thread q).view) (hd : s'.data = s.data) : Turn code s p a s'
  | call {o l m l' s'} (ht : s.thread p = .out l) (hc : code.call o l = some (m, l'))
    (hv : ∀ q, (s'.thread q).view = update (fun q => (s.thread q).view) p (some m, l') q) (hd : s'.data = s.data) :
    Turn code s p (.call p o) s'
  | act {m l s'} (ht : s.thread p = .body m l)
    (hv : ∀ q, (s'.thread q).view =
      update (fun q => (s.thread q).view) p ((code.body m l (s.proc p).self (s.data m)).view m) q)
    (hd : s'.data = update s.data m ((code.body m l (s.proc p).self (s.data m)).data (s.data m))) :
    Turn code s p (.go p) s'

omit [DecidableEq M] [DecidableEq C] in
theorem view_setThread :
    ((s.setThread p t).thread q).view = update (fun q => (s.thread q).view) p t.view q := by
  rw [setThread_thread]
  exact congrFun (update_apply_field At.view s.thread p t) q

omit [DecidableEq M] [DecidableEq C] in
theorem view_stay (h : t.view = (s.thread p).view) :
    ((s.setThread p t).thread q).view = (s.thread q).view := by
  rw [view_setThread, h, update_eq_self (f := fun q => (s.thread q).view) p]

theorem Move.turn (hm : Move code s p a s') : Turn code s p a s' := by
  cases hm with
  | call ht hc => exact .call ht hc (fun _ => view_setThread) rfl
  | modify ht hb =>
    refine .act ht (fun q => ?_) ?_
    · rw [hb]
      exact view_setThread
    · rw [hb]
      rfl
  | sleep ht hb | wakeup ht hb | leave ht hb hl =>
    refine .act ht (fun q => ?_) ?_
    · rw [hb]
      exact view_setThread
    · rw [hb]
      exact (update_eq_self _ _).symm
  | look hl | pass hl => exact .stay (fun _ => rfl) rfl
  | kill pid ht | killEnd ht | wakeEnd ht _ | enter ht _ | sleepLock ht _ | sleepUnlock ht _ | doze ht | swtch ht _
  | awake ht _ | wakeLock i ht _ | wake ht _ | killLock i ht _ | slay ht _ | spare ht _ | run _ _ ht =>
    refine .stay (fun q => view_stay ?_) rfl
    simp only [setProc_thread, setLock_thread, ht]
    rfl

end

end Xv6.Sleep
