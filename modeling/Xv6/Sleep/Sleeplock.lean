import Xv6.Sleep.Wakeup

/-!
# `sleeplock.c`

Any number of sleep locks, each with its spin lock `lk->lk` and one channel, its own address. A
process may hold several of them. `Exclusive` is what the ownership of the locks keeps to, and
`excludes_and_wakes` the two things that the rest of the kernel relies on.
-/

namespace Xv6.Sleep

open Function

/-- `struct sleeplock` without its spin lock. -/
structure Sleeplock where
  locked : Bool
  pid : Int

namespace Sleeplock

/-- Where a process is in `acquiresleep` or `releasesleep`. -/
inductive Pc
  | idle
  /-- `while (lk->locked)` -/
  | test
  /-- `acquiresleep` has the lock -/
  | done
  /-- `lk->locked = 0` -/
  | clear
  | wake
  | leave
  deriving DecidableEq, Repr

variable {K : Type} [DecidableEq K]

structure Loc (K : Type) where
  /-- the locks that `acquiresleep` has returned with and that are not being released -/
  held : K → Bool
  pc : Pc

def Loc.goto (l : Loc K) (pc : Pc) : Loc K := { l with pc := pc }

def Loc.setHeld (l : Loc K) (k : K) (b : Bool) : Loc K := { l with held := update l.held k b }

inductive Op (K : Type)
  | acquiresleep (k : K)
  | releasesleep (k : K)

/-- `acquiresleep`, and `releasesleep` by the holder. What is between two tests of `lk->locked` is
one step, since nobody touches it without `lk->lk`. -/
def code : Code K Sleeplock Unit (Loc K) (Op K) where
  call
    | .acquiresleep k, l => some (k, l.goto .test)
    | .releasesleep k, l => if l.held k = true then some (k, (l.setHeld k false).goto .clear) else none
  body k l me lk :=
    match l.pc with
    | .test => if lk.locked = true then .sleep () l else .modify { locked := true, pid := me.pid } (l.goto .done)
    | .done => .leave ((l.setHeld k true).goto .idle)
    | .clear => .modify { locked := false, pid := 0 } (l.goto .wake)
    | .wake => .wakeup () (l.goto .leave)
    | .leave => .leave (l.goto .idle)
    | .idle => .leave l

variable {N : Nat} {s s' : System N K Sleeplock Unit (Loc K)}

/-- A process is between the return of `acquiresleep(k)` and its `releasesleep(k)`. -/
def Holds (s : System N K Sleeplock Unit (Loc K)) (p : Fin N) (k : K) : Prop := (s.thread p).view.2.held k = true

/-! ## No lost wakeup -/

/-- A process sleeps while the lock is taken, and `releasesleep` owes a wakeup once it has cleared
`locked`. -/
def spec : Spec Sleeplock Unit (Loc K) where
  needs _ lk := lk.locked = true
  owes l _ := l.pc = .wake
  fits _ _ := True
  naps _ _ := True

theorem keeps : Keeps (code (K := K)) spec := by
  refine ⟨fun _ _ => trivial, ?_, ?_, ?_⟩
  · intro m l me lk c l' _ h
    simp only [code] at h
    split at h
    · split at h
      next hl => exact ⟨hl, trivial, fun _ => trivial⟩
      next => cases h
    all_goals cases h
  · intro m l me lk lk' l' _ h
    refine ⟨trivial, fun c hc => ?_⟩
    simp only [code] at h
    split at h
    · split at h
      next => cases h
      next => cases h; exact .inl rfl
    case _ => cases h
    case _ => cases h; exact .inr rfl
    all_goals cases h
  · intro m l me lk c l' _ _
    exact ⟨trivial, fun c' hne => absurd rfl hne⟩

theorem clean (a : Act N (Op K)) : Clean code spec s a := by
  rintro p m l - - ⟨l', h⟩ c howes q -
  have hpc : l.pc = .wake := howes
  simp only [code, hpc] at h
  rcases h with h | ⟨c, h⟩ <;> cases h

/-! ## Mutual exclusion -/

/-- The lock is the process's: it holds it, or it is leaving `acquiresleep` or entering
`releasesleep`. -/
def Owns (v : Option K × Loc K) (k : K) : Prop :=
  v.2.held k = true ∨ v.1 = some k ∧ (v.2.pc = .done ∨ v.2.pc = .clear)

structure Exclusive (s : System N K Sleeplock Unit (Loc K)) : Prop where
  locked : ∀ k p, Owns (s.thread p).view k → (s.data k).locked = true
  unique : ∀ k p q, Owns (s.thread p).view k → Owns (s.thread q).view k → q = p
  clear : ∀ k p, (s.thread p).view.1 = some k → (s.thread p).view.2.pc = .clear → (s.thread p).view.2.held k = false

omit [DecidableEq K] in
/-- A process comes to own what it owned, or a lock that was free. -/
theorem Exclusive.set {p : Fin N} {v : Option K × Loc K} (h : Exclusive s)
    (hv : ∀ q, (s'.thread q).view = update (fun q => (s.thread q).view) p v q)
    (hown : ∀ k, Owns v k → (s'.data k).locked = true ∧ (Owns (s.thread p).view k ∨ (s.data k).locked = false))
    (hdata : ∀ k q, q ≠ p → Owns (s.thread q).view k → (s'.data k).locked = true)
    (hclear : ∀ k, v.1 = some k → v.2.pc = .clear → v.2.held k = false) : Exclusive s' := by
  have hself : (s'.thread p).view = v := by rw [hv, update_self]
  have hother : ∀ q, q ≠ p → (s'.thread q).view = (s.thread q).view := fun q hq => by rw [hv, update_of_ne hq]
  -- a process other than `p` owns nothing that `p` comes to own
  have hapart : ∀ k q, q ≠ p → Owns (s.thread q).view k → ¬ Owns v k := by
    intro k q hq hk hvk
    rcases (hown k hvk).2 with hp | hfree
    · exact hq (h.unique k p q hp hk)
    · rw [h.locked k q hk] at hfree
      cases hfree
  refine ⟨fun k q hq => ?_, fun k q r hq hr => ?_, fun k q => ?_⟩
  · by_cases hqp : q = p
    · subst hqp
      rw [hself] at hq
      exact (hown k hq).1
    · rw [hother q hqp] at hq
      exact hdata k q hqp hq
  · by_cases hqp : q = p <;> by_cases hrp : r = p
    · rw [hqp, hrp]
    · subst hqp
      rw [hself] at hq
      rw [hother r hrp] at hr
      exact absurd hq (hapart k r hrp hr)
    · subst hrp
      rw [hself] at hr
      rw [hother q hqp] at hq
      exact absurd hr (hapart k q hqp hq)
    · rw [hother q hqp] at hq
      rw [hother r hrp] at hr
      exact h.unique k q r hq hr
  · by_cases hqp : q = p
    · subst hqp
      rw [hself]
      exact hclear k
    · rw [hother q hqp]
      exact h.clear k q

omit [DecidableEq K] in
/-- A process comes to own nothing new, and the locks are as they were. -/
theorem Exclusive.keep {p : Fin N} {v : Option K × Loc K} (h : Exclusive s)
    (hv : ∀ q, (s'.thread q).view = update (fun q => (s.thread q).view) p v q) (hd : s'.data = s.data)
    (hown : ∀ k, Owns v k → Owns (s.thread p).view k)
    (hclear : ∀ k, v.1 = some k → v.2.pc = .clear → v.2.held k = false) : Exclusive s' := by
  refine h.set hv (fun k hk => ?_) (fun k q _ hq => ?_) hclear
  · rw [hd]
    exact ⟨h.locked k p (hown k hk), .inl (hown k hk)⟩
  · rw [hd]
    exact h.locked k q hq

theorem Exclusive.call {p : Fin N} {o : Op K} {l l' : Loc K} {m : K} (h : Exclusive s) (ht : s.thread p = .out l)
    (hc : code.call o l = some (m, l'))
    (hv : ∀ q, (s'.thread q).view = update (fun q => (s.thread q).view) p (some m, l') q)
    (hd : s'.data = s.data) : Exclusive s' := by
  have hview : (s.thread p).view = (none, l) := by rw [ht]; rfl
  cases o with
  | acquiresleep k =>
    cases hc
    refine h.keep hv hd (fun k' hk => ?_) fun k' _ hpc => by cases hpc
    rw [hview]
    simpa [Owns, Loc.goto] using hk
  | releasesleep k =>
    simp only [code] at hc
    split at hc
    next hheld =>
      cases hc
      refine h.keep hv hd (fun k' hk => ?_) fun k' hk _ => ?_
      · rw [hview]
        left
        rcases hk with hk | ⟨e, -⟩
        · by_cases hkm : k' = m
          · simp [Loc.goto, Loc.setHeld, hkm] at hk
          · simpa [Loc.goto, Loc.setHeld, hkm] using hk
        · cases e
          exact hheld
      · cases hk
        simp [Loc.goto, Loc.setHeld]
    next => cases hc

theorem Exclusive.act {p : Fin N} {l : Loc K} {m : K} (h : Exclusive s) (ht : s.thread p = .body m l)
    (hv : ∀ q, (s'.thread q).view =
      update (fun q => (s.thread q).view) p ((code.body m l (s.proc p).self (s.data m)).view m) q)
    (hd : s'.data = update s.data m ((code.body m l (s.proc p).self (s.data m)).data (s.data m))) :
    Exclusive s' := by
  have hview : (s.thread p).view = (some m, l) := by rw [ht]; rfl
  simp only [code] at hv hd
  split at hv
  next hpc =>
    -- `while (lk->locked)`
    simp only [hpc] at hd
    split at hv
    next hlocked =>
      simp only [hlocked, if_true] at hd
      refine h.keep hv (hd.trans (update_eq_self _ _)) (fun k hk => ?_) fun k _ e => by cases hpc.symm.trans e
      rwa [hview]
    next hfree =>
      simp only [hfree] at hd
      have hk : ∀ k, k ≠ m → s'.data k = s.data k := fun k hk => by rw [hd, update_of_ne hk]
      have hm : (s'.data m).locked = true := by rw [hd, update_self]; rfl
      refine h.set hv (fun k hown => ?_) (fun k q _ hq => ?_) fun k _ e => by cases e
      · by_cases hkm : k = m
        · subst hkm
          exact ⟨hm, .inr (by simpa using hfree)⟩
        · have hold : Owns (s.thread p).view k := by
            rw [hview]
            rcases hown with hown | ⟨e, -⟩
            · exact .inl hown
            · cases e; exact absurd rfl hkm
          rw [hk k hkm]
          exact ⟨h.locked k p hold, .inl hold⟩
      · by_cases hkm : k = m
        · subst hkm; exact hm
        · rw [hk k hkm]; exact h.locked k q hq
  next hpc =>
    -- `acquiresleep` returns
    simp only [hpc] at hd
    refine h.keep hv (hd.trans (update_eq_self _ _)) (fun k hk => ?_) fun k e => by cases e
    rw [hview]
    rcases hk with hk | ⟨e, -⟩
    · by_cases hkm : k = m
      · exact .inr ⟨by rw [hkm], .inl hpc⟩
      · exact .inl (by simpa [Do.view, Loc.goto, Loc.setHeld, hkm] using hk)
    · cases e
  next hpc =>
    -- `lk->locked = 0`
    simp only [hpc] at hd
    have hp : Owns (s.thread p).view m := by rw [hview]; exact .inr ⟨rfl, .inr hpc⟩
    have hdrop : l.held m = false := by
      have := h.clear m p
      rw [hview] at this
      exact this rfl hpc
    refine h.set hv (fun k hown => ?_) (fun k q hq hown => ?_) fun k _ e => by cases e
    · have hheld : l.held k = true := hown.resolve_right fun e => by rcases e.2 with e | e <;> cases e
      have hkm : k ≠ m := by
        rintro rfl
        rw [hdrop] at hheld
        cases hheld
      have hold : Owns (s.thread p).view k := by rw [hview]; exact .inl hheld
      rw [hd, update_of_ne hkm]
      exact ⟨h.locked k p hold, .inl hold⟩
    · have hkm : k ≠ m := by
        rintro rfl
        exact hq (h.unique k p q hp hown)
      rw [hd, update_of_ne hkm]
      exact h.locked k q hown
  all_goals
    -- the rest of `releasesleep`
    rename_i hpc
    simp only [hpc] at hd
    refine h.keep hv (hd.trans (update_eq_self _ _)) (fun k hk => ?_) fun k _ e => ?_
    · rw [hview]
      exact .inl (hk.resolve_right fun e => by simp [Do.view, Loc.goto, hpc] at e)
    · simp [Do.view, Loc.goto, hpc] at e

theorem Exclusive.turn {p : Fin N} {a : Act N (Op K)} (h : Exclusive s) (ht : Turn code s p a s') : Exclusive s' := by
  cases ht with
  | stay hv hd =>
    refine ⟨fun k q => ?_, fun k q r => ?_, fun k q => ?_⟩
    · rw [hv, hd]
      exact h.locked k q
    · rw [hv, hv]
      exact h.unique k q r
    · rw [hv]
      exact h.clear k q
  | call ht hc hv hd => exact h.call ht hc hv hd
  | act ht hv hd => exact h.act ht hv hd

/-! ## Every run -/

/-- No sleep lock is taken. -/
def init (pid : Fin N → Int) : System N K Sleeplock Unit (Loc K) :=
  boot pid { held := fun _ => false, pc := .idle } fun _ => { locked := false, pid := 0 }

omit [DecidableEq K] in
theorem init_exclusive (pid : Fin N → Int) : Exclusive (init (K := K) pid) := by
  have hnone : ∀ k p, ¬ Owns ((init (K := K) pid).thread p).view k := by
    rintro k p (h | ⟨h, -⟩) <;> cases h
  exact ⟨fun k p h => absurd h (hnone k p), fun k p q h => absurd h (hnone k p), fun k p h => by cases h⟩

theorem reachable {pid : Fin N → Int} {as : List (Act N (Op K))} (h : run (step code) (init pid) as = some (.ok s)) :
    Sound spec s ∧ Exclusive s := by
  refine run_invariant (C := fun _ _ => True) (I := fun s => Sound spec s ∧ Exclusive s) ?_
    ⟨Sound.boot pid _ _, init_exclusive pid⟩ (eachStep_true as _) h
  rintro s a s' ⟨hs, he⟩ - hstep
  obtain ⟨p, hm⟩ := step_move hstep
  exact ⟨hs.move keeps (clean a) hm, he.turn hm.turn⟩

/-- Sleep locks exclude, and a lock that is free has no sleeper: in every state that any number of
processes come to, at most one is between the return of `acquiresleep` and its `releasesleep` on the
same lock, and nobody sleeps on a lock that is not taken, once its spin lock is free. -/
theorem excludes_and_wakes (pid : Fin N → Int) (as : List (Act N (Op K)))
    (h : run (step code) (init pid) as = some (.ok s)) (k : K) :
    (∀ p q, Holds s p k → Holds s q k → q = p) ∧
      ((s.data k).locked = false → s.lock k = none →
        ∀ p, ¬ ((s.proc p).state = .sleeping ∧ (s.proc p).chan = some (k, ()))) := by
  obtain ⟨hs, he⟩ := reachable h
  refine ⟨fun p q hp hq => he.unique k p q (.inl hp) (.inl hq), ?_⟩
  rintro hfree hlock p ⟨hstate, hchan⟩
  have hlocked : (s.data k).locked = true := hs.sleeping hlock hstate hchan
  rw [hlocked] at hfree
  cases hfree

/-- The second process finds the lock taken and sleeps; the first releases it and wakes the second.
-/
def handover (p q : Fin N) : List (Act N (Op Unit)) :=
  [.call p (.acquiresleep ()), .go p, .go p, .go p, .call q (.acquiresleep ()), .go q, .go q, .go q, .go q, .go q, .go q,
    .dispatch q, .call p (.releasesleep ()), .go p, .go p, .go p, .go p, .go p, .go p, .go p, .go p, .go p]

theorem excludes_and_wakes_handover : ∃ s : System 2 Unit Sleeplock Unit (Loc Unit),
    run (step code) (init fun p => p.val + 1) (handover 0 1) = some (.ok s) ∧ (s.proc 1).state = .runnable ∧
      (∀ p q, Holds s p () → Holds s q () → q = p) ∧
      ((s.data ()).locked = false → s.lock () = none →
        ∀ p, ¬ ((s.proc p).state = .sleeping ∧ (s.proc p).chan = some ((), ()))) :=
  ⟨_, rfl, rfl, excludes_and_wakes (fun p => p.val + 1) (handover 0 1) rfl ()⟩

end Sleeplock

end Xv6.Sleep
