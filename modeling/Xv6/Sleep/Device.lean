import Xv6.Sleep.Wakeup

/-!
# Guarded code beside a device

A device shares memory with guarded code and holds no lock: it changes the data between any two
steps of the threads. What code may rely on under its lock is that no other thread is inside: the
others are at locations where code waits for the lock, sleeps or is not running.
-/

namespace Xv6.Sleep

variable {N : Nat} {M R C L O D : Type} [DecidableEq M] [DecidableEq C]

/-- A thread takes a step, or the device does. -/
inductive Event (N : Nat) (O D : Type)
  | thread (a : Act N O)
  | device (d : D)

/-- The machine, and a device that changes the data. -/
def stepWith (code : Code M R C L O) (device : D → (M → R) → Option (M → R)) (s : System N M R C L) :
    Event N O D → Option (Except SpinPanic (System N M R C L))
  | .thread a => step code s a
  | .device d => (device d s.data).map fun data => .ok { s with data := data }

/-- The thread runs code that is guarded by a lock. -/
def At.Inside : At N M C L → Prop
  | .body .. | .wakeup .. | .waking .. => True
  | _ => False

omit [DecidableEq M] [DecidableEq C] in
theorem At.Inside.lk {t : At N M C L} (h : t.Inside) : ∃ m, t.lk = some m := by
  cases t with
  | body m l => exact ⟨m, rfl⟩
  | wakeup m c i l => exact ⟨m, rfl⟩
  | waking m c i l => exact ⟨m, rfl⟩
  | _ => exact h.elim

/-- Code that gives up its lock goes on at such a location. -/
def Do.Rests (rest : L → Prop) : Do R C L → Prop
  | .sleep _ l | .leave l => rest l
  | _ => True

/-- The locations of code at which a thread may be without its lock. -/
structure Rests (code : Code M R C L O) (rest : L → Prop) : Prop where
  call : ∀ {o l m l'}, code.call o l = some (m, l') → rest l'
  body : ∀ m l me r, (code.body m l me r).Rests rest

def Resting (rest : L → Prop) (s : System N M R C L) : Prop := ∀ p, ¬ (s.thread p).Inside → rest (s.thread p).view.2

variable {code : Code M R C L O} {rest : L → Prop} {s s' : System N M R C L}

omit [DecidableEq M] [DecidableEq C] in
theorem Resting.setThread (h : Resting rest s) {p : Fin N} {t : At N M C L} (ht : ¬ t.Inside → rest t.view.2)
    (hs : s'.thread = Function.update s.thread p t) : Resting rest s' := by
  intro q
  rw [hs]
  exact forall_update (C := fun _ t => ¬ At.Inside t → rest t.view.2) ht (fun q _ => h q) q

theorem Resting.move {p : Fin N} {a : Act N O} (hr : Rests code rest) (h : Resting rest s) (hm : Move code s p a s') :
    Resting rest s' := by
  have hp := h p
  cases hm with
  | call ht hc => exact h.setThread (fun _ => hr.call hc) rfl
  | @sleep m l c l' ht hb | @leave m l l' ht hb hl =>
    have hrest := hr.body m l (s.proc p).self (s.data m)
    rw [hb] at hrest
    refine h.setThread ?_ rfl
    exact fun _ => hrest
  | modify ht hb | wakeup ht hb | enter ht hl | wakeLock i ht hl | wakeEnd ht hi | wake ht hl =>
    refine h.setThread ?_ rfl
    exact fun hout => absurd trivial hout
  | look hl | pass hl => exact h
  | kill pid ht | killLock i ht hl | killEnd ht | slay ht hl | spare ht hl | sleepLock ht hl | sleepUnlock ht hl | doze ht
  | swtch ht hl | awake ht hl | run hl hr ht =>
    -- the location is the one that it was
    rw [ht] at hp
    refine h.setThread ?_ rfl
    exact fun _ => hp id

omit [DecidableEq M] [DecidableEq C] in
theorem Resting.boot (pid : Fin N → Int) {l : L} (data : M → R) (hl : rest l) :
    Resting rest (boot (C := C) pid l data) := fun _ _ => hl

omit [DecidableEq M] [DecidableEq C] in
/-- While a thread is inside, every other one rests. -/
theorem Resting.others [Subsingleton M] (h : Resting rest s) (hl : Locks s) {p q : Fin N} (hp : (s.thread p).Inside)
    (hne : q ≠ p) : rest (s.thread q).view.2 := by
  apply h
  intro hq
  obtain ⟨m, hm⟩ := hp.lk
  obtain ⟨m', hm'⟩ := hq.lk
  have hlock := (hl.lk m p).mpr hm
  rw [Subsingleton.elim m m', (hl.lk m' q).mpr hm'] at hlock
  exact hne (Option.some.inj hlock)

end Xv6.Sleep
