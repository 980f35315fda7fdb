import Xv6.Lib.Bytes
import Xv6.Lib.Ring
import Xv6.Sleep.Wakeup

/-!
# `pipe.c`

Any number of pipes, written to, read from and closed by any number of processes. `accepted` and
`returned` are not in the source: they record the bytes that writes have put into the pipe and that
reads have copied out to their callers, each with the pid of the caller.

A pipe's reader sleeps on `&pi->nread` and its writer on `&pi->nwrite`. `pipewrite` wakes the
readers when the pipe is full or when it is done, and so it owes them a wakeup from the first byte
on. It forgets that debt on one path: when it finds the pipe full and its caller killed, it returns
-1 at once. `reader_left_asleep` is such a run, and `sleepers_cannot_be_served` says that there is
no other.
-/

namespace Xv6.Sleep

open Function

/-- `PIPESIZE` -/
def PIPESIZE : Nat := 512

/-- `struct pipe` without its spin lock. -/
structure Pipe extends Ring 32 Byte where
  /-- read fd is still open -/
  readopen : Bool
  /-- write fd is still open -/
  writeopen : Bool
  accepted : List (Int × Byte)
  returned : List (Int × Byte)

namespace Pipe

/-- The two channels of a pipe. -/
inductive Chan
  /-- `&pi->nread` -/
  | nread
  /-- `&pi->nwrite` -/
  | nwrite
  deriving DecidableEq, Repr

variable (pi : Pipe)

/-- `pi->nread == pi->nwrite` -/
def Empty : Prop := pi.nread = pi.nwrite

/-- `pi->nwrite == pi->nread + PIPESIZE` -/
def Full : Prop := pi.nwrite = pi.nread + BitVec.ofNat 32 PIPESIZE

instance : Decidable pi.Empty := inferInstanceAs (Decidable (_ = _))

instance : Decidable pi.Full := inferInstanceAs (Decidable (_ = _))

/-- `pi->data[pi->nwrite++ % PIPESIZE] = ch` -/
def put (pid : Int) (ch : Byte) : Pipe :=
  { pi with toRing := pi.toRing.push PIPESIZE ch, accepted := pi.accepted ++ [(pid, ch)] }

/-- `ch = pi->data[pi->nread++ % PIPESIZE]`, and whether `copyout` copies it. -/
def get (pid : Int) (copied : Bool) : Pipe :=
  { pi with
    toRing := pi.toRing.pop
    returned := if copied = true then pi.returned ++ [(pid, pi.toRing.front PIPESIZE)] else pi.returned }

/-- `pi->writeopen = 0` or `pi->readopen = 0` -/
def close (writable : Bool) : Pipe :=
  if writable = true then { pi with writeopen := false } else { pi with readopen := false }

/-- The end that is written to, or the one that is read from, is open. -/
def opened (writable : Bool) : Bool := if writable = true then pi.writeopen else pi.readopen

/-- Where a process is in the code of `pipe.c`. -/
inductive Loc
  /-- outside. `ret` is what the last call returned -/
  | idle (ret : Int)
  /-- in `pipewrite`, at `i < n`. `fresh`: it has stored a byte and called no `wakeup` since -/
  | write (n : Int) (src : Nat → Option Byte) (i : Nat) (fresh : Bool)
  /-- in `pipewrite`, at `sleep` -/
  | writeSleep (n : Int) (src : Nat → Option Byte) (i : Nat)
  /-- in `pipewrite`, after the loop -/
  | writeEnd (i : Nat)
  | writeRet (i : Nat)
  /-- in `piperead`, at the `while` -/
  | readWait (n : Int) (dst : Nat → Bool)
  /-- in `piperead`, at `i < n` -/
  | read (n : Int) (dst : Nat → Bool) (i : Nat)
  /-- in `piperead`, after a `copyout` that failed -/
  | readEnd (n : Int) (dst : Nat → Bool) (i : Nat)
  | readRet (n : Int) (dst : Nat → Bool) (i : Nat)
  | close (writable : Bool)
  | closeWake (writable : Bool)
  | closeRet (writable : Bool)

/-- The end of the pipe that a read or a write is on. -/
def Loc.uses : Loc → Option Bool
  | .write .. | .writeSleep .. | .writeEnd .. | .writeRet .. => some true
  | .readWait .. | .read .. | .readEnd .. | .readRet .. => some false
  | _ => none

/-- The end of the pipe that is being closed. -/
def Loc.closes : Loc → Option Bool
  | .close w | .closeWake w | .closeRet w => some w
  | _ => none

/-- The calls. `src` is the user's memory from `addr` on, as far as it is mapped, and `dst` says
which bytes of it are mapped. -/
inductive Op (K : Type)
  | pipewrite (pi : K) (src : Nat → Option Byte) (n : Int)
  | piperead (pi : K) (dst : Nat → Bool) (n : Int)
  | pipeclose (pi : K) (writable : Bool)

variable {K : Type}

/-- What `pipewrite` does at `i < n`. -/
def writeLoop (n : Int) (src : Nat → Option Byte) (i : Nat) (me : Self) : Do Pipe Chan Loc :=
  if (i : Int) < n then
    if pi.Full then
      if pi.readopen = false ∨ me.killed = true then .leave (.idle (-1)) else .wakeup .nread (.writeSleep n src i)
    else
      match src i with
      | none => .modify pi (.writeEnd i)
      | some ch => .modify (pi.put me.pid ch) (.write n src (i + 1) true)
  else .modify pi (.writeEnd i)

/-- What `piperead` does in its `while`. -/
def readWait (n : Int) (dst : Nat → Bool) (me : Self) : Do Pipe Chan Loc :=
  if pi.Empty ∧ pi.writeopen = true then
    if me.killed = true then .leave (.idle (-1)) else .sleep .nread (.readWait n dst)
  else .modify pi (.read n dst 0)

/-- What `piperead` does at `i < n`. -/
def readLoop (n : Int) (dst : Nat → Bool) (i : Nat) (me : Self) : Do Pipe Chan Loc :=
  if (i : Int) < n then
    if pi.Empty then .wakeup .nwrite (.readRet n dst i)
    else if dst i = true then .modify (pi.get me.pid true) (.read n dst (i + 1))
    else .modify (pi.get me.pid false) (.readEnd n dst i)
  else .wakeup .nwrite (.readRet n dst i)

/-- `pipewrite`, `piperead` and `pipeclose`. That the last `pipeclose` frees the page is not part of
it. -/
def code : Code K Pipe Chan Loc (Op K) where
  call
    | .pipewrite pi src n, _ => some (pi, .write n src 0 false)
    | .piperead pi dst n, _ => some (pi, .readWait n dst)
    | .pipeclose pi writable, _ => some (pi, .close writable)
  body _ l me pi :=
    match l with
    | .idle ret => .leave (.idle ret)
    | .write n src i _ => pi.writeLoop n src i me
    | .writeSleep n src i => .sleep .nwrite (.write n src i false)
    | .writeEnd i => .wakeup .nread (.writeRet i)
    | .writeRet i => .leave (.idle i)
    | .readWait n dst => pi.readWait n dst me
    | .read n dst i => pi.readLoop n dst i me
    | .readEnd n dst i => .wakeup .nwrite (.readRet n dst i)
    | .readRet _ _ i => .leave (.idle i)
    | .close writable => .modify (pi.close writable) (.closeWake writable)
    | .closeWake writable => .wakeup (if writable = true then .nread else .nwrite) (.closeRet writable)
    | .closeRet _ => .leave (.idle 0)

/-! ## What the code keeps to -/

/-- A reader sleeps while the pipe is empty and can be written to, a writer while it is full and can
be read. -/
def Needs : Chan → Pipe → Prop
  | .nread, pi => pi.Empty ∧ pi.writeopen = true
  | .nwrite, pi => pi.Full ∧ pi.readopen = true

def Loc.Owes : Loc → Chan → Prop
  | .write _ _ _ fresh, .nread => fresh = true
  | .writeEnd _, .nread => True
  | .read _ _ i, .nwrite => 0 < i
  | .readEnd .., .nwrite => True
  | .closeWake writable, c => c = if writable = true then .nread else .nwrite
  | _, _ => False

/-- A read that returns 0 has found the pipe empty and closed for writing, or could not copy. -/
def Loc.Fits : Loc → Pipe → Prop
  | .writeSleep .., pi => pi.Full ∧ pi.readopen = true
  | .read _ _ i, pi => i = 0 → pi.Empty → pi.writeopen = false
  | .readEnd n dst i, _ => (i : Int) < n ∧ dst i = false
  | .readRet n dst i, pi => (∀ j : Nat, (j : Int) < n → dst j = true) → i = 0 → 0 < n → pi.Empty ∧ pi.writeopen = false
  | _, _ => True

def Loc.Naps : Chan → Loc → Prop
  | .nread, .readWait .. => True
  | .nwrite, .write .. => True
  | _, _ => False

def spec : Spec Pipe Chan Loc where
  needs := Needs
  owes := Loc.Owes
  fits := Loc.Fits
  naps := Loc.Naps

variable {k : K} {l l' : Loc} {me : Self}

theorem keeps_sleep {pi : Pipe} {c : Chan} (hf : l.Fits pi)
    (h : code.body k l me pi = .sleep c l') : Needs c pi ∧ l'.Naps c ∧ ∀ pi', l'.Fits pi' := by
  cases l with
  | writeSleep n src i =>
    cases h
    exact ⟨hf, trivial, fun _ => trivial⟩
  | readWait n dst =>
    simp only [code, readWait] at h
    split at h
    next hwait =>
      split at h
      next => cases h
      next =>
        cases h
        exact ⟨hwait, trivial, fun _ => trivial⟩
    next => cases h
  | write n src i fresh =>
    simp only [code, writeLoop] at h
    split at h
    next =>
      split at h
      next => split at h <;> cases h
      next => split at h <;> cases h
    next => cases h
  | read n dst i =>
    simp only [code, readLoop] at h
    split at h
    next =>
      split at h
      next => cases h
      next => split at h <;> cases h
    next => cases h
  | _ => cases h

theorem keeps_modify {pi pi' : Pipe} (hf : l.Fits pi) (h : code.body k l me pi = .modify pi' l') :
    l'.Fits pi' ∧ ∀ c, Needs c pi ∨ l.Owes c → Needs c pi' ∨ l'.Owes c := by
  cases l with
  | write n src i fresh =>
    simp only [code, writeLoop] at h
    split at h
    next =>
      split at h
      next => split at h <;> cases h
      next hfull =>
        split at h
        next =>
          cases h
          refine ⟨trivial, fun c hc => ?_⟩
          cases c with
          | nread => exact .inr trivial
          | nwrite => exact .inl (hc.resolve_right id)
        next =>
          -- a byte is stored: the readers are owed a wakeup
          cases h
          refine ⟨trivial, fun c hc => ?_⟩
          cases c with
          | nread => exact .inr rfl
          | nwrite => exact absurd (hc.resolve_right id).1 hfull
    next =>
      cases h
      refine ⟨trivial, fun c hc => ?_⟩
      cases c with
      | nread => exact .inr trivial
      | nwrite => exact .inl (hc.resolve_right id)
  | readWait n dst =>
    simp only [code, readWait] at h
    split at h
    next => split at h <;> cases h
    next hwait =>
      cases h
      refine ⟨fun _ he => by simpa [he] using hwait, fun c hc => ?_⟩
      cases c with
      | nread => exact absurd (hc.resolve_right id) hwait
      | nwrite => exact .inl (hc.resolve_right id)
  | read n dst i =>
    simp only [code, readLoop] at h
    split at h
    next hi =>
      split at h
      next => cases h
      next hempty =>
        have hread : ∀ c, Needs c pi ∨ (Loc.read n dst i).Owes c → c = .nwrite := by
          intro c hc
          cases c with
          | nread => exact absurd (hc.resolve_right id).1 hempty
          | nwrite => rfl
        split at h
        next =>
          cases h
          refine ⟨fun e => by omega, fun c hc => ?_⟩
          rw [hread c hc]
          exact .inr (Nat.succ_pos i)
        next hdst =>
          cases h
          refine ⟨⟨hi, by simpa using hdst⟩, fun c hc => ?_⟩
          rw [hread c hc]
          exact .inr trivial
    next => cases h
  | close writable =>
    cases h
    refine ⟨trivial, fun c hc => ?_⟩
    have hneeds := hc.resolve_right (by cases c <;> exact id)
    cases writable <;> cases c
    · exact .inl hneeds
    · exact .inr rfl
    · exact .inr rfl
    · exact .inl hneeds
  | _ => cases h

theorem keeps_wakeup {pi : Pipe} {c : Chan} (hf : l.Fits pi)
    (h : code.body k l me pi = .wakeup c l') :
    l'.Fits pi ∧ ∀ c', c' ≠ c → l.Owes c' → l'.Owes c' := by
  cases l with
  | write n src i fresh =>
    simp only [code, writeLoop] at h
    split at h
    next =>
      split at h
      next hfull =>
        split at h
        next => cases h
        next hgo =>
          cases h
          refine ⟨⟨hfull, by simpa using fun e => hgo (.inl e)⟩, fun c' hne howes => ?_⟩
          cases c' with
          | nread => exact absurd rfl hne
          | nwrite => exact howes
      next => split at h <;> cases h
    next => cases h
  | read n dst i =>
    simp only [code, readLoop] at h
    have hnread : ∀ c' : Chan, c' ≠ .nwrite → (Loc.read n dst i).Owes c' → False := by
      intro c' hne howes
      cases c' with
      | nread => exact howes
      | nwrite => exact hne rfl
    split at h
    next =>
      split at h
      next hempty =>
        cases h
        exact ⟨fun _ hi _ => ⟨hempty, hf hi hempty⟩, fun c' hne howes => (hnread c' hne howes).elim⟩
      next => split at h <;> cases h
    next hi =>
      cases h
      exact ⟨fun _ hzero hn => by omega, fun c' hne howes => (hnread c' hne howes).elim⟩
  | readEnd n dst i =>
    cases h
    refine ⟨fun hdst => ?_, fun c' hne howes => ?_⟩
    · obtain ⟨hi, hfalse⟩ := hf
      cases hfalse.symm.trans (hdst i hi)
    · cases c' with
      | nread => exact howes
      | nwrite => exact absurd rfl hne
  | writeEnd i =>
    cases h
    refine ⟨trivial, fun c' hne howes => ?_⟩
    cases c' with
    | nread => exact absurd rfl hne
    | nwrite => exact howes
  | closeWake writable =>
    cases h
    exact ⟨trivial, fun c' hne howes => absurd howes hne⟩
  | readWait n dst =>
    simp only [code, readWait] at h
    split at h
    next => split at h <;> cases h
    next => cases h
  | _ => cases h

theorem keeps : Keeps (code (K := K)) spec := by
  refine ⟨fun {o l m l'} h r => ?_, keeps_sleep, keeps_modify, keeps_wakeup⟩
  cases o <;> cases h <;> trivial

/-! ## The callers -/

variable [DecidableEq K] {N : Nat} {s s' : System N K Pipe Chan Loc}

/-- Somebody is in a call that reads from the pipe, or writes to it. -/
def InUse (s : System N K Pipe Chan Loc) (k : K) (writable : Bool) : Prop :=
  ∃ p, (s.thread p).view.1 = some k ∧ (s.thread p).view.2.uses = some writable

/-- Somebody is closing the end of the pipe. -/
def Closing (s : System N K Pipe Chan Loc) (k : K) (writable : Bool) : Prop :=
  ∃ p, (s.thread p).view.1 = some k ∧ (s.thread p).view.2.closes = some writable

/-- What `file.c` promises. The file of an end calls `pipeclose` when its last reference is closed:
once, and while nobody is in a call on it. After that nobody has a descriptor to call with. -/
def Promise (s : System N K Pipe Chan Loc) : Act N (Op K) → Prop
  | .call _ (.pipewrite k _ _) => (s.data k).writeopen = true ∧ ¬ Closing s k true
  | .call _ (.piperead k _ _) => (s.data k).readopen = true ∧ ¬ Closing s k false
  | .call _ (.pipeclose k writable) => ¬ InUse s k writable ∧ ¬ Closing s k writable ∧ (s.data k).opened writable = true
  | _ => True

/-- A call on an end of a pipe keeps that end open. -/
def Open (s : System N K Pipe Chan Loc) : Prop :=
  ∀ k writable, InUse s k writable → (s.data k).opened writable = true ∧ ¬ Closing s k writable

/-- The writer finds the pipe full and its process killed, and returns without the wakeup that it
owes. -/
def GivesUp (s : System N K Pipe Chan Loc) : Act N (Op K) → Prop
  | .go p =>
    match s.thread p with
    | .body k (.write n _ i true) =>
      (i : Int) < n ∧ (s.data k).Full ∧ (s.data k).readopen = true ∧ (s.proc p).killed = true
    | _ => False
  | _ => False

instance (s : System N K Pipe Chan Loc) (k : K) (w : Bool) : Decidable (InUse s k w) :=
  inferInstanceAs (Decidable (∃ _, _ ∧ _))

instance (s : System N K Pipe Chan Loc) (k : K) (w : Bool) : Decidable (Closing s k w) :=
  inferInstanceAs (Decidable (∃ _, _ ∧ _))

instance (s : System N K Pipe Chan Loc) (a : Act N (Op K)) : Decidable (Promise s a) := by
  unfold Promise
  split <;> infer_instance

instance (s : System N K Pipe Chan Loc) (a : Act N (Op K)) : Decidable (GivesUp s a) := by
  unfold GivesUp
  split
  · split <;> infer_instance
  · infer_instance

omit [DecidableEq K] in
/-- The code stays in the call that it is in, or returns. -/
theorem body_view (k : K) (l : Loc) (me : Self) (pi : Pipe) :
    ((code.body k l me pi).view k).1 = none ∨
      ((code.body k l me pi).view k).1 = some k ∧ ((code.body k l me pi).view k).2.uses = l.uses ∧
        ((code.body k l me pi).view k).2.closes = l.closes := by
  cases l with
  | write n src i fresh =>
    simp only [code, writeLoop]
    split
    next =>
      split
      next => split <;> first | exact .inl rfl | exact .inr ⟨rfl, rfl, rfl⟩
      next => split <;> exact .inr ⟨rfl, rfl, rfl⟩
    next => exact .inr ⟨rfl, rfl, rfl⟩
  | readWait n dst =>
    simp only [code, readWait]
    split
    next => split <;> first | exact .inl rfl | exact .inr ⟨rfl, rfl, rfl⟩
    next => exact .inr ⟨rfl, rfl, rfl⟩
  | read n dst i =>
    simp only [code, readLoop]
    split
    next =>
      split
      next => exact .inr ⟨rfl, rfl, rfl⟩
      next => split <;> exact .inr ⟨rfl, rfl, rfl⟩
    next => exact .inr ⟨rfl, rfl, rfl⟩
  | idle ret => exact .inl rfl
  | writeRet i => exact .inl rfl
  | readRet n dst i => exact .inl rfl
  | closeRet w => exact .inl rfl
  | _ => exact .inr ⟨rfl, rfl, rfl⟩

omit [DecidableEq K] in
/-- Only `pipeclose` closes an end, and only its own. -/
theorem body_opened (k : K) (l : Loc) (me : Self) (pi : Pipe) (w : Bool) :
    ((code.body k l me pi).data pi).opened w = pi.opened w ∨ l.closes = some w := by
  cases l with
  | write n src i fresh =>
    left
    simp only [code, writeLoop]
    split
    next =>
      split
      next => split <;> rfl
      next => split <;> rfl
    next => rfl
  | readWait n dst =>
    left
    simp only [code, readWait]
    split
    next => split <;> rfl
    next => rfl
  | read n dst i =>
    left
    simp only [code, readLoop]
    split
    next =>
      split
      next => rfl
      next => split <;> rfl
    next => rfl
  | close w' =>
    by_cases hw : w' = w
    · exact .inr (congrArg some hw)
    · left
      show (pi.close w').opened w = _
      cases w <;> cases w' <;> first | rfl | exact absurd rfl hw
  | _ => exact .inl rfl

omit [DecidableEq K] in
/-- After a step of process `p`, a property of some process's place is the old one or `p`'s. -/
theorem exists_view {p : Fin N} {v : Option K × Loc} {C : Option K × Loc → Prop}
    (hv : ∀ q, (s'.thread q).view = update (fun q => (s.thread q).view) p v q) :
    (∃ q, C (s'.thread q).view) → (∃ q, C (s.thread q).view) ∨ C v := by
  rintro ⟨q, hq⟩
  rw [hv] at hq
  by_cases hqp : q = p
  · subst hqp
    rw [update_self] at hq
    exact .inr hq
  · rw [update_of_ne hqp] at hq
    exact .inl ⟨q, hq⟩

theorem Open.turn {p : Fin N} {a : Act N (Op K)} (h : Open s) (hp : Promise s a) (ht : Turn code s p a s') : Open s' := by
  intro k w huse
  cases ht with
  | stay hv hd =>
    have := h k w (by simpa only [InUse, hv] using huse)
    simpa only [Closing, hv, hd] using this
  | @call o l m l' _ ht hc hv hd =>
    rw [hd]
    have huse' := exists_view (C := fun v => v.1 = some k ∧ v.2.uses = some w) hv huse
    have hclose' := exists_view (C := fun v => v.1 = some k ∧ v.2.closes = some w) hv
    cases o with
    | pipewrite k' src n =>
      cases hc
      have hw : (s.data k).opened w = true ∧ ¬ Closing s k w := by
        rcases huse' with huse' | ⟨e, e'⟩
        · exact h k w huse'
        · cases e
          cases e'
          exact hp
      exact ⟨hw.1, fun hc => (hclose' hc).elim hw.2 fun e => by cases e.2⟩
    | piperead k' dst n =>
      cases hc
      have hw : (s.data k).opened w = true ∧ ¬ Closing s k w := by
        rcases huse' with huse' | ⟨e, e'⟩
        · exact h k w huse'
        · cases e
          cases e'
          exact hp
      exact ⟨hw.1, fun hc => (hclose' hc).elim hw.2 fun e => by cases e.2⟩
    | pipeclose k' w' =>
      cases hc
      have huse : InUse s k w := huse'.resolve_right fun e => by cases e.2
      refine ⟨(h k w huse).1, fun hc => (hclose' hc).elim (h k w huse).2 fun e => ?_⟩
      obtain ⟨e, e'⟩ := e
      cases e
      cases e'
      exact hp.1 huse
  | @act m l _ ht hv hd =>
    have hview : (s.thread p).view = (some m, l) := by rw [ht]; rfl
    have hkeep := body_view m l (s.proc p).self (s.data m)
    -- nobody comes to use or to close an end that way
    have hsome : ((code.body m l (s.proc p).self (s.data m)).view m).1 = some k →
        m = k ∧ ((code.body m l (s.proc p).self (s.data m)).view m).2.uses = l.uses ∧
          ((code.body m l (s.proc p).self (s.data m)).view m).2.closes = l.closes := by
      intro e
      rcases hkeep with hnone | ⟨hm, hrest⟩
      · cases hnone.symm.trans e
      · exact ⟨Option.some.inj (hm.symm.trans e), hrest⟩
    have huse : InUse s k w := by
      refine (exists_view (C := fun v => v.1 = some k ∧ v.2.uses = some w) hv huse).elim id fun ⟨e, e'⟩ => ⟨p, ?_⟩
      obtain ⟨rfl, huses, -⟩ := hsome e
      rw [hview]
      exact ⟨rfl, huses.symm.trans e'⟩
    have hclose : ¬ Closing s' k w := by
      intro hc
      refine (h k w huse).2 ?_
      refine (exists_view (C := fun v => v.1 = some k ∧ v.2.closes = some w) hv hc).elim id fun ⟨e, e'⟩ => ⟨p, ?_⟩
      obtain ⟨rfl, -, hcloses⟩ := hsome e
      rw [hview]
      exact ⟨rfl, hcloses.symm.trans e'⟩
    refine ⟨?_, hclose⟩
    rw [hd]
    by_cases hkm : k = m
    · subst hkm
      rw [update_self]
      rcases body_opened k l (s.proc p).self (s.data k) w with hsame | hcl
      · rw [hsame]
        exact (h k w huse).1
      · exact absurd ⟨p, by rw [hview], by rw [hview]; exact hcl⟩ (h k w huse).2
    · rw [update_of_ne hkm]
      exact (h k w huse).1

omit [DecidableEq K] in
/-- Who waits for bytes is in `piperead`. -/
theorem inUse_of_waiting (hf : Fits spec s) {q : Fin N} (h : Waiting s q k .nread) :
    InUse s k false := by
  have hfq := hf q
  refine ⟨q, ?_⟩
  unfold Waiting at h
  have hreader : ∀ l : Loc, l.Naps .nread → l.uses = some false := by
    intro l hl
    cases l with
    | readWait n dst => rfl
    | _ => cases hl
  cases ht : s.thread q with
  | sleep k' c l | sleepBoth k' c l | sleepSelf k' c l =>
    rw [ht] at h hfq
    obtain ⟨rfl, rfl⟩ := h
    exact ⟨rfl, hreader l hfq.1⟩
  | sched k' c l | saved k' c l =>
    rw [ht] at h hfq
    obtain ⟨⟨rfl, rfl⟩, -⟩ := h
    exact ⟨rfl, hreader l hfq.1⟩
  | _ => rw [ht] at h; cases h

omit [DecidableEq K] in
/-- Apart from a writer that gives up, the code pays what it owes. -/
theorem clean {a : Act N (Op K)} (hf : Fits spec s) (ho : Open s) (hg : ¬ GivesUp s a) : Clean code spec s a := by
  rintro p k l rfl ht ⟨l', hb⟩ c howes q hw
  cases l with
  | write n src i fresh =>
    cases c with
    | nwrite => exact howes
    | nread =>
      simp only [code, writeLoop] at hb
      split at hb
      next hi =>
        split at hb
        next hfull =>
          split at hb
          next hstop =>
            have hopen : (s.data k).readopen = true := (ho k false (inUse_of_waiting hf hw)).1
            have hkilled : (s.proc p).killed = true := hstop.resolve_left (by rw [hopen]; decide)
            have hfresh : fresh = true := howes
            subst hfresh
            apply hg
            simp only [GivesUp, ht]
            exact ⟨hi, hfull, hopen, hkilled⟩
          next => rcases hb with hb | ⟨c, hb⟩ <;> cases hb
        next => split at hb <;> rcases hb with hb | ⟨c, hb⟩ <;> cases hb
      next => rcases hb with hb | ⟨c, hb⟩ <;> cases hb
  | read n dst i =>
    simp only [code, readLoop] at hb
    split at hb
    next =>
      split at hb
      next => rcases hb with hb | ⟨c, hb⟩ <;> cases hb
      next => split at hb <;> rcases hb with hb | ⟨c, hb⟩ <;> cases hb
    next => rcases hb with hb | ⟨c, hb⟩ <;> cases hb
  | writeEnd i | readEnd n dst i | closeWake w => rcases hb with hb | ⟨c, hb⟩ <;> cases hb
  | _ => cases c <;> exact howes

/-! ## Every run -/

/-- A pipe as `pipealloc` makes it. -/
def new : Pipe :=
  { data := fun _ => 0, nread := 0, nwrite := 0, readopen := true, writeopen := true, accepted := [], returned := [] }

def init (pid : Fin N → Int) : System N K Pipe Chan Loc := boot pid (.idle 0) fun _ => new

/-- A reader finds the pipe empty, and sleeps. -/
def readerSleeps : List (Act 3 (Op Unit)) :=
  [.call 0 (.piperead () (fun _ => true) 1), .go 0, .go 0, .go 0, .go 0, .go 0, .go 0, .dispatch 0]

/-- Then a process that writes more than the pipe holds is killed in the middle. -/
def writerKilled : List (Act 3 (Op Unit)) :=
  readerSleeps ++
    [.call 1 (.pipewrite () (fun _ => some 0) 513), .go 1, .go 1, .kill 2 2, .go 2, .go 2, .go 2, .go 2] ++
    List.replicate 512 (.go 1)

/-- The reader is left asleep beside a full pipe. -/
theorem reader_left_asleep : EachStep (step code) Promise (init fun p : Fin 3 => p.val + 1) writerKilled ∧
    ∃ s : System 3 Unit Pipe Chan Loc, run (step code) (init fun p => p.val + 1) writerKilled = some (.ok s) ∧
      s.lock () = none ∧ (s.proc 0).state = .sleeping ∧ (s.proc 0).chan = some ((), .nread) ∧
      (s.data ()).nread ≠ (s.data ()).nwrite :=
  ⟨by decide +kernel, exists_of_endsIn (by decide +kernel)⟩

/-- No process sleeps on a pipe that could serve it, in every run of any number of processes in
which no killed writer gives up on a full pipe after it has stored bytes and before it has woken the
readers. -/
theorem sleepers_cannot_be_served (pid : Fin N → Int) (as : List (Act N (Op K)))
    (h : run (step code) (init pid) as = some (.ok s))
    (hok : EachStep (step code) (fun s a => Promise s a ∧ ¬ GivesUp s a) (init pid) as) (k : K) (hlock : s.lock k = none)
    (p : Fin N) (hp : (s.proc p).state = .sleeping) :
    ((s.proc p).chan = some (k, .nread) → (s.data k).nread = (s.data k).nwrite ∧ (s.data k).writeopen = true) ∧
      ((s.proc p).chan = some (k, .nwrite) →
        (s.data k).nwrite = (s.data k).nread + BitVec.ofNat 32 PIPESIZE ∧ (s.data k).readopen = true) := by
  have hinv : Sound spec s ∧ Open s := by
    refine run_invariant (I := fun s => Sound spec s ∧ Open s) ?_ ⟨Sound.boot pid _ _, ?_⟩ hok h
    · rintro s a s' ⟨hs, ho⟩ ⟨hpromise, hgive⟩ hstep
      obtain ⟨p, hm⟩ := step_move hstep
      exact ⟨hs.move keeps (clean hs.fits ho hgive) hm, ho.turn hpromise hm.turn⟩
    · rintro k w ⟨q, hq, -⟩
      cases hq
  exact ⟨hinv.1.sleeping hlock hp, hinv.1.sleeping hlock hp⟩

theorem sleepers_cannot_be_served_reader : ∃ s : System 3 Unit Pipe Chan Loc,
    run (step code) (init fun p => p.val + 1) readerSleeps = some (.ok s) ∧ s.lock () = none ∧
      (s.proc 0).state = .sleeping ∧ (s.proc 0).chan = some ((), .nread) ∧
      (s.data ()).nread = (s.data ()).nwrite ∧ (s.data ()).writeopen = true :=
  ⟨_, rfl, rfl, rfl, rfl, (sleepers_cannot_be_served (fun p => p.val + 1) readerSleeps rfl (by decide) () rfl 0 rfl).1 rfl⟩

end Pipe

end Xv6.Sleep
