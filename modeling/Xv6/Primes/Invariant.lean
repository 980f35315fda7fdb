import Xv6.Primes.Code

/-!
# The pipeline's invariant

Process `i` reads from pipe `i - 1` and writes to pipe `i`, which it has made. Whatever the
schedule, what goes through a pipe is fixed (`stream`), and so each process is at a place that is
determined by how many numbers it has read: `At` says what it has taken from its left pipe and sent
to its right one. Everything is sent and taken four bytes at a time.

Who has which end of a pipe decides when a reader sees the end of its input, and so `Local` says for
which locations a process has them.
-/

namespace Xv6.Primes

open List

/-! ## What goes through the pipes -/

def enc (vs : List Word) : List Byte := vs.flatMap bytes

/-- `child1` passes a number on. -/
def passed (v : Word) : Bool := isPrime v.toInt

/-- What process `i` passes on of the numbers that it has got. -/
def relay : Nat → List Word → List Word
  | 0, d => d
  | 1, d => d.filter passed
  | _ + 2, d => d.tail

/-- What goes through pipe `i`. -/
def stream (vs : List Word) : Nat → List Word
  | 0 => vs
  | i + 1 => relay (i + 1) (stream vs i)

/-- What process `i` gets. -/
def input (vs : List Word) : Nat → List Word
  | 0 => vs
  | i + 1 => stream vs i

/-- What has been printed when `n` numbers have been. -/
def lines (vs : List Word) (n : Nat) : List Byte := ((vs.filter passed).take n).flatMap primeLine

theorem stream_eq_relay (vs : List Word) (i : Nat) : stream vs i = relay i (input vs i) := by
  cases i with
  | zero => rfl
  | succ i => rfl

theorem stream_add_one (vs : List Word) (k : Nat) : stream vs (k + 1) = (vs.filter passed).drop k := by
  induction k with
  | zero => rfl
  | succ k ih =>
    show (stream vs (k + 1)).tail = _
    rw [ih, tail_drop]

theorem relay_prefix (i : Nat) (d todo : List Word) : relay i d <+: relay i (d ++ todo) := by
  match i with
  | 0 => exact prefix_append d todo
  | 1 =>
    show d.filter passed <+: (d ++ todo).filter passed
    rw [filter_append]
    exact prefix_append _ _
  | _ + 2 =>
    cases d with
    | nil => exact nil_prefix
    | cons v d => exact prefix_append d todo

theorem word_bytes (v : Word) : word (bytes v) = v := by
  have h : word (bytes v) = Sector.u32 (Sector.putU32 (fun _ => 0) 0 v) 0 := by
    simp only [word, bytes, Sector.u32, Sector.u16, map, getD_cons_zero, getD_cons_succ]
  rw [h, Sector.u32_putU32]

theorem length_bytes (v : Word) : (bytes v).length = 4 := rfl

theorem length_enc (vs : List Word) : (enc vs).length = 4 * vs.length := by
  induction vs with
  | nil => rfl
  | cons v vs ih =>
    unfold enc at ih ⊢
    rw [flatMap_cons, length_append, ih, length_cons, length_bytes]
    omega

theorem enc_append (vs us : List Word) : enc (vs ++ us) = enc vs ++ enc us := flatMap_append

theorem enc_concat (vs : List Word) (v : Word) : enc (vs ++ [v]) = enc vs ++ bytes v := by
  rw [enc_append]
  exact congrArg (enc vs ++ ·) (append_nil _)

theorem drop_enc (d w : List Word) : (enc (d ++ w)).drop (4 * d.length) = enc w := by
  rw [enc_append, ← length_enc, drop_left]

/-! ## Places -/

namespace Loc

/-- The process has made its pipe. -/
def hasPipe : Loc → Bool
  | mainPipe _ | mainChild | child1Call | child1Pipe | child1Child | othersCall | othersFirst | othersGot .. | othersNone
  | othersExit | othersPrint .. | othersPipe _ | othersChildLeft | othersChildWrite | exitedAlone => false
  | _ => true

/-- The process has forked. -/
def forked : Loc → Bool
  | mainCloseRead _ | mainFor _ | mainWrite .. | mainFailed | mainError _ | child1CloseRead | child1Read _ | child1Got .. | child1Write ..
  | othersCloseRead _ | othersRead _ | othersMore .. | othersWrite .. | finishLeft | finishWrite | finishWait | exited => true
  | _ => false

/-- The process is a child that has not yet called its function. -/
def born : Loc → Bool
  | mainChild | child1Call | child1Child | othersChildLeft | othersChildWrite | othersCall => true
  | _ => false

/-- The process is in its function, and may still read from its left pipe. -/
def called : Loc → Bool
  | child1Pipe | child1Fork | child1CloseRead | child1Read _ | child1Got .. | child1Write .. | othersFirst | othersGot .. | othersNone
  | othersPrint .. | othersPipe _ | othersFork _ | othersCloseRead _ | othersRead _ | othersMore .. | othersWrite .. | finishLeft => true
  | _ => false

/-- The process has the write end of its right pipe. -/
def holdsWrite : Loc → Bool
  | mainFork _ | mainCloseRead _ | mainFor _ | mainWrite .. | mainFailed | mainChild | child1Fork | child1CloseRead | child1Read _
  | child1Got .. | child1Write .. | child1Child | othersFork _ | othersCloseRead _ | othersRead _ | othersMore .. | othersWrite ..
  | othersChildLeft | othersChildWrite | finishLeft | finishWrite => true
  | _ => false

/-- The process is about to fork. -/
def forking : Loc → Bool
  | mainFork _ | child1Fork | othersFork _ => true
  | _ => false

/-- What a step must leave as it is, if it leaves the ends of pipes and the children of the process
alone. -/
def flags (loc : Loc) : Bool × Bool × Bool × Bool := (loc.hasPipe, loc.holdsWrite, loc.called, loc.forked)

theorem hasPipe_of_forked {loc : Loc} (h : loc.forked = true) : loc.hasPipe = true := by
  cases loc with
  | _ => first | rfl | cases h

end Loc

/-- Process `i` has read the numbers `d` and passed on what it passes on of them. -/
structure Got (vs : List Word) (i : Nat) (d : List Word) (taken : Nat) (sent : List Byte) : Prop where
  part : d <+: input vs i
  taken : taken = 4 * d.length
  sent : sent = enc (relay i d)

/-- It has read `v` after them. -/
structure Has (vs : List Word) (i : Nat) (d : List Word) (v : Word) (taken : Nat) (sent : List Byte) : Prop where
  part : d ++ [v] <+: input vs i
  taken : taken = 4 * (d.length + 1)
  sent : sent = enc (relay i d)

/-- It has read everything. -/
structure Done (vs : List Word) (i : Nat) (taken : Nat) (sent : List Byte) : Prop where
  taken : i ≠ 0 → taken = 4 * (input vs i).length
  sent : sent = enc (stream vs i)

/-- Process `i` with nothing read and nothing sent. -/
def Idle (taken : Nat) (sent : List Byte) : Prop := taken = 0 ∧ sent = []

/-- `childothers` has read its first number. -/
structure First (vs : List Word) (i : Nat) (prime : List Byte) (taken : Nat) (sent : List Byte) : Prop where
  head : ∃ v, (input vs i).head? = some v ∧ prime = bytes v
  taken : taken = 4
  sent : sent = []

/-- Where process `i` can be when it has taken `taken` bytes and sent `sent`. -/
def At (vs : List Word) (i taken : Nat) (sent : List Byte) : Loc → Prop
  | .mainPipe todo | .mainFork todo | .mainCloseRead todo => i = 0 ∧ todo = vs ∧ sent = []
  | .mainFor todo => i = 0 ∧ ∃ d, vs = d ++ todo ∧ sent = enc d
  | .mainWrite bs todo => i = 0 ∧ ∃ d v, vs = d ++ v :: todo ∧ bs = bytes v ∧ sent = enc d
  | .mainFailed | .mainError _ => False
  | .mainChild | .child1Call | .child1Pipe | .child1Fork | .child1CloseRead => i = 1 ∧ Idle taken sent
  | .child1Read num => i = 1 ∧ num.length = 4 ∧ ∃ d, Got vs i d taken sent
  | .child1Got num ret =>
    i = 1 ∧ num.length = 4 ∧
      (ret = 0 ∧ Done vs i taken sent ∨ ret = 4 ∧ ∃ d v, num = bytes v ∧ Has vs i d v taken sent)
  | .child1Write num bs => i = 1 ∧ num.length = 4 ∧ ∃ d v, passed v = true ∧ bs = bytes v ∧ Has vs i d v taken sent
  | .child1Child | .othersCall | .othersFirst | .othersChildLeft | .othersChildWrite => 2 ≤ i ∧ Idle taken sent
  | .othersGot prime ret =>
    2 ≤ i ∧ (ret = 0 ∧ input vs i = [] ∧ Idle taken sent ∨ ret = 4 ∧ First vs i prime taken sent)
  | .othersNone | .othersExit | .exitedAlone => 2 ≤ i ∧ input vs i = [] ∧ Idle taken sent
  | .othersPrint prime _ | .othersPipe prime | .othersFork prime | .othersCloseRead prime => 2 ≤ i ∧ First vs i prime taken sent
  | .othersRead prime => 2 ≤ i ∧ prime.length = 4 ∧ ∃ d, d ≠ [] ∧ Got vs i d taken sent
  | .othersMore prime ret =>
    2 ≤ i ∧ prime.length = 4 ∧ input vs i ≠ [] ∧
      (ret = 0 ∧ Done vs i taken sent ∨ ret = 4 ∧ ∃ d v, d ≠ [] ∧ prime = bytes v ∧ Has vs i d v taken sent)
  | .othersWrite prime bs => 2 ≤ i ∧ prime.length = 4 ∧ ∃ d v, d ≠ [] ∧ bs = bytes v ∧ Has vs i d v taken sent
  | .finishLeft => 1 ≤ i ∧ (2 ≤ i → input vs i ≠ []) ∧ Done vs i taken sent
  | .finishWrite | .finishWait | .exited => (2 ≤ i → input vs i ≠ []) ∧ Done vs i taken sent

/-! ## The invariant -/

/-- What holds for process `i`. -/
structure Local (vs : List Word) (i : Nat) (t : Thread) (taken : Nat) (sent : List Byte) : Prop where
  place : At vs i taken sent t.loc
  right : t.right = if t.loc.hasPipe = true then i else i - 1
  left : t.loc.called = true → t.left = i - 1
  /-- a child still has its parent's left pipe -/
  leftBefore : t.loc = .othersChildLeft → t.left + 2 = i
  wr : ∀ p, (p, .wr) ∈ t.fds ↔ t.loc.holdsWrite = true ∧ p = t.right
  rd : t.loc.called = true ∨ t.loc.born = true → (i - 1, .rd) ∈ t.fds
  rdRight : t.loc.forking = true → (t.right, .rd) ∈ t.fds
  child : t.loc.forked = true → t.child = some (i + 1)

/-- How far the last process is with printing its line. -/
inductive Phase
  | before
  | printing (cs : List Byte)
  | after

def Loc.phase : Loc → Phase
  | othersPrint _ cs => .printing cs
  | othersPipe _ | othersFork _ => .after
  | _ => .before

/-- What has been printed when process `i` is the last one. -/
def Printed (vs : List Word) (i : Nat) (out : List Byte) : Phase → Prop
  | .before => out = lines vs (i - 2)
  | .printing cs => out ++ cs = lines vs (i - 1)
  | .after => out = lines vs (i - 1)

/-- What process `i` has taken from its left pipe. -/
def Sys.taken (s : Sys) : Nat → Nat
  | 0 => 0
  | i + 1 => (s.pipes i).nread

structure Inv (vs : List Word) (s : Sys) : Prop where
  procs : ∀ i < s.nproc, Local vs i (s.procs i) (s.taken i) (s.pipes i).sent
  forked : ∀ i < s.nproc, (s.procs i).loc.forked = true ↔ i + 1 < s.nproc
  piped : ∀ i < s.nproc, (s.procs i).loc.hasPipe = true ↔ i < s.npipe
  npipe_le : s.npipe ≤ s.nproc
  fresh : ∀ p, s.npipe ≤ p → s.pipes p = .fresh
  unread : ∀ p, s.nproc ≤ p + 1 → (s.pipes p).nread = 0
  nread_le : ∀ p, (s.pipes p).nread ≤ (s.pipes p).sent.length
  printed : ∀ i, i + 1 = s.nproc → Printed vs i s.out (s.procs i).loc.phase

theorem Inv.init (vs : List Word) : Inv vs (init vs) := by
  have hloc : ∀ i, ((Primes.init vs).procs i).loc = .mainPipe vs := fun _ => rfl
  have hn : (Primes.init vs).nproc = 1 := rfl
  constructor
  · intro i hi
    obtain rfl : i = 0 := by omega
    refine ⟨⟨rfl, rfl, rfl⟩, rfl, fun h => (by cases h), fun h => (by cases h), fun p => ?_, fun h => ?_, fun h => (by cases h),
      fun h => (by cases h)⟩
    · exact ⟨fun h => absurd h (Finset.notMem_empty _), fun h => absurd h.1 Bool.false_ne_true⟩
    · rcases h with h | h
      · cases h
      · cases h
  · intro i hi
    rw [hloc]
    exact ⟨fun h => (by cases h), fun h => (by omega)⟩
  · intro i hi
    rw [hloc]
    exact ⟨fun h => (by cases h), fun h => absurd h (Nat.not_lt_zero i)⟩
  · exact Nat.zero_le _
  · exact fun p _ => rfl
  · exact fun p _ => rfl
  · exact fun p => Nat.le_refl 0
  · intro i hi
    obtain rfl : i = 0 := by omega
    rfl

/-! ## What the invariant says about a process and its neighbours -/

section

variable {vs : List Word} {s : Sys} {i taken : Nat} {sent : List Byte} {loc : Loc}

theorem Done.sentPrefix (h : Done vs i taken sent) : ∃ w, sent = enc w ∧ w <+: stream vs i :=
  ⟨_, h.sent, prefix_rfl⟩

theorem Got.sentPrefix {d : List Word} (h : Got vs i d taken sent) : ∃ w, sent = enc w ∧ w <+: stream vs i := by
  obtain ⟨todo, htodo⟩ := h.part
  refine ⟨_, h.sent, ?_⟩
  rw [stream_eq_relay, ← htodo]
  exact relay_prefix i d todo

theorem Has.got {d : List Word} {v : Word} (h : Has vs i d v taken sent) : Got vs i d (4 * d.length) sent :=
  ⟨(prefix_append d [v]).trans h.part, rfl, h.sent⟩

/-- What a process has sent is the beginning of what goes through its pipe. -/
theorem At.sentPrefix (h : At vs i taken sent loc) : ∃ w, sent = enc w ∧ w <+: stream vs i := by
  have hnil : sent = [] → ∃ w, sent = enc w ∧ w <+: stream vs i := fun e => ⟨[], e, nil_prefix⟩
  cases loc with
  | mainPipe | mainFork | mainCloseRead => exact hnil h.2.2
  | mainFor todo =>
    obtain ⟨rfl, d, hd, hsent⟩ := h
    exact ⟨d, hsent, todo, hd.symm⟩
  | mainWrite bs todo =>
    obtain ⟨rfl, d, v, hd, -, hsent⟩ := h
    exact ⟨d, hsent, v :: todo, hd.symm⟩
  | mainFailed | mainError => exact h.elim
  | mainChild | child1Call | child1Pipe | child1Fork | child1CloseRead | child1Child | othersCall | othersFirst | othersChildLeft
  | othersChildWrite => exact hnil h.2.2
  | othersNone | othersExit | exitedAlone => exact hnil h.2.2.2
  | othersPrint | othersPipe | othersFork | othersCloseRead => exact hnil h.2.sent
  | othersGot prime ret =>
    rcases h.2 with ⟨-, -, hidle⟩ | ⟨-, hfirst⟩
    · exact hnil hidle.2
    · exact hnil hfirst.sent
  | child1Read num =>
    obtain ⟨-, -, d, hd⟩ := h
    exact hd.sentPrefix
  | othersRead prime =>
    obtain ⟨-, -, d, -, hd⟩ := h
    exact hd.sentPrefix
  | child1Got num ret =>
    rcases h.2.2 with ⟨-, hdone⟩ | ⟨-, d, v, -, hv⟩
    · exact hdone.sentPrefix
    · exact hv.got.sentPrefix
  | othersMore prime ret =>
    rcases h.2.2.2 with ⟨-, hdone⟩ | ⟨-, d, v, -, -, hv⟩
    · exact hdone.sentPrefix
    · exact hv.got.sentPrefix
  | child1Write num bs =>
    obtain ⟨-, -, d, v, -, -, hv⟩ := h
    exact hv.got.sentPrefix
  | othersWrite prime bs =>
    obtain ⟨-, -, d, v, -, -, hv⟩ := h
    exact hv.got.sentPrefix
  | finishLeft => exact h.2.2.sentPrefix
  | finishWrite | finishWait | exited => exact h.2.sentPrefix

theorem Has.takenPrefix {d : List Word} {v : Word} (h : Has vs i d v taken sent) : ∃ d, d <+: input vs i ∧ taken = 4 * d.length :=
  ⟨d ++ [v], h.part, by rw [h.taken, length_append, length_singleton]⟩

/-- What a process has taken is the beginning of what goes through its left pipe. -/
theorem At.takenPrefix (h : At vs i taken sent loc) (hi : i ≠ 0) : ∃ d, d <+: input vs i ∧ taken = 4 * d.length := by
  have hzero : taken = 0 → ∃ d, d <+: input vs i ∧ taken = 4 * d.length := fun e => ⟨[], nil_prefix, e⟩
  have hdone : Done vs i taken sent → ∃ d, d <+: input vs i ∧ taken = 4 * d.length :=
    fun e => ⟨_, prefix_rfl, e.taken hi⟩
  have hfirst : ∀ {prime}, First vs i prime taken sent → ∃ d, d <+: input vs i ∧ taken = 4 * d.length := by
    intro prime e
    obtain ⟨v, hv, -⟩ := e.head
    obtain ⟨todo, htodo⟩ := head?_eq_some_iff.mp hv
    exact ⟨[v], ⟨todo, htodo.symm⟩, e.taken⟩
  cases loc with
  | mainPipe | mainFork | mainCloseRead | mainFor | mainWrite => exact absurd h.1 hi
  | mainFailed | mainError => exact h.elim
  | mainChild | child1Call | child1Pipe | child1Fork | child1CloseRead | child1Child | othersCall | othersFirst | othersChildLeft
  | othersChildWrite => exact hzero h.2.1
  | othersNone | othersExit | exitedAlone => exact hzero h.2.2.1
  | othersPrint | othersPipe | othersFork | othersCloseRead => exact hfirst h.2
  | othersGot prime ret =>
    rcases h.2 with ⟨-, -, hidle⟩ | ⟨-, e⟩
    · exact hzero hidle.1
    · exact hfirst e
  | child1Read num =>
    obtain ⟨-, -, d, hd⟩ := h
    exact ⟨d, hd.part, hd.taken⟩
  | othersRead prime =>
    obtain ⟨-, -, d, -, hd⟩ := h
    exact ⟨d, hd.part, hd.taken⟩
  | child1Got num ret =>
    rcases h.2.2 with ⟨-, e⟩ | ⟨-, d, v, -, hv⟩
    · exact hdone e
    · exact hv.takenPrefix
  | othersMore prime ret =>
    rcases h.2.2.2 with ⟨-, e⟩ | ⟨-, d, v, -, -, hv⟩
    · exact hdone e
    · exact hv.takenPrefix
  | child1Write num bs =>
    obtain ⟨-, -, d, v, -, -, hv⟩ := h
    exact hv.takenPrefix
  | othersWrite prime bs =>
    obtain ⟨-, -, d, v, -, -, hv⟩ := h
    exact hv.takenPrefix
  | finishLeft => exact hdone h.2.2
  | finishWrite | finishWait | exited => exact hdone h.2

/-- A process that has forked and closed its write end has sent everything. -/
theorem At.complete (h : At vs i taken sent loc) (hforked : loc.forked = true) (hclosed : loc.holdsWrite = false) :
    sent = enc (stream vs i) := by
  cases loc with
  | mainError => exact h.elim
  | finishWait | exited => exact h.2.sent
  | _ => exact absurd (And.intro hforked hclosed) (by simp [Loc.forked, Loc.holdsWrite])

/-- A process that is done with reading has read everything. -/
theorem At.takenAll (h : At vs i taken sent loc) (hi : i ≠ 0) (hcalled : loc.called = false) (hborn : loc.born = false) :
    taken = 4 * (input vs i).length := by
  cases loc with
  | mainPipe | mainFork | mainCloseRead | mainFor | mainWrite => exact absurd h.1 hi
  | mainFailed | mainError => exact h.elim
  | othersExit | exitedAlone =>
    rw [h.2.1]
    exact h.2.2.1
  | finishWrite | finishWait | exited => exact h.2.taken hi
  | _ => exact absurd (And.intro hcalled hborn) (by simp [Loc.called, Loc.born])

end

end Xv6.Primes
