import Xv6.Sleep.Pipe

/-!
# A pipe is a FIFO byte stream

What writes have put into a pipe is what reads have copied out, followed by what is in the ring. The
counters are 32 bits wide and wrap; the ring's capacity divides `2 ^ 32`, so that the ring does not
notice. That a woken process goes on is not shown.
-/

namespace Xv6.Sleep.Pipe

open Function List

/-- The bytes accepted are the bytes returned and then the bytes in the ring, which is never
over-full. -/
structure Stream (pi : Pipe) : Prop where
  count_le : pi.toRing.count ≤ PIPESIZE
  bytes : pi.accepted.map (·.2) = pi.returned.map (·.2) ++ pi.toRing.contents PIPESIZE

theorem pipesize_dvd : PIPESIZE ∣ 2 ^ 32 := ⟨2 ^ 23, by decide⟩

theorem new_stream : Stream new := ⟨by decide, rfl⟩

variable {pi : Pipe}

theorem Stream.put (h : Stream pi) (hfull : ¬ pi.Full) (pid : Int) (ch : Byte) : Stream (pi.put pid ch) := by
  have hcount : pi.toRing.count < PIPESIZE := Nat.lt_of_le_of_ne h.count_le (Ring.count_ne_cap hfull)
  have hw : pi.toRing.count + 1 < 2 ^ 32 := by
    have : PIPESIZE < 2 ^ 32 := by decide
    omega
  refine ⟨?_, ?_⟩
  · show (pi.toRing.push PIPESIZE ch).count ≤ PIPESIZE
    rw [Ring.count_push hw]
    exact hcount
  · show (pi.accepted ++ [(pid, ch)]).map (·.2) = pi.returned.map (·.2) ++ (pi.toRing.push PIPESIZE ch).contents PIPESIZE
    rw [Ring.contents_push pipesize_dvd hw hcount, map_append, h.bytes, append_assoc]
    rfl

theorem Stream.get (h : Stream pi) (hempty : ¬ pi.Empty) (pid : Int) : Stream (pi.get pid true) := by
  have hcount : pi.toRing.count ≠ 0 := Ring.count_ne_zero hempty
  refine ⟨?_, ?_⟩
  · show pi.toRing.pop.count ≤ PIPESIZE
    have := Ring.count_pop hcount
    have := h.count_le
    omega
  · show pi.accepted.map (·.2) =
      (pi.returned ++ [(pid, pi.toRing.front PIPESIZE)]).map (·.2) ++ pi.toRing.pop.contents PIPESIZE
    rw [h.bytes, Ring.contents_pop pipesize_dvd hcount, map_append, append_assoc]
    rfl

theorem Stream.close (h : Stream pi) (w : Bool) : Stream (pi.close w) := by
  cases w <;> exact ⟨h.count_le, h.bytes⟩

/-- Every byte of the caller's buffer is mapped, if the call is a read. -/
def Loc.Mapped : Loc → Prop
  | .readWait n dst | .read n dst _ | .readEnd n dst _ | .readRet n dst _ => ∀ j : Nat, (j : Int) < n → dst j = true
  | _ => True

variable {K : Type} {k : K}

/-- One step of the code under the lock. -/
theorem Stream.body {l : Loc} (me : Self) (h : Stream pi) (hl : l.Mapped) :
    Stream ((code.body k l me pi).data pi) ∧ ((code.body k l me pi).view k).2.Mapped := by
  cases l with
  | write n src i fresh =>
    simp only [code, writeLoop]
    split
    next =>
      split
      next => split <;> exact ⟨h, trivial⟩
      next hfull =>
        split
        next => exact ⟨h, trivial⟩
        next ch _ => exact ⟨h.put hfull me.pid ch, trivial⟩
    next => exact ⟨h, trivial⟩
  | readWait n dst =>
    simp only [code, readWait]
    split
    next => split <;> first | exact ⟨h, trivial⟩ | exact ⟨h, hl⟩
    next => exact ⟨h, hl⟩
  | read n dst i =>
    simp only [code, readLoop]
    split
    next hi =>
      split
      next => exact ⟨h, hl⟩
      next hempty =>
        rw [if_pos (hl i hi)]
        exact ⟨h.get hempty me.pid, hl⟩
    next => exact ⟨h, hl⟩
  | readEnd n dst i => exact ⟨h, hl⟩
  | close w => exact ⟨h.close w, trivial⟩
  | _ => exact ⟨h, trivial⟩

/-! ## Every run -/

variable [DecidableEq K] {N : Nat} {s s' : System N K Pipe Chan Loc} {p : Fin N} {o : Op K}
  {pid : Fin N → Int}

/-- The buffers that reads are called with are mapped. -/
def CopiesOut : Act N (Op K) → Prop
  | .call _ (.piperead _ dst n) => ∀ j : Nat, (j : Int) < n → dst j = true
  | _ => True

structure Streaming (s : System N K Pipe Chan Loc) : Prop where
  locks : Locks s
  fits : Fits spec s
  stream : ∀ k, Stream (s.data k)
  mapped : ∀ p, (s.thread p).view.2.Mapped

theorem Streaming.move {a : Act N (Op K)} (h : Streaming s) (ha : CopiesOut a)
    (hm : Move code s p a s') : Streaming s' := by
  have hl := h.locks.move hm
  have hf := h.fits.move keeps h.locks hm
  cases hm.turn with
  | stay hv hd =>
    refine ⟨hl, hf, ?_, fun q => ?_⟩
    · rw [hd]
      exact h.stream
    · rw [hv]
      exact h.mapped q
  | @call o l m l' _ ht hc hv hd =>
    refine ⟨hl, hf, ?_, fun q => ?_⟩
    · rw [hd]
      exact h.stream
    · rw [hv]
      refine forall_update (C := fun _ (v : Option K × Loc) => v.2.Mapped) ?_ (fun q _ => h.mapped q) q
      cases o with
      | pipewrite k src n => cases hc; trivial
      | piperead k dst n => cases hc; exact ha
      | pipeclose k w => cases hc; trivial
  | @act m l _ ht hv hd =>
    have hmapped := h.mapped p
    rw [ht] at hmapped
    obtain ⟨hstream, hnext⟩ := Stream.body (k := m) (s.proc p).self (h.stream m) hmapped
    refine ⟨hl, hf, fun k => ?_, fun q => ?_⟩
    · rw [hd]
      exact forall_update (C := fun _ (pi : Pipe) => Stream pi) hstream (fun k _ => h.stream k) k
    · rw [hv]
      exact forall_update (C := fun _ (v : Option K × Loc) => v.2.Mapped) hnext (fun q _ => h.mapped q) q

/-! ## What one call moves -/

/-- Where the bytes of a call are recorded. -/
def Op.record : Op K → Pipe → List (Int × Byte)
  | .pipewrite .., pi => pi.accepted
  | .piperead .., pi => pi.returned
  | .pipeclose .., _ => []

/-- The bytes of one process in a record. -/
def bytesOf (pid : Int) (xs : List (Int × Byte)) : List Byte := (xs.filter (·.1 = pid)).map (·.2)

/-- The call can move `ch` after `i` bytes. -/
def Op.Moves : Op K → Nat → Byte → Prop
  | .pipewrite _ src n, i, ch => (i : Int) < n ∧ src i = some ch
  | .piperead _ _ n, i, _ => (i : Int) < n
  | .pipeclose .., _, _ => False

/-- The call is here, or has returned, after it has moved `i` bytes. -/
def Op.Reaches (o : Op K) (i : Nat) (l : Loc) : Prop :=
  match o, l with
  | .pipewrite _ src n, .write n' src' i' _ | .pipewrite _ src n, .writeSleep n' src' i' => n' = n ∧ src' = src ∧ i' = i
  | .pipewrite .., .writeEnd i' | .pipewrite .., .writeRet i' => i' = i
  | .piperead _ _ n, .readWait n' _ => n' = n ∧ i = 0
  | .piperead _ _ n, .read n' _ i' => n' = n ∧ i' = i
  | .piperead .., .readEnd _ _ i' | .piperead .., .readRet _ _ i' => i' = i
  | .pipewrite .., .idle r | .piperead .., .idle r => r = -1 ∨ r = i
  | _, _ => False

omit [DecidableEq K] in
/-- One step of a call moves at most one byte. -/
theorem Op.Reaches.body {i : Nat} {l : Loc} (h : o.Reaches i l) (k : K) (me : Self) (pi : Pipe) :
    (o.record ((code.body k l me pi).data pi) = o.record pi ∧ o.Reaches i ((code.body k l me pi).view k).2) ∨
      ∃ ch, o.record ((code.body k l me pi).data pi) = o.record pi ++ [(me.pid, ch)] ∧ o.Moves i ch ∧
        o.Reaches (i + 1) ((code.body k l me pi).view k).2 := by
  cases o <;> cases l <;> first | exact h.elim | skip
  case pipewrite.write =>
    obtain ⟨rfl, rfl, rfl⟩ := h
    simp only [code, writeLoop]
    repeat' split
    all_goals first
      | exact .inl ⟨rfl, rfl, rfl, rfl⟩
      | exact .inl ⟨rfl, rfl⟩
      | exact .inl ⟨rfl, .inl rfl⟩
      | exact .inr ⟨_, rfl, ⟨by assumption, by assumption⟩, rfl, rfl, rfl⟩
  case piperead.readWait =>
    obtain ⟨rfl, rfl⟩ := h
    simp only [code, readWait]
    repeat' split
    all_goals first
      | exact .inl ⟨rfl, .inl rfl⟩
      | exact .inl ⟨rfl, rfl, rfl⟩
  case piperead.read =>
    obtain ⟨rfl, rfl⟩ := h
    simp only [code, readLoop]
    repeat' split
    all_goals first
      | exact .inl ⟨rfl, rfl⟩
      | exact .inr ⟨_, rfl, by assumption, rfl, rfl⟩
  all_goals first
    | exact .inl ⟨rfl, h⟩
    | exact .inl ⟨rfl, .inr (congrArg Nat.cast h)⟩

omit [DecidableEq K] in
/-- A step of any process records at most one byte, as its own. -/
theorem body_record (o : Op K) (k : K) (l : Loc) (me : Self) (pi : Pipe) :
    o.record ((code.body k l me pi).data pi) = o.record pi ∨
      ∃ ch, o.record ((code.body k l me pi).data pi) = o.record pi ++ [(me.pid, ch)] := by
  cases o with
  | pipeclose => exact .inl rfl
  | _ =>
    cases l
    case close w => cases w <;> exact .inl rfl
    all_goals
      simp only [code, writeLoop, readWait, readLoop, Op.record]
      repeat' split
    all_goals first
      | exact .inl rfl
      | exact .inr ⟨_, rfl⟩

/-- Process `p` is in the call `o` on pipe `k`, or has come back from it. When it made the call it
had `old` in the record. -/
structure Moving (pid : Fin N → Int) (o : Op K) (k : K) (p : Fin N) (old : List Byte) (s : System N K Pipe Chan Loc) : Prop where
  pids : ∀ q, (s.proc q).pid = pid q
  pipe : (s.thread p).view.1 = none ∨ (s.thread p).view.1 = some k
  moved : ∃ bs, bytesOf (pid p) (o.record (s.data k)) = old ++ bs ∧ (∀ j (h : j < bs.length), o.Moves j bs[j]) ∧
    o.Reaches bs.length (s.thread p).view.2

theorem bytesOf_append (pid : Int) (xs ys : List (Int × Byte)) : bytesOf pid (xs ++ ys) = bytesOf pid xs ++ bytesOf pid ys := by
  unfold bytesOf
  rw [filter_append, map_append]

theorem Moving.move (hpid : Function.Injective pid) {q : Fin N} {old : List Byte}
    {a : Act N (Op K)} (h : Moving pid o k p old s) (ha : ∀ o', a ≠ .call p o')
    (hm : Move code s q a s') : Moving pid o k p old s' := by
  have hpids : ∀ q, (s'.proc q).pid = pid q := fun r => (hm.pid r).trans (h.pids r)
  obtain ⟨bs, hbs, hmoves, hreaches⟩ := h.moved
  cases hm.turn with
  | stay hv hd =>
    refine ⟨hpids, by rw [hv]; exact h.pipe, bs, ?_, hmoves, by rw [hv]; exact hreaches⟩
    rw [hd]
    exact hbs
  | call ht hc hv hd =>
    have hne : p ≠ q := by
      rintro rfl
      exact ha _ rfl
    have hview : (s'.thread p).view = (s.thread p).view := (hv p).trans (update_of_ne hne ..)
    refine ⟨hpids, by rw [hview]; exact h.pipe, bs, ?_, hmoves, by rw [hview]; exact hreaches⟩
    rw [hd]
    exact hbs
  | @act m l _ ht hv hd =>
    by_cases hq : p = q
    · subst hq
      have hm : m = k := by
        have hpipe := h.pipe
        rw [ht] at hpipe
        exact Option.some.inj (hpipe.resolve_left nofun)
      subst hm
      have hview : (s'.thread p).view = (code.body m l (s.proc p).self (s.data m)).view m := (hv p).trans (update_self ..)
      have hdata : s'.data m = (code.body m l (s.proc p).self (s.data m)).data (s.data m) := by rw [hd, update_self]
      have hpipe : (s'.thread p).view.1 = none ∨ (s'.thread p).view.1 = some m := by
        rw [hview]
        cases code.body m l (s.proc p).self (s.data m) with
        | leave => exact .inl rfl
        | _ => exact .inr rfl
      have hreaches : o.Reaches bs.length l := by
        rw [ht] at hreaches
        exact hreaches
      rcases hreaches.body m (s.proc p).self (s.data m) with ⟨hsame, hl⟩ | ⟨ch, hput, hch, hl⟩
      · refine ⟨hpids, hpipe, bs, ?_, hmoves, by rw [hview]; exact hl⟩
        rw [hdata, hsame]
        exact hbs
      · refine ⟨hpids, hpipe, bs ++ [ch], ?_, fun j hj => ?_, ?_⟩
        · have hself : (s.proc p).self.pid = pid p := h.pids p
          rw [hdata, hput, bytesOf_append, hbs, hself, append_assoc]
          simp [bytesOf]
        · rw [length_append, length_singleton] at hj
          by_cases hlast : j < bs.length
          · rw [getElem_append_left hlast]
            exact hmoves j hlast
          · obtain rfl : j = bs.length := by omega
            rw [getElem_concat_length rfl]
            exact hch
        · rw [hview, length_append]
          exact hl
    · have hview : (s'.thread p).view = (s.thread p).view := (hv p).trans (update_of_ne hq ..)
      refine ⟨hpids, by rw [hview]; exact h.pipe, bs, ?_, hmoves, by rw [hview]; exact hreaches⟩
      rw [hd]
      by_cases hmk : k = m
      · subst hmk
        rw [update_self]
        rcases body_record o k l (s.proc q).self (s.data k) with hsame | ⟨ch, hput⟩
        · rw [hsame]
          exact hbs
        · have hother : ¬ (s.proc q).self.pid = pid p := fun e => hq (hpid (e.symm.trans (h.pids q)))
          rw [hput, bytesOf_append, hbs]
          simp [bytesOf, hother]
      · rw [update_of_ne hmk]
        exact hbs

/-- What a call has added to the record, from the state in which it was made. -/
theorem call_moved (hpid : Function.Injective pid) {as : List (Act N (Op K))}
    (hs : ∀ q, (s.proc q).pid = pid q)
    (hrun : run (step code) s (.call p o :: as) = some (.ok s')) (hlast : ∀ o', .call p o' ∉ as)
    (hstart : ∀ l m l', code.call o l = some (m, l') → m = k ∧ o.Reaches 0 l') :
    Moving pid o k p (bytesOf (pid p) (o.record (s.data k))) s' := by
  obtain ⟨s₁, hcall, hrest⟩ := run_cons_inv hrun
  obtain ⟨q, hm⟩ := step_move hcall
  have hbegun : Moving pid o k p (bytesOf (pid p) (o.record (s.data k))) s₁ := by
    cases hm with
    | @call _ l m l' ht hc =>
      obtain ⟨rfl, hl⟩ := hstart l m l' hc
      have hview : ((s.setThread p (.enter m l')).thread p).view = (some m, l') := by
        rw [System.setThread_thread, update_self]
        rfl
      exact ⟨hs, .inr (by rw [hview]), [], (append_nil _).symm, fun j hj => absurd hj (Nat.not_lt_zero j),
        by rw [hview]; exact hl⟩
  refine run_invariant (I := Moving pid o k p (bytesOf (pid p) (o.record (s.data k)))) (C := fun _ a => ∀ o', a ≠ .call p o')
    (fun s a s' hI ha hstep => ?_) hbegun (eachStep_of_forall (fun a ha _ => ?_) _) hrest
  · obtain ⟨q, hm⟩ := step_move hstep
    exact hI.move hpid ha hm
  · rintro o' rfl
    exact hlast o' ha

theorem run_pids {as : List (Act N (Op K))} (h : run (step code) (init pid) as = some (.ok s))
    (q : Fin N) : (s.proc q).pid = pid q := by
  refine run_invariant (I := fun s : System N K Pipe Chan Loc => ∀ q, (s.proc q).pid = pid q) (C := fun _ _ => True)
    (fun s a s' hs _ hstep => ?_) (fun _ => rfl) (eachStep_true as _) h q
  obtain ⟨p, hm⟩ := step_move hstep
  exact fun q => (hm.pid q).trans (hs q)

/-- One process writes two bytes. -/
def writesTwo : List (Act 2 (Op Unit)) :=
  .call 0 (.pipewrite () (fun i => some (BitVec.ofNat 8 (i + 7))) 2) :: replicate 11 (.go 0)

/-- Another process reads one of them. -/
def readsOne : List (Act 2 (Op Unit)) := .call 1 (.piperead () (fun _ => true) 1) :: replicate 10 (.go 1)

/-- The last call of process `p` has returned `r`. -/
def Returned (p : Fin N) (r : Int) (s : System N K Pipe Chan Loc) : Prop :=
  match s.thread p with
  | .out (.idle r') => r' = r
  | _ => False

instance (p : Fin N) (r : Int) : DecidablePred (Returned (K := K) p r) := fun s => by
  unfold Returned
  split <;> infer_instance

end Xv6.Sleep.Pipe
