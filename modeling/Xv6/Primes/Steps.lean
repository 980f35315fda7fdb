import Xv6.Primes.Invariant

/-!
# Every step keeps the invariant

Each system call changes one process, and besides it its left pipe, its right pipe, the output or
the number of processes or pipes. There is one lemma for each of these, and the step of a location
is an instance of one of them.
-/

namespace Xv6.Primes

open Function List

variable {vs : List Word} {s : Sys} {i : Nat}

/-! ## A process by itself -/

/-- `k` may come after `loc` in a step that makes no pipe, no process and no call. -/
def Loc.follows (loc k : Loc) : Bool :=
  k.hasPipe == loc.hasPipe && k.forked == loc.forked && (!k.called || loc.called) && (!k.born || loc.born) && !k.forking &&
    match k with
    | .othersChildLeft => false
    | _ => true

section

variable {t t' : Thread} {taken taken' : Nat} {sent sent' : List Byte} {loc k : Loc}

/-- What `follows` tests. -/
structure Loc.Follows (loc k : Loc) : Prop where
  flags : k.hasPipe = loc.hasPipe ∧ k.forked = loc.forked
  called : k.called = true → loc.called = true
  born : k.born = true → loc.born = true
  forking : k.forking = false
  before : k ≠ .othersChildLeft

theorem Loc.follows_inv (h : loc.follows k = true) : loc.Follows k := by
  simp only [Loc.follows, Bool.and_eq_true, beq_iff_eq, Bool.or_eq_true, Bool.not_eq_true'] at h
  obtain ⟨⟨⟨⟨⟨hpipe, hforked⟩, hcalled⟩, hborn⟩, hforking⟩, hbefore⟩ := h
  refine ⟨⟨hpipe, hforked⟩, fun e => ?_, fun e => ?_, hforking, ?_⟩
  · rw [e] at hcalled
    simpa using hcalled
  · rw [e] at hborn
    simpa using hborn
  · rintro rfl
    cases hbefore

section

variable (h : Local vs i t taken sent) (hloc : t.loc = loc)
include h hloc

/-- The process goes on to a place that may follow. Its descriptors are for the caller to say. -/
theorem Local.change (hk : loc.follows t'.loc = true) (hat : At vs i taken' sent' t'.loc)
    (hright : t'.right = t.right) (hleft : t'.left = t.left) (hchild : t'.child = t.child)
    (hwr : ∀ p, (p, .wr) ∈ t'.fds ↔ t'.loc.holdsWrite = true ∧ p = t.right)
    (hrd : t'.loc.called = true ∨ t'.loc.born = true → (i - 1, .rd) ∈ t.fds → (i - 1, .rd) ∈ t'.fds) :
    Local vs i t' taken' sent' := by
  subst hloc
  obtain ⟨⟨hpipe, hforked⟩, hcalled, hborn, hforking, hbefore⟩ := Loc.follows_inv hk
  exact {
    place := hat
    right := by rw [hright, h.right, hpipe]
    left := fun e => hleft.trans (h.left (hcalled e))
    leftBefore := fun e => absurd e hbefore
    wr := fun p => by rw [hwr p, hright]
    rd := fun e => hrd e (h.rd (e.imp hcalled hborn))
    rdRight := fun e => absurd (hforking.symm.trans e) Bool.false_ne_true
    child := fun e => hchild.trans (h.child (hforked ▸ e)) }

theorem Local.goto (hk : loc.follows k = true) (hwrite : k.holdsWrite = loc.holdsWrite)
    (hat : At vs i taken' sent' k) : Local vs i (t.goto k) taken' sent' := by
  refine h.change hloc hk hat rfl rfl rfl (fun p => ?_) fun _ => id
  show (p, End.wr) ∈ t.fds ↔ k.holdsWrite = true ∧ p = t.right
  rw [hwrite, ← hloc]
  exact h.wr p

/-- `close(pipright[1])` -/
theorem Local.closeWrite (hk : loc.follows k = true) (hwrite : k.holdsWrite = false)
    (hat : At vs i taken sent k) : Local vs i (t.close .right .wr k) taken sent := by
  refine h.change hloc hk hat rfl rfl rfl (fun p => ?_) fun _ => Finset.mem_erase_of_ne_of_mem (by simp)
  show (p, End.wr) ∈ t.fds.erase (t.right, .wr) ↔ k.holdsWrite = true ∧ p = t.right
  rw [hwrite, Finset.mem_erase, h.wr p]
  simp only [ne_eq, Prod.mk.injEq, and_true, Bool.false_eq_true, false_and, iff_false]
  tauto

/-- A read end other than the left one is closed. -/
theorem Local.closeRead {side : Side} (hk : loc.follows k = true)
    (hwrite : k.holdsWrite = loc.holdsWrite)
    (hside : k.called = true ∨ k.born = true → i - 1 ≠ t.side side) (hat : At vs i taken sent k) :
    Local vs i (t.close side .rd k) taken sent := by
  refine h.change hloc hk hat rfl rfl rfl (fun p => ?_) fun e => Finset.mem_erase_of_ne_of_mem fun e' => hside e (congrArg Prod.fst e')
  show (p, End.wr) ∈ t.fds.erase (t.side side, .rd) ↔ k.holdsWrite = true ∧ p = t.right
  rw [hwrite, Finset.mem_erase, h.wr p, hloc]
  simp

theorem Local.exit (hk : loc.follows k = true) (hwrite : k.holdsWrite = false)
    (hend : k.called = false ∧ k.born = false) (hat : At vs i taken sent k) :
    Local vs i (t.exit k) taken sent := by
  refine h.change hloc hk hat rfl rfl rfl (fun p => ?_) fun e => ?_
  · show (p, End.wr) ∈ (∅ : Finset (Nat × End)) ↔ k.holdsWrite = true ∧ p = t.right
    rw [hwrite]
    simp
  · have hk' : k.called = true ∨ k.born = true := e
    rw [hend.1, hend.2] at hk'
    simp at hk'

/-- The call of `child1` or `childothers` in a child. -/
theorem Local.call {c : Bool} (hat : At vs i taken sent k) (hborn : loc.born = true)
    (hflags : loc.flags = (false, false, c, false))
    (hkflags : k.flags = (false, false, true, false)) (hforking : k.forking = false) :
    Local vs i (t.call k) taken sent := by
  subst hloc
  simp only [Loc.flags, Prod.mk.injEq] at hflags hkflags
  exact {
    place := hat
    right := by
      show t.right = if k.hasPipe = true then i else i - 1
      rw [h.right, hkflags.1, hflags.1]
    left := fun _ => by
      show t.right = i - 1
      rw [h.right, hflags.1]
      rfl
    leftBefore := fun e => by
      rw [show k = .othersChildLeft from e] at hkflags
      exact absurd hkflags.2.1 (by decide)
    wr := fun p => by
      show (p, End.wr) ∈ t.fds ↔ k.holdsWrite = true ∧ p = t.right
      rw [h.wr p, hkflags.2.1, hflags.2.1]
    rd := fun _ => h.rd (.inr hborn)
    rdRight := fun e => absurd (hforking.symm.trans e) Bool.false_ne_true
    child := fun e => absurd (hkflags.2.2.2.symm.trans e) Bool.false_ne_true }

end

end

/-! ## The whole system -/

section

variable (h : Inv vs s) (hi : i < s.nproc)
include h hi

/-- Process `i` has changed, and what it has sent and taken, and there may be a new pipe. Its
neighbours do not see it. -/
theorem Inv.move (t : Thread) (pipes : Nat → Pipe) (npipe : Nat) (out : List Byte)
    (hforked : t.loc.forked = (s.procs i).loc.forked) (hpipe : t.loc.hasPipe = true ↔ i < npipe)
    (hnpipe : s.npipe ≤ npipe ∧ npipe ≤ s.nproc ∧ ∀ j, s.npipe ≤ j → j < npipe → j = i)
    (hlocal : Local vs i t (Sys.taken ⟨s.procs, s.nproc, pipes, npipe, out⟩ i) (pipes i).sent)
    (hsent : ∀ p, p ≠ i → (pipes p).sent = (s.pipes p).sent)
    (hnread : ∀ p, p + 1 ≠ i → (pipes p).nread = (s.pipes p).nread)
    (hle : ∀ p, (pipes p).nread ≤ (pipes p).sent.length)
    (hfresh : ∀ p, npipe ≤ p → pipes p = .fresh)
    (hprinted : i + 1 = s.nproc → Printed vs i out t.loc.phase)
    (hout : i + 1 ≠ s.nproc → out = s.out) :
    Inv vs ⟨update s.procs i t, s.nproc, pipes, npipe, out⟩ := by
  have hself : update s.procs i t i = t := update_self ..
  have hother : ∀ j, j ≠ i → update s.procs i t j = s.procs j := fun j hj => update_of_ne hj ..
  constructor
  · intro j hj
    show Local vs j (update s.procs i t j) _ (pipes j).sent
    by_cases hji : j = i
    · rw [hji, hself]
      cases i <;> exact hlocal
    · rw [hother j hji, hsent j hji]
      have hj' := h.procs j hj
      cases j with
      | zero => exact hj'
      | succ j =>
        show Local vs (j + 1) _ (pipes j).nread _
        rw [hnread j hji]
        exact hj'
  · intro j hj
    show (update s.procs i t j).loc.forked = true ↔ _
    by_cases hji : j = i
    · rw [hji, hself, hforked]
      exact h.forked i hi
    · rw [hother j hji]
      exact h.forked j hj
  · intro j hj
    show (update s.procs i t j).loc.hasPipe = true ↔ j < npipe
    by_cases hji : j = i
    · rw [hji, hself]
      exact hpipe
    · rw [hother j hji, h.piped j hj]
      refine ⟨fun e => lt_of_lt_of_le e hnpipe.1, fun e => ?_⟩
      by_contra hge
      exact hji (hnpipe.2.2 j (Nat.le_of_not_lt hge) e)
  · exact hnpipe.2.1
  · exact hfresh
  · intro p hp
    have hp' : s.nproc ≤ p + 1 := hp
    show (pipes p).nread = 0
    rw [hnread p (by omega)]
    exact h.unread p hp
  · exact hle
  · intro j hj
    show Printed vs j out (update s.procs i t j).loc.phase
    by_cases hji : j = i
    · rw [hji] at hj ⊢
      rw [hself]
      exact hprinted hj
    · have hj' : j + 1 = s.nproc := hj
      rw [hother j hji, hout (by omega)]
      exact h.printed j hj

/-- Process `i` goes on to a place that may follow, and one pipe has changed. -/
theorem Inv.follow {loc : Loc} (hloc : (s.procs i).loc = loc) {t : Thread} {p : Nat} {x : Pipe}
    {out : List Byte} (hk : loc.follows t.loc = true) (hp : x = s.pipes p ∨ p < s.npipe)
    (hlocal : Local vs i t (Sys.taken ⟨s.procs, s.nproc, update s.pipes p x, s.npipe, out⟩ i) (update s.pipes p x i).sent)
    (hsent : p ≠ i → x.sent = (s.pipes p).sent) (hnread : p + 1 ≠ i → x.nread = (s.pipes p).nread)
    (hle : x.nread ≤ x.sent.length) (hprinted : i + 1 = s.nproc → Printed vs i out t.loc.phase)
    (hout : i + 1 ≠ s.nproc → out = s.out) :
    Inv vs ⟨update s.procs i t, s.nproc, update s.pipes p x, s.npipe, out⟩ := by
  subst hloc
  obtain ⟨hpipe, hforked⟩ := (Loc.follows_inv hk).flags
  refine h.move hi t _ s.npipe out hforked (hpipe ▸ h.piped i hi)
    ⟨le_rfl, h.npipe_le, fun j hj hj' => absurd hj' (Nat.not_lt.mpr hj)⟩ hlocal ?_ ?_ ?_ ?_ hprinted hout
  · exact forall_update (C := fun q (y : Pipe) => q ≠ i → y.sent = (s.pipes q).sent) hsent fun _ _ _ => rfl
  · exact forall_update (C := fun q (y : Pipe) => q + 1 ≠ i → y.nread = (s.pipes q).nread) hnread fun _ _ _ => rfl
  · exact forall_update (C := fun _ (y : Pipe) => y.nread ≤ y.sent.length) hle fun q _ => h.nread_le q
  · refine forall_update (C := fun q (y : Pipe) => s.npipe ≤ q → y = .fresh) (fun hq => ?_) fun q _ => h.fresh q
    rw [hp.resolve_right (Nat.not_lt.mpr hq)]
    exact h.fresh p hq

/-- Only the process has changed. -/
theorem Inv.stay {loc : Loc} (hloc : (s.procs i).loc = loc) {t : Thread}
    (hflags : t.loc.hasPipe = loc.hasPipe ∧ t.loc.forked = loc.forked)
    (hlocal : Local vs i t (s.taken i) (s.pipes i).sent)
    (hprinted : i + 1 = s.nproc → Printed vs i s.out t.loc.phase) : Inv vs (s.setProc i t) := by
  subst hloc
  refine h.move hi t s.pipes s.npipe s.out hflags.2 (hflags.1 ▸ h.piped i hi)
    ⟨le_rfl, h.npipe_le, fun j hj hj' => absurd hj' (Nat.not_lt.mpr hj)⟩ ?_ (fun _ _ => rfl) (fun _ _ => rfl) h.nread_le h.fresh
    hprinted (fun _ => rfl)
  cases i <;> exact hlocal

/-- The process is not the last one. -/
theorem Inv.not_last {loc : Loc} (hloc : (s.procs i).loc = loc) (hforked : loc.forked = true) :
    i + 1 ≠ s.nproc := by
  subst hloc
  exact Nat.ne_of_lt ((h.forked i hi).mp hforked)

/-- It is. -/
theorem Inv.last {loc : Loc} (hloc : (s.procs i).loc = loc) (hforked : loc.forked = false) :
    i + 1 = s.nproc := by
  subst hloc
  have := (not_congr (h.forked i hi)).mp (by rw [hforked]; exact Bool.false_ne_true)
  omega

end

/-- The output of the last process, when it goes to a place of the same phase. -/
theorem Inv.samePhase (h : Inv vs s) {loc k : Loc} (hloc : (s.procs i).loc = loc) (hphase : k.phase = loc.phase)
    (hlast : i + 1 = s.nproc) : Printed vs i s.out k.phase := by
  rw [hphase, ← hloc]
  exact h.printed i hlast

section

variable {loc k : Loc}

section

variable (h : Inv vs s) (hi : i < s.nproc) (hloc : (s.procs i).loc = loc)
  (hk : loc.follows k = true)
include h hi hloc hk

theorem Inv.goto (hwrite : k.holdsWrite = loc.holdsWrite)
    (hat : At vs i (s.taken i) (s.pipes i).sent k)
    (hprinted : i + 1 = s.nproc → Printed vs i s.out k.phase) :
    Inv vs (s.setProc i ((s.procs i).goto k)) :=
  h.stay hi hloc (Loc.follows_inv hk).flags ((h.procs i hi).goto hloc hk hwrite hat) hprinted

theorem Inv.closeWrite (hwrite : k.holdsWrite = false) (hphase : k.phase = loc.phase)
    (hat : At vs i (s.taken i) (s.pipes i).sent k) :
    Inv vs (s.setProc i ((s.procs i).close .right .wr k)) :=
  h.stay hi hloc (Loc.follows_inv hk).flags ((h.procs i hi).closeWrite hloc hk hwrite hat) (h.samePhase hloc hphase)

theorem Inv.closeRead {side : Side} (hwrite : k.holdsWrite = loc.holdsWrite)
    (hprinted : i + 1 = s.nproc → Printed vs i s.out k.phase)
    (hside : k.called = true ∨ k.born = true → i - 1 ≠ (s.procs i).side side)
    (hat : At vs i (s.taken i) (s.pipes i).sent k) :
    Inv vs (s.setProc i ((s.procs i).close side .rd k)) :=
  h.stay hi hloc (Loc.follows_inv hk).flags ((h.procs i hi).closeRead hloc hk hwrite hside hat) hprinted

theorem Inv.exit (hwrite : k.holdsWrite = false) (hend : k.called = false ∧ k.born = false)
    (hphase : k.phase = loc.phase) (hat : At vs i (s.taken i) (s.pipes i).sent k) :
    Inv vs (s.setProc i ((s.procs i).exit k)) :=
  h.stay hi hloc (Loc.follows_inv hk).flags ((h.procs i hi).exit hloc hk hwrite hend hat) (h.samePhase hloc hphase)

end

theorem Inv.call (h : Inv vs s) (hi : i < s.nproc) (hloc : (s.procs i).loc = loc) (hborn : loc.born = true)
    (hflags : loc.flags = (false, false, false, false))
    (hkflags : k.flags = (false, false, true, false)) (hforking : k.forking = false)
    (hphase : k.phase = loc.phase) (hat : At vs i (s.taken i) (s.pipes i).sent k) : Inv vs (s.setProc i ((s.procs i).call k)) := by
  refine h.stay hi hloc ⟨?_, ?_⟩ ((h.procs i hi).call hloc hat hborn hflags hkflags hforking) (h.samePhase hloc hphase)
  · exact (congrArg (·.1) hkflags).trans (congrArg (·.1) hflags).symm
  · exact (congrArg (·.2.2.2) hkflags).trans (congrArg (·.2.2.2) hflags).symm

end

/-- The last process makes its pipe. -/
theorem Inv.pipe (h : Inv vs s) (hi : i < s.nproc) {loc k : Loc} (hloc : (s.procs i).loc = loc)
    (hpipe : loc.hasPipe = false ∧ k.hasPipe = true) (hwrite : loc.holdsWrite = false ∧ k.holdsWrite = true)
    (hforked : loc.forked = false ∧ k.forked = false) (hcalled : k.called = true → loc.called = true) (hborn : k.born = false)
    (hk : ∀ taken sent, At vs i taken sent loc → At vs i taken sent k) (hphase : k.phase = loc.phase) :
    Inv vs (s.newPipe.setProc i ((s.procs i).piped s.npipe k)) := by
  have hlast := h.last hi hloc hforked.1
  have hlocal := h.procs i hi
  subst hloc
  have hge : ¬ i < s.npipe := (not_congr (h.piped i hi)).mp (by rw [hpipe.1]; exact Bool.false_ne_true)
  have hnpipe : s.npipe = i := by
    -- the processes before this one have forked, and so they have made their pipes
    by_contra hne
    have hj : s.npipe < s.nproc := by omega
    have hpiped := Loc.hasPipe_of_forked ((h.forked s.npipe hj).mpr (by omega))
    exact absurd ((h.piped s.npipe hj).mp hpiped) (lt_irrefl _)
  have hpipes : update s.pipes s.npipe .fresh = s.pipes := by
    rw [← h.fresh s.npipe le_rfl, update_eq_self]
  show Inv vs ⟨update s.procs i ((s.procs i).piped s.npipe k), s.nproc, update s.pipes s.npipe .fresh, s.npipe + 1, s.out⟩
  rw [hpipes]
  refine h.move hi _ s.pipes (s.npipe + 1) s.out (hforked.2.trans hforked.1.symm) ⟨fun _ => by omega, fun _ => hpipe.2⟩
    ⟨by omega, by omega, fun j hj hj' => by omega⟩ ?_ (fun _ _ => rfl) (fun _ _ => rfl) h.nread_le
    (fun p hp => h.fresh p (Nat.le_of_succ_le hp)) (h.samePhase rfl hphase) (fun _ => rfl)
  have htaken : Sys.taken ⟨s.procs, s.nproc, s.pipes, s.npipe + 1, s.out⟩ i = s.taken i := by cases i <;> rfl
  rw [htaken]
  exact {
    place := hk _ _ hlocal.place
    right := by
      show s.npipe = if k.hasPipe = true then i else i - 1
      rw [hpipe.2, if_pos rfl, hnpipe]
    left := fun e => hlocal.left (hcalled e)
    leftBefore := fun e => by
      rw [show k = .othersChildLeft from e] at hpipe
      cases hpipe.2
    wr := fun p => by
      show (p, End.wr) ∈ insert (s.npipe, End.rd) (insert (s.npipe, .wr) (s.procs i).fds) ↔ k.holdsWrite = true ∧ p = s.npipe
      have hnone : (p, End.wr) ∉ (s.procs i).fds := by
        rw [hlocal.wr p, hwrite.1]
        exact fun e => (by cases e.1)
      rw [hwrite.2]
      simp [hnone]
    rd := fun e => by
      have hc : k.called = true := e.resolve_right fun e => absurd (hborn.symm.trans e) Bool.false_ne_true
      exact Finset.mem_insert_of_mem (Finset.mem_insert_of_mem (hlocal.rd (.inl (hcalled hc))))
    rdRight := fun _ => Finset.mem_insert_self ..
    child := fun e => absurd (hforked.2.symm.trans e) Bool.false_ne_true }

/-- The last process forks. -/
theorem Inv.fork (h : Inv vs s) (hi : i < s.nproc) {loc : Loc}
    (hloc : (s.procs i).loc = loc) {kc kp : Loc} (hforking : loc.forking = true)
    (hforked : loc.forked = false) (hpipe : loc.hasPipe = true)
    (hwrite : loc.holdsWrite = true) (hkp : ∀ taken sent, At vs i taken sent loc → At vs i taken sent kp)
    (hparent : kp.forked = true ∧ kp.hasPipe = true ∧ kp.holdsWrite = true ∧ kp.born = false ∧ kp.forking = false)
    (hcalled : kp.called = true → loc.called = true) (hbefore : kp ≠ .othersChildLeft) (hkc : At vs (i + 1) 0 [] kc)
    (hchild : kc.forked = false ∧ kc.hasPipe = false ∧ kc.holdsWrite = true ∧ kc.called = false ∧
      kc.forking = false ∧ kc.phase = .before)
    (hleft : kc = .othersChildLeft → (s.procs i).left + 2 = i + 1) (hout : s.out = lines vs (i + 1 - 2)) :
    Inv vs ((s.setProc i ((s.procs i).parent s.nproc kp)).newProc ((s.procs i).born kc)) := by
  subst hloc
  have hlast := h.last hi rfl hforked
  have hlocal := h.procs i hi
  have hright : (s.procs i).right = i := by
    rw [hlocal.right, hpipe, if_pos rfl]
  obtain ⟨hpf, hpp, hpw, hpb, hpk⟩ := hparent
  obtain ⟨hcf, hcp, hcw, hcc, hck, hcph⟩ := hchild
  -- the two processes that change, and the others
  generalize hprocs : update (update s.procs i ((s.procs i).parent s.nproc kp)) s.nproc ((s.procs i).born kc) = procs
  have hnew : procs (i + 1) = (s.procs i).born kc := by
    rw [← hprocs, hlast, update_self]
  have hself : procs i = (s.procs i).parent s.nproc kp := by
    rw [← hprocs, update_of_ne (by omega), update_self]
  have hother : ∀ j, j < i → procs j = s.procs j := fun j hj => by
    rw [← hprocs, update_of_ne (by omega), update_of_ne (by omega)]
  show Inv vs ⟨update (update s.procs i ((s.procs i).parent s.nproc kp)) s.nproc ((s.procs i).born kc), s.nproc + 1,
    s.pipes, s.npipe, s.out⟩
  rw [hprocs]
  have hcases : ∀ j, j < s.nproc + 1 → j < i ∨ j = i ∨ j = i + 1 := fun j hj => by omega
  have htaken : ∀ j, Sys.taken ⟨procs, s.nproc + 1, s.pipes, s.npipe, s.out⟩ j = s.taken j := fun j => by cases j <;> rfl
  have hnpipe := h.npipe_le
  constructor
  · intro j hj
    rw [htaken]
    show Local vs j (procs j) _ (s.pipes j).sent
    rcases hcases j hj with hji | rfl | rfl
    · rw [hother j hji]
      exact h.procs j (by omega)
    · rw [hself]
      refine ⟨hkp _ _ hlocal.place, ?_, fun e => hlocal.left (hcalled e), fun e => absurd e hbefore,
        fun p => ?_, fun e => ?_, fun e => ?_,
        fun _ => congrArg some hlast.symm⟩
      · show (s.procs j).right = if kp.hasPipe = true then j else j - 1
        rw [hright, hpp, if_pos rfl]
      · show (p, End.wr) ∈ (s.procs j).fds ↔ kp.holdsWrite = true ∧ p = (s.procs j).right
        rw [hlocal.wr p, hwrite, hpw]
      · rcases e with e | e
        · exact hlocal.rd (.inl (hcalled e))
        · rw [show ((s.procs j).parent s.nproc kp).loc.born = false from hpb] at e
          cases e
      · rw [show ((s.procs j).parent s.nproc kp).loc.forking = false from hpk] at e
        cases e
    · rw [hnew, show s.taken (i + 1) = 0 from h.unread i (by omega), h.fresh (i + 1) (by omega)]
      refine ⟨hkc, ?_, fun e => ?_, hleft, fun p => ?_, fun _ => ?_, fun e => ?_, fun e => ?_⟩
      · show (s.procs i).right = if kc.hasPipe = true then i + 1 else i + 1 - 1
        rw [hright, hcp]
        rfl
      · rw [show ((s.procs i).born kc).loc.called = false from hcc] at e
        cases e
      · show (p, End.wr) ∈ (s.procs i).fds ↔ kc.holdsWrite = true ∧ p = (s.procs i).right
        rw [hlocal.wr p, hwrite, hcw]
      · show (i + 1 - 1, End.rd) ∈ (s.procs i).fds
        have := hlocal.rdRight hforking
        rw [hright] at this
        exact this
      · rw [show ((s.procs i).born kc).loc.forking = false from hck] at e
        cases e
      · rw [show ((s.procs i).born kc).loc.forked = false from hcf] at e
        cases e
  · intro j hj
    show (procs j).loc.forked = true ↔ j + 1 < s.nproc + 1
    rcases hcases j hj with hji | rfl | rfl
    · rw [hother j hji, h.forked j (by omega)]
      omega
    · rw [hself, show ((s.procs j).parent s.nproc kp).loc.forked = true from hpf]
      exact ⟨fun _ => by omega, fun _ => rfl⟩
    · rw [hnew, show ((s.procs i).born kc).loc.forked = false from hcf]
      exact ⟨fun e => (by cases e), fun e => (by omega)⟩
  · intro j hj
    show (procs j).loc.hasPipe = true ↔ j < s.npipe
    rcases hcases j hj with hji | rfl | rfl
    · rw [hother j hji, h.piped j (by omega)]
    · have := h.piped j hi
      rw [hpipe] at this
      rw [hself, show ((s.procs j).parent s.nproc kp).loc.hasPipe = true from hpp]
      exact this
    · rw [hnew, show ((s.procs i).born kc).loc.hasPipe = false from hcp]
      exact ⟨fun e => (by cases e), fun e => (by omega)⟩
  · show s.npipe ≤ s.nproc + 1
    omega
  · exact h.fresh
  · intro p hp
    have hp' : s.nproc + 1 ≤ p + 1 := hp
    exact h.unread p (by omega)
  · exact h.nread_le
  · intro j hj
    have hj' : j + 1 = s.nproc + 1 := hj
    obtain rfl : j = i + 1 := by omega
    show Printed vs (i + 1) s.out (procs (i + 1)).loc.phase
    rw [hnew, show ((s.procs i).born kc).loc.phase = .before from hcph]
    exact hout

/-! ## Reading and writing -/

variable {d : List Word} {v : Word}

section

variable (h : Inv vs s) (hi : i + 1 < s.nproc)
include h hi

/-- What a process reads: the next number; or nothing, and then it has read everything if nobody can
write any more. -/
theorem Inv.readable (hd : d <+: input vs (i + 1)) (htaken : (s.pipes i).nread = 4 * d.length) :
    (s.pipes i).buf = [] ∧ (¬ s.Open i .wr → d = input vs (i + 1)) ∨
      ∃ v, (s.pipes i).buf.take 4 = bytes v ∧ d ++ [v] <+: input vs (i + 1) := by
  have hlocal := h.procs i (by omega)
  have hforked := (h.forked i (by omega)).mpr hi
  obtain ⟨w, hw, hprefix⟩ := hlocal.place.sentPrefix
  have hle := h.nread_le i
  rw [hw, length_enc, htaken] at hle
  obtain ⟨r, rfl⟩ := prefix_of_prefix_length_le hd hprefix (by omega)
  have hbuf : (s.pipes i).buf = enc r := by
    unfold Pipe.buf
    rw [hw, htaken, drop_enc]
  cases r with
  | nil =>
    refine .inl ⟨hbuf, fun hclosed => ?_⟩
    have hwrite : (s.procs i).loc.holdsWrite = false := by
      by_contra hwrite
      refine hclosed ⟨i, by omega, (hlocal.wr i).mpr ⟨by simpa using hwrite, ?_⟩⟩
      rw [hlocal.right, Loc.hasPipe_of_forked hforked, if_pos rfl]
    have hall := hlocal.place.complete hforked hwrite
    rw [hw] at hall
    have hlen := congrArg length hall
    rw [length_enc, length_enc, append_nil] at hlen
    exact hd.eq_of_length (by show d.length = (stream vs i).length; omega)
  | cons v r =>
    refine .inr ⟨v, ?_, ?_⟩
    · rw [hbuf]
      show (bytes v ++ enc r).take (bytes v).length = bytes v
      exact take_left
    · refine List.IsPrefix.trans ⟨r, ?_⟩ hprefix
      rw [append_assoc]
      rfl

/-- There is room for a number wherever there is any, and somebody to read it. -/
theorem Inv.writable :
    ((s.pipes i).room ≠ 0 → 4 ≤ (s.pipes i).room) ∧ ((s.pipes i).room = 0 → s.Open i .rd) := by
  have hnext := h.procs (i + 1) hi
  obtain ⟨w, hw, hprefix⟩ := (h.procs i (by omega)).place.sentPrefix
  obtain ⟨d, -, hd⟩ := hnext.place.takenPrefix (Nat.succ_ne_zero i)
  have htaken : (s.pipes i).nread = 4 * d.length := hd
  have hlen : (s.pipes i).buf.length = 4 * w.length - 4 * d.length := by
    unfold Pipe.buf
    rw [length_drop, hw, length_enc, htaken]
  have hle := hprefix.length_le
  unfold Pipe.room PIPESIZE
  rw [hlen]
  refine ⟨fun _ => by omega, fun hfull => ?_⟩
  by_contra hclosed
  have hno : ∀ {b : Bool}, ¬ b = true → b = false := fun e => by simpa using e
  have hrd : ¬ ((s.procs (i + 1)).loc.called = true ∨ (s.procs (i + 1)).loc.born = true) :=
    fun e => hclosed ⟨i + 1, hi, hnext.rd e⟩
  have hall : (s.pipes i).nread = 4 * (stream vs i).length :=
    hnext.place.takenAll (Nat.succ_ne_zero i) (hno fun e => hrd (.inl e)) (hno fun e => hrd (.inr e))
  omega

/-- A process reads. -/
theorem Inv.read {loc k : Loc} (hloc : (s.procs (i + 1)).loc = loc) (hk : loc.follows k = true)
    (hwrite : k.holdsWrite = loc.holdsWrite) (hphase : k.phase = loc.phase)
    (hat : At vs (i + 1) ((s.pipes i).nread + ((s.pipes i).buf.take 4).length) (s.pipes (i + 1)).sent k) :
    Inv vs ((s.setPipe i ((s.pipes i).take 4)).setProc (i + 1) ((s.procs (i + 1)).goto k)) := by
  have hpiped : i < s.npipe := (h.piped i (by omega)).mp (Loc.hasPipe_of_forked ((h.forked i (by omega)).mpr hi))
  refine h.follow hi hloc hk (.inr hpiped) ?_ (fun _ => rfl) (fun e => absurd rfl e) ?_ (h.samePhase hloc hphase) (fun _ => rfl)
  · show Local vs (i + 1) _ (update s.pipes i ((s.pipes i).take 4) i).nread _
    rw [update_self, update_of_ne (Nat.succ_ne_self i)]
    exact (h.procs (i + 1) hi).goto hloc hk hwrite hat
  · show (s.pipes i).nread + ((s.pipes i).buf.take 4).length ≤ (s.pipes i).sent.length
    have := h.nread_le i
    have hbuf : (s.pipes i).buf.length = (s.pipes i).sent.length - (s.pipes i).nread := length_drop
    rw [length_take]
    omega

/-- A process writes. -/
theorem Inv.write {loc k : Loc} (hloc : (s.procs i).loc = loc) {bs : List Byte}
    (hk : loc.follows k = true) (hwrite : k.holdsWrite = loc.holdsWrite)
    (hat : At vs i (s.taken i) ((s.pipes i).sent ++ bs) k) :
    Inv vs ((s.setPipe i ((s.pipes i).put bs)).setProc i ((s.procs i).goto k)) := by
  have hi' : i < s.nproc := by omega
  have hpiped : i < s.npipe := (h.piped i hi').mp (Loc.hasPipe_of_forked ((h.forked i hi').mpr hi))
  refine h.follow hi' hloc hk (.inr hpiped) ?_ (fun e => absurd rfl e) (fun _ => rfl) ?_
    (fun hlast => absurd hlast (Nat.ne_of_lt hi)) (fun _ => rfl)
  · have htaken : Sys.taken ⟨s.procs, s.nproc, update s.pipes i ((s.pipes i).put bs), s.npipe,
      (s.setPipe i ((s.pipes i).put bs)).out⟩ i = s.taken i := by
      cases i with
      | zero => rfl
      | succ i =>
        show (update s.pipes (i + 1) _ i).nread = _
        rw [update_of_ne (Nat.succ_ne_self i).symm]
        rfl
    rw [htaken, update_self]
    exact (h.procs i hi').goto hloc hk hwrite hat
  · show (s.pipes i).nread ≤ ((s.pipes i).sent ++ bs).length
    have := h.nread_le i
    rw [length_append]
    omega

end

/-! ## The locations -/

theorem head?_of_singleton_prefix {l : List Word} (h : [v] <+: l) : l.head? = some v := by
  obtain ⟨r, rfl⟩ := h
  rfl

theorem store_bytes {var : List Byte} (h : var.length = 4) (v : Word) : store var (bytes v) = bytes v := by
  unfold store
  rw [length_bytes, ← h, drop_length, append_nil]

/-- The numbers that have been passed on, after one more. -/
theorem relay_concat (h : i = 1 ∧ passed v = true ∨ 2 ≤ i ∧ d ≠ []) :
    relay i (d ++ [v]) = relay i d ++ [v] := by
  rcases h with ⟨rfl, hv⟩ | ⟨hi, hd⟩
  · show (d ++ [v]).filter passed = d.filter passed ++ [v]
    rw [filter_append, filter_cons_of_pos hv, filter_nil]
  · obtain ⟨i, rfl⟩ := Nat.exists_eq_add_of_le' hi
    show (d ++ [v]).tail = d.tail ++ [v]
    exact tail_append_of_ne_nil hd

theorem Has.sent_concat {taken : Nat} {sent : List Byte} (h : Has vs i d v taken sent)
    (hpass : i = 1 ∧ passed v = true ∨ 2 ≤ i ∧ d ≠ []) :
    Got vs i (d ++ [v]) taken (sent ++ bytes v) := by
  refine ⟨h.part, ?_, ?_⟩
  · rw [h.taken, length_append, length_singleton]
  · rw [h.sent, relay_concat hpass, enc_concat]

/-- `child1` drops a number. -/
theorem Has.dropped {taken : Nat} {sent : List Byte} (h : Has vs 1 d v taken sent)
    (hv : passed v = false) : Got vs 1 (d ++ [v]) taken sent := by
  refine ⟨h.part, ?_, ?_⟩
  · rw [h.taken, length_append, length_singleton]
  · rw [h.sent]
    show enc (d.filter passed) = enc ((d ++ [v]).filter passed)
    rw [filter_append, filter_cons_of_neg (by rw [hv]; exact Bool.false_ne_true), filter_nil, append_nil]

theorem Got.done {taken : Nat} {sent : List Byte} (h : Got vs i d taken sent)
    (hd : d = input vs i) : Done vs i taken sent := by
  refine ⟨fun _ => ?_, ?_⟩
  · rw [h.taken, hd]
  · rw [h.sent, hd, stream_eq_relay]

theorem lines_succ {n : Nat} (h : ((vs.filter passed).drop n).head? = some v) :
    lines vs (n + 1) = lines vs n ++ primeLine v := by
  unfold lines
  rw [head?_drop] at h
  rw [take_add_one, h, flatMap_append]
  exact congrArg (_ ++ ·) (append_nil _)

theorem input_add_two (vs : List Word) (k : Nat) : input vs (k + 2) = (vs.filter passed).drop k := stream_add_one vs k

/-- The process at a location that is not the last one. -/
theorem Inv.next_lt (h : Inv vs s) (hi : i < s.nproc) {loc : Loc} (hloc : (s.procs i).loc = loc) (hforked : loc.forked = true) :
    i + 1 < s.nproc := (h.forked i hi).mp (hloc ▸ hforked)

/-- What a `write` of a number does: it waits, or it sends the number. -/
theorem Inv.act_write (h : Inv vs s) (hi : i + 1 < s.nproc) {again : List Byte → Loc}
    {failed k : Loc} {s' : Sys}
    (hact : act s i (s.procs i) (.write (bytes v) again failed k) = some s') :
    s' = (s.setPipe i ((s.pipes i).put (bytes v))).setProc i ((s.procs i).goto k) := by
  have hforked := (h.forked i (by omega)).mpr hi
  have hright : (s.procs i).right = i := by
    rw [(h.procs i (by omega)).right, Loc.hasPipe_of_forked hforked, if_pos rfl]
  obtain ⟨hroom, hopen⟩ := h.writable hi
  unfold act at hact
  simp only [hright] at hact
  split at hact
  next hfull =>
    rw [if_pos (hopen hfull)] at hact
    cases hact
  next hfree =>
    rw [length_bytes, if_pos (hroom hfree)] at hact
    exact (Option.some.inj hact).symm

/-- What a `read` does: it waits, or it gets the next number, or it sees the end. -/
theorem Inv.act_read (h : Inv vs s) (hi : i + 1 < s.nproc) {loc : Loc}
    (hloc : (s.procs (i + 1)).loc = loc) (hcalled : loc.called = true)
    (hd : d <+: input vs (i + 1)) (htaken : s.taken (i + 1) = 4 * d.length) {k : List Byte → Loc}
    {s' : Sys} (hact : act s (i + 1) (s.procs (i + 1)) (.read k) = some s') :
    s' = (s.setPipe i ((s.pipes i).take 4)).setProc (i + 1) ((s.procs (i + 1)).goto (k ((s.pipes i).buf.take 4))) ∧
      ((s.pipes i).buf.take 4 = [] ∧ d = input vs (i + 1) ∨
        ∃ v, (s.pipes i).buf.take 4 = bytes v ∧ d ++ [v] <+: input vs (i + 1)) := by
  have hleft : (s.procs (i + 1)).left = i := (h.procs (i + 1) hi).left (hloc ▸ hcalled)
  unfold act at hact
  simp only [hleft] at hact
  split at hact
  next => cases hact
  next hready =>
    refine ⟨(Option.some.inj hact).symm, ?_⟩
    rcases h.readable hi hd htaken with ⟨hempty, hall⟩ | hnext
    · rw [hempty]
      exact .inl ⟨rfl, hall fun hopen => hready ⟨hempty, hopen⟩⟩
    · exact .inr hnext

/-- The functions of the program. -/
inductive Part
  | main
  | child1
  | childothers
  | finish
  deriving DecidableEq, Repr

/-- The function that a location is in. -/
def Loc.part : Loc → Part
  | mainPipe _ | mainFork _ | mainCloseRead _ | mainFor _ | mainWrite .. | mainFailed | mainError _ | mainChild => .main
  | child1Call | child1Pipe | child1Fork | child1CloseRead | child1Read _ | child1Got .. | child1Write .. | child1Child => .child1
  | finishLeft | finishWrite | finishWait | exited | exitedAlone | othersExit => .finish
  | _ => .childothers

section

variable {s' : Sys} {loc : Loc}

section

variable (h : Inv vs s) (hi : i < s.nproc)
include h hi

theorem Inv.step_main (hloc : (s.procs i).loc = loc)
    (hact : act s i (s.procs i) (code loc) = some s') (hpart : loc.part = .main) : Inv vs s' := by
  have hlocal := h.procs i hi
  have hat := hlocal.place
  rw [hloc] at hat
  cases loc with
  | mainPipe todo =>
    cases hact
    exact h.pipe hi hloc ⟨rfl, rfl⟩ ⟨rfl, rfl⟩ ⟨rfl, rfl⟩ nofun rfl (fun _ _ e => e) rfl
  | mainFork todo =>
    cases hact
    obtain ⟨rfl, htodo, hsent⟩ := hat
    refine h.fork hi hloc rfl rfl rfl rfl (fun _ _ e => e) ⟨rfl, rfl, rfl, rfl, rfl⟩
      nofun nofun ⟨rfl, rfl, rfl⟩ ⟨rfl, rfl, rfl, rfl, rfl, rfl⟩ nofun ?_
    · exact h.samePhase hloc rfl (h.last hi hloc rfl)
  | mainCloseRead todo =>
    cases hact
    obtain ⟨rfl, rfl, hsent⟩ := hat
    exact h.closeRead hi hloc rfl rfl (h.samePhase hloc rfl) (fun e => by rcases e with e | e <;> cases e) ⟨rfl, [], rfl, hsent⟩
  | mainFor todo =>
    obtain ⟨rfl, d, hd, hsent⟩ := hat
    cases todo with
    | nil =>
      cases hact
      refine h.closeWrite hi hloc rfl rfl rfl ⟨fun e => by omega, fun e => absurd rfl e, ?_⟩
      rw [hsent]
      show enc d = enc vs
      rw [hd, append_nil]
    | cons v todo =>
      cases hact
      exact h.goto hi hloc rfl rfl ⟨rfl, d, v, hd, rfl, hsent⟩ (h.samePhase hloc rfl)
  | mainWrite bs todo =>
    obtain ⟨rfl, d, v, hd, rfl, hsent⟩ := hat
    have hlt := h.next_lt hi hloc rfl
    rw [h.act_write hlt hact]
    refine h.write hlt hloc rfl rfl ⟨rfl, d ++ [v], ?_, ?_⟩
    · rw [hd, append_assoc]
      rfl
    · rw [hsent, enc_concat]
  | mainFailed | mainError => exact hat.elim
  | mainChild =>
    cases hact
    exact h.closeWrite hi hloc rfl rfl rfl hat
  | _ => cases hpart

theorem Inv.step_child1 (hloc : (s.procs i).loc = loc)
    (hact : act s i (s.procs i) (code loc) = some s') (hpart : loc.part = .child1) : Inv vs s' := by
  have hlocal := h.procs i hi
  have hat := hlocal.place
  rw [hloc] at hat
  cases loc with
  | child1Call =>
    cases hact
    exact h.call hi hloc rfl rfl rfl rfl rfl hat
  | child1Pipe =>
    cases hact
    exact h.pipe hi hloc ⟨rfl, rfl⟩ ⟨rfl, rfl⟩ ⟨rfl, rfl⟩ (fun _ => rfl) rfl (fun _ _ e => e) rfl
  | child1Fork =>
    cases hact
    obtain ⟨rfl, hidle⟩ := hat
    refine h.fork hi hloc rfl rfl rfl rfl (fun _ _ e => e) ⟨rfl, rfl, rfl, rfl, rfl⟩
      (fun _ => rfl) nofun ⟨Nat.le_refl 2, rfl, rfl⟩ ⟨rfl, rfl, rfl, rfl, rfl, rfl⟩ nofun ?_
    · exact h.samePhase hloc rfl (h.last hi hloc rfl)
  | child1CloseRead =>
    cases hact
    obtain ⟨rfl, htaken, hsent⟩ := hat
    refine h.closeRead hi hloc rfl rfl (h.samePhase hloc rfl) (fun _ => ?_) ⟨rfl, rfl, [], nil_prefix, htaken, hsent⟩
    show 1 - 1 ≠ (s.procs 1).right
    rw [hlocal.right, hloc]
    decide
  | child1Read num =>
    obtain ⟨rfl, hnum, d, hd⟩ := hat
    obtain ⟨rfl, hread⟩ := h.act_read hi hloc rfl hd.part hd.taken hact
    have htaken : (s.pipes 0).nread = 4 * d.length := hd.taken
    rcases hread with ⟨hbuf, hall⟩ | ⟨v, hbuf, hv⟩
    · refine h.read hi hloc rfl rfl rfl ?_
      rw [hbuf]
      exact ⟨rfl, hnum, .inl ⟨rfl, hd.done hall⟩⟩
    · refine h.read hi hloc rfl rfl rfl ?_
      rw [hbuf, store_bytes hnum, length_bytes]
      exact ⟨rfl, rfl, .inr ⟨rfl, d, v, rfl, hv, by rw [htaken]; omega, hd.sent⟩⟩
  | child1Got num ret =>
    obtain ⟨rfl, hnum, ⟨rfl, hdone⟩ | ⟨rfl, d, v, rfl, hv⟩⟩ := hat
    · cases hact
      exact h.goto hi hloc rfl rfl ⟨Nat.le_refl 1, fun e => by omega, hdone⟩ (h.samePhase hloc rfl)
    · have hcode : code (.child1Got (bytes v) 4) =
          if passed v = true then .goto (.child1Write (bytes v) (bytes v)) else .goto (.child1Read (bytes v)) := by
        show (if isPrime (word (bytes v)).toInt = true then _ else _) = _
        rw [word_bytes]
        rfl
      rw [hcode] at hact
      by_cases hpass : passed v = true
      · rw [if_pos hpass] at hact
        cases hact
        exact h.goto hi hloc rfl rfl ⟨rfl, rfl, d, v, hpass, rfl, hv⟩ (h.samePhase hloc rfl)
      · rw [if_neg hpass] at hact
        cases hact
        exact h.goto hi hloc rfl rfl ⟨rfl, rfl, d ++ [v], hv.dropped (by simpa using hpass)⟩ (h.samePhase hloc rfl)
  | child1Write num bs =>
    obtain ⟨rfl, hnum, d, v, hpass, rfl, hv⟩ := hat
    have hlt := h.next_lt hi hloc rfl
    rw [h.act_write hlt hact]
    exact h.write hlt hloc rfl rfl ⟨rfl, hnum, d ++ [v], hv.sent_concat (.inl ⟨rfl, hpass⟩)⟩
  | child1Child =>
    cases hact
    exact h.closeWrite hi hloc rfl rfl rfl hat
  | _ => cases hpart

/-- A character is printed by the last process, which is in the middle of its line. -/
theorem Inv.putc {prime : List Byte} {c : Byte} {cs : List Byte}
    (hloc : (s.procs i).loc = .othersPrint prime (c :: cs)) :
    Inv vs ((s.print c).setProc i ((s.procs i).goto (.othersPrint prime cs))) := by
  have hlocal := h.procs i hi
  have hat := hlocal.place
  rw [hloc] at hat
  have hlast := h.last hi hloc rfl
  have hprinted := h.printed i hlast
  rw [hloc] at hprinted
  have hpipes : s.pipes = update s.pipes 0 (s.pipes 0) := (update_eq_self 0 s.pipes).symm
  show Inv vs ⟨update s.procs i ((s.procs i).goto (.othersPrint prime cs)), s.nproc, s.pipes, s.npipe, s.out ++ [c]⟩
  rw [hpipes]
  refine h.follow hi hloc rfl (.inl rfl) ?_ (fun _ => rfl) (fun _ => rfl) (h.nread_le 0) (fun _ => ?_) (fun e => absurd hlast e)
  · rw [← hpipes]
    refine hlocal.goto hloc rfl rfl ?_
    cases i <;> exact hat
  · show (s.out ++ [c]) ++ cs = lines vs (i - 1)
    rw [append_assoc]
    exact hprinted

theorem Inv.step_childothers (hloc : (s.procs i).loc = loc)
    (hact : act s i (s.procs i) (code loc) = some s') (hpart : loc.part = .childothers) :
    Inv vs s' := by
  have hlocal := h.procs i hi
  have hat := hlocal.place
  rw [hloc] at hat
  cases loc with
  | othersCall =>
    cases hact
    exact h.call hi hloc rfl rfl rfl rfl rfl hat
  | othersFirst =>
    obtain ⟨hi₂, htaken, hsent⟩ := hat
    obtain ⟨i, rfl⟩ := Nat.exists_eq_add_of_le' (show 1 ≤ i by omega)
    obtain ⟨rfl, hread⟩ := h.act_read hi hloc rfl nil_prefix htaken hact
    have htaken' : (s.pipes i).nread = 0 := htaken
    rcases hread with ⟨hbuf, hall⟩ | ⟨v, hbuf, hv⟩
    · refine h.read hi hloc rfl rfl rfl ?_
      rw [hbuf]
      exact ⟨hi₂, .inl ⟨rfl, hall.symm, htaken', hsent⟩⟩
    · refine h.read hi hloc rfl rfl rfl ?_
      rw [hbuf, store_bytes rfl, length_bytes]
      exact ⟨hi₂, .inr ⟨rfl, ⟨v, head?_of_singleton_prefix hv, rfl⟩, by rw [htaken'], hsent⟩⟩
  | othersGot prime ret =>
    obtain ⟨hi₂, ⟨rfl, hnone⟩ | ⟨rfl, hfirst⟩⟩ := hat
    · cases hact
      exact h.goto hi hloc rfl rfl ⟨hi₂, hnone⟩ (h.samePhase hloc rfl)
    · cases hact
      refine h.goto hi hloc rfl rfl ⟨hi₂, hfirst⟩ (fun hlast => ?_)
      obtain ⟨v, hv, rfl⟩ := hfirst.head
      obtain ⟨k, rfl⟩ := Nat.exists_eq_add_of_le' hi₂
      have hout : s.out = lines vs k := h.samePhase (k := .othersNone) hloc rfl hlast
      rw [input_add_two] at hv
      show s.out ++ primeLine (word (bytes v)) = lines vs (k + 1)
      rw [word_bytes, lines_succ hv, hout]
  | othersNone =>
    cases hact
    obtain ⟨hi₂, hnone⟩ := hat
    exact h.closeRead hi hloc rfl rfl (h.samePhase hloc rfl) (fun e => by rcases e with e | e <;> cases e) ⟨hi₂, hnone⟩
  | othersPrint prime cs =>
    cases cs with
    | nil =>
      cases hact
      refine h.goto hi hloc rfl rfl hat (fun hlast => ?_)
      have := h.printed i hlast
      rw [hloc] at this
      have hout : s.out ++ [] = lines vs (i - 1) := this
      rw [append_nil] at hout
      exact hout
    | cons c cs =>
      cases hact
      exact h.putc hi hloc
  | othersPipe prime =>
    cases hact
    exact h.pipe hi hloc ⟨rfl, rfl⟩ ⟨rfl, rfl⟩ ⟨rfl, rfl⟩ (fun _ => rfl) rfl (fun _ _ e => e) rfl
  | othersFork prime =>
    cases hact
    have hi₂ : 2 ≤ i := hat.1
    refine h.fork hi hloc rfl rfl rfl rfl (fun _ _ e => e) ⟨rfl, rfl, rfl, rfl, rfl⟩
      (fun _ => rfl) nofun ⟨by omega, rfl, rfl⟩ ⟨rfl, rfl, rfl, rfl, rfl, rfl⟩ (fun _ => ?_) ?_
    · have hleft := hlocal.left (by rw [hloc]; rfl)
      omega
    · exact h.samePhase hloc rfl (h.last hi hloc rfl)
  | othersCloseRead prime =>
    cases hact
    obtain ⟨hi₂, hfirst⟩ := hat
    obtain ⟨v, hv, rfl⟩ := hfirst.head
    obtain ⟨todo, htodo⟩ := head?_eq_some_iff.mp hv
    obtain ⟨k, rfl⟩ := Nat.exists_eq_add_of_le' hi₂
    refine h.closeRead hi hloc rfl rfl (fun e => absurd e (h.not_last hi hloc rfl)) (fun _ => ?_)
      ⟨hi₂, rfl, [v], cons_ne_nil v [], ⟨todo, htodo.symm⟩, hfirst.taken, hfirst.sent⟩
    show k + 2 - 1 ≠ (s.procs (k + 2)).right
    rw [hlocal.right, hloc]
    show k + 1 ≠ k + 2
    omega
  | othersRead prime =>
    obtain ⟨hi₂, hprime, d, hne, hd⟩ := hat
    obtain ⟨i, rfl⟩ := Nat.exists_eq_add_of_le' (show 1 ≤ i by omega)
    obtain ⟨rfl, hread⟩ := h.act_read hi hloc rfl hd.part hd.taken hact
    have htaken : (s.pipes i).nread = 4 * d.length := hd.taken
    have hinput : input vs (i + 1) ≠ [] := fun e => by
      have := hd.part
      rw [e] at this
      exact hne (prefix_nil.mp this)
    rcases hread with ⟨hbuf, hall⟩ | ⟨v, hbuf, hv⟩
    · refine h.read hi hloc rfl rfl rfl ?_
      rw [hbuf]
      exact ⟨hi₂, hprime, hinput, .inl ⟨rfl, hd.done hall⟩⟩
    · refine h.read hi hloc rfl rfl rfl ?_
      rw [hbuf, store_bytes hprime, length_bytes]
      exact ⟨hi₂, rfl, hinput, .inr ⟨rfl, d, v, hne, rfl, hv, by rw [htaken]; omega, hd.sent⟩⟩
  | othersMore prime ret =>
    obtain ⟨hi₂, hprime, hinput, ⟨rfl, hdone⟩ | ⟨rfl, d, v, hne, rfl, hv⟩⟩ := hat
    · cases hact
      exact h.goto hi hloc rfl rfl ⟨by omega, fun _ => hinput, hdone⟩ (h.samePhase hloc rfl)
    · cases hact
      exact h.goto hi hloc rfl rfl ⟨hi₂, rfl, d, v, hne, rfl, hv⟩ (h.samePhase hloc rfl)
  | othersWrite prime bs =>
    obtain ⟨hi₂, hprime, d, v, hne, rfl, hv⟩ := hat
    have hlt := h.next_lt hi hloc rfl
    rw [h.act_write hlt hact]
    refine h.write hlt hloc rfl rfl ⟨hi₂, hprime, d ++ [v], ?_, hv.sent_concat (.inr ⟨hi₂, hne⟩)⟩
    exact append_ne_nil_of_left_ne_nil hne _
  | othersChildLeft =>
    cases hact
    have hleft := hlocal.leftBefore hloc
    refine h.closeRead hi hloc rfl rfl (h.samePhase hloc rfl) (fun _ => ?_) hat
    show i - 1 ≠ (s.procs i).left
    omega
  | othersChildWrite =>
    cases hact
    exact h.closeWrite hi hloc rfl rfl rfl hat
  | _ => cases hpart

theorem Inv.step_finish (hloc : (s.procs i).loc = loc)
    (hact : act s i (s.procs i) (code loc) = some s') (hpart : loc.part = .finish) : Inv vs s' := by
  have hlocal := h.procs i hi
  have hat := hlocal.place
  rw [hloc] at hat
  cases loc with
  | finishLeft =>
    cases hact
    exact h.closeRead hi hloc rfl rfl (h.samePhase hloc rfl) (fun e => by rcases e with e | e <;> cases e) hat.2
  | finishWrite =>
    cases hact
    exact h.closeWrite hi hloc rfl rfl rfl hat
  | finishWait =>
    unfold code act at hact
    simp only at hact
    split at hact
    next =>
      cases hact
      exact h.exit hi hloc rfl rfl ⟨rfl, rfl⟩ rfl hat
    next => cases hact
  | othersExit =>
    cases hact
    exact h.exit hi hloc rfl rfl ⟨rfl, rfl⟩ rfl hat
  | exited | exitedAlone => cases hact
  | _ => cases hpart

end

theorem Inv.step (h : Inv vs s) (hstep : step s i = some s') : Inv vs s' := by
  unfold Primes.step at hstep
  split at hstep
  next hi =>
    cases hpart : (s.procs i).loc.part with
    | main => exact h.step_main hi rfl hstep hpart
    | child1 => exact h.step_child1 hi rfl hstep hpart
    | childothers => exact h.step_childothers hi rfl hstep hpart
    | finish => exact h.step_finish hi rfl hstep hpart
  next => cases hstep

end

end Xv6.Primes
