import Xv6.Kernel.Procs

/-!
# `sbrk`, `exit`, `wait` and `kill`

Each call keeps `Inv`, whatever it returns. Between its first and its last assignment `exit` gives
the children of the process to `init` and wakes processes up; `Adjusted` is what that may do to a
slot.
-/

namespace Xv6.Kernel

open Prog Radix Vm Function

variable {L : Layout} {s s' : State} {B : Multiset Nat} {held : FileId → Int} {p np : Slot}

/-- A process that runs has a space. -/
theorem Inv.live (h : Inv L s) (hrun : (s.proc p).state = .runnable) : (s.proc p).pagetable ≠ 0 :=
  h.status.live fun hunused => by cases hrun.symm.trans hunused

variable {q : Proc} {E : Panic → State → Prop} {addr : Nat}

/-- Fields of a process that runs are assigned, but not its descriptors. -/
theorem Inv.running (m' : Mem) (h : Inv L s) (hrun : (s.proc p).state = .runnable)
    (hcore : Core L ((s.setMem m').setProc p q) 0 0)
    (hstate : q.state = .runnable ∨ q.state = .sleeping) (hroot : q.pagetable ≠ 0)
    (hparent : q.parent = (s.proc p).parent) : Inv L ((s.setMem m').setProc p q) := by
  have hne : (s.proc p).state ≠ .unused := fun h => by cases hrun.symm.trans h
  refine ⟨hcore, h.status.setProc (p := p) rfl rfl (.active ?_ ?_ hroot ?_)⟩
  · rcases hstate with h | h <;> rw [h] <;> exact ProcState.noConfusion
  · rcases hstate with h | h <;> rw [h] <;> exact ProcState.noConfusion
  · rw [hparent]
    exact (h.status.ok p).parent hne

theorem Inv.setMem {m' : Mem} (h : Inv L s) (hcore : Core L (s.setMem m') 0 0) : Inv L (s.setMem m') :=
  ⟨hcore, h.status.of_eq rfl fun _ => .inl rfl⟩

/-! ## `growproc` -/

theorem growproc_spec {n : BitVec 32} (h : Inv L s) (hrun : (s.proc p).state = .runnable) :
    wp (growproc L p n) (fun _ s' => Inv L s') never s := by
  have hlive := h.live hrun
  obtain ⟨R, T, mp, htf, hroom, -, hback⟩ := h.core.room hlive
  have hsz := hroom.sz_le
  have hmod : (s.proc p).sz % 2 ^ 32 = (s.proc p).sz := Nat.mod_eq_of_lt (by omega)
  -- what is left when a new size has been assigned, or none
  have hnew : ∀ m' sz T' mp', Room L _ s.mem m' _ _ (npages sz) T' mp' → Inv L ((s.setMem m').setProc p ((s.proc p).setSz sz)) :=
    fun m' sz T' mp' hroom' => h.running m' hrun (hback m' ((s.proc p).setSz sz) T' mp' rfl rfl rfl hroom') (.inl hrun) hlive rfl
  have hold : ∀ m', Inv L ((s.setMem m').setProc p ((s.proc p).setSz (s.proc p).sz)) → Inv L (s.setMem m') := by
    intro m' hinv
    rwa [show (s.proc p).setSz (s.proc p).sz = (s.setMem m').proc p from rfl, State.setProc_self] at hinv
  unfold growproc
  rw [wp_bind, wp_read, hmod]
  apply wp_ite
  · intro _
    rw [wp_bind, wp_onMem]
    apply wp_mono (uvmalloc_spec hroom) _ fun _ _ h => h
    rintro r m' ⟨T', mp', n', hroom', -, hr⟩
    have hlt : ((s.proc p).sz + n.toNat) % 2 ^ 32 < 2 ^ 32 := Nat.mod_lt _ (by decide)
    have hr' : r % 2 ^ 32 = r := Nat.mod_eq_of_lt (by omega)
    rw [hr']
    apply wp_ite
    · intro hzero
      have hn : n' = npages (s.proc p).sz := by
        rcases hr with ⟨-, hn⟩ | ⟨hmax, hn⟩
        · exact hn
        · rw [hn, show r = (s.proc p).sz by omega]
      subst hn
      exact hold m' (hnew m' (s.proc p).sz T' mp' hroom')
    · intro hne
      obtain ⟨-, rfl⟩ := hr.resolve_left fun hfail => hne hfail.1
      exact hnew m' r T' mp' hroom'
  · intro _
    apply wp_ite
    · intro _
      rw [wp_bind, wp_onMem]
      apply wp_mono (uvmdealloc_spec hroom) _ fun _ _ h => h
      rintro r m' ⟨hr, mp', hroom', -⟩
      have hr' : r % 2 ^ 32 = r := Nat.mod_eq_of_lt (by omega)
      rw [hr']
      exact hnew m' r T mp' hroom'
    · intro _
      have hinv := hnew s.mem (s.proc p).sz T mp hroom
      rw [wp_bind, assign, wp_change, hmod]
      exact hinv

theorem sysSbrk_spec {n : BitVec 32} (h : Inv L s) (hrun : (s.proc p).state = .runnable) :
    wp (sysSbrk L p n) (fun _ s' => Inv L s') never s := by
  unfold sysSbrk
  rw [wp_bind, wp_read]
  apply wp_seq (growproc_spec h hrun)
  intro r s' h'
  apply wp_ite <;> exact fun _ => h'

/-! ## `exit` -/

theorem closeFiles_spec (h : Core L s 0 0) : wp (closeFiles L p) (fun _ s' => Reopened p s s' ∧ Core L s' 0 0 ∧
    ∀ fd, (s'.proc p).ofile fd = none) never s := by
  -- the descriptors that are not left have been cleared
  apply wp_mono (wp_each (fun fds s' => Reopened p s s' ∧ Core L s' 0 0 ∧ ∀ fd, fd ∉ fds → (s'.proc p).ofile fd = none)
    _ (List.finRange NOFILE) s ⟨.refl p s, h, fun fd hfd => absurd (List.mem_finRange fd) hfd⟩) _ fun _ _ => id
  swap
  · rintro _ s' ⟨hre, hcore, hnone⟩
    exact ⟨hre, hcore, fun fd => hnone fd List.not_mem_nil⟩
  · rintro fd fds s₁ ⟨hre, hcore, hnone⟩
    have hstill : ∀ s₂ : State, (s₂.proc p).ofile fd = none → (∀ d, d ≠ fd → (s₂.proc p).ofile d = (s₁.proc p).ofile d) →
        ∀ d, d ∉ fds → (s₂.proc p).ofile d = none := by
      intro s₂ hfd hother d hd
      by_cases hdf : d = fd
      · rw [hdf]
        exact hfd
      · rw [hother d hdf]
        exact hnone d fun hmem => (List.mem_cons.mp hmem).elim hdf hd
    rw [wp_bind, wp_read]
    cases hfd : (s₁.proc p).ofile fd with
    | none => exact ⟨hre, hcore, hstill s₁ hfd fun _ _ => rfl⟩
    | some f =>
      apply wp_seq (fileclose_spec hcore (hcore.ref_pos (Int.le_refl 0) hfd))
      rintro _ s₂ ⟨hsame, hcore₂⟩
      rw [assign, wp_change]
      refine ⟨(hre.trans (hsame.reopened p)).trans (reopened_setOfile ..), ?_, hstill _ ?_ fun d hd => ?_⟩
      · apply (hcore₂.setOfile fd none).of_held
        rw [hsame.proc, hfd, points_none, points_some]
        abel
      · rw [State.setProc_proc]
        exact update_self ..
      · rw [State.setProc_proc, ← hsame.proc]
        exact update_of_ne hd ..

/-- What waking up and `reparent` may do to a slot. -/
structure Adjusted (init : Option Slot) (q q' : Proc) : Prop where
  layer : q'.layer = q.layer
  ofile : q'.ofile = q.ofile
  state : q'.state = q.state ∨ (q.state = .sleeping ∧ q'.state = .runnable)
  parent : q'.parent = q.parent ∨ q'.parent = init

theorem Adjusted.refl (init : Option Slot) (q : Proc) : Adjusted init q q := ⟨rfl, rfl, .inl rfl, .inl rfl⟩

theorem Adjusted.trans {init : Option Slot} {q' q'' : Proc} (h : Adjusted init q q')
    (h' : Adjusted init q' q'') : Adjusted init q q'' := by
  refine ⟨h'.layer.trans h.layer, h'.ofile.trans h.ofile, ?_, ?_⟩
  · rcases h'.state with hs' | ⟨hs', hr'⟩ <;> rcases h.state with hs | ⟨hs, hr⟩
    · exact .inl (hs'.trans hs)
    · exact .inr ⟨hs, hs'.trans hr⟩
    · exact .inr ⟨hs.symm.trans hs', hr'⟩
    · exact .inr ⟨hs, hr'⟩
  · rcases h'.parent with hp' | hp'
    · rw [hp']
      exact h.parent
    · exact .inr hp'

theorem ProcOk.adjusted {init : Option Slot} {q' : Proc} (h : ProcOk init p q)
    (ha : Adjusted init q q') (hinit : init ≠ none) : ProcOk init p q' := by
  have hroot : q'.pagetable = q.pagetable := congrArg Layer.pagetable ha.layer
  have hused : q'.state ≠ .unused → q.state ≠ .unused := by
    rcases ha.state with hs | ⟨hs, -⟩
    · rw [hs]
      exact id
    · rw [hs]
      exact fun _ => ProcState.noConfusion
  refine ⟨fun hu => ?_, fun hu => ?_, fun hc fd => ?_, fun hu hp => ?_⟩
  · rcases ha.state with hs | ⟨-, hr⟩
    · rw [ha.layer]
      exact h.unused (hs.symm.trans hu)
    · cases hr.symm.trans hu
  · rw [hroot]
    exact h.used (hused hu)
  · rw [ha.ofile]
    rcases ha.state with hs | ⟨-, hr⟩
    · exact h.closed (by rwa [hs] at hc) fd
    · rw [hr] at hc
      rcases hc with hc | hc <;> cases hc
  · rcases ha.parent with hpar | hpar
    · rw [hpar]
      exact h.parent (hused hu) hp
    · rw [hpar]
      exact hinit

/-- All slots are adjusted, and nothing else happens. -/
structure Shuffled (L : Layout) (s s' : State) : Prop where
  core : Core L s' 0 0
  initproc : s'.initproc = s.initproc
  slots : ∀ q, Adjusted s.initproc (s.proc q) (s'.proc q)

theorem Shuffled.assign (h : Shuffled L s s') (hg : Adjusted s.initproc (s'.proc p) q) :
    Shuffled L s (s'.setProc p q) := by
  refine ⟨h.core.assign hg.layer hg.ofile, h.initproc, fun r => ?_⟩
  by_cases hr : r = p
  · subst hr
    rw [State.setProc_proc]
    exact (h.slots r).trans hg
  · rw [State.setProc_of_ne _ _ hr]
    exact h.slots r

theorem wakeup1_spec (h : Shuffled L s s') :
    wp (wakeup1 p) (fun _ s'' => Shuffled L s s'') E s' := by
  unfold wakeup1
  rw [wp_bind, wp_read]
  apply wp_onlyIf
  · intro hsleep
    exact h.assign ⟨rfl, rfl, .inr ⟨hsleep.2, rfl⟩, .inl rfl⟩
  · intro _
    exact h

theorem reparent_spec (h : Shuffled L s s') :
    wp (reparent p) (fun _ s'' => Shuffled L s s'') E s' := by
  apply wp_each (fun _ s'' => Shuffled L s s'') _ _ s' h
  intro pp _ s₁ h₁
  rw [wp_bind, wp_read, wp_bind, wp_read]
  apply wp_onlyIf
  · intro _
    rw [h₁.initproc]
    exact h₁.assign ⟨rfl, rfl, .inl rfl, .inr rfl⟩
  · intro _
    exact h₁

theorem exitFinish_spec {initproc parent : Slot} {status : BitVec 32} (h : Core L s 0 0)
    (hst : Status s) (hrun : (s.proc p).state = .runnable)
    (hnone : ∀ fd, (s.proc p).ofile fd = none) :
    wp (exitFinish p initproc parent status) (fun _ s' => Inv L s') E s := by
  have hshuffled : Shuffled L s s := ⟨h, rfl, fun q => .refl _ _⟩
  have hcwd : Shuffled L s (s.setProc p ((s.proc p).setCwd none)) := hshuffled.assign ⟨rfl, rfl, .inl rfl, .inl rfl⟩
  unfold exitFinish
  rw [wp_bind, Kernel.assign, wp_change]
  apply wp_seq (wakeup1_spec hcwd)
  intro _ s₁ h₁
  apply wp_seq (reparent_spec h₁)
  intro _ s₂ h₂
  apply wp_seq (wakeup1_spec h₂)
  intro _ s₃ h₃
  rw [wp_bind, Kernel.assign, wp_change, Kernel.assign, wp_change, State.setProc_proc, State.setProc_setProc]
  have hne : (s.proc p).state ≠ .unused := fun h => by cases hrun.symm.trans h
  have hok := (hst.ok p).adjusted (h₃.slots p) hst.init
  have hstate : (s₃.proc p).state = .runnable := by
    rcases (h₃.slots p).state with hs | ⟨hs, -⟩
    · exact hs.trans hrun
    · cases hrun.symm.trans hs
  refine ⟨h₃.core.assign rfl rfl, hst.of_eq h₃.initproc fun q => .inr ?_⟩
  by_cases hq : q = p
  · subst hq
    rw [State.setProc_proc]
    refine ⟨(ProcState.noConfusion ·), fun _ => hok.used fun h => ?_, fun _ => ?_, fun _ => hok.parent fun h => ?_⟩
    · cases hstate.symm.trans h
    · show ∀ fd, (s₃.proc q).ofile fd = none
      rw [(h₃.slots q).ofile]
      exact hnone
    · cases hstate.symm.trans h
  · rw [State.setProc_of_ne _ _ hq]
    exact (hst.ok q).adjusted (h₃.slots q) hst.init

/-- `exit` panics for `init` only. -/
theorem exit_spec {status : BitVec 32} (h : Inv L s) (hrun : (s.proc p).state = .runnable) :
    wp (exit L p status) (fun _ s' => Inv L s') (fun e _ => e = .initExiting ∧ s.initproc = some p) s := by
  have hne : (s.proc p).state ≠ .unused := fun h => by cases hrun.symm.trans h
  unfold exit
  rw [wp_bind, wp_read]
  apply wp_ite
  · intro hinit
    exact ⟨rfl, hinit⟩
  · intro hinit
    apply wp_seq (wp_mono (closeFiles_spec h.core) (fun _ _ => id) fun _ _ h => h.elim)
    rintro _ s₁ ⟨hre, hcore, hnone⟩
    have hst₁ := h.status.reopened hre hrun
    obtain ⟨⟨ofile, hproc⟩, hinit₁, -⟩ := hre
    have hp₁ : s₁.proc p = (s.proc p).setOfiles ofile := hproc ▸ update_self ..
    have hparent : (s₁.proc p).parent ≠ none := by
      rw [hp₁]
      exact (h.status.ok p).parent hne hinit
    obtain ⟨parent, hpar⟩ := Option.ne_none_iff_exists'.mp hparent
    obtain ⟨initproc, hini⟩ := Option.ne_none_iff_exists'.mp h.status.init
    rw [wp_bind, wp_read, hpar, hini]
    exact exitFinish_spec hcore hst₁ (hp₁ ▸ hrun) hnone

/-! ## `wait` and `kill` -/

theorem copyStatus_spec {m m' : Mem} {C T : Multiset Nat} {root tf n : Nat}
    {mp : Nat → Option Word} {xstate : BitVec 32} (h : Room L C m m' root tf n T mp) :
    wp (copyStatus root addr xstate) (fun _ m'' => Room L C m m'' root tf n T mp) never m' := by
  unfold copyStatus
  apply wp_ite
  · intro _
    exact copyout_spec h
  · intro _
    exact h

theorem reap_spec (h : Inv L s) (hrun : (s.proc p).state = .runnable)
    (hnp : (s.proc np).state = .zombie) : wp (reap L p np addr) (fun _ s' => Inv L s') never s := by
  unfold reap
  rw [wp_bind, wp_read, wp_bind, wp_read]
  apply wp_seq (h.core.user_call (h.live hrun) copyStatus_spec)
  rintro r s₁ ⟨m₁, rfl, hcore₁⟩
  have hinv₁ := h.setMem hcore₁
  apply wp_ite
  · intro _
    exact hinv₁
  · intro _
    apply wp_seq (freeproc_spec hcore₁)
    rintro _ s₂ ⟨m₂, rfl, hcore₂⟩
    exact ⟨hcore₂, h.status.setProc (p := np) rfl rfl (.free ((h.status.ok np).closed (.inr hnp)))⟩

theorem wait_spec (h : Inv L s) (hrun : (s.proc p).state = .runnable) :
    wp (wait L p addr) (fun _ s' => Inv L s') never s := by
  unfold wait
  rw [wp_bind, assign, wp_change]
  have hinv₁ : Inv L (s.setProc p ((s.proc p).setChan none)) :=
    h.running s.mem hrun (h.core.assign rfl rfl) (.inl hrun) (h.live hrun) rfl
  have hrun₁ : ((s.setProc p ((s.proc p).setChan none)).proc p).state = .runnable := by
    rw [State.setProc_proc]
    exact hrun
  generalize s.setProc p ((s.proc p).setChan none) = s₁ at hinv₁ hrun₁
  rw [wp_bind, wp_read]
  cases hfind : (List.finRange NPROC).find? fun np => (s₁.proc np).parent = some p ∧ (s₁.proc np).state = .zombie with
  | some np =>
    have hnp : (s₁.proc np).parent = some p ∧ (s₁.proc np).state = .zombie := by simpa using List.find?_some hfind
    apply wp_seq (reap_spec hinv₁ hrun₁ hnp.2)
    intro r s₂ hinv₂
    exact hinv₂
  | none =>
    show wp (read _ >>= _) _ _ s₁
    rw [wp_bind, wp_read, wp_bind, wp_read]
    apply wp_ite
    · intro _
      exact hinv₁
    · intro _
      rw [wp_bind, assign, wp_change, wp_bind, assign, wp_change, State.setProc_proc, State.setProc_setProc]
      exact hinv₁.running s₁.mem hrun₁ (hinv₁.core.assign rfl rfl) (.inr rfl) (hinv₁.live hrun₁) rfl

theorem kill_spec {pid : BitVec 32} (h : Inv L s) : wp (kill pid) (fun _ s' => Inv L s') never s := by
  have hdone : ∀ s', Shuffled L s s' → Inv L s' := fun s' hs =>
    ⟨hs.core, h.status.of_eq hs.initproc fun q => .inr ((h.status.ok q).adjusted (hs.slots q) h.status.init)⟩
  have hshuffled : Shuffled L s s := ⟨h.core, rfl, fun q => .refl _ _⟩
  unfold kill
  rw [wp_bind, wp_read]
  cases hfind : (List.finRange NPROC).find? fun p => (s.proc p).pid = pid with
  | none => exact h
  | some p =>
    show wp (read _ >>= _) _ _ s
    have hkilled : Shuffled L s (s.setProc p (s.proc p).setKilled) := hshuffled.assign ⟨rfl, rfl, .inl rfl, .inl rfl⟩
    rw [wp_bind, wp_read, wp_bind, assign, wp_change]
    apply wp_seq (Q := fun _ s' => Inv L s')
    · apply wp_onlyIf
      · intro hsleep
        have hstate : ((s.setProc p (s.proc p).setKilled).proc p).state = .sleeping := by
          rw [State.setProc_proc]
          exact hsleep
        exact hdone _ (hkilled.assign ⟨rfl, rfl, .inr ⟨hstate, rfl⟩, .inl rfl⟩)
      · intro _
        exact hdone _ hkilled
    · intro _ s' hinv
      exact hinv

end Xv6.Kernel
