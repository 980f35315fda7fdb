import Xv6.Virtio.Track

/-!
# Every run of the driver and the device

The device keeps what the driver's threads rely on, and so the invariant holds in every state that
they come to together, if no two calls of `virtio_disk_rw` are on the same buffer at a time. That
the device ever answers is not shown; the bytes that it moves are not modelled.
-/

namespace Xv6.Virtio

open Sleep Function List

variable {B : Type} {N : Nat}

/-- A thread relies on nothing that the device changes, but for the requests that are posted. -/
theorem Local.device {d d' : Disk B} {l : Loc B} (h : Local d l) (hdesc : d'.desc = d.desc)
    (hinfo : ∀ j, (d'.info j).b = (d.info j).b) (hdisk : d'.disk = d.disk) (hreqs : d'.reqs = d.reqs) (hring : d'.ring = d.ring)
    (hhandled : d'.handled = d.handled) (hposted : d.posted <+: d'.posted) : Local d' l := by
  have hformatted : ∀ {r : Req B}, Formatted d r → Formatted d' r := fun hr =>
    hr.congr (fun j _ => by rw [hdesc]) (hinfo _)
  have hlinked : ∀ {i : Nat} {left : List Nat}, Linked d i left → Linked d' i left := fun hi =>
    hi.congr (fun j => by rw [hdesc]) fun j => by rw [hdesc]
  have hdone : d.done ⊆ d'.done := by
    unfold Queue.done
    rw [hhandled]
    exact map_subset _ ((prefix_take_iff.mpr ⟨( take_prefix _ _).trans hposted,
      (length_take_le _ _)⟩).subset)
  have hDone : ∀ {r : Req B} {k : Nat}, Done d r k → Done d' r k := fun hr => ⟨by rw [hreqs]; exact hr.1, hdone hr.2⟩
  cases l with
  | avail r => exact ⟨hformatted h.1, by rw [hdisk]; exact h.2⟩
  | publish r => exact ⟨hformatted h.1, by rw [hdisk]; exact h.2.1, by rw [hring, hreqs]; exact h.2.2⟩
  | wait r k => exact ⟨hformatted h.formatted, by rw [hreqs]; exact h.req, by rw [hdisk]; exact fun hb => hdone (h.disk hb)⟩
  | clear r k => exact ⟨hlinked h.1, hDone h.2⟩
  | chain r k i left | chainWake r k i left | chainNext r k i left => exact ⟨hlinked h.1, hDone h.2⟩
  | idle last =>
    cases last with
    | none => trivial
    | some x => exact hDone h
  | intrGot id =>
    obtain ⟨job, hjob, hhead⟩ := h
    refine ⟨job, ?_, hhead⟩
    obtain ⟨more, hmore⟩ := hposted
    rw [hhandled, ← hmore, getElem?_append_left (List.getElem?_eq_some_iff.mp hjob).1, hjob]
  | intrWake id =>
    show (d'.info id).b ≠ none
    rw [hinfo]
    exact h
  | panic f => exact h
  | _ => trivial

namespace Inv

variable {loc : Fin N → Loc B} {d d' : Disk B}

/-- A step of the device. -/
theorem device_frame (h : Inv loc d) (hrings : Rings d'.toQueue) (hfree : d'.free = d.free) (hdesc : d'.desc = d.desc)
    (hinfo : ∀ j, (d'.info j).b = (d.info j).b) (hdisk : d'.disk = d.disk) (hreqs : d'.reqs = d.reqs) (hring : d'.ring = d.ring)
    (hseen : d'.seen = d.seen) (hhandled : d'.handled = d.handled) (hposted : d.posted <+: d'.posted)
    (hle : d.handled.length ≤ d.posted.length) : Inv loc d' where
  rings := hrings
  shares := by
    unfold Disk.frees
    rw [hfree]
    exact h.shares
  bufs := h.bufs
  locals := fun p => (h.locals p).device hdesc hinfo hdisk hreqs hring hhandled hposted
  waiters := by
    have hdone : d'.done = d.done := by
      obtain ⟨more, hmore⟩ := hposted
      unfold Queue.done
      rw [hhandled, ← hmore, take_append_of_le_length hle]
    rw [hreqs, hdone]
    exact h.waiters
  mid := by
    rw [hhandled, hseen]
    exact h.mid

theorem device [DecidableEq B] (h : Inv loc d) (hexcl : ∀ p q, ¬ (loc p).Rest → ¬ (loc q).Rest → p = q) {a : DeviceAct}
    (ha : d.device a = some d') : Inv loc d' := by
  have hle := h.rings.handled_le
  cases a with
  | fetch =>
    simp only [Disk.device] at ha
    split at ha
    next => cases ha
    next hne =>
      cases ha
      have hlt : d.taken < d.reqs.length := by
        refine Nat.lt_of_le_of_ne h.rings.taken_le fun e => hne ?_
        rw [h.rings.last, h.rings.avail, e]
      obtain ⟨p, hp⟩ := h.waiters d.taken hlt (h.rings.notMem_done le_rfl)
      obtain ⟨r, hr⟩ := Loc.eq_wait hp
      have hwaits := h.locals p
      rw [hr] at hwaits
      exact h.device_frame (h.rings.fetch hwaits.req hwaits.formatted.readChain) rfl rfl (fun _ => rfl) rfl rfl rfl rfl rfl
        (prefix_refl _) hle
  | finish n status =>
    obtain ⟨job, hjob, rfl⟩ := Option.map_eq_some_iff.mp ha
    refine h.device_frame (h.rings.finish hjob status) rfl rfl (fun j => ?_) rfl rfl rfl rfl rfl (prefix_refl _) hle
    show (d.putStatus job status j).b = (d.info j).b
    unfold Disk.putStatus
    cases job.cmd with
    | none => rfl
    | some cmd =>
      by_cases hj : j = cmd.status
      · rw [hj]
        exact (congrArg Info.b (update_self cmd.status ((d.info cmd.status).setStatus status) d.info) :)
      · exact congrArg Info.b (update_of_ne hj _ _)
  | post n =>
    obtain ⟨job, hjob, rfl⟩ := Option.map_eq_some_iff.mp ha
    have hroom : d.posted.length < d.seen + NUM := by
      have hway := h.on_their_way
      have hmid := h.mid
      have hone := sum_mid_le_one hexcl
      have htaken := h.rings.taken_le
      have hposted := h.rings.posted_le
      unfold NUM
      omega
    exact h.device_frame (h.rings.post hjob hroom) rfl rfl (fun _ => rfl) rfl rfl rfl rfl rfl (prefix_append _ _) hle

theorem call (h : Inv loc d) {p : Fin N} {last : Option (Nat × Req B)} {l' : Loc B} (hp : loc p = .idle last)
    (hheld : l'.holds = []) (hbuf : ∀ q b, l'.buf = some b → (loc q).buf ≠ some b) (hlocal : Local d l')
    (hmid : l'.mid = 0) : Inv (update loc p l') d where
  rings := h.rings
  shares := by
    have hsame := h.shares.same (p := p) (x := (l'.holds : Multiset Nat)) (by rw [hheld, hp]; rfl)
    rwa [← update_apply_field (fun l : Loc B => (l.holds : Multiset Nat))] at hsame
  bufs := by
    intro q q' b hne
    by_cases hq : q = p
    · rw [hq, update_self, update_of_ne (by rw [← hq]; exact hne.symm)]
      exact hbuf q' b
    · rw [update_of_ne hq]
      by_cases hq' : q' = p
      · rw [hq', update_self]
        exact fun hb hb' => hbuf q b hb' hb
      · rw [update_of_ne hq']
        exact h.bufs q q' b hne
  locals := fun q => forall_update (C := fun _ l => Local d l) hlocal (fun q _ => h.locals q) q
  waiters := by
    intro k hk hdone
    obtain ⟨q, hq⟩ := h.waiters k hk hdone
    refine ⟨q, ?_⟩
    rw [update_of_ne, hq]
    intro e
    rw [e, hp] at hq
    cases hq
  mid := by
    have hsum := sum_update_add (fun q => (loc q).mid) p l'.mid
    rw [← update_apply_field (Loc.mid (B := B)), hmid, hp] at hsum
    have hbefore := h.mid
    show d.handled.length = d.seen + ∑ q, (fun q => (update loc p l' q).mid) q
    have hzero : (Loc.idle (B := B) last).mid = 0 := rfl
    omega

end Inv

/-! ## Runs -/

variable {s s' : System N Unit (Disk B) (Chan B) (Loc B)}

/-- Where the threads are in the driver's code. -/
def locs (s : System N Unit (Disk B) (Chan B) (Loc B)) (p : Fin N) : Loc B := (s.thread p).view.2

/-- A call of `virtio_disk_rw` is on a buffer that no other call is on: the caller has locked it. -/
def Locked (s : System N Unit (Disk B) (Chan B) (Loc B)) : Event N (Op B) DeviceAct → Prop
  | .thread (.call _ (.virtio_disk_rw x)) => ∀ q, (locs s q).buf ≠ some x.b
  | _ => True

/-- A thread that is outside is at `idle`. -/
def Idle (s : System N Unit (Disk B) (Chan B) (Loc B)) : Prop :=
  ∀ p, (s.thread p).view.1 = none → ∃ last, locs s p = .idle last

structure Tracked (s : System N Unit (Disk B) (Chan B) (Loc B)) : Prop where
  locks : Locks s
  resting : Resting Loc.Rest s
  idle : Idle s
  inv : Inv (locs s) (s.data ())

variable [DecidableEq B]

theorem body_idle {l : Loc B} {me : Self} {d : Disk B} (h : ((code.body () l me d).view ()).1 = none) :
    ∃ last, ((code.body () l me d).view ()).2 = .idle last := by
  cases l with
  | idle last => exact ⟨last, rfl⟩
  | alloc x =>
    simp only [code, Disk.alloc3] at h
    split at h <;> cases h
  | undo x js =>
    cases js with
    | nil => cases h
    | cons j js =>
      simp only [code, Disk.freeDesc] at h
      split at h
      next => cases h
      next => split at h <;> cases h
  | wait r k =>
    simp only [code] at h
    split at h <;> cases h
  | chain r k i left =>
    simp only [code, Disk.freeDesc] at h
    split at h
    next => cases h
    next => split at h <;> cases h
  | chainNext r k i left =>
    simp only [code] at h ⊢
    split at h
    next => cases h
    next hnext =>
      rw [if_neg hnext]
      exact ⟨_, rfl⟩
  | intr =>
    simp only [code] at h ⊢
    split at h
    next => cases h
    next hnext =>
      rw [if_neg hnext]
      exact ⟨_, rfl⟩
  | intrGot id =>
    simp only [code] at h
    split at h
    next => cases h
    next => split at h <;> cases h
  | intrWake id =>
    simp only [code] at h
    split at h <;> cases h
  | _ => cases h

theorem Tracked.move {p : Fin N} {a : Act N (Op B)} (h : Tracked s) (ha : Locked s (.thread a)) (hm : Move code s p a s') :
    Tracked s' := by
  have hl := h.locks.move hm
  have hr := h.resting.move rests hm
  cases hm.turn with
  | stay hv hd =>
    have hlocs : locs s' = locs s := by
      funext q
      unfold locs
      rw [hv]
    refine ⟨hl, hr, ?_, ?_⟩
    · intro q hq
      rw [hv] at hq
      rw [hlocs]
      exact h.idle q hq
    · rw [hlocs, hd]
      exact h.inv
  | @call o l m l' _ ht hc hv hd =>
    have hlocs : locs s' = update (locs s) p l' := by
      funext q
      unfold locs
      rw [hv]
      exact congrFun (update_apply_field Prod.snd (fun q => (s.thread q).view) p (some m, l')) q
    obtain ⟨last, hp⟩ := h.idle p (by rw [ht]; rfl)
    refine ⟨hl, hr, ?_, ?_⟩
    · intro q hq
      rw [hv] at hq
      by_cases hqp : q = p
      · rw [hqp, update_self] at hq
        cases hq
      · rw [update_of_ne hqp] at hq
        rw [hlocs, update_of_ne hqp]
        exact h.idle q hq
    · rw [hlocs, hd]
      cases o with
      | virtio_disk_rw x =>
        cases hc
        refine h.inv.call hp rfl ?_ trivial rfl
        intro q b hb
        cases hb
        exact ha q
      | virtio_disk_intr =>
        cases hc
        exact h.inv.call hp rfl nofun trivial rfl
  | @act m l _ ht hv hd =>
    have hin : (s.thread p).Inside := by
      rw [ht]
      trivial
    have hp : locs s p = l := by
      unfold locs
      rw [ht]
      rfl
    have hlocs : locs s' = update (locs s) p ((code.body m l (s.proc p).self (s.data m)).view m).2 := by
      funext q
      unfold locs
      rw [hv]
      exact congrFun (update_apply_field Prod.snd (fun q => (s.thread q).view) p _) q
    refine ⟨hl, hr, ?_, ?_⟩
    · intro q hq
      rw [hv] at hq
      by_cases hqp : q = p
      · rw [hqp, update_self] at hq
        rw [hlocs, hqp, update_self]
        exact body_idle hq
      · rw [update_of_ne hqp] at hq
        rw [hlocs, update_of_ne hqp]
        exact h.idle q hq
    · rw [hlocs, hd, update_self]
      exact h.inv.body (fun q hq => h.resting.others h.locks hin hq) hp _

theorem Tracked.device {a : DeviceAct} {d' : Disk B} (h : Tracked s) (ha : (s.data ()).device a = some d') :
    Tracked { s with data := fun _ => d' } where
  locks := ⟨h.locks.lk, h.locks.plock⟩
  resting := h.resting
  idle := h.idle
  inv := by
    refine h.inv.device ?_ ha
    intro p q hp hq
    by_contra hne
    have hin : (s.thread p).Inside := by
      by_contra hout
      exact hp (h.resting p hout)
    exact hq (h.resting.others h.locks hin (Ne.symm hne))

theorem Tracked.step {e : Event N (Op B) DeviceAct} (h : Tracked s) (he : Locked s e) (hs : machine s e = some (.ok s')) :
    Tracked s' := by
  cases e with
  | thread a =>
    obtain ⟨p, hm⟩ := step_move hs
    exact h.move he hm
  | device a =>
    obtain ⟨data, hdata, hs⟩ := Option.map_eq_some_iff.mp hs
    obtain ⟨d', hd', rfl⟩ := Option.map_eq_some_iff.mp hdata
    cases hs
    exact h.device hd'

omit [DecidableEq B] in
theorem Tracked.init (pid : Fin N → Int) : Tracked (init (B := B) pid) := by
  refine ⟨⟨fun m p => ?_, fun p q => ?_⟩, .boot pid _ trivial, fun p _ => ⟨none, rfl⟩, Rings.init, ?_, ?_, fun _ => trivial,
    fun k hk => absurd hk (Nat.not_lt_zero k), ?_⟩
  · exact ⟨nofun, nofun⟩
  · exact ⟨nofun, nofun⟩
  · show freeDescs _ + ∑ _ : Fin N, (0 : Multiset Nat) = _
    rw [Finset.sum_const_zero, add_zero]
    unfold freeDescs
    rw [Multiset.filter_eq_self]
    intro i hi
    exact decide_eq_true (Multiset.mem_range.mp hi)
  · intro p q b _ hb
    cases hb
  · show 0 = 0 + ∑ _ : Fin N, 0
    rw [Finset.sum_const_zero, add_zero]

/-- Where a call of `virtio_disk_rw` with these arguments may be, and what it leaves behind. -/
def Loc.Serves (x : Args B) : Loc B → Prop
  | .idle last => ∃ k r, last = some (k, r) ∧ r.toArgs = x
  | .alloc y | .undo y _ | .undoWake y _ => y = x
  | .format r | .avail r | .publish r | .wait r _ | .clear r _ | .chain r _ _ _ | .chainWake r _ _ _ | .chainNext r _ _ _ =>
    r.toArgs = x
  | .panic _ => True
  | .intr | .intrGot _ | .intrWake _ | .intrNext => False

theorem Loc.Serves.body {x : Args B} {l : Loc B} (h : l.Serves x) (me : Self) (d : Disk B) :
    ((code.body () l me d).view ()).2.Serves x := by
  cases l
  all_goals
    simp only [code, Disk.alloc3, Disk.freeDesc]
    repeat' split
  all_goals first
    | exact h
    | trivial
    | exact ⟨_, _, rfl, h⟩
    | cases ‹_ = Loc.undo _ _›; exact h

theorem Loc.Serves.step {p : Fin N} {x : Args B} {e : Event N (Op B) DeviceAct} (h : (locs s p).Serves x)
    (he : ∀ o, e ≠ .thread (.call p o)) (hs : machine s e = some (.ok s')) : (locs s' p).Serves x := by
  cases e with
  | device a =>
    obtain ⟨data, -, hs⟩ := Option.map_eq_some_iff.mp hs
    cases hs
    exact h
  | thread a =>
    obtain ⟨q, hm⟩ := step_move hs
    unfold locs at h ⊢
    cases hm.turn with
    | stay hv => rwa [hv]
    | call _ _ hv =>
      rwa [hv, update_of_ne (fun e => he _ (by rw [e]))]
    | act ht hv =>
      rw [hv]
      by_cases hq : p = q
      · subst hq
        rw [ht] at h
        rw [update_self]
        exact h.body _ _
      · rwa [update_of_ne hq]

/-- A call of `virtio_disk_rw`, from the state in which it was made. -/
theorem call_serves {p : Fin N} {x : Args B} {es : List (Event N (Op B) DeviceAct)} (hlast : ∀ o, .thread (.call p o) ∉ es)
    (hrun : run machine s (.thread (.call p (.virtio_disk_rw x)) :: es) = some (.ok s')) : (locs s' p).Serves x := by
  obtain ⟨s₁, hcall, hrest⟩ := run_cons_inv hrun
  obtain ⟨q, hm⟩ := step_move (show step code s (.call p (.virtio_disk_rw x)) = some (.ok s₁) from hcall)
  have hbegun : (locs s₁ p).Serves x := by
    cases hm with
    | call ht hc =>
      cases hc
      unfold locs
      rw [System.setThread_thread, update_self]
      rfl
  refine run_invariant (I := fun s => (locs s p).Serves x) (C := fun _ e => ∀ o, e ≠ .thread (.call p o))
    (fun s e s' hI he hstep => hI.step he hstep) hbegun (eachStep_of_forall (fun e he _ => ?_) _) hrest
  rintro o rfl
  exact hlast o he

/-- In every state that any number of callers, interrupts and the device come to, however often the
ring indices have wrapped: each descriptor that a request has is in range, not free, and no other
request's; a call that has returned was for a request that the device completed, and the device did
what the call asked for, with the buffer, the block and the direction of the call; the ids that the
handler has handled are those that the device has posted, in order, each once, and when no handler
is inside, the used indices agree modulo `NUM` only if there is nothing to handle; and no thread has
found a null buffer or panicked other than by the status that the device gave. -/
theorem requests_tracked (pid : Fin N → Int) (es : List (Event N (Op B) DeviceAct))
    (h : run machine (init pid) es = some (.ok s)) (hlocked : EachStep machine Locked (init pid) es) :
    (∀ p j, j ∈ (locs s p).holds → j < NUM ∧ (s.data ()).free j = false ∧ ∀ q, q ≠ p → j ∉ (locs s q).holds) ∧
      (∀ p, (locs s p).holds.Nodup) ∧
      (∀ p k r, locs s p = .idle (some (k, r)) →
        (s.data ()).reqs[k]? = some r ∧ ∃ job ∈ (s.data ()).posted, job.serial = k ∧ job.cmd = some r.cmd) ∧
      (s.data ()).handled <+: (s.data ()).posted.map Job.head ∧
      ((s.data ()).posted.map Job.serial).Nodup ∧
      (s.lock () = none → ((s.data ()).used_idx.toNat % NUM = (s.data ()).id.toNat % NUM ↔
        (s.data ()).handled = (s.data ()).posted.map Job.head)) ∧
      (∀ p f, locs s p = .panic f → f = .status) ∧
      ∀ p x es' t, run machine s (.thread (.call p (.virtio_disk_rw x)) :: es') = some (.ok t) →
        (∀ o, .thread (.call p o) ∉ es') → ∀ last, locs t p = .idle last → ∃ k r, last = some (k, r) ∧ r.toArgs = x := by
  have ht : Tracked s := run_invariant (I := Tracked) (fun s a s' hs ha hstep => hs.step ha hstep) (.init pid) hlocked h
  have hinv := ht.inv
  refine ⟨fun p j hj => ⟨hinv.held_lt hj, hinv.held_not_free hj, fun q hq => hinv.held_once hq hj⟩, hinv.held_nodup, ?_,
    hinv.rings.handled, hinv.rings.posted_nodup, ?_, ?_, ?_⟩
  · intro p k r hp
    have hlocal := hinv.locals p
    rw [hp] at hlocal
    refine ⟨hlocal.1, ?_⟩
    obtain ⟨job, hjob, hserial⟩ := mem_map.mp hlocal.2
    have hposted : job ∈ (s.data ()).posted := mem_of_mem_take hjob
    obtain ⟨r', hr', -, hcmd⟩ := hinv.rings.jobs job (mem_append_right _ hposted)
    rw [hserial, hlocal.1] at hr'
    cases hr'
    exact ⟨job, hposted, hserial, hcmd⟩
  · intro hfree
    have hrest : ∀ p, (locs s p).Rest := by
      intro p
      apply ht.resting
      intro hin
      obtain ⟨m, hm⟩ := hin.lk
      have hheld := (ht.locks.lk m p).mpr hm
      rw [hfree] at hheld
      cases hheld
    have hseen : (s.data ()).handled.length = (s.data ()).seen := by
      rw [hinv.mid, Finset.sum_eq_zero (fun p _ => (hrest p).mid), add_zero]
    have hle := hinv.rings.handled_le
    have hroom : (s.data ()).posted.length < (s.data ()).seen + NUM := by
      have hway := hinv.on_their_way
      have htaken := hinv.rings.taken_le
      have hposted := hinv.rings.posted_le
      unfold NUM
      omega
    rw [hinv.rings.used_eq_iff (by omega) hroom]
    constructor
    · intro e
      apply hinv.rings.handled.eq_of_length
      rw [length_map]
      omega
    · intro e
      have := congrArg length e
      rw [length_map] at this
      omega
  · intro p f hp
    have hlocal := hinv.locals p
    rw [hp] at hlocal
    exact hlocal
  · intro p x es' t hrun hlast last hidle
    have hserves := call_serves hlast hrun
    rwa [hidle] at hserves

instance (s : System N Unit (Disk B) (Chan B) (Loc B)) : ∀ e, Decidable (Locked s e)
  | .thread (.call _ (.virtio_disk_rw x)) => inferInstanceAs (Decidable (∀ q, (locs s q).buf ≠ some x.b))
  | .thread (.call _ .virtio_disk_intr) | .thread (.kill _ _) | .thread (.go _) | .thread (.look _) | .thread (.dispatch _)
  | .device _ => .isTrue trivial

/-- A process writes a buffer and sleeps, the device completes the request, the interrupt is
handled, and the process returns. -/
def oneWrite (p q : Fin N) : List (Event N (Op Unit) DeviceAct) :=
  [.thread (.call p (.virtio_disk_rw ⟨(), 3, true⟩))] ++ replicate 10 (.thread (.go p)) ++ [.thread (.dispatch p)] ++
    [.device .fetch, .device (.finish 0 0), .device (.post 0), .thread (.call q .virtio_disk_intr)] ++
    replicate 11 (.thread (.go q)) ++ [.thread (.look p), .thread (.dispatch p)] ++ replicate 28 (.thread (.go p))

theorem requests_tracked_oneWrite : ∃ s : System 2 Unit (Disk Unit) (Chan Unit) (Loc Unit),
    run machine (init fun p => p.val + 1) (oneWrite 0 1) = some (.ok s) ∧ (s.data ()).handled = [0] ∧
      (s.data ()).handled <+: (s.data ()).posted.map Job.head ∧ (s.data ()).free 0 = true := by
  obtain ⟨s, hrun, hhandled, hfree⟩ : ∃ s : System 2 Unit (Disk Unit) (Chan Unit) (Loc Unit),
      run machine (init fun p => p.val + 1) (oneWrite 0 1) = some (.ok s) ∧ (s.data ()).handled = [0] ∧
        (s.data ()).free 0 = true := exists_of_endsIn (by decide +kernel)
  have htracked := requests_tracked (fun p => p.val + 1) (oneWrite 0 1) hrun (by decide +kernel)
  exact ⟨s, hrun, hhandled, htracked.2.2.2.1, hfree⟩

end Xv6.Virtio
