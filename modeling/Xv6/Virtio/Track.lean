import Xv6.Lib.Shares
import Xv6.Virtio.Queue

/-!
# Tracking requests

`Inv` is what holds between any two steps of the driver's threads and the device. The descriptors
are shared out: each is free, or one thread has it. Three of eight make a request, and so at most
two requests are on their way at a time; this is why the rings never overflow, and why comparing
used indices modulo `NUM` is enough. Whoever waits for a request is at `Loc.wait`, with its chain
formatted, until the interrupt handler has handled the request.
-/

namespace Xv6.Virtio

open Sleep Function Multiset

variable {B : Type} {l l' : Loc B} {i j k : Nat} {left : List Nat}

namespace Loc

/-- The descriptors that a thread has. -/
def holds : Loc B → List Nat
  | .undo _ js | .undoWake _ js => js
  | .format r | .avail r | .publish r | .wait r _ | .clear r _ => r.idx
  | .chain _ _ i left => i :: left
  | .chainWake _ _ _ left | .chainNext _ _ _ left => left
  | _ => []

/-- The buffer that a thread has called `virtio_disk_rw` on. -/
def buf : Loc B → Option B
  | .alloc x | .undo x _ | .undoWake x _ => some x.b
  | .format r | .avail r | .publish r | .wait r _ | .clear r _ | .chain r _ _ _ | .chainWake r _ _ _ | .chainNext r _ _ _ => some r.b
  | _ => none

/-- The handler has handled a request, and not yet incremented `used_idx`. -/
def mid : Loc B → Nat
  | .intrWake _ | .intrNext => 1
  | _ => 0

/-- The request that a thread waits for. -/
def waitsFor : Loc B → Option Nat
  | .wait _ k => some k
  | _ => none

theorem eq_wait (h : l.waitsFor = some k) : ∃ r, l = .wait r k := by
  cases l with
  | wait r k' =>
    cases h
    exact ⟨r, rfl⟩
  | _ => cases h

/-- Where a thread can be without the lock. -/
def Rest : Loc B → Prop
  | .idle _ | .alloc _ | .wait _ _ | .intr => True
  | _ => False

theorem mid_le_one (l : Loc B) : l.mid ≤ 1 := by
  unfold mid
  split <;> omega

theorem Rest.mid (h : l.Rest) : l.mid = 0 := by
  cases l with
  | intrWake id => exact h.elim
  | intrNext => exact h.elim
  | _ => rfl

end Loc

theorem freeDesc_rests (d : Disk B) (i : Nat) (next : Loc B) : (d.freeDesc i next).Rests Loc.Rest := by
  unfold Disk.freeDesc
  split
  next => trivial
  next => split <;> trivial

theorem alloc3_rests (d : Disk B) (x : Args B) : (d.alloc3 x).Rests Loc.Rest := by
  unfold Disk.alloc3
  split <;> trivial

theorem rests [DecidableEq B] : Rests (code (B := B)) Loc.Rest where
  call := by
    intro o l m l' h
    cases o <;> cases h <;> trivial
  body := by
    intro m l me d
    cases l with
    | alloc x => exact alloc3_rests d x
    | undo x js =>
      cases js with
      | nil => trivial
      | cons j js => exact freeDesc_rests d j _
    | chain r k i left => exact freeDesc_rests d i _
    | wait r k | chainNext r k i left | intr | intrWake id =>
      simp only [code]
      split <;> trivial
    | intrGot id =>
      simp only [code]
      split
      next => trivial
      next => split <;> trivial
    | _ => trivial

/-! ## The descriptors of a request -/

theorem hasNext_of_flags {d : Disk B} {x : Desc B} (h : d.desc i = x) :
    d.hasNext i = (x.flags &&& DESC_F_NEXT != 0) := by
  unfold Disk.hasNext
  rw [h]

/-- The chain of a request is in its descriptors, and its buffer in `info`. -/
structure Formatted (d : Disk B) (r : Req B) : Prop where
  desc0 : d.desc r.i0 = (Disk.chainOf r).1
  desc1 : d.desc r.i1 = (Disk.chainOf r).2.1
  desc2 : d.desc r.i2 = (Disk.chainOf r).2.2
  info : (d.info r.i0).b = some r.b

/-- The descriptors after `i` are `left`. -/
def Linked (d : Disk B) : Nat → List Nat → Prop
  | i, [] => d.hasNext i = false
  | i, j :: left => d.hasNext i = true ∧ (d.desc i).next = j ∧ Linked d j left

namespace Formatted

variable {d d' : Disk B} {r : Req B}

section

variable (h : Formatted d r)
include h

theorem next0 : d.hasNext r.i0 = true := by
  rw [hasNext_of_flags h.desc0]
  show (DESC_F_NEXT &&& DESC_F_NEXT != 0) = true
  decide

theorem next1 : d.hasNext r.i1 = true := by
  rw [hasNext_of_flags h.desc1]
  show (((if r.write = true then 0 else DESC_F_WRITE) ||| DESC_F_NEXT) &&& DESC_F_NEXT != 0) = true
  cases r.write <;> decide

theorem next2 : d.hasNext r.i2 = false := by
  rw [hasNext_of_flags h.desc2]
  show (DESC_F_WRITE &&& DESC_F_NEXT != 0) = false
  decide

theorem linked : Linked d r.i0 [r.i1, r.i2] := by
  refine ⟨h.next0, ?_, h.next1, ?_, h.next2⟩
  · rw [h.desc0]
    rfl
  · rw [h.desc1]
    rfl

/-- The device finds what was asked for. -/
theorem readChain [DecidableEq B] : d.readChain r.i0 = some r.cmd := by
  have hdesc0 : (d.desc r.i0).next = r.i1 := by rw [h.desc0]; rfl
  have hdesc1 : (d.desc r.i1).next = r.i2 := by rw [h.desc1]; rfl
  unfold Disk.readChain
  rw [hdesc0, hdesc1, if_pos ⟨h.next0, h.next1, h.next2⟩, h.desc0, h.desc1, h.desc2]
  have hinto : (((if r.write = true then 0 else DESC_F_WRITE) ||| DESC_F_NEXT) &&& DESC_F_WRITE != 0) = !r.write := by
    cases r.write <;> decide
  show some (Cmd.mk r.write r.sector r.b _ r.i0) = some r.cmd
  unfold Req.cmd
  rw [← hinto]
  rfl

theorem congr (hdesc : ∀ j ∈ r.idx, d'.desc j = d.desc j)
    (hinfo : (d'.info r.i0).b = (d.info r.i0).b) : Formatted d' r := by
  unfold Req.idx at hdesc
  refine ⟨?_, ?_, ?_, ?_⟩
  · rw [hdesc _ (by simp)]
    exact h.desc0
  · rw [hdesc _ (by simp)]
    exact h.desc1
  · rw [hdesc _ (by simp)]
    exact h.desc2
  · rw [hinfo]
    exact h.info

end

end Formatted

/-- Chains depend on flags and successors only. -/
theorem Linked.congr {d d' : Disk B} (hflags : ∀ j, (d'.desc j).flags = (d.desc j).flags)
    (hnext : ∀ j, (d'.desc j).next = (d.desc j).next) (h : Linked d i left) : Linked d' i left := by
  have hhas : ∀ j, d'.hasNext j = d.hasNext j := by
    intro j
    unfold Disk.hasNext
    rw [hflags]
  induction left generalizing i with
  | nil =>
    unfold Linked
    rw [hhas]
    exact h
  | cons j left ih =>
    unfold Linked
    rw [hhas, hnext]
    exact ⟨h.1, h.2.1, ih h.2.2⟩

/-- A descriptor that is freed keeps its flags and its successor. -/
theorem Linked.release {d : Disk B} (h : Linked d i left) : Linked (d.release j) i left := by
  have hdesc : ∀ k, (d.release j).desc k = d.desc k ∨ (d.release j).desc k = (d.desc k).clearAddr := by
    intro k
    by_cases hk : k = j
    · rw [hk]
      exact .inr (update_self _ _ _)
    · exact .inl (update_of_ne hk _ _)
  apply h.congr
  · intro k
    rcases hdesc k with e | e
    · rw [e]
    · rw [e]
      rfl
  · intro k
    rcases hdesc k with e | e
    · rw [e]
    · rw [e]
      rfl

/-! ## The invariant -/

/-- The request that has number `k` has been handled. -/
def Done (d : Disk B) (r : Req B) (k : Nat) : Prop := d.reqs[k]? = some r ∧ k ∈ d.done

/-- The thread waits for request `k`, which has been handled once `b->disk` is 0. -/
structure Waits (d : Disk B) (r : Req B) (k : Nat) : Prop where
  formatted : Formatted d r
  req : d.reqs[k]? = some r
  disk : d.disk r.b = false → k ∈ d.done

/-- What holds where a thread is. -/
def Local (d : Disk B) : Loc B → Prop
  | .avail r => Formatted d r ∧ d.disk r.b = true
  | .publish r => Formatted d r ∧ d.disk r.b = true ∧ d.ring (d.reqs.length % NUM) = r.i0
  | .wait r k => Waits d r k
  | .clear r k => Linked d r.i0 [r.i1, r.i2] ∧ Done d r k
  | .chain r k i left | .chainWake r k i left | .chainNext r k i left => Linked d i left ∧ Done d r k
  | .idle (some (k, r)) => Done d r k
  | .intrGot id => ∃ job, d.posted[d.handled.length]? = some job ∧ job.head = id
  | .intrWake id => (d.info id).b ≠ none
  | .panic f => f = .status
  | _ => True

/-- The descriptors that are free. -/
def freeDescs (free : Nat → Bool) : Multiset Nat := (range NUM).filter fun i => free i = true

def Disk.frees (d : Disk B) : Multiset Nat := freeDescs d.free

variable {N : Nat}

structure Inv (loc : Fin N → Loc B) (d : Disk B) : Prop where
  rings : Rings d.toQueue
  shares : Shares d.frees (range NUM) fun p => ((loc p).holds : Multiset Nat)
  bufs : ∀ p q b, p ≠ q → (loc p).buf = some b → (loc q).buf ≠ some b
  locals : ∀ p, Local d (loc p)
  waiters : ∀ k < d.reqs.length, k ∉ d.done → ∃ p, (loc p).waitsFor = some k
  mid : d.handled.length = d.seen + ∑ p, (loc p).mid

namespace Inv

variable {loc : Fin N → Loc B} {d d' : Disk B}

theorem held_lt (h : Inv loc d) {p : Fin N} (hj : j ∈ (loc p).holds) : j < NUM :=
  mem_range.mp (mem_of_le (h.shares.part_le p) (mem_coe.mpr hj))

theorem held_not_free (h : Inv loc d) {p : Fin N} (hj : j ∈ (loc p).holds) : d.free j = false := by
  have hfree := h.shares.notMem_free (nodup_range NUM) (p := p) (mem_coe.mpr hj)
  unfold Disk.frees freeDescs at hfree
  rw [mem_filter, not_and, mem_range] at hfree
  simpa using hfree (h.held_lt hj)

theorem held_once (h : Inv loc d) {p q : Fin N} (hne : q ≠ p) (hj : j ∈ (loc p).holds) :
    j ∉ (loc q).holds := by
  have := h.shares.notMem (nodup_range NUM) hne (mem_coe.mpr hj)
  rwa [mem_coe] at this

theorem held_nodup (h : Inv loc d) (p : Fin N) : (loc p).holds.Nodup :=
  coe_nodup.mp (h.shares.part_nodup (nodup_range NUM) p)

/-- At most two requests are on their way: each of them has three descriptors. -/
theorem on_their_way (h : Inv loc d) : d.reqs.length ≤ d.handled.length + 2 := by
  classical
  have hwaits : ∀ p, p ∈ (Finset.univ.filter fun p => ∃ k, (loc p).waitsFor = some k) →
      3 ≤ ((loc p).holds : Multiset Nat).card := by
    intro p hp
    obtain ⟨k, hk⟩ := (Finset.mem_filter.mp hp).2
    obtain ⟨r, hr⟩ := Loc.eq_wait hk
    rw [hr]
    exact le_rfl
  have hcard := h.shares.card_le _ hwaits
  rw [card_range] at hcard
  -- every request that is not handled has its own waiting thread
  have hsub : (Finset.range d.reqs.length \ d.done.toFinset) ⊆
      (Finset.univ.filter fun p => ∃ k, (loc p).waitsFor = some k).image fun p => (loc p).waitsFor.getD 0 := by
    intro k hk
    rw [Finset.mem_sdiff, Finset.mem_range, List.mem_toFinset] at hk
    obtain ⟨p, hp⟩ := h.waiters k hk.1 hk.2
    refine Finset.mem_image.mpr ⟨p, Finset.mem_filter.mpr ⟨Finset.mem_univ p, k, hp⟩, ?_⟩
    rw [hp]
    rfl
  have himage := (Finset.card_le_card hsub).trans Finset.card_image_le
  have hsdiff := Finset.le_card_sdiff d.done.toFinset (Finset.range d.reqs.length)
  have hdone : d.done.toFinset.card ≤ d.handled.length := by
    refine (List.toFinset_card_le _).trans ?_
    unfold Queue.done
    rw [List.length_map, List.length_take]
    exact min_le_left _ _
  rw [Finset.card_range] at hsdiff
  unfold NUM at hcard
  omega

theorem sum_mid_le_one (hexcl : ∀ p q, ¬ (loc p).Rest → ¬ (loc q).Rest → p = q) : ∑ p, (loc p).mid ≤ 1 := by
  classical
  by_cases hnone : ∀ p, (loc p).Rest
  · rw [Finset.sum_eq_zero (fun p _ => (hnone p).mid)]
    exact Nat.zero_le 1
  · push Not at hnone
    obtain ⟨p, hp⟩ := hnone
    rw [Finset.sum_eq_single p]
    · exact (loc p).mid_le_one
    · intro q _ hne
      apply Loc.Rest.mid
      by_contra hq
      exact hne (hexcl q p hq hp)
    · exact fun hp => absurd (Finset.mem_univ p) hp

/-- A thread goes from one location to the next. -/
theorem act (h : Inv loc d) {p : Fin N} (hrings : Rings d'.toQueue)
    (hheld : d'.frees + (l'.holds : Multiset Nat) = d.frees + ((loc p).holds : Multiset Nat))
    (hbuf : ∀ b, l'.buf = some b → (loc p).buf = some b) (hlocal : Local d' l')
    (hothers : ∀ q, q ≠ p → Local d' (loc q))
    (hwait : ∀ k < d'.reqs.length, k ∉ d'.done → l'.waitsFor = some k ∨ k < d.reqs.length ∧ k ∉ d.done ∧ (loc p).waitsFor ≠ some k)
    (hmid : d'.handled.length + d.seen + (loc p).mid = d.handled.length + d'.seen + l'.mid) :
    Inv (update loc p l') d' where
  rings := hrings
  shares := by
    have hmove := h.shares.move (p := p) hheld
    rwa [← update_apply_field (fun l : Loc B => (l.holds : Multiset Nat))] at hmove
  bufs := by
    have hne : ∀ q b, q ≠ p → l'.buf = some b → (loc q).buf ≠ some b := fun q b hq hb =>
      h.bufs p q b hq.symm (hbuf b hb)
    intro q q' b hqq'
    by_cases hq : q = p
    · rw [hq, update_self, update_of_ne (by rw [← hq]; exact hqq'.symm)]
      exact hne q' b (by rw [← hq]; exact hqq'.symm)
    · rw [update_of_ne hq]
      by_cases hq' : q' = p
      · rw [hq', update_self]
        exact fun hb hb' => hne q b hq hb' hb
      · rw [update_of_ne hq']
        exact h.bufs q q' b hqq'
  locals := fun q => forall_update (C := fun _ l => Local d' l) hlocal hothers q
  waiters := by
    intro k hk hdone
    rcases hwait k hk hdone with hl' | ⟨hk, hdone, hp⟩
    · refine ⟨p, ?_⟩
      rw [update_self, hl']
    · obtain ⟨q, hq⟩ := h.waiters k hk hdone
      refine ⟨q, ?_⟩
      rw [update_of_ne, hq]
      intro e
      exact hp (by rw [← e, hq])
  mid := by
    have hsum := sum_update_add (fun q => (loc q).mid) p l'.mid
    rw [← update_apply_field (Loc.mid (B := B))] at hsum
    have hbefore := h.mid
    show d'.handled.length = d'.seen + ∑ q, (fun q => (update loc p l' q).mid) q
    omega

/-- A thread goes on and leaves the data alone. -/
theorem goto (h : Inv loc d) {p : Fin N} (hheld : l'.holds = (loc p).holds)
    (hbuf : ∀ b, l'.buf = some b → (loc p).buf = some b) (hlocal : Local d l')
    (hwait : ∀ k, (loc p).waitsFor = some k → k ∈ d.done ∨ l'.waitsFor = some k)
    (hmid : l'.mid = (loc p).mid) : Inv (update loc p l') d := by
  refine h.act h.rings (by rw [hheld]) hbuf hlocal (fun q _ => h.locals q) ?_ (by rw [hmid])
  intro k hk hdone
  by_cases hp : (loc p).waitsFor = some k
  · exact .inl ((hwait k hp).resolve_left hdone)
  · exact .inr ⟨hk, hdone, hp⟩

end Inv

/-- What others do leaves alone what a thread without the lock relies on. -/
theorem Local.frame {d d' : Disk B} (hrest : l.Rest) (h : Local d l) (hreqs : d.reqs <+: d'.reqs)
    (hdone : d.done ⊆ d'.done)
    (hwait : ∀ r k, l = .wait r k → Formatted d r → Formatted d' r ∧ (d'.disk r.b = false → d.disk r.b = false ∨ k ∈ d'.done)) :
    Local d' l := by
  have hreq : ∀ {k : Nat} {r : Req B}, d.reqs[k]? = some r → d'.reqs[k]? = some r := by
    intro k r hr
    obtain ⟨more, hmore⟩ := hreqs
    rw [← hmore, List.getElem?_append_left (List.getElem?_eq_some_iff.mp hr).1, hr]
  cases l with
  | idle last =>
    cases last with
    | none => trivial
    | some x => exact ⟨hreq h.1, hdone h.2⟩
  | wait r k =>
    obtain ⟨hformatted, hdisk⟩ := hwait r k rfl h.formatted
    refine ⟨hformatted, hreq h.req, fun hb => ?_⟩
    rcases hdisk hb with hb | hk
    · exact hdone (h.disk hb)
    · exact hk
  | alloc x => trivial
  | intr => trivial
  | _ => exact hrest.elim

/-! ## The descriptors -/

/-- A free descriptor is marked. -/
theorem freeDescs_take {free : Nat → Bool} (hi : i < NUM) (hfree : free i = true) :
    freeDescs free = i ::ₘ freeDescs (update free i false) := by
  have hnot : i ∉ freeDescs (update free i false) := by
    unfold freeDescs
    rw [mem_filter, update_self]
    exact fun h => Bool.noConfusion h.2
  have hnodup : ∀ f, (freeDescs f).Nodup := fun f => (nodup_range NUM).filter _
  refine (Multiset.Nodup.ext (hnodup _) (nodup_cons.mpr ⟨hnot, hnodup _⟩)).mpr fun j => ?_
  unfold freeDescs
  rw [mem_cons, mem_filter, mem_filter, mem_range]
  by_cases hj : j = i
  · rw [hj]
    exact ⟨fun _ => .inl rfl, fun _ => ⟨hi, hfree⟩⟩
  · rw [update_of_ne hj]
    exact ⟨.inr, fun h => h.resolve_left hj⟩

theorem frees_release {d : Disk B} (hi : i < NUM) (hfree : d.free i = false) :
    (d.release i).frees = i ::ₘ d.frees := by
  have hback : update (update d.free i true) i false = d.free := by
    rw [update_idem, ← hfree, update_eq_self]
  show freeDescs (update d.free i true) = i ::ₘ freeDescs d.free
  rw [freeDescs_take hi (update_self _ _ _), hback]

/-- The descriptors that `alloc_desc` finds are free ones. -/
theorem allocDescs_spec (n : Nat) (d : Disk B) : ∃ free,
    (d.allocDescs n).2 = { d with free := free } ∧
      (d.allocDescs n).2.frees + ((d.allocDescs n).1 : Multiset Nat) = d.frees := by
  induction n generalizing d with
  | zero => exact ⟨d.free, rfl, add_zero _⟩
  | succ n ih =>
    unfold Disk.allocDescs Disk.allocDesc
    cases hfind : (List.range NUM).find? fun i => d.free i with
    | none => exact ⟨d.free, rfl, add_zero _⟩
    | some i =>
      have hfree : d.free i = true := List.find?_some hfind
      have hi : i < NUM := List.mem_range.mp (List.mem_of_find?_eq_some hfind)
      obtain ⟨free, hsame, hfrees⟩ := ih { d with free := update d.free i false }
      refine ⟨free, hsame, ?_⟩
      simp only
      rw [← cons_coe, add_cons, hfrees]
      exact (freeDescs_take hi hfree).symm

/-! ## Steps of the driver -/

namespace Inv

variable {loc : Fin N → Loc B} {d d' : Disk B} {p : Fin N}

section

variable (h : Inv loc d) (ho : ∀ q, q ≠ p → (loc q).Rest)
include h ho

/-- What is kept when the queue and the flags `b->disk` are left alone. -/
theorem frame (hqueue : d'.toQueue = d.toQueue) (hdisk : d'.disk = d.disk)
    (hdesc : ∀ j, j ∉ (loc p).holds → d'.desc j = d.desc j)
    (hinfo : ∀ j, j ∉ (loc p).holds → (d'.info j).b = (d.info j).b) :
    ∀ q, q ≠ p → Local d' (loc q) := by
  intro q hq
  refine (h.locals q).frame (ho q hq) (by rw [hqueue]) (by rw [hqueue]; exact List.Subset.refl _) ?_
  intro r k hr hformatted
  have hheld : ∀ j ∈ r.idx, j ∉ (loc p).holds := fun j hj => h.held_once hq.symm (by rw [hr]; exact hj)
  refine ⟨hformatted.congr (fun j hj => hdesc j (hheld j hj)) (hinfo _ (hheld _ List.mem_cons_self)), ?_⟩
  rw [hdisk]
  exact .inl

/-- A step that leaves the queue and the flags `b->disk` alone, by a thread that does not wait. -/
theorem act_frame (hqueue : d'.toQueue = d.toQueue) (hdisk : d'.disk = d.disk)
    (hdesc : ∀ j, j ∉ (loc p).holds → d'.desc j = d.desc j)
    (hinfo : ∀ j, j ∉ (loc p).holds → (d'.info j).b = (d.info j).b)
    (hheld : d'.frees + (l'.holds : Multiset Nat) = d.frees + ((loc p).holds : Multiset Nat))
    (hbuf : l'.buf = (loc p).buf) (hlocal : Local d' l') (hwait : (loc p).waitsFor = none)
    (hmid : l'.mid = (loc p).mid) : Inv (update loc p l') d' := by
  refine h.act (by rw [hqueue]; exact h.rings) hheld (by rw [hbuf]; exact fun b hb => hb) hlocal
    (h.frame ho hqueue hdisk hdesc hinfo) ?_ (by rw [hqueue, hmid])
  rw [hqueue, hwait]
  exact fun k hk hdone => .inr ⟨hk, hdone, (Option.some_ne_none k).symm⟩

theorem alloc {x : Args B} (hp : loc p = .alloc x) :
    Inv (update loc p ((d.alloc3 x).view ()).2) ((d.alloc3 x).data d) := by
  obtain ⟨free, hsame, hfrees⟩ := allocDescs_spec 3 d
  -- whatever was found, it is taken from what is free
  have hnext : ∀ l' : Loc B, l'.holds = (d.allocDescs 3).1 → l'.buf = some x.b → l'.mid = 0 → Local (d.allocDescs 3).2 l' →
      Inv (update loc p l') (d.allocDescs 3).2 := by
    intro l' hholds hbuf hmid hlocal
    refine h.act_frame ho (by rw [hsame]) (by rw [hsame]) (fun _ _ => by rw [hsame]) (fun _ _ => by rw [hsame]) ?_
      (by rw [hbuf, hp]; rfl) hlocal (by rw [hp]; rfl) (by rw [hmid, hp]; rfl)
    rw [hholds, hfrees, hp]
    exact (add_zero _).symm
  unfold Disk.alloc3
  split
  next i0 i1 i2 d' e =>
    rw [e] at hnext
    exact hnext _ rfl rfl rfl trivial
  next js d' _ e =>
    rw [e] at hnext
    exact hnext _ rfl rfl rfl trivial

/-- A thread frees a descriptor that it has. -/
theorem free (hheld : (loc p).holds = i :: l'.holds) (hbuf : l'.buf = (loc p).buf)
    (hlocal : Local (d.release i) l') (hwait : (loc p).waitsFor = none)
    (hmid : l'.mid = (loc p).mid) :
    Inv (update loc p ((d.freeDesc i l').view ()).2) ((d.freeDesc i l').data d) := by
  have hi : i ∈ (loc p).holds := by
    rw [hheld]
    exact List.mem_cons_self
  have hlt := h.held_lt hi
  have hfree := h.held_not_free hi
  have hstep : d.freeDesc i l' = .modify (d.release i) l' := by
    unfold Disk.freeDesc
    rw [if_neg (Nat.not_le.mpr hlt), if_neg (by simp [hfree])]
  rw [hstep]
  refine h.act_frame ho rfl rfl (fun j hj => ?_) (fun _ _ => rfl) ?_ hbuf hlocal hwait hmid
  · have hne : j ≠ i := fun e => hj (by rw [e]; exact hi)
    exact update_of_ne hne _ _
  · show (d.release i).frees + (l'.holds : Multiset Nat) = _
    rw [frees_release hlt hfree, hheld, ← cons_coe, add_cons, cons_add]

theorem clear {r : Req B} (hp : loc p = .clear r k) :
    Inv (update loc p (.chain r k r.i0 [r.i1, r.i2])) (d.clear r.i0) := by
  have hlocal := h.locals p
  rw [hp] at hlocal
  refine h.act_frame ho rfl rfl (fun _ _ => rfl) (fun j hj => ?_) (by rw [hp]; rfl) (by rw [hp]; rfl)
    ⟨hlocal.1.congr (fun _ => rfl) fun _ => rfl, hlocal.2⟩ (by rw [hp]; rfl) (by rw [hp]; rfl)
  have hne : j ≠ r.i0 := by
    intro e
    rw [hp, e] at hj
    exact hj List.mem_cons_self
  show (update d.info r.i0 _ j).b = _
  rw [update_of_ne hne]

theorem format [DecidableEq B] {r : Req B} (hp : loc p = .format r) :
    Inv (update loc p (.avail r)) (d.format r) := by
  have hheld : (loc p).holds = r.idx := by rw [hp]; rfl
  have hnodup : (r.i0 ≠ r.i1 ∧ r.i0 ≠ r.i2) ∧ r.i1 ≠ r.i2 := by
    have := h.held_nodup p
    rw [hheld] at this
    simpa [Req.idx] using this
  have hformatted : Formatted (d.format r) r := by
    refine ⟨?_, ?_, update_self _ _ _, ?_⟩
    · show update _ r.i2 _ r.i0 = _
      rw [update_of_ne hnodup.1.2, update_of_ne hnodup.1.1, update_self]
    · show update _ r.i2 _ r.i1 = _
      rw [update_of_ne hnodup.2, update_self]
    · show (update d.info r.i0 _ r.i0).b = _
      rw [update_self]
  refine h.act h.rings (by rw [hp]; rfl) (by rw [hp]; exact fun b hb => hb) ⟨hformatted, update_self _ _ _⟩ ?_
    ?_ (by rw [hp]; rfl)
  · intro q hq
    refine (h.locals q).frame (ho q hq) (List.prefix_refl _) (List.Subset.refl _) ?_
    intro r' k hr' hformatted'
    have hidx : ∀ j ∈ r'.idx, j ∉ r.idx := by
      intro j hj
      rw [← hheld]
      exact h.held_once hq.symm (by rw [hr']; exact hj)
    have hbuf : r'.b ≠ r.b := by
      intro e
      exact h.bufs q p r.b hq (by rw [hr', ← e]; rfl) (by rw [hp]; rfl)
    refine ⟨hformatted'.congr (fun j hj => ?_) ?_, fun hdisk => .inl ?_⟩
    · have hj := hidx j hj
      simp only [Req.idx, List.mem_cons, List.not_mem_nil, or_false, not_or] at hj
      show update (update (update d.desc r.i0 _) r.i1 _) r.i2 _ j = d.desc j
      rw [update_of_ne hj.2.2, update_of_ne hj.2.1, update_of_ne hj.1]
    · have hne : r'.i0 ≠ r.i0 := fun e => hidx r'.i0 List.mem_cons_self (by rw [e]; exact List.mem_cons_self)
      show (update d.info r.i0 _ r'.i0).b = _
      rw [update_of_ne hne]
    · rw [← hdisk]
      exact (update_of_ne hbuf _ _).symm
  · rw [hp]
    exact fun k hk hdone => .inr ⟨hk, hdone, (Option.some_ne_none k).symm⟩

end

/-- There is room in the avail ring. -/
theorem avail_room (h : Inv loc d) : d.reqs.length < d.taken + NUM := by
  have hway := h.on_their_way
  have hhandled := h.rings.handled_le
  have hposted := h.rings.posted_le
  unfold NUM
  omega

theorem avail (h : Inv loc d) (ho : ∀ q, q ≠ p → (loc q).Rest) {r : Req B} (hp : loc p = .avail r) :
    Inv (update loc p (.publish r)) (d.setRing r) := by
  have hlocal := h.locals p
  rw [hp] at hlocal
  have hring : (d.setRing r).ring (d.reqs.length % NUM) = r.i0 := by
    show update d.ring (d.avail.toNat % NUM) r.i0 (d.reqs.length % NUM) = r.i0
    rw [h.rings.avail, slot_eq, update_self]
  refine h.act (h.rings.setRing r h.avail_room) (by rw [hp]; rfl) (by rw [hp]; exact fun b hb => hb)
    ⟨hlocal.1.congr (fun _ _ => rfl) rfl, hlocal.2, hring⟩ ?_ ?_ (by rw [hp]; rfl)
  · intro q hq
    refine (h.locals q).frame (ho q hq) (List.prefix_refl _) (List.Subset.refl _) ?_
    exact fun r k _ hformatted => ⟨hformatted.congr (fun _ _ => rfl) rfl, .inl⟩
  · rw [hp]
    exact fun k hk hdone => .inr ⟨hk, hdone, (Option.some_ne_none k).symm⟩

theorem publish (h : Inv loc d) (ho : ∀ q, q ≠ p → (loc q).Rest) {r : Req B} (hp : loc p = .publish r) :
    Inv (update loc p (.wait r d.reqs.length)) (d.publish r) := by
  have hlocal := h.locals p
  rw [hp] at hlocal
  obtain ⟨hformatted, hdisk, hring⟩ := hlocal
  have hwaits : Waits (d.publish r) r d.reqs.length := by
    refine ⟨hformatted.congr (fun _ _ => rfl) rfl, List.getElem?_concat_length, fun hb => ?_⟩
    have hb : d.disk r.b = false := hb
    rw [hdisk] at hb
    cases hb
  refine h.act (h.rings.publish hring) (by rw [hp]; rfl) (by rw [hp]; exact fun b hb => hb) hwaits ?_ ?_ (by rw [hp]; rfl)
  · intro q hq
    refine (h.locals q).frame (ho q hq) (List.prefix_append _ _) (List.Subset.refl _) ?_
    exact fun r k _ hformatted => ⟨hformatted.congr (fun _ _ => rfl) rfl, .inl⟩
  · intro k hk hdone
    have hk : k < (d.reqs ++ [r]).length := hk
    rw [List.length_append, List.length_singleton] at hk
    by_cases hlast : k = d.reqs.length
    · exact .inl (by rw [hlast]; rfl)
    · refine .inr ⟨by omega, hdone, ?_⟩
      rw [hp]
      exact (Option.some_ne_none k).symm

/-- `free_chain` goes to the next descriptor, or `virtio_disk_rw` returns. -/
theorem chainNext [DecidableEq B] (h : Inv loc d) {r : Req B} (hp : loc p = .chainNext r k i left)
    (me : Self) :
    Inv (update loc p ((code.body () (.chainNext r k i left) me d).view ()).2)
      ((code.body () (.chainNext r k i left) me d).data d) := by
  have hlocal := h.locals p
  rw [hp] at hlocal
  obtain ⟨hlinked, hdone⟩ := hlocal
  have hno : ∀ l' : Loc B, ∀ k, (loc p).waitsFor = some k → k ∈ d.done ∨ l'.waitsFor = some k := by
    rw [hp]
    intro l' k e
    cases e
  simp only [code]
  cases left with
  | nil =>
    rw [if_neg (by rw [hlinked]; exact Bool.false_ne_true)]
    exact h.goto (by rw [hp]; rfl) nofun hdone (hno _) (by rw [hp]; rfl)
  | cons j left =>
    rw [if_pos hlinked.1, hlinked.2.1]
    exact h.goto (by rw [hp]; rfl) (by rw [hp]; exact fun b hb => hb) ⟨hlinked.2.2, hdone⟩ (hno _) (by rw [hp]; rfl)

section

variable (h : Inv loc d) (ho : ∀ q, q ≠ p → (loc q).Rest)
include h ho

/-- The handler has found an entry, or it is done. -/
theorem intr [DecidableEq B] (hp : loc p = .intr) (me : Self) :
    Inv (update loc p ((code.body () .intr me d).view ()).2) ((code.body () .intr me d).data d) := by
  have hmid : ∑ q, (loc q).mid = 0 := by
    refine Finset.sum_eq_zero fun q _ => ?_
    by_cases hq : q = p
    · rw [hq, hp]
      rfl
    · exact (ho q hq).mid
  have hseen : d.handled.length = d.seen := by
    have := h.mid
    omega
  have hle := h.rings.handled_le
  have hway := h.on_their_way
  have hroom : d.posted.length < d.seen + NUM := by
    have := h.rings.posted_le
    have := h.rings.taken_le
    unfold NUM
    omega
  have hno : ∀ l' : Loc B, ∀ k, (loc p).waitsFor = some k → k ∈ d.done ∨ l'.waitsFor = some k := by
    rw [hp]
    intro l' k e
    cases e
  simp only [code]
  split
  next hne =>
    have hlt : d.seen < d.posted.length := by
      have := mt (h.rings.used_eq_iff (by omega) hroom).mpr hne
      omega
    obtain ⟨job, hjob, hhead⟩ := h.rings.elems_seen hlt
    refine h.goto (by rw [hp]; rfl) (by rw [hp]; exact fun b hb => hb) ⟨job, ?_, hhead.symm⟩ (hno _) (by rw [hp]; rfl)
    rw [hseen]
    exact hjob
  next => exact h.goto (by rw [hp]; rfl) (by rw [hp]; exact fun b hb => hb) trivial (hno _) (by rw [hp]; rfl)

/-- The handler finds the buffer of a request whose thread waits for it, and handles it. -/
theorem intrGot [DecidableEq B] {id : Nat} (hp : loc p = .intrGot id) (me : Self) :
    Inv (update loc p ((code.body () (.intrGot id) me d).view ()).2) ((code.body () (.intrGot id) me d).data d) := by
  have hlocal := h.locals p
  rw [hp] at hlocal
  obtain ⟨job, hjob, hhead⟩ := hlocal
  obtain ⟨r, hreq, hi0, -⟩ := h.rings.jobs job
    (List.mem_append_right _ (List.mem_of_getElem? hjob))
  obtain ⟨q, hq⟩ := h.waiters job.serial (List.getElem?_eq_some_iff.mp hreq).1 (h.rings.next_notMem_done hjob)
  obtain ⟨r', hr'⟩ := Loc.eq_wait hq
  have hwaits := h.locals q
  rw [hr'] at hwaits
  obtain rfl : r = r' := Option.some.inj (hreq.symm.trans hwaits.req)
  have hinfo : (d.info id).b = some r.b := by
    rw [← hhead, hi0]
    exact hwaits.formatted.info
  have hdone : ∀ {b : B}, job.serial ∈ (d.handle b id).done := by
    intro b
    show job.serial ∈ (d.posted.take (d.handled ++ [id]).length).map Job.serial
    rw [List.length_append, List.length_singleton, List.take_add_one, hjob, List.map_append]
    exact List.mem_append_right _ List.mem_cons_self
  have hmore : ∀ {b : B}, d.done ⊆ (d.handle b id).done := by
    intro b
    show d.done ⊆ (d.posted.take (d.handled ++ [id]).length).map Job.serial
    rw [List.length_append, List.length_singleton, List.take_add_one, List.map_append]
    exact List.subset_append_left _ _
  simp only [code]
  split
  next =>
    refine h.goto (by rw [hp]; rfl) nofun rfl ?_ (by rw [hp]; rfl)
    rw [hp]
    intro k e
    cases e
  next =>
    rw [hinfo]
    refine h.act ?_ (by rw [hp]; rfl) nofun ?_ ?_ ?_ ?_
    · rw [← hhead]
      exact h.rings.handle r.b hjob
    · show (d.info id).b ≠ none
      rw [hinfo]
      exact Option.some_ne_none _
    · intro q' hq'
      refine (h.locals q').frame (ho q' hq') (List.prefix_refl _) hmore ?_
      intro r' k hr'' hformatted
      refine ⟨hformatted.congr (fun _ _ => rfl) rfl, fun hdisk => ?_⟩
      by_cases hqq : q' = q
      · rw [hqq, hr'] at hr''
        cases hr''
        exact .inr hdone
      · refine .inl ?_
        have hne : r'.b ≠ r.b := by
          intro e
          exact h.bufs q' q r.b hqq (by rw [hr'', ← e]; rfl) (by rw [hr']; rfl)
        rw [← hdisk]
        exact (update_of_ne hne _ _).symm
    · rw [hp]
      exact fun k hk hnot => .inr ⟨hk, fun hk => hnot (hmore hk), (Option.some_ne_none k).symm⟩
    · rw [hp]
      show (d.handled ++ [id]).length + d.seen + 0 = d.handled.length + d.seen + 1
      rw [List.length_append, List.length_singleton]
      omega

theorem intrNext (hp : loc p = .intrNext) : Inv (update loc p .intr) d.advance := by
  refine h.act h.rings.advance (by rw [hp]; rfl) nofun trivial ?_ ?_ ?_
  · intro q hq
    refine (h.locals q).frame (ho q hq) (List.prefix_refl _) (List.Subset.refl _) ?_
    exact fun r k _ hformatted => ⟨hformatted.congr (fun _ _ => rfl) rfl, .inl⟩
  · rw [hp]
    exact fun k hk hdone => .inr ⟨hk, hdone, (Option.some_ne_none k).symm⟩
  · rw [hp]
    show d.handled.length + d.seen + 1 = d.handled.length + (d.seen + 1) + 0
    omega

/-- One step of the code under the lock. -/
theorem body [DecidableEq B] (hp : loc p = l) (me : Self) :
    Inv (update loc p ((code.body () l me d).view ()).2) ((code.body () l me d).data d) := by
  have hlocal := h.locals p
  rw [hp] at hlocal
  -- a step to `l'` that does nothing to the data
  have hgo : ∀ l' : Loc B, l'.holds = l.holds → (∀ b, l'.buf = some b → l.buf = some b) → Local d l' →
      (∀ k, l.waitsFor = some k → k ∈ d.done ∨ l'.waitsFor = some k) → l'.mid = l.mid → Inv (update loc p l') d := by
    intro l' hheld hbuf hlocal hwait hmid
    rw [← hp] at hheld hbuf hwait hmid
    exact h.goto hheld hbuf hlocal hwait hmid
  have hno : ∀ {l' : Loc B}, l.waitsFor = none → ∀ k, l.waitsFor = some k → k ∈ d.done ∨ l'.waitsFor = some k := by
    intro l' hl k e
    rw [hl] at e
    cases e
  cases l with
  | idle last => exact hgo _ rfl (fun _ hb => hb) hlocal (hno rfl) rfl
  | alloc x => exact h.alloc ho hp
  | undo x js =>
    cases js with
    | nil => exact hgo (.alloc x) rfl (fun _ hb => hb) trivial (hno rfl) rfl
    | cons j js => exact h.free ho (by rw [hp]; rfl) (by rw [hp]; rfl) trivial (by rw [hp]; rfl) (by rw [hp]; rfl)
  | undoWake x js => exact hgo (.undo x js) rfl (fun _ hb => hb) trivial (hno rfl) rfl
  | format r => exact h.format ho hp
  | avail r => exact h.avail ho hp
  | publish r => exact h.publish ho hp
  | wait r k =>
    simp only [code]
    split
    next => exact hgo (.wait r k) rfl (fun _ hb => hb) hlocal (fun _ hk => .inr hk) rfl
    next hdisk =>
      have hdone := hlocal.disk (by simpa using hdisk)
      refine hgo (.clear r k) rfl (fun _ hb => hb) ⟨hlocal.formatted.linked, hlocal.req, hdone⟩ ?_ rfl
      intro k' hk'
      cases hk'
      exact .inl hdone
  | clear r k => exact h.clear ho hp
  | chain r k i left =>
    exact h.free ho (by rw [hp]; rfl) (by rw [hp]; rfl) ⟨hlocal.1.release, hlocal.2⟩ (by rw [hp]; rfl) (by rw [hp]; rfl)
  | chainWake r k i left => exact hgo (.chainNext r k i left) rfl (fun _ hb => hb) hlocal (hno rfl) rfl
  | chainNext r k i left => exact h.chainNext hp me
  | intr => exact h.intr ho hp me
  | intrGot id => exact h.intrGot ho hp me
  | intrWake id =>
    simp only [code]
    split
    next hnone => exact absurd hnone hlocal
    next => exact hgo .intrNext rfl (fun _ hb => hb) trivial (hno rfl) rfl
  | intrNext => exact h.intrNext ho hp
  | panic f => exact hgo (.panic f) rfl (fun _ hb => hb) hlocal (hno rfl) rfl

end

end Inv

end Xv6.Virtio
