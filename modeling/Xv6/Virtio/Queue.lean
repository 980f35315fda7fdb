import Mathlib.Data.BitVec
import Xv6.Lib.Ring
import Xv6.Virtio.Code

/-!
# The rings

What the avail and the used ring show, as long as fewer than `NUM` requests are on their way: the
avail ring the first descriptors of the requests that the device has still to fetch, and the used
ring those of the requests that the interrupt handler has still to handle. Every request that the
device has fetched is in one of its three lists, once.
-/

namespace Xv6.Virtio

open List

variable {B : Type}

theorem num_dvd : NUM ∣ 2 ^ 16 := ⟨2 ^ 13, by decide⟩

/-- A count that is kept in 16 bits picks the same slot. -/
theorem slot_eq (n : Nat) : (BitVec.ofNat 16 n).toNat % NUM = n % NUM := by
  rw [BitVec.toNat_ofNat, Nat.mod_mod_of_dvd _ num_dvd]

theorem ofNat_succ (n : Nat) : BitVec.ofNat 16 n + 1 = BitVec.ofNat 16 (n + 1) := (BitVec.ofNat_add n 1).symm

namespace Queue

variable (q : Queue B)

/-- All the requests that the device has fetched. -/
def jobs : List (Job B) := q.fetched ++ q.finished ++ q.posted

/-- The serial numbers of the requests that have been handled. -/
def done : List Nat := (q.posted.take q.handled.length).map Job.serial

end Queue

/-- What the counters and rings are, by what has happened. -/
structure Rings (q : Queue B) : Prop where
  avail : q.avail = BitVec.ofNat 16 q.reqs.length
  last : q.last = BitVec.ofNat 16 q.taken
  id : q.id = BitVec.ofNat 16 q.posted.length
  used_idx : q.used_idx = BitVec.ofNat 16 (q.seen % NUM)
  taken_le : q.taken ≤ q.reqs.length
  serials : (q.jobs.map Job.serial).Perm (range q.taken)
  jobs : ∀ job ∈ q.jobs, ∃ r, q.reqs[job.serial]? = some r ∧ job.head = r.i0 ∧ job.cmd = some r.cmd
  ring : Shown NUM q.ring (q.reqs.map Req.i0) q.taken
  elems : Shown NUM q.elems (q.posted.map Job.head) q.seen
  handled : q.handled <+: q.posted.map Job.head

namespace Rings

variable {q : Queue B}

section

variable (h : Rings q)
include h

theorem handled_le : q.handled.length ≤ q.posted.length := by
  have := h.handled.length_le
  rwa [length_map] at this

theorem posted_le : q.posted.length ≤ q.taken := by
  have := h.serials.length_eq
  simp only [Queue.jobs, length_map, length_append, length_range] at this
  omega

/-- No request is posted twice. -/
theorem posted_nodup : (q.posted.map Job.serial).Nodup := by
  have hn := h.serials.nodup_iff.mpr nodup_range
  unfold Queue.jobs at hn
  rw [map_append] at hn
  exact (nodup_append.mp hn).2.1

theorem used_slot : q.used_idx.toNat % NUM = q.seen % NUM := by
  rw [h.used_idx, slot_eq, Nat.mod_mod]

/-- The handler looks at an entry without reducing its index. -/
theorem used_idx_toNat : q.used_idx.toNat = q.seen % NUM := by
  have hlt : q.seen % NUM < NUM := Nat.mod_lt _ (by decide)
  have hnum : NUM < 2 ^ 16 := by decide
  rw [h.used_idx, BitVec.toNat_ofNat, Nat.mod_eq_of_lt (by omega)]

/-- The handler's test is exact. -/
theorem used_eq_iff (hle : q.seen ≤ q.posted.length) (hlt : q.posted.length < q.seen + NUM) :
    q.used_idx.toNat % NUM = q.id.toNat % NUM ↔ q.seen = q.posted.length := by
  rw [h.used_slot, h.id, slot_eq]
  constructor
  · exact eq_of_mod_eq hle hlt
  · intro e
    rw [e]

/-- The entry that the handler reads next. -/
theorem elems_seen (hlt : q.seen < q.posted.length) :
    ∃ job, q.posted[q.seen]? = some job ∧ q.elems q.used_idx.toNat = job.head := by
  have hshown := h.elems q.seen le_rfl (by rwa [length_map])
  rw [getElem?_map, ← h.used_idx_toNat] at hshown
  obtain ⟨job, hjob, hhead⟩ := Option.map_eq_some_iff.mp hshown
  exact ⟨job, hjob, hhead.symm⟩

/-- A request that the device has not fetched is not handled. -/
theorem notMem_done {k : Nat} (hk : q.taken ≤ k) : k ∉ q.done := by
  intro hmem
  have hjobs : k ∈ q.jobs.map Job.serial := by
    unfold Queue.done at hmem
    unfold Queue.jobs
    rw [map_append]
    exact mem_append_right _ (map_subset _ (take_subset _ _) hmem)
  have := mem_range.mp (h.serials.mem_iff.mp hjobs)
  omega

end

variable {job : Job B} {n : Nat}

/-- The next posted request is not handled. -/
theorem next_notMem_done (h : Rings q) (hjob : q.posted[q.handled.length]? = some job) :
    job.serial ∉ q.done := by
  have hn := h.posted_nodup
  have hlt : q.handled.length < (q.posted.map Job.serial).length := by
    rw [length_map]
    exact (List.getElem?_eq_some_iff.mp hjob).1
  have hsplit : q.posted.map Job.serial = q.done ++ job.serial :: (q.posted.drop (q.handled.length + 1)).map Job.serial := by
    unfold Queue.done
    obtain ⟨hlt', hget⟩ := List.getElem?_eq_some_iff.mp hjob
    rw [← map_cons, ← map_append, ← hget, ← drop_eq_getElem_cons hlt', take_append_drop]
  rw [hsplit] at hn
  exact fun hmem => (nodup_append.mp hn).2.2 _ hmem _ mem_cons_self rfl

/-! ## The driver -/

variable {d : Disk B}

theorem setRing (h : Rings d.toQueue) (r : Req B) (hroom : d.reqs.length < d.taken + NUM) :
    Rings (d.setRing r).toQueue where
  avail := h.avail
  last := h.last
  id := h.id
  used_idx := h.used_idx
  taken_le := h.taken_le
  serials := h.serials
  jobs := h.jobs
  ring := by
    have hshown := h.ring.write (by rwa [length_map]) r.i0
    rw [length_map, ← slot_eq, ← h.avail] at hshown
    exact hshown
  elems := h.elems
  handled := h.handled

theorem publish (h : Rings d.toQueue) {r : Req B} (hring : d.ring (d.reqs.length % NUM) = r.i0) :
    Rings (d.publish r).toQueue where
  avail := by
    show d.avail + 1 = BitVec.ofNat 16 (d.reqs ++ [r]).length
    rw [h.avail, ofNat_succ, length_append]
    rfl
  last := h.last
  id := h.id
  used_idx := h.used_idx
  taken_le := by
    show d.taken ≤ (d.reqs ++ [r]).length
    rw [length_append]
    exact h.taken_le.trans (Nat.le_add_right _ _)
  serials := h.serials
  jobs := by
    intro job hjob
    obtain ⟨r', hr', hrest⟩ := h.jobs job hjob
    refine ⟨r', ?_, hrest⟩
    show (d.reqs ++ [r])[job.serial]? = some r'
    rw [getElem?_append_left (List.getElem?_eq_some_iff.mp hr').1, hr']
  ring := by
    show Shown NUM d.ring ((d.reqs ++ [r]).map Req.i0) d.taken
    rw [map_append]
    apply h.ring.snoc
    rw [length_map, hring]
  elems := h.elems
  handled := h.handled

theorem handle [DecidableEq B] (h : Rings d.toQueue) (b : B)
    (hjob : d.posted[d.handled.length]? = some job) :
    Rings (d.handle b job.head).toQueue where
  avail := h.avail
  last := h.last
  id := h.id
  used_idx := h.used_idx
  taken_le := h.taken_le
  serials := h.serials
  jobs := h.jobs
  ring := h.ring
  elems := h.elems
  handled := by
    show d.handled ++ [job.head] <+: d.posted.map Job.head
    obtain ⟨rest, hrest⟩ := h.handled
    have hget : (d.posted.map Job.head)[d.handled.length]? = some job.head := by rw [getElem?_map, hjob]; rfl
    rw [← hrest, getElem?_append_right le_rfl, Nat.sub_self] at hget
    cases rest with
    | nil => cases hget
    | cons x rest =>
      rw [Option.some.inj hget] at hrest
      exact ⟨rest, by rw [← hrest, append_assoc, singleton_append]⟩

theorem advance (h : Rings d.toQueue) : Rings d.advance.toQueue where
  avail := h.avail
  last := h.last
  id := h.id
  used_idx := by
    show BitVec.ofNat 16 ((d.used_idx.toNat + 1) % NUM) = BitVec.ofNat 16 ((d.seen + 1) % NUM)
    rw [Nat.add_mod, h.used_slot, ← Nat.add_mod]
  taken_le := h.taken_le
  serials := h.serials
  jobs := h.jobs
  ring := h.ring
  elems := h.elems.mono (Nat.le_succ _)
  handled := h.handled

/-! ## The device -/

theorem fetch [DecidableEq B] (h : Rings d.toQueue) {r : Req B} (hr : d.reqs[d.taken]? = some r)
    (hchain : d.readChain r.i0 = some r.cmd) : Rings d.fetch.toQueue := by
  have hlt : d.taken < d.reqs.length := (List.getElem?_eq_some_iff.mp hr).1
  have hhead : d.ring (d.last.toNat % NUM) = r.i0 := by
    have hshown := h.ring d.taken le_rfl (by rwa [length_map])
    rw [getElem?_map, hr] at hshown
    rw [h.last, slot_eq]
    exact (Option.some.inj hshown).symm
  have hperm : d.fetch.jobs.Perm ({ serial := d.taken, head := r.i0, cmd := some r.cmd } :: d.jobs) := by
    unfold Queue.jobs Disk.fetch
    simp only [hhead, hchain, append_assoc]
    exact perm_middle
  exact {
    avail := h.avail
    last := by
      show d.last + 1 = BitVec.ofNat 16 (d.taken + 1)
      rw [h.last, ofNat_succ]
    id := h.id
    used_idx := h.used_idx
    taken_le := hlt
    serials := by
      show (d.fetch.jobs.map Job.serial).Perm (range (d.taken + 1))
      rw [range_succ]
      refine (hperm.map Job.serial).trans ?_
      rw [map_cons]
      exact (h.serials.cons d.taken).trans (perm_append_singleton d.taken _).symm
    jobs := by
      intro job hjob
      rcases mem_cons.mp (hperm.mem_iff.mp hjob) with rfl | hjob
      · exact ⟨r, hr, rfl, rfl⟩
      · exact h.jobs job hjob
    ring := h.ring.mono (Nat.le_succ _)
    elems := h.elems
    handled := h.handled }

/-- A list from which an element is moved to the end of the next. -/
theorem perm_eraseIdx_append {α : Type} {xs ys : List α} {x : α} (hx : xs[n]? = some x) :
    (xs.eraseIdx n ++ (ys ++ [x])).Perm (xs ++ ys) := by
  obtain ⟨hlt, rfl⟩ := List.getElem?_eq_some_iff.mp hx
  rw [← append_assoc]
  refine (perm_append_singleton _ _).trans ?_
  rw [← cons_append]
  exact (getElem_cons_eraseIdx_perm hlt).append_right ys

theorem finish [DecidableEq B] (h : Rings d.toQueue) (hjob : d.fetched[n]? = some job)
    (status : Byte) : Rings (d.finish n job status).toQueue := by
  have hperm : (d.finish n job status).jobs.Perm d.jobs := (perm_eraseIdx_append hjob).append_right d.posted
  exact {
    avail := h.avail
    last := h.last
    id := h.id
    used_idx := h.used_idx
    taken_le := h.taken_le
    serials := (hperm.map Job.serial).trans h.serials
    jobs := fun j hj => h.jobs j (hperm.mem_iff.mp hj)
    ring := h.ring
    elems := h.elems
    handled := h.handled }

theorem post [DecidableEq B] (h : Rings d.toQueue) (hjob : d.finished[n]? = some job)
    (hroom : d.posted.length < d.seen + NUM) : Rings (d.post n job).toQueue := by
  have hperm : (d.post n job).jobs.Perm d.jobs := by
    unfold Queue.jobs
    rw [append_assoc, append_assoc]
    exact (perm_eraseIdx_append hjob).append_left d.fetched
  exact {
    avail := h.avail
    last := h.last
    id := by
      show d.id + 1 = BitVec.ofNat 16 (d.posted ++ [job]).length
      rw [h.id, ofNat_succ, length_append]
      rfl
    used_idx := h.used_idx
    taken_le := h.taken_le
    serials := (hperm.map Job.serial).trans h.serials
    jobs := fun j hj => h.jobs j (hperm.mem_iff.mp hj)
    ring := h.ring
    elems := by
      show Shown NUM (Function.update d.elems (d.id.toNat % NUM) job.head) ((d.posted ++ [job]).map Job.head) d.seen
      have hwritten := h.elems.write (by rwa [length_map]) job.head
      rw [length_map, ← slot_eq, ← h.id] at hwritten
      rw [map_append]
      apply hwritten.snoc
      rw [length_map, h.id, slot_eq, Function.update_self]
    handled := by
      show d.handled <+: (d.posted ++ [job]).map Job.head
      rw [map_append]
      exact h.handled.trans (prefix_append _ _) }

end Rings

theorem Rings.init : Rings (Disk.init (B := B)).toQueue where
  avail := rfl
  last := rfl
  id := rfl
  used_idx := rfl
  taken_le := le_rfl
  serials := .nil
  jobs := fun _ hjob => absurd hjob not_mem_nil
  ring := fun _ _ hk => absurd hk (Nat.not_lt_zero _)
  elems := fun _ _ hk => absurd hk (Nat.not_lt_zero _)
  handled := nil_prefix

end Xv6.Virtio
