import Xv6.Sleep.Pipe
import Xv6.Vm.Copy

/-!
# `piperead` and the memory of its caller

`piperead` advances `nread` before it knows whether the byte has reached the caller: when `copyout`
fails, that byte has left the pipe and has been copied nowhere. `readLoop_eq` says how many bytes
are delivered and how many are removed, for any address space.
-/

namespace Xv6.Kernel

open Prog Radix Vm

open Sleep (PIPESIZE)

/-- What `piperead` reads and writes: the pipe, the memory with the caller's page table in it, and
`pr->killed`. -/
structure Reader where
  ring : Ring 32 UInt8
  writeopen : Bool
  mem : Mem
  killed : Bool

namespace Reader

def setRing (w : Reader) (ring : Ring 32 UInt8) : Reader := { w with ring := ring }

def setMem (w : Reader) (m : Mem) : Reader := { w with mem := m }

@[simp] theorem setRing_ring (w : Reader) (ring : Ring 32 UInt8) : (w.setRing ring).ring = ring := rfl

@[simp] theorem setRing_mem (w : Reader) (ring : Ring 32 UInt8) : (w.setRing ring).mem = w.mem := rfl

@[simp] theorem setMem_mem (w : Reader) (m : Mem) : (w.setMem m).mem = m := rfl

@[simp] theorem setMem_ring (w : Reader) (m : Mem) : (w.setMem m).ring = w.ring := rfl

end Reader

/-- The `for` loop of `piperead`, with `k` turns left. -/
def readLoop (pagetable addr : Nat) : Nat → Nat → Prog Reader Panic Int
  | 0, i => return i
  | k + 1, i => do
    let ring ← read Reader.ring
    if ring.nread = ring.nwrite then return i
    else
      change fun w => w.setRing ring.pop
      let r ← zoom Reader.mem (fun m w => w.setMem m) (copyout pagetable ((addr + i) % 2 ^ 64) [ring.front PIPESIZE])
      if r = -1 then return i else readLoop pagetable addr k (i + 1)

/-- `piperead`. Each time it sleeps, it finds the next of the states `env` when it is woken; with
none left it is asleep. -/
def piperead (pagetable addr : Nat) (n : Int) : List Reader → Reader → Option (Res Reader Panic Int)
  | env, w =>
    if w.ring.nread = w.ring.nwrite ∧ w.writeopen = true then
      if w.killed = true then some (.ok (-1) w)
      else
        match env with
        | [] => none
        | w' :: env => piperead pagetable addr n env w'
    else some (readLoop pagetable addr n.toNat 0 w)

variable {m : Mem} {root va pagetable addr : Nat}

/-- `copyout` of one byte. -/
theorem copyout_one (h : Clear m root) (ch : UInt8) : copyout root va [ch] m =
    if (userAddr m root va).isSome then .ok 0 (m.putByte (place m root va) ch) else .ok (-1) m := by
  have heq : copyout root va [ch] m = _ := copyoutLoop_eq le_rfl h
  rw [heq]
  have hone : accessible m root va [ch].length = if (userAddr m root va).isSome then 1 else 0 := rfl
  rw [hone]
  split
  next => rfl
  next => rfl

/-- How many bytes of the pipe reach the caller in at most `k` turns. -/
def delivered (w : Reader) (pagetable va k : Nat) : Nat := accessible w.mem pagetable va (min k w.ring.count)

/-- A turn of the loop. -/
theorem readLoop_succ (k i : Nat) {w : Reader} (h : Clear w.mem pagetable) : readLoop pagetable addr (k + 1) i w =
    if w.ring.nread = w.ring.nwrite then .ok i w
    else if (userAddr w.mem pagetable ((addr + i) % 2 ^ 64)).isSome then
      readLoop pagetable addr k (i + 1) ((w.setRing w.ring.pop).setMem
        (w.mem.putByte (place w.mem pagetable ((addr + i) % 2 ^ 64)) (w.ring.front PIPESIZE)))
    else .ok i (w.setRing w.ring.pop) := by
  rw [readLoop, bind_of_ok (show read Reader.ring w = .ok w.ring w from rfl)]
  split
  next => rfl
  next =>
    rw [bind_of_ok (show change (fun w' => w'.setRing w.ring.pop) w = .ok () (w.setRing w.ring.pop) from rfl)]
    split
    next hsome =>
      have hcopy : zoom Reader.mem (fun m w => w.setMem m) (copyout pagetable ((addr + i) % 2 ^ 64) [w.ring.front PIPESIZE])
          (w.setRing w.ring.pop) = .ok 0 ((w.setRing w.ring.pop).setMem
            (w.mem.putByte (place w.mem pagetable ((addr + i) % 2 ^ 64)) (w.ring.front PIPESIZE))) := by
        unfold zoom
        rw [Reader.setRing_mem, copyout_one h, if_pos hsome]
      rw [bind_of_ok hcopy, if_neg (by decide)]
    next hnone =>
      have hcopy : zoom Reader.mem (fun m w => w.setMem m) (copyout pagetable ((addr + i) % 2 ^ 64) [w.ring.front PIPESIZE])
          (w.setRing w.ring.pop) = .ok (-1) (w.setRing w.ring.pop) := by
        unfold zoom
        rw [Reader.setRing_mem, copyout_one h, if_neg hnone]
        rfl
      rw [bind_of_ok hcopy, if_pos rfl]
      rfl

theorem delivered_succ {w : Reader} {k : Nat} (hne : w.ring.count ≠ 0) : delivered w pagetable va (k + 1) =
    if (userAddr w.mem pagetable va).isSome then accessible w.mem pagetable (va + 1) (min k w.ring.pop.count) + 1 else 0 := by
  have hpop := Ring.count_pop hne
  unfold delivered
  rw [show min (k + 1) w.ring.count = min k w.ring.pop.count + 1 by omega]
  rfl

theorem dvd_PIPESIZE : PIPESIZE ∣ 2 ^ 32 := ⟨2 ^ 23, rfl⟩

/-- What the loop delivers to the caller and what it removes from the pipe. -/
theorem readLoop_eq {k i : Nat} {w : Reader} (h : Clear w.mem pagetable) (hva : addr + i < 2 ^ 64) :
    readLoop pagetable addr k i w = .ok ((i + delivered w pagetable (addr + i) k : Nat) : Int)
      ((w.setRing (w.ring.discard (delivered w pagetable (addr + i) k +
          if delivered w pagetable (addr + i) k < min k w.ring.count then 1 else 0))).setMem
        (Paged.scatter Mem.putByte (place w.mem pagetable) w.mem (addr + i)
          ((w.ring.contents PIPESIZE).take (delivered w pagetable (addr + i) k)))) := by
  induction k generalizing i w with
  | zero =>
    have hzero : delivered w pagetable (addr + i) 0 = 0 := by
      unfold delivered
      rw [Nat.zero_min]
      rfl
    rw [hzero, Nat.zero_min, if_neg (lt_irrefl 0), Ring.discard_zero]
    rfl
  | succ k ih =>
    rw [readLoop_succ k i h, Nat.mod_eq_of_lt hva]
    by_cases hempty : w.ring.nread = w.ring.nwrite
    · have hcount : w.ring.count = 0 := by
        unfold Ring.count
        rw [hempty, BitVec.sub_self]
        rfl
      have hzero : delivered w pagetable (addr + i) (k + 1) = 0 := by
        unfold delivered
        rw [hcount]
        rfl
      rw [if_pos hempty, hzero, hcount, Nat.min_zero, if_neg (lt_irrefl 0), Ring.discard_zero]
      rfl
    · have hne := Ring.count_ne_zero hempty
      have hpop := Ring.count_pop hne
      rw [if_neg hempty, delivered_succ hne]
      by_cases hsome : (userAddr w.mem pagetable (addr + i)).isSome
      · rw [if_pos hsome, if_pos hsome]
        have hsame : SameOn (sv39.tables w.mem.word 2 pagetable) w.mem.word
            (w.mem.putByte (place w.mem pagetable (addr + i)) (w.ring.front PIPESIZE)).word := by
          have hbyte : [w.ring.front PIPESIZE].length ≤ accessible w.mem pagetable (addr + i) 1 := by
            show 1 ≤ if (userAddr w.mem pagetable (addr + i)).isSome then _ else _
            rw [if_pos hsome]
            exact Nat.le_refl 1
          exact h.scatter hbyte
        have hlt : addr + i < MAXVA := userAddr_lt hsome
        rw [MAXVA_eq] at hlt
        rw [ih (h.congr hsame) (by omega)]
        have hdel : delivered ((w.setRing w.ring.pop).setMem (w.mem.putByte (place w.mem pagetable (addr + i)) (w.ring.front PIPESIZE)))
            pagetable (addr + (i + 1)) k = accessible w.mem pagetable (addr + i + 1)
              (min k w.ring.pop.count) := accessible_congr hsame ..
        rw [hdel, Ring.contents_pop dvd_PIPESIZE hne, List.take_succ_cons]
        generalize accessible w.mem pagetable (addr + i + 1) (min k w.ring.pop.count) = a
        simp only [Reader.setMem_ring, Reader.setRing_ring, Reader.setMem_mem]
        rw [place_congr hsame, Ring.discard_pop, show min (k + 1) w.ring.count = min k w.ring.pop.count + 1 by omega]
        simp only [Nat.add_lt_add_iff_right]
        rw [add_right_comm a _ 1]
        congr 1
        omega
      · rw [if_neg hsome, if_neg hsome, if_pos (by omega)]
        have hone : w.ring.discard (0 + 1) = w.ring.pop := by
          rw [← Ring.discard_pop, Ring.discard_zero]
        rw [hone]
        rfl

/-- A read that returns has been killed, or it has done its loop from one of the states in which it
was awake. -/
theorem piperead_cases (n : Int) (env : List Reader) (w : Reader) {res : Res Reader Panic Int}
    (h : piperead pagetable addr n env w = some res) :
    ∃ v ∈ w :: env, v.killed = true ∧ res = .ok (-1) v ∨ res = readLoop pagetable addr n.toNat 0 v := by
  induction env generalizing w with
  | nil =>
    unfold piperead at h
    split at h
    next =>
      split at h
      next hkilled =>
        cases h
        exact ⟨w, List.mem_cons_self, .inl ⟨hkilled, rfl⟩⟩
      next => cases h
    next =>
      cases h
      exact ⟨w, List.mem_cons_self, .inr rfl⟩
  | cons w' env ih =>
    unfold piperead at h
    split at h
    next =>
      split at h
      next hkilled =>
        cases h
        exact ⟨w, List.mem_cons_self, .inl ⟨hkilled, rfl⟩⟩
      next =>
        obtain ⟨v, hv, hres⟩ := ih w' h
        exact ⟨v, List.mem_cons_of_mem w hv, hres⟩
    next =>
      cases h
      exact ⟨w, List.mem_cons_self, .inr rfl⟩

/-- From `v` to `v'`, the first `r` bytes of the pipe have moved to the caller's memory. -/
structure Delivered (pagetable addr : Nat) (v v' : Reader) (r : Nat) : Prop where
  enough : r ≤ v.ring.count
  removed : v'.ring.contents PIPESIZE = (v.ring.contents PIPESIZE).drop r
  copied : v'.mem = Paged.scatter Mem.putByte (place v.mem pagetable) v.mem addr ((v.ring.contents PIPESIZE).take r)
  -- where no two of the addresses are aliases, the bytes read back
  seen : (∀ i j, i < j → j < r → place v.mem pagetable (addr + i) ≠ place v.mem pagetable (addr + j)) →
    userBytes v'.mem pagetable addr r = (v.ring.contents PIPESIZE).take r

/-- The loop removes what it delivers if and only if the destination is mapped, as far as the pipe
has bytes for it. Otherwise one more byte is gone. -/
theorem readLoop_delivers {v : Reader} {n : Nat} (h : Clear v.mem pagetable) (haddr : addr < 2 ^ 64) :
    ∃ (r : Nat) (v' : Reader), readLoop pagetable addr n 0 v = .ok r v' ∧
      (Delivered pagetable addr v v' r ↔ AllAccessible v.mem pagetable addr (min n v.ring.count)) := by
  have hcount : delivered v pagetable addr n ≤ min n v.ring.count := Paged.reach_le ..
  have hall : delivered v pagetable addr n = min n v.ring.count ↔ AllAccessible v.mem pagetable addr
    (min n v.ring.count) := accessible_eq_iff
  rw [readLoop_eq h haddr, add_zero, zero_add, ← hall]
  generalize delivered v pagetable addr n = r at hcount hall ⊢
  refine ⟨r, _, rfl, fun hdelivered => ?_, fun heq => ?_⟩
  · have hlen := congrArg List.length hdelivered.removed
    by_contra hne
    rw [if_pos (by omega)] at hlen
    simp only [Reader.setMem_ring, Reader.setRing_ring] at hlen
    rw [Ring.contents_discard dvd_PIPESIZE (by omega), List.length_drop, List.length_drop, Ring.length_contents] at hlen
    omega
  · have hle : r ≤ v.ring.count := by omega
    have hacc : r ≤ accessible v.mem pagetable addr r := by
      have hdst := hall.mp heq
      rw [← heq] at hdst
      rw [accessible_eq_iff.mpr hdst]
    rw [if_neg (by omega), add_zero]
    refine ⟨hle, Ring.contents_discard dvd_PIPESIZE hle, rfl, fun hplace => ?_⟩
    apply h.userBytes_scatter _ hacc hplace
    rw [List.length_take, Ring.length_contents, Nat.min_eq_left hle]

/-- A read that returns has been killed, or its loop has started in one of the states in which it
was awake. Then it has removed what it has delivered if and only if the destination was mapped
there, as far as the pipe had bytes for it: for every state of the pipe, every `n` and whatever
happens while it sleeps. -/
theorem piperead_delivers (pagetable addr : Nat) (n : Int) (env : List Reader) (w : Reader) (haddr : addr < 2 ^ 64)
    (hclear : ∀ v ∈ w :: env, Clear v.mem pagetable) {res : Res Reader Panic Int} (h : piperead pagetable addr n env w = some res) :
    ∃ v ∈ w :: env, v.killed = true ∧ res = .ok (-1) v ∨ res = readLoop pagetable addr n.toNat 0 v ∧
      ∃ (r : Nat) (v' : Reader), res = .ok r v' ∧
      (Delivered pagetable addr v v' r ↔ AllAccessible v.mem pagetable addr (min n.toNat v.ring.count)) := by
  obtain ⟨v, hv, hkilled | rfl⟩ := piperead_cases n env w h
  · exact ⟨v, hv, .inl hkilled⟩
  · exact ⟨v, hv, .inr ⟨rfl, readLoop_delivers (hclear v hv) haddr⟩⟩

/-- A pipe with one byte, and a reader with one page. -/
def oneByte : Reader where
  ring := ⟨fun _ => 7, 0, 1⟩
  writeopen := true
  mem := onePage
  killed := false

theorem piperead_delivers_oneByte : ∃ (r : Nat) (v' : Reader), piperead (1 * PGSIZE) 4093 2 [] oneByte = some (.ok r v') ∧
    Delivered (1 * PGSIZE) 4093 oneByte v' r := by
  have hfirst : userFrame onePage (1 * PGSIZE) 0 = some (4 * PGSIZE) := by decide
  have hall : AllAccessible onePage (1 * PGSIZE) 4093 1 := accessible_eq_iff.mp (Paged.reach_page hfirst (by decide))
  have hread : piperead (1 * PGSIZE) 4093 2 [] oneByte = some (readLoop (1 * PGSIZE) 4093 2 0 oneByte) := rfl
  obtain ⟨v, hv, ⟨hkilled, -⟩ | ⟨-, r, v', hr, hiff⟩⟩ := piperead_delivers (1 * PGSIZE) 4093 2 [] oneByte (by decide)
    (fun v hv => List.mem_singleton.mp hv ▸ (onePage_apart 5 (.inl rfl)).toClear) hread
  · rw [List.mem_singleton.mp hv] at hkilled
    cases hkilled
  · obtain rfl := List.mem_singleton.mp hv
    exact ⟨r, v', hread.trans (congrArg some hr), hiff.mpr hall⟩

/-- A read to an address that is not mapped delivers nothing, and the byte is gone. -/
theorem piperead_loses_byte : ∃ v', piperead (1 * PGSIZE) PGSIZE 1 [] oneByte = some (.ok 0 v') ∧
    oneByte.ring.contents PIPESIZE = [7] ∧ v'.ring.contents PIPESIZE = [] := by
  have hsecond : userAddr onePage (1 * PGSIZE) PGSIZE = none := by decide
  refine ⟨oneByte.setRing oneByte.ring.pop, ?_, by decide, by decide⟩
  have hloop : readLoop (1 * PGSIZE) PGSIZE 1 0 oneByte = _ := readLoop_succ 0 0 (onePage_apart 5 (.inl rfl)).toClear
  rw [if_neg (by decide), if_neg] at hloop
  · exact congrArg some hloop
  · show ¬ (userAddr onePage (1 * PGSIZE) PGSIZE).isSome
    rw [hsecond]
    decide

end Xv6.Kernel
