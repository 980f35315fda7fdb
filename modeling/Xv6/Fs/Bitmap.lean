import Mathlib.Order.Bounds.Basic
import Xv6.Fs.Image

/-!
# The block allocator

`balloc` and `bfree` as the source has them: `balloc` goes through the bitmap by two loops, whose
counters it takes apart into a bitmap block, a byte and a bit, and `bfree` takes a block number
apart. The two are shown to speak of the same bit, for every size below `2 ^ 31 - BPB`, and so the
allocator is a set of block numbers.

It is so as long as the blocks of the bitmap itself are marked: `balloc` zeroes the block that it
hands out, and `balloc_zeroes_bitmap` is a bitmap of which it hands out its own block.
-/

namespace Xv6.Fs

open Prog Function

/-- What the allocator reads of `sb`. -/
structure Bitmap where
  size : BitVec 32
  bmapstart : BitVec 32

namespace Bitmap

variable (m : Bitmap)

/-- `BBLOCK(b, sb)` -/
def bblock (b : Nat) : Nat := (b / BPB + m.bmapstart.toNat) % 2 ^ 32

/-- `balloc`'s inner loop: `bi` of the first free block that this bitmap block has from `bi` on. -/
def scan (bp : Block) (b : Nat) : Nat → Nat → Option Nat
  | 0, _ => none
  | fuel + 1, bi =>
    if bi < BPB ∧ (b + bi) % 2 ^ 32 < m.size.toNat then
      if bp (bi / 8) &&& 1#8 <<< (bi % 8) = 0 then some bi else scan bp b fuel (bi + 1)
    else none

variable {P : Type}

/-- `balloc`'s outer loop. -/
def ballocLoop : Nat → Nat → Kern P Nat
  | 0, _ => stop .balloc
  | fuel + 1, b => do
    if b < m.size.toNat then
      let bp ← bread (m.bblock b)
      match m.scan bp b BPB 0 with
      | some bi =>
        logWrite (m.bblock b) (update bp (bi / 8) (bp (bi / 8) ||| 1#8 <<< (bi % 8)))
        bzero ((b + bi) % 2 ^ 32)
        return (b + bi) % 2 ^ 32
      | none => ballocLoop fuel ((b + BPB) % 2 ^ 32)
    else stop .balloc

/-- Allocate a zeroed disk block. -/
def balloc : Kern P Nat := m.ballocLoop (m.size.toNat / BPB + 1) 0

/-- Free a disk block. -/
def bfree (b : Nat) : Kern P Unit := do
  let bp ← bread (m.bblock b)
  if bp (b % BPB / 8) &&& 1#8 <<< (b % BPB % 8) = 0 then stop .bfree
  else logWrite (m.bblock b) (update bp (b % BPB / 8) (bp (b % BPB / 8) &&& ~~~(1#8 <<< (b % BPB % 8))))

/-- The bit of block `b`. -/
def marked (d : Disk) (b : Nat) : Bool := (d (m.bblock b)).bit (b % BPB)

/-! ## Bits -/

theorem and_bit_eq_zero (x : Byte) {k : Nat} (hk : k < 8) : x &&& 1#8 <<< k = 0 ↔ x.getLsbD k = false := by
  constructor
  · intro h
    have hbit := congrArg (fun y : Byte => y.getLsbD k) h
    simpa [Sector.getLsbD_one_shiftLeft hk] using hbit
  · intro h
    apply BitVec.eq_of_getLsbD_eq
    intro i hi
    rw [BitVec.getLsbD_and, Sector.getLsbD_one_shiftLeft hi]
    by_cases hik : i = k
    · rw [hik, h]
      simp
    · simp [hik]

theorem test_bit (bp : Block) (n : Nat) : bp (n / 8) &&& 1#8 <<< (n % 8) = 0 ↔ bp.bit n = false :=
  and_bit_eq_zero _ (Nat.mod_lt n (by decide))

theorem bpb_pos : 0 < BPB := by decide

variable {m} {a b c fuel j : Nat} {d : Disk} {s s' : State P}

/-- Two blocks with the same bit are the same. -/
theorem bblock_inj (ha : a < 2 ^ 31) (hb : b < 2 ^ 31) (h : m.bblock a = m.bblock b) :
    a / BPB = b / BPB := by
  have ha' : a / BPB ≤ a := Nat.div_le_self a BPB
  have hb' : b / BPB ≤ b := Nat.div_le_self b BPB
  have hstart := m.bmapstart.isLt
  unfold bblock at h
  generalize a / BPB = x at *
  generalize b / BPB = y at *
  omega

/-- A bitmap block that is changed at one bit. -/
theorem marked_update {x : Block} {v : Bool}
    (hx : x.bit = update (d (m.bblock b)).bit (b % BPB) v) (hb : b < 2 ^ 31)
    (ha : a < 2 ^ 31) :
    m.marked (update d (m.bblock b) x) a = if a = b then v else m.marked d a := by
  unfold marked
  by_cases hblock : m.bblock a = m.bblock b
  · rw [hblock, update_self, hx]
    have hdiv := bblock_inj ha hb hblock
    by_cases hab : a = b
    · rw [if_pos hab, hab, update_self]
    · have hmod : a % BPB ≠ b % BPB := by
        intro e
        apply hab
        rw [← Nat.div_add_mod a BPB, ← Nat.div_add_mod b BPB, hdiv, e]
      rw [if_neg hab, update_of_ne hmod]
  · rw [update_of_ne hblock, if_neg]
    intro e
    exact hblock (by rw [e])

/-! ## The loops -/

/-- What `scan` finds is the first free block that it comes to. -/
theorem scan_some {bp : Block} {bi bi' : Nat} (hb : b + BPB ≤ 2 ^ 31)
    (h : m.scan bp b fuel bi = some bi') :
    bi' < BPB ∧ b + bi' < m.size.toNat ∧ bp.bit bi' = false ∧ ∀ j, bi ≤ j → j < bi' → bp.bit j = true := by
  induction fuel generalizing bi with
  | zero => cases h
  | succ fuel ih =>
    unfold scan at h
    split at h
    next hin =>
      split at h
      next hfree =>
        obtain rfl := Option.some.inj h
        have hlt : (b + bi) % 2 ^ 32 = b + bi := Nat.mod_eq_of_lt (by omega)
        rw [hlt] at hin
        exact ⟨hin.1, hin.2, (test_bit bp bi).mp hfree, fun j hj hj' => by omega⟩
      next hused =>
        obtain ⟨hlt, hsize, hfree, hbefore⟩ := ih h
        refine ⟨hlt, hsize, hfree, fun j hj hj' => ?_⟩
        by_cases hjb : j = bi
        · rw [hjb]
          simpa using mt (test_bit bp bi).mpr hused
        · exact hbefore j (by omega) hj'
    next => cases h

theorem scan_none {bp : Block} {bi : Nat} (hfuel : BPB ≤ bi + fuel)
    (h : m.scan bp b fuel bi = none) (hj : bi ≤ j) (hlt : j < BPB) (hsize : b + j < m.size.toNat) :
    bp.bit j = true := by
  induction fuel generalizing bi with
  | zero => omega
  | succ fuel ih =>
    unfold scan at h
    split at h
    next hin =>
      split at h
      next => cases h
      next hused =>
        by_cases hjb : j = bi
        · rw [hjb]
          simpa using mt (test_bit bp bi).mpr hused
        · exact ih (by omega) h (by omega)
    next hout =>
      exfalso
      apply hout
      have : (b + bi) % 2 ^ 32 = b + bi := Nat.mod_eq_of_lt (by omega)
      omega

/-! The blocks of a bitmap block. -/

theorem mod_add (hj : j < BPB) : (c * BPB + j) % BPB = j := by
  rw [mul_comm, Nat.mul_add_mod, Nat.mod_eq_of_lt hj]

theorem bblock_add (hj : j < BPB) : m.bblock (c * BPB + j) = m.bblock (c * BPB) := by
  unfold bblock
  rw [mul_comm, Nat.mul_add_div bpb_pos, Nat.div_eq_of_lt hj, Nat.mul_div_cancel_left _ bpb_pos, add_zero]

theorem marked_add (hj : j < BPB) : m.marked d (c * BPB + j) = (d (m.bblock (c * BPB))).bit j := by
  unfold marked
  rw [bblock_add hj, mod_add hj]

/-! ## What is handed out -/

/-- `balloc` once it has found block `b`. -/
def hand (m : Bitmap) (b : Nat) : Kern P Nat := do
  let bp ← bread (m.bblock b)
  logWrite (m.bblock b) (bp.setBit (b % BPB))
  bzero b
  return b

/-- The blocks that can be handed out. -/
def free (m : Bitmap) (d : Disk) : Set Nat := fun b => b < m.size.toNat ∧ m.marked d b = false

/-- `balloc`'s loop from bitmap block `c` on. -/
theorem ballocLoop_eq (hsize : m.size.toNat < 2 ^ 31 - BPB)
    (hfuel : m.size.toNat ≤ (c + fuel) * BPB) (hbefore : ∀ a, a < c * BPB → a ∉ m.free s.disk) :
    (∃ b, IsLeast (m.free s.disk) b ∧ m.ballocLoop fuel (c * BPB) s = m.hand b s) ∨
      m.free s.disk = ∅ ∧ m.ballocLoop fuel (c * BPB) s = .stop .balloc s := by
  have hnone : m.size.toNat ≤ c * BPB → m.free s.disk = ∅ := by
    intro hend
    apply Set.eq_empty_of_forall_notMem
    intro a ha
    exact hbefore a (lt_of_lt_of_le ha.1 hend) ha
  induction fuel generalizing c with
  | zero => exact .inr ⟨hnone hfuel, rfl⟩
  | succ fuel ih =>
    unfold ballocLoop
    by_cases hlt : c * BPB < m.size.toNat
    · rw [if_pos hlt]
      have hread : ∀ f : Block → Kern P Nat, (bread (m.bblock (c * BPB)) >>= f) s = f (s.disk (m.bblock (c * BPB))) s :=
        fun _ => rfl
      rw [hread]
      cases hscan : m.scan (s.disk (m.bblock (c * BPB))) (c * BPB) BPB 0 with
      | some bi =>
        obtain ⟨hbi, hin, hfree, hfirst⟩ := scan_some (by omega) hscan
        have hmod : (c * BPB + bi) % 2 ^ 32 = c * BPB + bi := Nat.mod_eq_of_lt (by omega)
        refine .inl ⟨c * BPB + bi, ⟨⟨hin, by rw [marked_add hbi]; exact hfree⟩, fun a ha => ?_⟩, ?_⟩
        · by_contra hab
          by_cases hac : a < c * BPB
          · exact hbefore a hac ha
          · obtain ⟨j, rfl⟩ := Nat.exists_eq_add_of_le (Nat.le_of_not_lt hac)
            have hmarked := ha.2
            rw [marked_add (by omega), hfirst j (Nat.zero_le j) (by omega)] at hmarked
            cases hmarked
        · simp only [hmod]
          unfold hand
          rw [bblock_add hbi, mod_add hbi]
          rfl
      | none =>
        have hmod : (c * BPB + BPB) % 2 ^ 32 = (c + 1) * BPB := by
          rw [Nat.add_one_mul]
          exact Nat.mod_eq_of_lt (by omega)
        have hbefore' : ∀ a, a < (c + 1) * BPB → a ∉ m.free s.disk := by
          intro a ha hfree
          by_cases hac : a < c * BPB
          · exact hbefore a hac hfree
          · obtain ⟨j, rfl⟩ := Nat.exists_eq_add_of_le (Nat.le_of_not_lt hac)
            rw [Nat.add_one_mul] at ha
            have hmarked := hfree.2
            rw [marked_add (by omega),
              scan_none (Nat.le_of_eq (zero_add _).symm) hscan (Nat.zero_le j) (by omega) hfree.1] at hmarked
            cases hmarked
        simp only [hmod]
        refine ih (by rw [add_right_comm]; exact hfuel) hbefore' fun hend => ?_
        apply Set.eq_empty_of_forall_notMem
        intro a ha
        exact hbefore' a (lt_of_lt_of_le ha.1 hend) ha
    · rw [if_neg hlt]
      exact .inr ⟨hnone (Nat.le_of_not_lt hlt), rfl⟩

theorem balloc_eq (s : State P) (hsize : m.size.toNat < 2 ^ 31 - BPB) :
    (∃ b, IsLeast (m.free s.disk) b ∧ m.balloc s = m.hand b s) ∨ m.free s.disk = ∅ ∧ m.balloc s = .stop .balloc s := by
  have hfuel : m.size.toNat ≤ (0 + (m.size.toNat / BPB + 1)) * BPB := by
    rw [zero_add]
    exact le_of_lt (Nat.lt_mul_of_div_lt (Nat.lt_succ_self _) bpb_pos)
  have h := ballocLoop_eq (s := s) hsize hfuel fun a ha => by omega
  rwa [zero_mul] at h

/-- The state after `hand`. -/
def handed (m : Bitmap) (s : State P) (b : Nat) : State P :=
  (s.wrote (m.bblock b) ((s.disk (m.bblock b)).setBit (b % BPB))).wrote b fun _ => 0

/-- The state after `bfree`. -/
def freed (m : Bitmap) (s : State P) (b : Nat) : State P :=
  s.wrote (m.bblock b) ((s.disk (m.bblock b)).clearBit (b % BPB))

theorem logWrite_ok {data : Block} (h : logWrite b data s = .ok () s') : s' = s.wrote b data := by
  unfold logWrite Log.LogState.logWrite at h
  cases hcheck : s.log.check with
  | error e => rw [hcheck] at h; cases h
  | ok _ => rw [hcheck] at h; cases h; rfl

theorem hand_ok {b' : Nat} (h : m.hand b s = .ok b' s') : b' = b ∧ s' = m.handed s b := by
  have hwp : wp (m.hand b) (fun b' s' => b' = b ∧ s' = m.handed s b) (fun _ _ => True) s := by
    unfold hand
    simp only [wp_bind, bread, wp_read]
    cases hfirst : logWrite (m.bblock b) ((s.disk (m.bblock b)).setBit (b % BPB)) s with
    | stop e s₁ => simp [wp, hfirst]
    | ok _ s₁ =>
      apply wp_of_ok hfirst
      cases hsecond : bzero b s₁ with
      | stop e s₂ => simp [wp, hsecond]
      | ok _ s₂ =>
        apply wp_of_ok hsecond
        refine ⟨rfl, ?_⟩
        rw [logWrite_ok hsecond, logWrite_ok hfirst]
        rfl
  unfold wp at hwp
  rw [h] at hwp
  exact hwp

theorem bfree_eq (hmarked : m.marked s.disk b = true) :
    m.bfree b s = logWrite (m.bblock b) ((s.disk (m.bblock b)).clearBit (b % BPB)) s := by
  have hbit : ¬ s.disk (m.bblock b) (b % BPB / 8) &&& 1#8 <<< (b % BPB % 8) = 0 := by
    rw [test_bit]
    intro e
    unfold marked at hmarked
    rw [e] at hmarked
    cases hmarked
  show (if s.disk (m.bblock b) (b % BPB / 8) &&& 1#8 <<< (b % BPB % 8) = 0 then stop .bfree else _ : Kern P Unit) s = _
  rw [if_neg hbit]
  rfl

/-- The blocks of the bitmap are marked in it. -/
def Owned (m : Bitmap) (d : Disk) : Prop :=
  ∀ a, a < m.size.toNat → m.bblock a < m.size.toNat → m.marked d (m.bblock a) = true

theorem Owned.bblock_ne (h : Owned m d) (hb : b ∈ m.free d) (ha : a < m.size.toNat) :
    m.bblock a ≠ b := by
  intro e
  have hmarked := h a ha (by rw [e]; exact hb.1)
  rw [e, hb.2] at hmarked
  cases hmarked

theorem marked_handed (hsize : m.size.toNat < 2 ^ 31 - BPB) (hown : Owned m s.disk)
    (hb : b ∈ m.free s.disk) (ha : a < m.size.toNat) :
    m.marked (m.handed s b).disk a = if a = b then true else m.marked s.disk a := by
  have hzero : m.marked (m.handed s b).disk a
      = m.marked (update s.disk (m.bblock b) ((s.disk (m.bblock b)).setBit (b % BPB))) a := by
    unfold marked
    rw [show (m.handed s b).disk = update _ b _ from rfl, update_of_ne (hown.bblock_ne hb ha)]
    rfl
  have hb' := hb.1
  rw [hzero, marked_update (Sector.bit_setBit _ _) (by omega) (by omega)]

theorem marked_freed (hsize : m.size.toNat < 2 ^ 31 - BPB) (hb : b < m.size.toNat)
    (ha : a < m.size.toNat) :
    m.marked (m.freed s b).disk a = if a = b then false else m.marked s.disk a :=
  marked_update (Sector.bit_clearBit _ _) (by omega) (by omega)

/-! ## Inside a transaction -/

/-- A transaction is open, and `n` more blocks fit in the log. -/
def Roomy (l : Log.LogState) (n : Nat) : Prop :=
  1 ≤ l.outstanding ∧ l.lh.length + n ≤ LOGSIZE ∧ (l.lh.length + n : Int) ≤ l.size - 1

theorem logWrite_roomy {n : Nat} (h : Roomy s.log (n + 1)) (b : Nat) (data : Block) :
    logWrite b data s = .ok () (s.wrote b data) ∧ Roomy (s.wrote b data).log n := by
  obtain ⟨hop, hlog, hsize⟩ := h
  have hlen : (Log.LogState.absorb s.log.lh b).length ≤ s.log.lh.length + 1 := by
    unfold Log.LogState.absorb
    split
    next => exact Nat.le_succ _
    next =>
      rw [List.length_append]
      exact le_rfl
  have hcheck : s.log.check = .ok () := by
    unfold Log.LogState.check
    rw [if_neg (by omega), if_neg (by omega)]
  refine ⟨?_, hop, ?_, ?_⟩
  · unfold logWrite Log.LogState.logWrite
    rw [hcheck]
    rfl
  · show (Log.LogState.absorb s.log.lh b).length + n ≤ LOGSIZE
    omega
  · show ((Log.LogState.absorb s.log.lh b).length + n : Int) ≤ s.log.size - 1
    omega

theorem hand_roomy (h : Roomy s.log 2) (b : Nat) : m.hand b s = .ok b (m.handed s b) := by
  obtain ⟨hfirst, hroom⟩ := logWrite_roomy h (m.bblock b) ((s.disk (m.bblock b)).setBit (b % BPB))
  obtain ⟨hsecond, -⟩ := logWrite_roomy hroom b fun _ => 0
  exact (bind_of_ok hfirst).trans (bind_of_ok hsecond)

/-! ## Sequences of calls -/

/-- What the users of the allocator do. -/
inductive Use
  | begin_op
  | end_op
  | balloc
  | bfree (b : Nat)
  deriving DecidableEq, Repr

/-- The allocator, with the blocks that it has handed out and that have not been freed since. -/
structure Pool (P : Type) where
  state : State P
  out : List Nat

/-- One call. -/
def use (m : Bitmap) (x : Pool P) : Use → Option (Except Stop (Pool P))
  | .begin_op => some (match beginOp x.state with
    | .ok _ s => .ok ⟨s, x.out⟩
    | .stop e _ => .error e)
  | .end_op => some (match endOp x.state with
    | .ok _ s => .ok ⟨s, x.out⟩
    | .stop e _ => .error e)
  | .balloc => some (match m.balloc x.state with
    | .ok b s => .ok ⟨s, b :: x.out⟩
    | .stop e _ => .error e)
  | .bfree b => some (match m.bfree b x.state with
    | .ok _ s => .ok ⟨s, x.out.erase b⟩
    | .stop e _ => .error e)

/-- A block that is freed is an allocated one, and not one of the bitmap. -/
def Frees (m : Bitmap) (x : Pool P) : Use → Prop
  | .bfree b => b < m.size.toNat ∧ m.marked x.state.disk b = true ∧ ∀ a, a < m.size.toNat → m.bblock a ≠ b
  | _ => True

structure Pool.Inv (m : Bitmap) (x : Pool P) : Prop where
  owned : Owned m x.state.disk
  nodup : x.out.Nodup
  marked : ∀ b ∈ x.out, b < m.size.toNat ∧ m.marked x.state.disk b = true

variable {x : Pool P}

/-- A call that leaves the bitmap alone. -/
theorem Pool.Inv.congr (h : x.Inv m) (hd : s.disk = x.state.disk) : Pool.Inv m ⟨s, x.out⟩ := by
  constructor
  · show Owned m s.disk
    rw [hd]
    exact h.owned
  · exact h.nodup
  · show ∀ b ∈ x.out, b < m.size.toNat ∧ m.marked s.disk b = true
    rw [hd]
    exact h.marked

theorem beginOp_disk (h : beginOp s = .ok () s') : s'.disk = s.disk := by
  unfold beginOp at h
  split at h
  next => cases h
  next => cases h; rfl

theorem endOp_disk (h : endOp s = .ok () s') : s'.disk = s.disk := by
  unfold endOp at h
  split at h
  next => cases h; rfl
  next => cases h; rfl
  next => cases h

section

variable (h : x.Inv m) (hsize : m.size.toNat < 2 ^ 31 - BPB)
include h hsize

theorem Pool.Inv.balloc (hs : m.balloc x.state = .ok b s) : Pool.Inv m ⟨s, b :: x.out⟩ := by
  rcases balloc_eq x.state hsize with ⟨b', ⟨hfree, -⟩, e⟩ | ⟨-, e⟩
  · obtain ⟨rfl, rfl⟩ := hand_ok (e.symm.trans hs)
    have hmarked : ∀ {a}, a < m.size.toNat →
        m.marked (m.handed x.state b).disk a = if a = b then true else m.marked x.state.disk a :=
      marked_handed hsize h.owned hfree
    constructor
    · intro a ha hin
      rw [hmarked hin, h.owned a ha hin]
      simp
    · apply List.nodup_cons.mpr
      refine ⟨fun hout => ?_, h.nodup⟩
      have hused := (h.marked b hout).2
      rw [hfree.2] at hused
      cases hused
    · intro a ha
      rcases List.mem_cons.mp ha with rfl | ha
      · refine ⟨hfree.1, ?_⟩
        rw [hmarked hfree.1, if_pos rfl]
      · obtain ⟨hin, hused⟩ := h.marked a ha
        refine ⟨hin, ?_⟩
        rw [hmarked hin, hused]
        simp
  · rw [e] at hs
    cases hs

theorem Pool.Inv.bfree (hb : m.Frees x (.bfree b)) (hs : m.bfree b x.state = .ok () s) :
    Pool.Inv m ⟨s, x.out.erase b⟩ := by
  obtain ⟨hin, hused, hother⟩ := hb
  rw [bfree_eq hused] at hs
  obtain rfl := logWrite_ok hs
  have hmarked : ∀ {a}, a < m.size.toNat → a ≠ b → m.marked (m.freed x.state b).disk a = m.marked x.state.disk a := by
    intro a ha hab
    rw [marked_freed hsize hin ha, if_neg hab]
  constructor
  · intro a ha hblock
    exact (hmarked hblock (hother a ha)).trans (h.owned a ha hblock)
  · exact h.nodup.erase b
  · intro a ha
    obtain ⟨hab, ha⟩ := h.nodup.mem_erase_iff.mp ha
    obtain ⟨hlt, hmark⟩ := h.marked a ha
    exact ⟨hlt, (hmarked hlt hab).trans hmark⟩

theorem Pool.Inv.use {y : Pool P} {u : Use} (hu : m.Frees x u) (hy : m.use x u = some (.ok y)) :
    y.Inv m := by
  cases u
  all_goals
    have hy := Option.some.inj hy
    split at hy <;> cases hy
    rename_i hs
  · exact h.congr (beginOp_disk hs)
  · exact h.congr (endOp_disk hs)
  · exact h.balloc hsize hs
  · exact h.bfree hsize hu hs

end

/-- The allocator is a set of block numbers, of which `balloc` takes the least one out and into
which `bfree` puts one back; and so no block is out twice, however the calls follow one another. -/
theorem allocator_is_set (m : Bitmap) (hsize : m.size.toNat < 2 ^ 31 - BPB) :
    (∀ s : State P, Owned m s.disk → Roomy s.log 2 →
      (∀ b, IsLeast (m.free s.disk) b → m.balloc s = .ok b (m.handed s b) ∧
        ∀ a, a < m.size.toNat → m.marked (m.handed s b).disk a = if a = b then true else m.marked s.disk a) ∧
      (m.balloc s = .stop .balloc s ↔ ∀ a, a < m.size.toNat → m.marked s.disk a = true)) ∧
    (∀ (s : State P) (b : Nat), b < m.size.toNat → m.marked s.disk b = true → Roomy s.log 1 →
      m.bfree b s = .ok () (m.freed s b) ∧
        ∀ a, a < m.size.toNat → m.marked (m.freed s b).disk a = if a = b then false else m.marked s.disk a) ∧
    ∀ (s : State P) (us : List Use) (x : Pool P), Owned m s.disk → EachStep m.use m.Frees ⟨s, []⟩ us →
      run m.use ⟨s, []⟩ us = some (.ok x) → x.out.Nodup := by
  refine ⟨fun s hown hroom => ⟨fun b hb => ⟨?_, fun a ha => marked_handed hsize hown hb.1 ha⟩, ?_⟩,
    fun s b hb hused hroom => ⟨?_, fun a ha => marked_freed hsize hb ha⟩, fun s us x hown hus hx => ?_⟩
  · rcases balloc_eq s hsize with ⟨b', hb', e⟩ | ⟨hnone, -⟩
    · rw [e, IsLeast.unique hb hb']
      exact hand_roomy hroom b'
    · have := hb.1
      rw [hnone] at this
      cases this
  · constructor
    · intro hstop a ha
      rcases balloc_eq s hsize with ⟨b, -, e⟩ | ⟨hnone, -⟩
      · rw [e, hand_roomy hroom b] at hstop
        cases hstop
      · by_contra hfree
        have : a ∈ m.free s.disk := ⟨ha, by simpa using hfree⟩
        rw [hnone] at this
        cases this
    · intro hall
      rcases balloc_eq s hsize with ⟨b, hb, -⟩ | ⟨-, e⟩
      · have := hall b hb.1.1
        rw [hb.1.2] at this
        cases this
      · exact e
  · rw [bfree_eq hused]
    exact (logWrite_roomy hroom _ _).1
  · have hinit : Pool.Inv m (⟨s, []⟩ : Pool P) := ⟨hown, List.nodup_nil, by simp⟩
    have hinv := run_invariant (I := Pool.Inv m) (fun y u z hy hu hz => hy.use hsize hu hz) hinit hus hx
    exact hinv.nodup

section

/-- A disk of which only the bitmap, block 1, is not zero. -/
def bitmapOnly (bits : Byte) : State Unit where
  disk := fun b i => if b = 1 ∧ i = 0 then bits else 0
  log := { start := 0, size := LOGSIZE + 1, outstanding := 1, committing := false, lh := [] }
  ops := []
  icache := fun _ => { inum := 0, ref := 0, locked := false, valid := false, din := .zero }
  ftable := fun _ => { type := .none, ref := 0, readable := false, writable := false, ip := ⟨0, by decide⟩, off := 0, major := 0 }
  proc := fun _ => none

theorem roomy_bitmapOnly (bits : Byte) : Roomy (bitmapOnly bits).log 2 :=
  ⟨by decide +revert, by decide +revert, by decide +revert⟩

/-- Blocks 0 and 1 are marked, block 2 is free. -/
theorem allocator_is_set_three :
    let m : Bitmap := ⟨3, 1⟩
    m.balloc (bitmapOnly 3) = .ok 2 (m.handed (bitmapOnly 3) 2) ∧ m.marked (m.handed (bitmapOnly 3) 2).disk 2 = true := by
  intro m
  have hsize : m.size.toNat < 2 ^ 31 - BPB := by decide
  have hown : Owned m (bitmapOnly 3).disk := by
    unfold Owned
    decide
  have hleast : IsLeast (m.free (bitmapOnly 3).disk) 2 := by
    refine ⟨⟨by decide, by decide⟩, fun b hb => ?_⟩
    by_contra hlt
    have hb' := hb.2
    have : b = 0 ∨ b = 1 := by omega
    rcases this with rfl | rfl
    · exact absurd hb' (by decide)
    · exact absurd hb' (by decide)
  obtain ⟨hok, hmark⟩ := ((allocator_is_set m hsize).1 _ hown (roomy_bitmapOnly 3)).1 2 hleast
  refine ⟨hok, ?_⟩
  rw [hmark 2 (by decide), if_pos rfl]

/-- A disk of two blocks whose bitmap, block 1, does not have its own bit set: `balloc` hands out
block 1, and zeroing it clears the bit that it has just set, and that of block 0 with it. -/
theorem balloc_zeroes_bitmap :
    let m : Bitmap := ⟨2, 1⟩
    IsLeast (m.free (bitmapOnly 1).disk) 1 ∧ Roomy (bitmapOnly 1).log 2 ∧ m.marked (bitmapOnly 1).disk 0 = true ∧
      ∃ s, m.balloc (bitmapOnly 1) = .ok 1 s ∧ m.marked s.disk 0 = false ∧ m.marked s.disk 1 = false := by
  intro m
  have hleast : IsLeast (m.free (bitmapOnly 1).disk) 1 := by
    refine ⟨⟨by decide, by decide⟩, fun b hb => ?_⟩
    by_contra hlt
    have hb' := hb.2
    obtain rfl : b = 0 := by omega
    exact absurd hb' (by decide)
  refine ⟨hleast, roomy_bitmapOnly 1, by decide, ?_⟩
  rcases balloc_eq (bitmapOnly 1) (show m.size.toNat < 2 ^ 31 - BPB by decide) with ⟨b, hb, e⟩ | ⟨hnone, -⟩
  · rw [IsLeast.unique hb hleast, hand_roomy (roomy_bitmapOnly 1)] at e
    exact ⟨_, e, by decide, by decide⟩
  · have := hleast.1
    rw [hnone] at this
    cases this

end

/-! ## The allocator of the file system's model -/

/-- What the allocator reads of a superblock. -/
def ofSuper (sb : Super) : Bitmap := ⟨BitVec.ofNat 32 sb.size, BitVec.ofNat 32 sb.bmapstart⟩

section

variable {sb : Super}

theorem ofSuper_size : (ofSuper sb).size.toNat = sb.size := by
  have := sb.size_lt
  simp only [ofSuper, BitVec.toNat_ofNat]
  omega

theorem ofSuper_bblock (hb : b < sb.size) : (ofSuper sb).bblock b = sb.bblock b := by
  have hlt := Super.bblock_lt hb
  have hdata : sb.datastart ≤ sb.size := Nat.sub_le _ _
  have hsize := sb.size_lt
  have hstart : sb.bmapstart ≤ sb.bblock b := Super.bmapstart_le_bblock
  unfold Super.bblock at hlt hstart
  simp only [bblock, ofSuper, Super.bblock, BitVec.toNat_ofNat]
  rw [Nat.mod_eq_of_lt (a := sb.bmapstart) (by omega)]
  exact Nat.mod_eq_of_lt (by omega)

theorem mem_free_ofSuper : b ∈ (ofSuper sb).free d ↔ b < sb.size ∧ used sb d b = false := by
  show b < (ofSuper sb).size.toNat ∧ (d ((ofSuper sb).bblock b)).bit (b % BPB) = false ↔ _
  rw [ofSuper_size]
  apply and_congr_right
  intro hb
  rw [ofSuper_bblock hb]
  rfl

/-- The loops of the source visit the blocks in order. -/
theorem balloc_ofSuper (hsize : sb.size < 2 ^ 31 - BPB) (s : State P) : (ofSuper sb).balloc s = Fs.balloc sb s := by
  rcases balloc_eq (m := ofSuper sb) s (by rw [ofSuper_size]; exact hsize) with ⟨b, hb, e⟩ | ⟨hnone, e⟩
  · obtain ⟨hlt, hfree⟩ := mem_free_ofSuper.mp hb.1
    have hfirst : firstFree sb s.disk = some b := by
      unfold firstFree
      rw [List.find?_range_eq_some]
      refine ⟨by rw [hfree]; rfl, List.mem_range.mpr hlt, fun a ha => ?_⟩
      by_contra hused
      have hmem : a ∈ (ofSuper sb).free s.disk := mem_free_ofSuper.mpr ⟨Nat.lt_trans ha hlt, by simpa using hused⟩
      exact absurd (hb.2 hmem) (by omega)
    rw [e]
    unfold hand
    rw [ofSuper_bblock hlt]
    have hread : (read fun s => firstFree sb s.disk : Kern P (Option Nat)) s = .ok (some b) s := by
      rw [← hfirst]
      rfl
    unfold Fs.balloc
    exact Eq.symm (bind_of_ok hread)
  · have hfirst : firstFree sb s.disk = none := by
      unfold firstFree
      rw [List.find?_range_eq_none]
      intro a ha
      by_contra hused
      have hmem : a ∈ (ofSuper sb).free s.disk := mem_free_ofSuper.mpr ⟨ha, by simpa using hused⟩
      rw [hnone] at hmem
      cases hmem
    rw [e]
    have hread : (read fun s => firstFree sb s.disk : Kern P (Option Nat)) s = .ok none s := by
      rw [← hfirst]
      rfl
    unfold Fs.balloc
    exact Eq.symm (bind_of_ok hread)

theorem balloc_ofSuper_mkfs : (ofSuper mkfsSuper).balloc (mounted () 30 1 slot0) = Fs.balloc mkfsSuper (mounted () 30 1 slot0) :=
  balloc_ofSuper (by decide) _

end

end Bitmap

end Xv6.Fs
