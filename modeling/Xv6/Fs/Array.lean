import Mathlib.Data.List.TakeWhile
import Mathlib.Order.Interval.Finset.Nat
import Xv6.Fs.Bitmap

/-!
# A file is an array of bytes

`readi` and `writei` on an inode that has the blocks of its content (`Loaded`). `readi` finds every
block there and changes nothing. `writei` gives the file the blocks that it lacks, and so it needs
as many free blocks (`Enough`) and room in the log for the distinct blocks that it logs (`cost`):
without them it panics, and there is no other way for it to fail (`Stops`).
-/

namespace Xv6.Fs

open Prog Finset
open Function (update update_self update_eq_self_iff update_idem update_eq_self update_of_ne)
open Bitmap (Roomy logWrite_roomy)

variable {P : Type} {sb : Super} {s s' : State P} {k : Fin NINODE}

/-! ## Reading -/

variable {a b bn left m : Nat} {s'' : State P} {e : Stop} {L : Finset Nat} {src : Nat → Option Byte}

theorem Loaded.addr_indirect (h : Loaded sb k s) (hdir : ¬ bn < NDIRECT)
    (hne : Fs.pos sb (table sb s k) s.disk ((s.icache k).inum, placeOf bn) ≠ 0) :
    bn - NDIRECT < NINDIRECT ∧ (s.icache k).din.addr NDIRECT ≠ 0 ∧
      Fs.pos sb (table sb s k) s.disk ((s.icache k).inum, placeOf bn) =
        word (s.disk ((s.icache k).din.addr NDIRECT)) (bn - NDIRECT) := by
  rw [h.pos, placeOf_indirect hdir] at hne ⊢
  have hind : bn - NDIRECT < NINDIRECT ∧ (s.icache k).din.addr NDIRECT ≠ 0 := by
    by_contra hno
    apply hne
    unfold addrAt
    rw [if_neg (by omega), if_neg]
    intro e
    exact hno ⟨by omega, e.2⟩
  exact ⟨hind.1, hind.2, addrAt_entry hind.1 hind.2⟩

/-- `bmap` of a block that is there. -/
theorem bmap_hit (h : Loaded sb k s)
    (hne : pos sb (table sb s k) s.disk ((s.icache k).inum, placeOf bn) ≠ 0) :
    wp (bmap sb k bn) (fun a s' => a = pos sb (table sb s k) s.disk ((s.icache k).inum, placeOf bn) ∧ s' = s) never s := by
  unfold bmap
  by_cases hdir : bn < NDIRECT
  · have hplace : pos sb (table sb s k) s.disk ((s.icache k).inum, placeOf bn) = (s.icache k).din.addr bn := by
      rw [h.pos, placeOf, if_pos hdir, addrAt_le (le_of_lt hdir)]
    rw [hplace] at hne ⊢
    simp only [hdir, if_true, loadAddr, din, wp_bind, wp_read, hne, if_false, wp_pure, and_self]
  · obtain ⟨hlt, hind, hplace⟩ := h.addr_indirect hdir hne
    rw [hplace] at hne ⊢
    simp only [hdir, if_false, hlt, if_true, loadAddr, din, wp_bind, wp_read, hind, hne, wp_pure, and_self]

theorem chunk_pos {off : Nat} (h : left ≠ 0) : 0 < chunk off left := by
  have : off % BSIZE < BSIZE := Nat.mod_lt _ (by decide)
  unfold chunk
  omega

theorem chunk_le (off left : Nat) : chunk off left ≤ left := Nat.min_le_left _ _

/-- The bytes of a chunk are in one block. -/
theorem div_of_chunk {off o : Nat} (h : off ≤ o) (h' : o < off + chunk off left) :
    o / BSIZE = off / BSIZE := by
  have hmod : off % BSIZE + chunk off left ≤ BSIZE := by
    have : off % BSIZE < BSIZE := Nat.mod_lt _ (by decide)
    unfold chunk
    omega
  have hoff := Nat.div_add_mod off BSIZE
  apply Nat.div_eq_of_lt_le
  · rw [mul_comm]
    omega
  · rw [Nat.add_one_mul, mul_comm]
    omega

theorem mod_of_chunk {off o : Nat} (h : off ≤ o) (h' : o < off + chunk off left) :
    o % BSIZE = off % BSIZE + (o - off) := by
  have hdiv := div_of_chunk h h'
  have hoff := Nat.div_add_mod off BSIZE
  have ho := Nat.div_add_mod o BSIZE
  rw [hdiv] at ho
  omega

theorem readLoop_spec (h : Loaded sb k s) {dst : Nat → Bool} {fuel off tot : Nat} {buf : Sector}
    (hfuel : left ≤ fuel) (hsize : off + left ≤ (s.icache k).din.size.toNat)
    (hdst : ∀ j, tot ≤ j → j < tot + left → dst j = true) :
    wp (readLoop sb k dst fuel off tot left buf) (fun r s' => s' = s ∧ r.1 = tot + left ∧ ∀ j, r.2 j =
      if tot ≤ j ∧ j < tot + left then byteAt sb (table sb s k) s.disk (s.icache k).inum (off + (j - tot)) else buf j) never s := by
  induction fuel generalizing off tot left buf with
  | zero =>
    refine ⟨rfl, by omega, fun j => ?_⟩
    rw [if_neg (by omega)]
  | succ fuel ih =>
    unfold readLoop
    apply wp_ite
    · intro hleft
      refine ⟨rfl, by omega, fun j => ?_⟩
      rw [if_neg (by omega)]
    · intro hleft
      have hpos : 0 < chunk off left := chunk_pos hleft
      have hle := chunk_le off left
      have hmapped := h.rep.mapped (o := off) h.inum h.table_type (by rw [table_self]; omega)
      apply wp_seq (bmap_hit h hmapped)
      intro a s' hhit
      obtain ⟨rfl, rfl⟩ := hhit
      simp only [wp_bind, bread, wp_read]
      have hall : (List.range (chunk off left)).all (fun j => dst (tot + j)) = true := by
        rw [List.all_eq_true]
        intro j hj
        have := List.mem_range.mp hj
        exact hdst (tot + j) (by omega) (by omega)
      rw [if_pos hall]
      apply wp_mono (ih (by omega) (by omega) fun j hj hj' => hdst j (by omega) (by omega))
      · intro r s'' hr
        obtain ⟨rfl, hcount, hbytes⟩ := hr
        refine ⟨rfl, by omega, fun j => ?_⟩
        rw [hbytes j]
        by_cases hrest : tot + chunk off left ≤ j ∧ j < tot + chunk off left + (left - chunk off left)
        · rw [if_pos hrest, if_pos (by omega)]
          congr 1
          omega
        · rw [if_neg hrest]
          unfold memmove
          by_cases hnow : tot ≤ j ∧ j < tot + chunk off left
          · rw [if_pos hnow, if_pos (by omega)]
            unfold byteAt
            have hle' : off ≤ off + (j - tot) := Nat.le_add_right _ _
            have hlt' : off + (j - tot) < off + chunk off left := by omega
            rw [div_of_chunk hle' hlt', mod_of_chunk hle' hlt', Nat.add_sub_cancel_left]
          · rw [if_neg hnow, if_neg (by omega)]
      · exact fun _ _ => id

/-- How many bytes there are to read. -/
def readCount (size off n : Nat) : Nat := if off ≤ size ∧ off + n < 2 ^ 32 then min n (size - off) else 0

/-- `readi` into memory that is mapped. -/
theorem readi_spec (h : Loaded sb k s) {dst : Nat → Bool} {off n : Nat} (hoff : off < 2 ^ 32) (hn : n < 2 ^ 32)
    (hdst : ∀ j, j < n → dst j = true) :
    wp (readi sb k dst off n) (fun r s' => s' = s ∧ r.1 = readCount (s.icache k).din.size.toNat off n ∧
      ∀ j, j < r.1 → r.2 j = byteAt sb (table sb s k) s.disk (s.icache k).inum (off + j)) never s := by
  have hwrap : (off + n) % 2 ^ 32 < off ↔ ¬ off + n < 2 ^ 32 := by omega
  unfold readi
  simp only [wp_bind, wp_read, hwrap]
  apply wp_ite
  · intro hbad
    refine ⟨rfl, ?_, fun j hj => absurd hj (Nat.not_lt_zero j)⟩
    unfold readCount
    rw [if_neg (by omega)]
  · intro hgood
    have hcount : readCount (s.icache k).din.size.toNat off n = min n ((s.icache k).din.size.toNat - off) := if_pos (by omega)
    rw [hcount]
    have hloop : ∀ left, left ≤ n → off + left ≤ (s.icache k).din.size.toNat →
        wp (readLoop sb k dst left off 0 left fun _ => 0) (fun r s' => s' = s ∧ r.1 = left ∧
          ∀ j, j < r.1 → r.2 j = byteAt sb (table sb s k) s.disk (s.icache k).inum (off + j)) never s := by
      intro left hle hsize
      apply wp_mono (readLoop_spec h (Nat.le_refl left) hsize fun j _ hj => hdst j (by omega))
      · intro r s' hr
        obtain ⟨hs, hcount, hbytes⟩ := hr
        refine ⟨hs, by omega, fun j hj => ?_⟩
        rw [hbytes j, if_pos (by omega), Nat.sub_zero]
      · exact fun _ _ => id
    apply wp_ite
    · intro hlong
      rw [Nat.min_eq_right (by omega)]
      exact hloop _ (by omega) (by omega)
    · intro hshort
      rw [Nat.min_eq_left (by omega)]
      exact hloop _ (Nat.le_refl n) (by omega)

/-! ## The log -/

/-- The log has been given at most `c` blocks. -/
def Spends (c : Nat) (s s' : State P) : Prop := ∀ n, Roomy s.log (c + n) → Roomy s'.log n

theorem Spends.refl (s : State P) : Spends 0 s s := fun n h => by rwa [zero_add] at h

theorem Spends.trans (h : Spends a s s') (h' : Spends b s' s'') : Spends (a + b) s s'' := by
  intro n hn
  rw [add_assoc] at hn
  exact h' n (h (b + n) hn)

theorem Roomy.mono {l : Log.LogState} {n : Nat} (h : Roomy l n) (hmn : m ≤ n) : Roomy l m := by
  obtain ⟨hop, hlog, hsize⟩ := h
  exact ⟨hop, by omega, by omega⟩

theorem Spends.mono (h : Spends a s s') (hab : a ≤ b) : Spends b s s' :=
  fun n hn => h n (Roomy.mono hn (by omega))

/-- Blocks of `W` have been logged, and no others: a block that is in the header is not entered
again. -/
structure Logged (W : Finset Nat) (l l' : Log.LogState) : Prop where
  outstanding : l'.outstanding = l.outstanding
  size : l'.size = l.size
  sub : l'.lh.toFinset ⊆ l.lh.toFinset ∪ W
  length : l'.lh.length + l.lh.toFinset.card = l.lh.length + l'.lh.toFinset.card

section

variable {l l' l'' : Log.LogState} {W W' : Finset Nat}

theorem Logged.refl (W : Finset Nat) (l : Log.LogState) : Logged W l l := ⟨rfl, rfl, subset_union_left, rfl⟩

theorem Logged.trans (h : Logged W l l') (h' : Logged W l' l'') : Logged W l l'' := by
  refine ⟨h'.outstanding.trans h.outstanding, h'.size.trans h.size, ?_, ?_⟩
  · exact h'.sub.trans (union_subset h.sub subset_union_right)
  · have := h.length
    have := h'.length
    omega

theorem Logged.mono (h : Logged W l l') (hW : W ⊆ W') : Logged W' l l' :=
  ⟨h.outstanding, h.size, h.sub.trans (union_subset_union_right hW), h.length⟩

theorem Logged.length_le (h : Logged W l l') : l'.lh.length ≤ l.lh.length + W.card := by
  have hcard := (card_le_card h.sub).trans (card_union_le _ _)
  have := h.length
  omega

theorem Logged.spends (h : Logged W s.log s'.log) (hm : W.card ≤ m) : Spends m s s' := by
  intro n hn
  obtain ⟨hop, hlog, hsize⟩ := hn
  have hle := h.length_le
  refine ⟨?_, by omega, ?_⟩
  · rw [h.outstanding]
    exact hop
  · rw [h.size]
    omega

/-- The header is full. -/
def Filled (l : Log.LogState) : Prop := LOGSIZE ≤ l.lh.length ∨ l.size - 1 ≤ l.lh.length

/-- It has been filled by the blocks of `W` if there was no room for them and one more. -/
theorem Logged.not_roomy (h : Logged W l l') (hfilled : Filled l') (hm : W.card < m) : ¬ Roomy l m := by
  rintro ⟨-, hlog, hsize⟩
  have hle := h.length_le
  rcases hfilled with hfilled | hfilled
  · omega
  · rw [h.size] at hfilled
    omega

theorem logged_absorb (l : Log.LogState) (b : Nat) : Logged {b} l { l with lh := Log.LogState.absorb l.lh b } := by
  refine ⟨rfl, rfl, ?_, ?_⟩
  all_goals
    unfold Log.LogState.absorb
    split
  · exact subset_union_left
  · rw [List.toFinset_append]
    rfl
  · rfl
  · rename_i hnot
    have hcard : (l.lh ++ [b]).toFinset.card = l.lh.toFinset.card + 1 := by
      rw [List.toFinset_append, List.toFinset_cons, List.toFinset_nil, insert_empty_eq, union_comm, ← insert_eq,
        card_insert_of_notMem (by rwa [List.mem_toFinset])]
    rw [hcard, List.length_append]
    simp only [List.length_singleton]
    omega

end

theorem logWrite_logged (hop : 1 ≤ s.log.outstanding) (b : Nat) (data : Block) :
    wp (logWrite b data) (fun _ s' => s' = s.wrote b data ∧ Logged {b} s.log s'.log)
      (fun e s' => e = .log .tooBig ∧ s' = s ∧ Filled s.log) s := by
  by_cases hfilled : Filled s.log
  · unfold wp logWrite Log.LogState.logWrite Log.LogState.check
    unfold Filled at hfilled
    rw [if_pos (by omega)]
    exact ⟨rfl, rfl, hfilled⟩
  · unfold Filled at hfilled
    exact wp_of_ok (logWrite_roomy (n := 0) ⟨hop, by omega, by omega⟩ b data).1 ⟨rfl, logged_absorb s.log b⟩

/-! ## What runs out -/

/-- The blocks of the bitmap. -/
def bitmaps (sb : Super) : Finset Nat := (range sb.size).image sb.bblock

/-- What is logged for a file that has the blocks of `A` and is given the others of `B`. -/
def touched (sb : Super) (A B : Finset Nat) : Finset Nat := B ∪ bitmaps sb ∩ (B \ A).image sb.bblock

section

variable {A A' B B' : Finset Nat}

theorem touched_mono (hA : A' ⊆ A) (hB : B ⊆ B') : touched sb A B ⊆ touched sb A' B' :=
  union_subset_union hB (inter_subset_inter_left (image_subset_image (sdiff_subset_sdiff hB hA)))

theorem card_touched (h : A ⊆ B) (hB : B.card ≤ m) : (touched sb A B).card ≤ m + min (bitmaps sb).card (m - A.card) := by
  have hnew : ((B \ A).image sb.bblock).card ≤ m - A.card := by
    apply card_image_le.trans
    rw [card_sdiff_of_subset h]
    omega
  have hmarks : (bitmaps sb ∩ (B \ A).image sb.bblock).card ≤ min (bitmaps sb).card (m - A.card) :=
    Nat.le_min.mpr ⟨card_le_card inter_subset_left, (card_le_card inter_subset_right).trans hnew⟩
  exact (card_union_le _ _).trans (Nat.add_le_add hB hmarks)

/-- The log overflows while a file is given blocks, at most `m` in all. -/
def Overflow (sb : Super) (A : Finset Nat) (m : Nat) (s : State P) (e : Stop) (s' : State P) : Prop :=
  e = .log .tooBig ∧ Filled s'.log ∧ ∃ B, A ⊆ B ∧ B.card ≤ m ∧ Logged (touched sb A B) s.log s'.log

theorem Overflow.after (hA : A ⊆ A') (h : Logged (touched sb A A') s.log s'.log) (h' : Overflow sb A' m s' e s'') :
    Overflow sb A m s e s'' := by
  obtain ⟨he, hfilled, B, hB, hcard, hlogged⟩ := h'
  exact ⟨he, hfilled, B, hA.trans hB, hcard, (h.mono (touched_mono subset_rfl hB)).trans (hlogged.mono (touched_mono hA subset_rfl))⟩

theorem Overflow.mono (h : Overflow sb A a s e s') (hab : a ≤ b) : Overflow sb A b s e s' :=
  ⟨h.1, h.2.1, h.2.2.imp fun _ hB => ⟨hB.1, hB.2.1.trans hab, hB.2.2⟩⟩

theorem balloc_cost (hop : 1 ≤ s.log.outstanding) (hA : ∀ b ∈ A, used sb s.disk b = true) :
    wp (balloc sb) (fun b s' => ∀ B, A ⊆ B → b ∈ B → Logged (touched sb A B) s.log s'.log)
      (fun e s' => e = .balloc ∧ firstFree sb s.disk = none ∨ Overflow sb A (A.card + 1) s e s') s := by
  unfold balloc
  simp only [wp_bind, wp_read]
  cases hfree : firstFree sb s.disk with
  | none => exact .inl ⟨rfl, rfl⟩
  | some b =>
    obtain ⟨hlt, hunused⟩ := firstFree_some hfree
    have hmark : ∀ B, b ∈ B → {sb.bblock b} ⊆ touched sb A B := by
      intro B hb
      apply singleton_subset_iff.mpr
      apply mem_union_right
      refine mem_inter.mpr ⟨mem_image_of_mem _ (mem_range.mpr hlt), mem_image_of_mem _ ?_⟩
      refine mem_sdiff.mpr ⟨hb, fun hold => ?_⟩
      rw [hA b hold] at hunused
      cases hunused
    have hover : ∀ s', Filled s'.log → Logged (touched sb A (insert b A)) s.log s'.log →
      Overflow sb A (A.card + 1) s (.log .tooBig) s' :=
      fun s' hfilled hlogged => ⟨rfl, hfilled, insert b A, subset_insert b A, card_insert_le b A, hlogged⟩
    simp only [wp_bind, bread, wp_read, bzero, wp_pure]
    apply wp_mono (logWrite_logged hop _ _)
    · rintro _ s₁ ⟨rfl, hfirst⟩
      apply wp_mono (logWrite_logged (s := State.wrote _ _ _) hop _ _)
      · rintro _ s₂ ⟨-, hsecond⟩ B hB hb
        exact (hfirst.mono (hmark B hb)).trans (hsecond.mono (singleton_subset_iff.mpr (mem_union_left _ hb)))
      · rintro e s₂ ⟨rfl, rfl, hfilled⟩
        exact .inr (hover _ hfilled (hfirst.mono (hmark _ (mem_insert_self b A))))
    · rintro e s₁ ⟨rfl, rfl, hfilled⟩
      exact .inr (hover _ hfilled (.refl _ _))

end

/-- There are as many free blocks as there are places of `L` without a block. -/
def Enough (sb : Super) (s : State P) (k : Fin NINODE) (L : Finset Nat) : Prop :=
  (Owned.vacant (pos sb (table sb s k) s.disk) ({(s.icache k).inum} ×ˢ L)).card ≤ (Owned.unused (used sb s.disk) sb.size).card

/-- The blocks of the inode in slot `k` at the places of `L`. -/
def placed (sb : Super) (s : State P) (k : Fin NINODE) (L : Finset Nat) : Finset Nat :=
  (L.image fun l => pos sb (table sb s k) s.disk ((s.icache k).inum, l)).erase 0

/-- The disk is full although a block is needed for a place of `L`, or the log overflows. -/
def Stops (sb : Super) (s : State P) (k : Fin NINODE) (L : Finset Nat) (e : Stop) (s' : State P) : Prop :=
  e = .balloc ∧ ¬ Enough sb s k L ∨ Overflow sb (placed sb s k L) L.card s e s'

theorem mem_placed {l : Nat} (hl : l ∈ L) (h : pos sb (table sb s k) s.disk ((s.icache k).inum, l) = a) (hne : a ≠ 0) :
    a ∈ placed sb s k L :=
  mem_erase.mpr ⟨hne, mem_image.mpr ⟨l, hl, h⟩⟩

theorem placed_used (h : Loaded sb k s) : ∀ b ∈ placed sb s k L, used sb s.disk b = true := by
  intro b hb
  obtain ⟨hne, hmem⟩ := mem_erase.mp hb
  obtain ⟨l, -, rfl⟩ := mem_image.mp hmem
  exact h.rep.owned.used_of_owned hne

theorem card_placed {l : Nat} (hl : l ∈ L) (hzero : pos sb (table sb s k) s.disk ((s.icache k).inum, l) = 0) :
    (placed sb s k L).card + 1 ≤ L.card :=
  (card_erase_lt_of_mem (mem_image.mpr ⟨l, hl, hzero⟩)).trans_le card_image_le

theorem card_placed_le : (placed sb s k L).card ≤ L.card := (card_le_card (erase_subset _ _)).trans card_image_le

theorem placed_same (hinum : (s'.icache k).inum = (s.icache k).inum)
    (hpos : pos sb (table sb s' k) s'.disk = pos sb (table sb s k) s.disk) : placed sb s' k L = placed sb s k L := by
  unfold placed
  rw [hinum, hpos]

theorem Mapped.placed_sub {l : Nat} (hm : Mapped sb k l a s s') : placed sb s k L ⊆ placed sb s' k L := by
  intro b hb
  obtain ⟨hne, hmem⟩ := mem_erase.mp hb
  obtain ⟨l, hl, rfl⟩ := mem_image.mp hmem
  exact mem_placed hl (by rw [hm.on.inum]; exact hm.keeps _ hne) hne

/-- The file has been given blocks for places of `L`, and what is logged for that has been logged.
-/
def Logs (sb : Super) (k : Fin NINODE) (L : Finset Nat) (s s' : State P) : Prop :=
  placed sb s k L ⊆ placed sb s' k L ∧ Logged (touched sb (placed sb s k L) (placed sb s' k L)) s.log s'.log

theorem Logs.refl (k : Fin NINODE) (L : Finset Nat) (s : State P) : Logs sb k L s s := ⟨subset_rfl, .refl _ _⟩

theorem Logs.trans (h : Logs sb k L s s') (h' : Logs sb k L s' s'') : Logs sb k L s s'' :=
  ⟨h.1.trans h'.1, (h.2.mono (touched_mono subset_rfl h'.1)).trans (h'.2.mono (touched_mono h.1 subset_rfl))⟩

theorem not_enough {l : Nat} (hl : l ∈ L)
    (hplace : pos sb (table sb s k) s.disk ((s.icache k).inum, l) = 0)
    (hnone : firstFree sb s.disk = none) : ¬ Enough sb s k L := by
  intro h
  have hunused : Owned.unused (used sb s.disk) sb.size = ∅ := by
    apply eq_empty_of_forall_notMem
    intro b hb
    obtain ⟨hlt, hfree⟩ := mem_filter.mp hb
    have := List.find?_eq_none.mp hnone b (List.mem_range.mpr (mem_range.mp hlt))
    rw [hfree] at this
    exact this rfl
  unfold Enough at h
  rw [hunused, card_empty, Nat.le_zero, card_eq_zero] at h
  have hmem : ((s.icache k).inum, l) ∈ Owned.vacant (pos sb (table sb s k) s.disk) ({(s.icache k).inum} ×ˢ L) :=
    mem_filter.mpr ⟨mem_product.mpr ⟨mem_singleton_self _, hl⟩, hplace⟩
  rw [h] at hmem
  exact notMem_empty _ hmem

/-- What the places of `L` have been given has been taken from the free blocks. -/
structure Balance (sb : Super) (k : Fin NINODE) (L : Finset Nat) (s s' : State P) : Prop where
  inum : (s'.icache k).inum = (s.icache k).inum
  card : (Owned.vacant (pos sb (table sb s k) s.disk) ({(s.icache k).inum} ×ˢ L)).card + (Owned.unused (used sb s'.disk) sb.size).card =
    (Owned.vacant (pos sb (table sb s' k) s'.disk) ({(s.icache k).inum} ×ˢ L)).card + (Owned.unused (used sb s.disk) sb.size).card

theorem Balance.refl (k : Fin NINODE) (L : Finset Nat) (s : State P) : Balance sb k L s s := ⟨rfl, rfl⟩

theorem Balance.trans (h : Balance sb k L s s') (h' : Balance sb k L s' s'') :
    Balance sb k L s s'' := by
  have hcard := h'.card
  rw [h.inum] at hcard
  exact ⟨h'.inum.trans h.inum, by have := h.card; omega⟩

/-- Neither the places nor the bitmap changes. -/
theorem Balance.of_same (hinum : (s'.icache k).inum = (s.icache k).inum)
    (hpos : pos sb (table sb s' k) s'.disk = pos sb (table sb s k) s.disk)
    (hused : ∀ b, b < sb.size → used sb s'.disk b = used sb s.disk b) : Balance sb k L s s' := by
  have hunused : Owned.unused (used sb s'.disk) sb.size = Owned.unused (used sb s.disk) sb.size := by
    unfold Owned.unused
    apply filter_congr
    intro b hb
    rw [hused b (mem_range.mp hb)]
  exact ⟨hinum, by rw [hpos, hunused]⟩

theorem Balance.enough (h : Balance sb k L s s') (henough : Enough sb s k L) :
    Enough sb s' k L := by
  have hcard := h.card
  unfold Enough at henough ⊢
  rw [h.inum]
  omega

/-- No more blocks are taken than there are places. -/
theorem Balance.free_le (h : Balance sb k L s s') :
    (Owned.unused (used sb s.disk) sb.size).card ≤ (Owned.unused (used sb s'.disk) sb.size).card + L.card := by
  have hcard := h.card
  have hvacant : (Owned.vacant (pos sb (table sb s k) s.disk) ({(s.icache k).inum} ×ˢ L)).card ≤ L.card := by
    apply (card_filter_le _ _).trans
    rw [card_product, card_singleton, one_mul]
  omega

/-- A block for a place of `L` is taken from the free ones. -/
theorem Mapped.balance (h : Loaded sb k s) {l : Nat} (hm : Mapped sb k l a s s') (hl : l ∈ L)
    (hind : NDIRECT ∈ L ∨ pos sb (table sb s' k) s'.disk ((s.icache k).inum, NDIRECT) =
      pos sb (table sb s k) s.disk ((s.icache k).inum, NDIRECT)) :
    Balance sb k L s s' := by
  refine ⟨hm.on.inum, h.rep.owned.vacant_add_free hm.rep.owned sb.datastart_pos hm.keeps ?_⟩
  intro p hp hp'
  rw [mem_product, mem_singleton]
  rcases hm.news p hp hp' with rfl | rfl
  · exact ⟨rfl, hl⟩
  · rcases hind with hind | hind
    · exact ⟨rfl, hind⟩
    · exact absurd (hind.trans hp) hp'

theorem loadAddr_cost {A : Finset Nat} (hop : 1 ≤ s.log.outstanding) (hA : ∀ b ∈ A, used sb s.disk b = true) (i : Nat) :
    wp (loadAddr sb k i) (fun a s' => (∀ B, A ⊆ B → a ∈ B → Logged (touched sb A B) s.log s'.log) ∧
        (i ≠ NDIRECT → (s'.icache k).din.addr NDIRECT = (s.icache k).din.addr NDIRECT))
      (fun e s' => (s.icache k).din.addr i = 0 ∧ (e = .balloc ∧ firstFree sb s.disk = none ∨ Overflow sb A (A.card + 1) s e s')) s := by
  unfold loadAddr din
  simp only [wp_bind, wp_read]
  apply wp_ite
  · intro hzero
    rw [wp_bind]
    apply wp_mono (wp_and (balloc_spec hop) (balloc_cost hop hA))
    · intro b s₁ hb
      obtain ⟨⟨hlt, -, hon, -⟩, hlogged⟩ := hb
      simp only [setDin, wp_bind, wp_change, wp_pure]
      refine ⟨hlogged, fun hi => ?_⟩
      show (update s₁.icache k _ k).din.addr NDIRECT = _
      rw [update_self, hon.icache]
      unfold Inode.setDin Dinode.setAddr Dinode.addr
      simp [Ne.symm hi]
    · exact fun e s₁ he => ⟨hzero, he.2⟩
  · intro hne
    exact ⟨fun _ _ _ => .refl _ _, fun _ => rfl⟩

/-- What `bmap` takes, and that nothing else can be missing. -/
theorem bmap_takes (h : Loaded sb k s) (hop : 1 ≤ s.log.outstanding) (hbn : bn < MAXFILE)
    (hL : placeOf bn ∈ L) (hind : NDIRECT ≤ bn → NDIRECT ∈ L) :
    wp (bmap sb k bn)
      (fun a s' => (∀ B, placed sb s k L ⊆ B → a ∈ B → (NDIRECT ≤ bn → (s'.icache k).din.addr NDIRECT ∈ B) →
          Logged (touched sb (placed sb s k L) B) s.log s'.log) ∧
        (bn < NDIRECT → (s'.icache k).din.addr NDIRECT = (s.icache k).din.addr NDIRECT))
      (fun e s' => Stops sb s k L e s') s := by
  unfold bmap
  apply wp_ite
  · intro hdir
    apply wp_mono (loadAddr_cost hop (placed_used h) bn)
    · intro a s' ha
      exact ⟨fun B hB hmem _ => ha.1 B hB hmem, fun _ => ha.2 (Nat.ne_of_lt hdir)⟩
    · rintro e s' ⟨hzero, he⟩
      have hplace : pos sb (table sb s k) s.disk ((s.icache k).inum, placeOf bn) = 0 := by
        rw [h.pos, placeOf, if_pos hdir, addrAt_le (le_of_lt hdir), hzero]
      exact he.imp (fun he => ⟨he.1, not_enough hL hplace he.2⟩) fun hover => hover.mono (card_placed hL hplace)
  · intro hdir
    have hle := Nat.le_of_not_lt hdir
    have hind := hind hle
    apply wp_ite
    · intro hlt
      rw [wp_bind]
      apply wp_mono (wp_and (loadAddr_spec h hop le_rfl) (loadAddr_cost hop (placed_used h) NDIRECT))
      · intro ind s₁ hload
        obtain ⟨⟨hm, haddr, -⟩, hlogged, -⟩ := hload
        have h₁ := hm.loaded h
        have hop₁ : 1 ≤ s₁.log.outstanding := by rw [hm.on.outstanding]; exact hop
        have hsub : placed sb s k L ⊆ insert ind (placed sb s k L) := subset_insert _ _
        have hsub₁ : insert ind (placed sb s k L) ⊆ placed sb s₁ k L :=
          insert_subset (mem_placed hind (by rw [hm.on.inum]; exact hm.place) hm.nonzero) hm.placed_sub
        have hlogged₁ := hlogged _ hsub (mem_insert_self _ _)
        simp only [wp_bind, wp_read]
        apply wp_ite
        · intro hzero
          -- the entry is missing once the indirect block is there
          have hplace : pos sb (table sb s₁ k) s₁.disk ((s₁.icache k).inum, placeOf bn) = 0 := by
            rw [h₁.pos, placeOf_indirect hdir, addrAt_entry hlt (by rw [haddr]; exact hm.nonzero), haddr]
            exact hzero
          have hcard : (insert ind (placed sb s k L)).card + 1 ≤ L.card :=
            (Nat.succ_le_succ (card_le_card hsub₁)).trans (card_placed hL hplace)
          rw [wp_bind]
          apply wp_mono (wp_and (balloc_spec hop₁) (balloc_cost hop₁ fun b hb => placed_used h₁ b (hsub₁ hb)))
          · rintro b s₂ ⟨⟨-, -, hon, -⟩, hlogged₂⟩
            have hboth : ∀ B, placed sb s k L ⊆ B → ind ∈ B → b ∈ B → Logged (touched sb (placed sb s k L) B) s.log s₂.log :=
              fun B hB hi hb => (hlogged B hB hi).trans ((hlogged₂ B (insert_subset hi hB) hb).mono (touched_mono hsub subset_rfl))
            simp only [wp_bind, bread, wp_read, wp_pure]
            apply wp_mono (logWrite_logged (by rw [hon.log]; exact hop₁) _ _)
            · rintro _ s₃ ⟨rfl, hlogged₃⟩
              refine ⟨fun B hB hb hi => ?_, fun e => absurd e hdir⟩
              have hi : ind ∈ B := by
                have := hi hle
                rwa [show ((s₂.wrote _ _).icache k) = s₂.icache k from rfl, hon.icache, haddr] at this
              exact (hboth B hB hi hb).trans (hlogged₃.mono (singleton_subset_iff.mpr (mem_union_left _ hi)))
            · rintro e s₃ ⟨rfl, rfl, hfilled⟩
              exact .inr ⟨rfl, hfilled, _, hsub.trans (subset_insert b _), (card_insert_le _ _).trans hcard,
                hboth _ (hsub.trans (subset_insert b _)) (mem_insert_of_mem (mem_insert_self _ _)) (mem_insert_self _ _)⟩
          · rintro e s₂ ⟨-, ⟨he, hnone⟩ | hover⟩
            · exact .inl ⟨he, fun henough => not_enough hL hplace hnone ((hm.balance h hind (.inl hind)).enough henough)⟩
            · exact .inr ((Overflow.after hsub hlogged₁ hover).mono hcard)
        · intro hne
          refine ⟨fun B hB _ hi => hlogged B hB ?_, fun e => absurd e hdir⟩
          have := hi hle
          rwa [haddr] at this
      · rintro e s₁ ⟨-, hzero, he⟩
        have hplace : pos sb (table sb s k) s.disk ((s.icache k).inum, NDIRECT) = 0 := by
          rw [h.pos, addrAt_le le_rfl, hzero]
        exact he.imp (fun he => ⟨he.1, not_enough hind hplace he.2⟩) fun hover => hover.mono (card_placed hind hplace)
    · intro hge
      unfold MAXFILE at hbn
      omega

theorem bmap_cost (h : Loaded sb k s) (hop : 1 ≤ s.log.outstanding) (hbn : bn < MAXFILE)
    (hL : placeOf bn ∈ L) (hind : NDIRECT ≤ bn → NDIRECT ∈ L) :
    wp (bmap sb k bn) (fun a s' => Mapped sb k (placeOf bn) a s s' ∧ Logs sb k L s s' ∧ Balance sb k L s s')
      (fun e s' => Stops sb s k L e s') s := by
  apply wp_mono (wp_and (bmap_spec h hop hbn) (bmap_takes h hop hbn hL hind))
  · intro a s' ha
    obtain ⟨hm, hlogged, hdirect⟩ := ha
    have hplace : pos sb (table sb s' k) s'.disk ((s'.icache k).inum, placeOf bn) = a := by
      rw [hm.on.inum]
      exact hm.place
    have hlogs : Logs sb k L s s' := by
      refine ⟨hm.placed_sub, hlogged _ hm.placed_sub (mem_placed hL hplace hm.nonzero) fun hle => ?_⟩
      obtain ⟨-, hne, -⟩ := (hm.loaded h).addr_indirect (Nat.not_lt.mpr hle) (by rw [hplace]; exact hm.nonzero)
      refine mem_placed (hind hle) ?_ hne
      rw [(hm.loaded h).pos, addrAt_le le_rfl]
    refine ⟨hm, hlogs, hm.balance h hL ?_⟩
    by_cases hdir : bn < NDIRECT
    · right
      rw [← hm.on.inum, (hm.loaded h).pos, hm.on.inum, h.pos, addrAt_le le_rfl, addrAt_le le_rfl, hdirect hdir]
    · exact .inl (hind (Nat.le_of_not_lt hdir))
  · intro e s' he
    exact he.2

/-! ## Writing -/

/-- The bytes from `off` to `upto` of the inode in slot `k` have been written, and the size has not
yet been changed. -/
structure Writing (sb : Super) (k : Fin NINODE) (bs : Nat → Byte) (off upto : Nat) (s s' : State P) : Prop where
  on : OnInode k s s'
  loaded : Loaded sb k s'
  inodes : ∀ i, i < sb.ninodes → inode sb s'.disk i = inode sb s.disk i
  din : (s'.icache k).din = { (s.icache k).din with addrs := (s'.icache k).din.addrs }
  keeps : ∀ p, pos sb (table sb s k) s.disk p ≠ 0 → pos sb (table sb s' k) s'.disk p = pos sb (table sb s k) s.disk p
  mapped : ∀ o, off ≤ o → o < upto → pos sb (table sb s' k) s'.disk ((s.icache k).inum, placeOf (o / BSIZE)) ≠ 0
  old : ∀ j o, pos sb (table sb s k) s.disk (j, placeOf (o / BSIZE)) ≠ 0 → ¬ (j = (s.icache k).inum ∧ off ≤ o ∧ o < upto) →
    byteAt sb (table sb s' k) s'.disk j o = byteAt sb (table sb s k) s.disk j o
  new : ∀ o, off ≤ o → o < upto → byteAt sb (table sb s' k) s'.disk (s.icache k).inum o = bs (o - off)

theorem Writing.start (h : Loaded sb k s) (bs : Nat → Byte) (off : Nat) : Writing sb k bs off off s s :=
  ⟨.refl k s, h, fun _ _ => rfl, rfl, fun _ _ => rfl, fun _ _ _ => by omega, fun _ _ _ _ => rfl, fun _ _ _ => by omega⟩

/-- A block of the content is written. -/
structure Stored (sb : Super) (k : Fin NINODE) (bn : Nat) (x : Block) (s s' : State P) : Prop where
  on : OnDisk s s'
  loaded : Loaded sb k s'
  inodes : ∀ i, i < sb.ninodes → inode sb s'.disk i = inode sb s.disk i
  pos : pos sb (table sb s' k) s'.disk = pos sb (table sb s k) s.disk
  used : ∀ b, b < sb.size → used sb s'.disk b = used sb s.disk b
  bytes : ∀ j o, byteAt sb (table sb s' k) s'.disk j o =
    if j = (s.icache k).inum ∧ o / BSIZE = bn then x (o % BSIZE) else byteAt sb (table sb s k) s.disk j o

theorem table_same (hd : ∀ i, i < sb.ninodes → inode sb s'.disk i = inode sb s.disk i) (hk : s'.icache k = s.icache k) (j : Nat)
    (hj : j < sb.ninodes) : table sb s' k j = table sb s k j := by
  rw [table_congr hd (hk.trans rfl : s'.icache k = (s.icache k).setDin (s.icache k).din) j hj,
    update_eq_self_iff.mpr (table_self s k).symm]

theorem Loaded.write (h : Loaded sb k s)
    (ha : Fs.pos sb (table sb s k) s.disk ((s.icache k).inum, placeOf bn) = a) (hne : a ≠ 0)
    (x : Block) : Stored sb k bn x s (s.wrote a x) := by
  subst ha
  have harea := (h.rep.owned.area _ hne).1
  have hinodes : ∀ i, i < sb.ninodes → inode sb (s.wrote (Fs.pos sb (table sb s k) s.disk ((s.icache k).inum, placeOf bn)) x).disk i =
      inode sb s.disk i := fun i hi => inode_data hi harea
  have htable := table_same (k := k) hinodes rfl
  refine ⟨onDisk_wrote _ _ _, ⟨?_, h.inum, h.type⟩, hinodes, ?_, fun b hb => used_data hb harea, fun j o => ?_⟩
  · exact Rep.ino (h.rep.write harea (h.rep.not_indirect hne (placeOf_ne_indirect bn))) htable
  · rw [pos_ino htable]
    exact h.rep.pos_write hne (placeOf_ne_indirect bn) x
  · rw [byteAt_ino htable]
    exact h.rep.byteAt_write hne x j o

theorem Stored.balance {x : Block} (h : Stored sb k bn x s s') (L : Finset Nat) :
    Balance sb k L s s' :=
  .of_same (by rw [h.on.icache]) h.pos h.used

/-- One turn of the loop. -/
theorem Writing.turn {bs : Nat → Byte} {off upto : Nat} {s₁ s₂ : State P} {x : Block}
    (hw : Writing sb k bs off upto s s₁) (hm : Mapped sb k (placeOf (upto / BSIZE)) a s₁ s₂)
    (hoff : off ≤ upto)
    (hin : ∀ o, upto ≤ o → o < upto + m → o / BSIZE = upto / BSIZE ∧ x (o % BSIZE) = bs (o - off))
    (hout : ∀ o, o / BSIZE = upto / BSIZE → ¬ (upto ≤ o ∧ o < upto + m) → x (o % BSIZE) = s₂.disk a (o % BSIZE)) :
    Writing sb k bs off (upto + m) s (s₂.wrote a x) := by
  have hinum : (s₁.icache k).inum = (s.icache k).inum := hw.on.inum
  have hinum₂ : (s₂.icache k).inum = (s.icache k).inum := hm.on.inum.trans hinum
  have hplace : pos sb (table sb s₂ k) s₂.disk ((s₂.icache k).inum, placeOf (upto / BSIZE)) = a := by
    rw [hm.on.inum]
    exact hm.place
  have hs := (hm.loaded hw.loaded).write hplace hm.nonzero x
  -- what was there before the turn, and outside its bytes, is there after it
  have hkeep : ∀ j o, pos sb (table sb s₁ k) s₁.disk (j, placeOf (o / BSIZE)) ≠ 0 →
      ¬ (j = (s.icache k).inum ∧ upto ≤ o ∧ o < upto + m) →
      byteAt sb (table sb (s₂.wrote a x) k) (s₂.wrote a x).disk j o = byteAt sb (table sb s₁ k) s₁.disk j o := by
    intro j o hmapped hno
    rw [hs.bytes, ← hm.byteAt hmapped, hinum₂]
    split
    next hjo =>
      rw [hout o hjo.2 fun e => hno ⟨hjo.1, e⟩]
      unfold byteAt
      rw [hjo.1, hjo.2, ← hinum₂, hplace]
    next => rfl
  refine ⟨hw.on.trans (hm.on.trans (hs.on.onInode k)), hs.loaded, fun i hi => ?_, ?_,
    fun p hp => ?_, fun o ho ho' => ?_, fun j o hmapped hno => ?_,
    fun o ho ho' => ?_⟩
  · rw [hs.inodes i hi, hm.inodes i hi, hw.inodes i hi]
  · show (s₂.icache k).din = _
    rw [hm.din, hw.din]
    rfl
  · rw [hs.pos, hm.keeps p (by rw [hw.keeps p hp]; exact hp), hw.keeps p hp]
  · rw [hs.pos]
    by_cases hnow : o < upto
    · have hmapped := hw.mapped o ho hnow
      rw [hm.keeps _ hmapped]
      exact hmapped
    · rw [(hin o (by omega) ho').1, ← hinum₂, hplace]
      exact hm.nonzero
  · have hold := hw.keeps _ hmapped
    rw [hkeep j o (by rw [hold]; exact hmapped) (by omega), hw.old j o hmapped (by omega)]
  · by_cases hnow : o < upto
    · rw [hkeep _ o (hw.mapped o ho hnow) (by omega), hw.new o ho hnow]
    · obtain ⟨hdiv, hx⟩ := hin o (by omega) ho'
      rw [hs.bytes, if_pos ⟨hinum₂.symm, hdiv⟩, hx]

/-- How many blocks the bytes from `off` on are in. -/
def turns (off n : Nat) : Nat := if n = 0 then 0 else (off + n - 1) / BSIZE - off / BSIZE + 1

theorem copied_all {tot : Nat} (h : ∀ j, j < m → (src (tot + j)).isSome = true) :
    copied src tot m = m := by
  have hself : (List.range m).takeWhile (fun j => (src (tot + j)).isSome) = List.range m :=
    List.takeWhile_eq_self_iff.mpr fun j hj => h j (List.mem_range.mp hj)
  unfold copied
  rw [hself, List.length_range]

/-- The places of the blocks that the bytes from `off` on are in. -/
def Reaches (L : Finset Nat) (off n : Nat) : Prop :=
  ∀ o, off ≤ o → o < off + n → placeOf (o / BSIZE) ∈ L ∧ (NDIRECT ≤ o / BSIZE → NDIRECT ∈ L)

theorem Stops.after (hlogs : Logs sb k L s s') (hbalance : Balance sb k L s s')
    (h : Stops sb s' k L e s'') : Stops sb s k L e s'' := by
  rcases h with ⟨he, hno⟩ | hover
  · exact .inl ⟨he, fun h => hno (hbalance.enough h)⟩
  · exact .inr (.after hlogs.1 hlogs.2 hover)

/-- A block of the file is logged. -/
theorem Stored.logs {x : Block} (h : Stored sb k bn x s s') (ha : a ∈ placed sb s k L) (hlogged : Logged {a} s.log s'.log) :
    Logs sb k L s s' := by
  have hplaced : placed sb s' k L = placed sb s k L := placed_same (by rw [h.on.icache]) h.pos
  unfold Logs
  rw [hplaced]
  exact ⟨subset_rfl, hlogged.mono (singleton_subset_iff.mpr (mem_union_left _ ha))⟩

theorem writeLoop_spec {bs : Nat → Byte} {fuel off upto : Nat} {s₀ : State P}
    (hw : Writing sb k bs off upto s₀ s) (hop : 1 ≤ s.log.outstanding) (hoff : off ≤ upto)
    (hfuel : left ≤ fuel) (hmax : upto + left ≤ MAXFILE * BSIZE)
    (hsrc : ∀ j, j < upto - off + left → src j = some (bs j)) (hL : Reaches L upto left) :
    wp (writeLoop sb k src fuel upto (upto - off) left)
      (fun r s' => r = upto + left ∧ Writing sb k bs off (upto + left) s₀ s' ∧ Logs sb k L s s' ∧ Balance sb k L s s')
      (fun e s' => Stops sb s k L e s') s := by
  induction fuel generalizing upto left s with
  | zero =>
    obtain rfl : left = 0 := by omega
    exact ⟨rfl, hw, .refl k L s, .refl k L s⟩
  | succ fuel ih =>
    unfold writeLoop
    apply wp_ite
    · intro hleft
      subst hleft
      exact ⟨rfl, hw, .refl k L s, .refl k L s⟩
    · intro hleft
      have hpos : 0 < chunk upto left := chunk_pos hleft
      have hle := chunk_le upto left
      have hplace := hL upto le_rfl (by omega)
      have hbn : upto / BSIZE < MAXFILE := Nat.div_lt_of_lt_mul (by rw [mul_comm]; omega)
      rw [wp_bind]
      apply wp_mono (bmap_cost hw.loaded hop hbn hplace.1 hplace.2)
      · intro a s₁ hmap
        obtain ⟨hm, hlogs, hbalance⟩ := hmap
        have hop₁ : 1 ≤ s₁.log.outstanding := by rw [hm.on.outstanding]; exact hop
        have hall : copied src (upto - off) (chunk upto left) = chunk upto left := by
          apply copied_all
          intro j hj
          rw [hsrc _ (by omega)]
          rfl
        simp only [wp_bind, bread, wp_read]
        rw [if_pos hall, wp_bind]
        have hplace₁ : pos sb (table sb s₁ k) s₁.disk ((s₁.icache k).inum, placeOf (upto / BSIZE)) = a := by
          rw [hm.on.inum]
          exact hm.place
        apply wp_mono (logWrite_logged hop₁ _ _)
        · intro _ s₂ hwrote
          obtain ⟨rfl, hlogged⟩ := hwrote
          have hw' : Writing sb k bs off (upto + chunk upto left) s₀ (s₁.wrote a (copyin (s₁.disk a) (upto % BSIZE) src (upto - off)
              (chunk upto left))) := by
            apply hw.turn hm hoff
            · intro o ho ho'
              refine ⟨div_of_chunk ho ho', ?_⟩
              unfold copyin memmove
              rw [hall, mod_of_chunk ho ho', if_pos (by omega)]
              show (src _).getD 0 = _
              rw [show upto - off + (upto % BSIZE + (o - upto) - upto % BSIZE) = o - off by omega, hsrc _ (by omega)]
              rfl
            · intro o hdiv hout
              unfold copyin memmove
              rw [hall, if_neg]
              intro hin
              apply hout
              have hoff := Nat.div_add_mod upto BSIZE
              have ho := Nat.div_add_mod o BSIZE
              rw [hdiv] at ho
              omega
          have hstored := (hm.loaded hw.loaded).write hplace₁ hm.nonzero
            (copyin (s₁.disk a) (upto % BSIZE) src (upto - off) (chunk upto left))
          have hlogs' := hlogs.trans (hstored.logs (mem_placed hplace.1 hplace₁ hm.nonzero) hlogged)
          have hsub : upto + chunk upto left - off = upto - off + chunk upto left := by omega
          have hrest := ih hw' hop₁ (by omega) (show left - chunk upto left ≤ fuel by omega) (by omega) (fun j hj => hsrc j (by omega))
            fun o ho ho' => hL o (by omega) (by omega)
          rw [hsub, show upto + chunk upto left + (left - chunk upto left) = upto + left by omega] at hrest
          apply wp_mono hrest
          · intro r s' hr
            exact ⟨hr.1, hr.2.1, hlogs'.trans hr.2.2.1, (hbalance.trans (hstored.balance L)).trans hr.2.2.2⟩
          · intro e s' he
            exact he.after hlogs' (hbalance.trans (hstored.balance L))
        · rintro e s₂ ⟨rfl, rfl, hfilled⟩
          exact .inr ⟨rfl, hfilled, _, hlogs.1, card_placed_le, hlogs.2⟩
      · exact fun _ _ => id

/-! ## The inode after the loop -/

/-- The inode in slot `k` has been copied to the disk. -/
structure Updated (sb : Super) (k : Fin NINODE) (s s' : State P) : Prop where
  on : OnDisk s s'
  inodes : inode sb s'.disk = table sb s k
  data : ∀ b, sb.datastart ≤ b → s'.disk b = s.disk b
  used : ∀ b, b < sb.size → used sb s'.disk b = used sb s.disk b

theorem iupdate_spec (hi : (s.icache k).inum < sb.ninodes) (hop : 1 ≤ s.log.outstanding) :
    wp (iupdate sb k) (fun _ s' => Updated sb k s s' ∧ ∃ b, Logged {b} s.log s'.log)
      (fun e s' => e = .log .tooBig ∧ s' = s ∧ Filled s.log) s := by
  unfold iupdate
  simp only [wp_bind, bread, wp_read]
  apply wp_mono (logWrite_logged hop _ _)
  · intro _ s' hw
    obtain ⟨rfl, hlogged⟩ := hw
    exact ⟨⟨onDisk_wrote _ _ _, inode_putInode _ _, fun b hb => putInode_data hi hb, fun b _ => used_putInode hi⟩, _, hlogged⟩
  · exact fun _ _ => id

theorem Updated.table (h : Updated sb k s s') : table sb s' k = table sb s k := by
  unfold Fs.table
  rw [h.inodes, h.on.icache]
  unfold Fs.table
  rw [update_idem]

section

variable (h : Updated sb k s s') (hs : Loaded sb k s)
include h hs

theorem Updated.pos : pos sb (Fs.table sb s' k) s'.disk = Fs.pos sb (Fs.table sb s k) s.disk := by
  rw [h.table]
  exact hs.rep.pos_data h.data

theorem Updated.balance (L : Finset Nat) : Balance sb k L s s' :=
  .of_same (by rw [h.on.icache]) (h.pos hs) h.used

theorem Updated.loaded : Loaded sb k s' := by
  refine ⟨?_, ?_, ?_⟩
  · rw [h.table]
    exact hs.rep.congr h.data h.used fun _ _ => ⟨Iff.rfl, rfl, rfl⟩
  · rw [h.on.icache]
    exact hs.inum
  · rw [h.on.icache]
    exact hs.type

theorem Updated.view :
    view sb (Fs.table sb s' k) s'.disk = Fs.view sb (Fs.table sb s k) s.disk := by
  rw [h.table]
  funext i
  unfold Fs.view
  split
  next hi => rw [hs.rep.content_frame (hs.rep.pos_data h.data) h.data hi.1 hi.2 rfl]
  next => rfl

end

/-- The state after the loop, with the new size. -/
def State.resize (s : State P) (k : Fin NINODE) (n : Nat) : State P := s.setInode k ((s.icache k).setDin ((s.icache k).din.setSize n))

theorem resize_self {n : Nat} (h : (s.icache k).din.size.toNat = n) : s.resize k n = s := by
  subst h
  have hdin : (s.icache k).setDin ((s.icache k).din.setSize (s.icache k).din.size.toNat) = s.icache k := by
    unfold Inode.setDin Dinode.setSize
    rw [BitVec.ofNat_toNat, BitVec.setWidth_eq]
  unfold State.resize
  rw [hdin]
  unfold State.setInode
  rw [update_eq_self]

theorem icache_resize (s : State P) (k : Fin NINODE) (n : Nat) :
    (s.resize k n).icache k = (s.icache k).setDin ((s.icache k).din.setSize n) :=
  update_self ..

theorem table_resize (s : State P) (k : Fin NINODE) (n j : Nat) (hj : j < sb.ninodes) :
    table sb (s.resize k n) k j = update (table sb s k) (s.icache k).inum ((s.icache k).din.setSize n) j := by
  have hdisk : ∀ i, i < sb.ninodes → inode sb (s.resize k n).disk i = inode sb s.disk i := fun _ _ => rfl
  exact table_congr hdisk (icache_resize s k n) j hj

section

variable {bs : Nat → Byte} {off n : Nat}

/-- What `writei` has done when it is done. -/
structure Wrote (sb : Super) (k : Fin NINODE) (off : Nat) (bs : List Byte) (s s' : State P) : Prop where
  on : OnInode k s s'
  loaded : Loaded sb k s'
  others : ∀ j, j < sb.ninodes → j ≠ (s.icache k).inum → inode sb s'.disk j = inode sb s.disk j
  self : bs ≠ [] → inode sb s'.disk (s.icache k).inum = (s'.icache k).din
  din : (s'.icache k).din = { (s.icache k).din with
    size := BitVec.ofNat 32 (max (s.icache k).din.size.toNat (off + bs.length)), addrs := (s'.icache k).din.addrs }
  view : view sb (table sb s' k) s'.disk = update (view sb (table sb s k) s.disk) (s.icache k).inum
    ((view sb (table sb s k) s.disk (s.icache k).inum).map fun v => v.write off bs)

theorem toNat_setSize {v : Dinode} (hn : n ≤ MAXFILE * BSIZE) : (v.setSize n).size.toNat = n := by
  have : MAXFILE * BSIZE < 2 ^ 32 := by decide
  show (BitVec.ofNat 32 n).toNat = n
  rw [BitVec.toNat_ofNat, Nat.mod_eq_of_lt (by omega)]

/-- The file has its blocks up to the new size. -/
theorem Writing.resize (hw : Writing sb k bs off (off + n) s s') (h : Loaded sb k s) (hoff : off ≤ (s.icache k).din.size.toNat)
    (hmax : off + n ≤ MAXFILE * BSIZE) : Loaded sb k (s'.resize k (max (s.icache k).din.size.toNat (off + n))) := by
  have hsize : (s'.icache k).din.size = (s.icache k).din.size := by rw [hw.din]
  have hle : (s.icache k).din.size.toNat ≤ MAXFILE * BSIZE := by
    have := h.rep.size_le _ h.inum h.table_type
    rwa [table_self] at this
  have hmax' : max (s.icache k).din.size.toNat (off + n) ≤ MAXFILE * BSIZE := by omega
  have hgrow := hw.loaded.rep.grow (i := (s'.icache k).inum) hmax' (by
    intro hi ht bn hbn
    by_cases hold : bn * BSIZE < (s.icache k).din.size.toNat
    · apply hw.loaded.rep.holes _ hi ht
      rw [table_self, hsize]
      exact hold
    · have hdiv : bn * BSIZE / BSIZE = bn := Nat.mul_div_cancel _ (by decide)
      have := hw.mapped (bn * BSIZE) (by omega) (by omega)
      rw [hdiv] at this
      rw [hw.on.inum]
      exact this)
  rw [table_self] at hgrow
  refine ⟨?_, ?_, ?_⟩
  · exact Rep.ino hgrow (table_resize _ _ _)
  · rw [icache_resize]
    exact hw.loaded.inum
  · rw [icache_resize]
    exact hw.loaded.type

/-- A new size moves no block. -/
theorem pos_resize (s : State P) (m : Nat) : pos sb (table sb (s.resize k m) k) (s.resize k m).disk = pos sb (table sb s k) s.disk := by
  rw [pos_ino (table_resize s k m)]
  apply pos_same
  · rw [table_self]
    rfl
  · rw [table_self]
    exact Iff.rfl

theorem byteAt_resize (s : State P) (m : Nat) :
    byteAt sb (table sb (s.resize k m) k) (s.resize k m).disk = byteAt sb (table sb s k) s.disk := by
  funext i o
  unfold byteAt
  rw [pos_resize]
  rfl

theorem balance_resize (s : State P) (m : Nat) : Balance sb k L s (s.resize k m) :=
  .of_same (by rw [icache_resize]; rfl) (pos_resize s m) fun _ _ => rfl

theorem getElem?_map_range {α : Type} (f : Nat → α) (m o : Nat) : ((List.range m).map f)[o]? = if o < m then some (f o) else none := by
  rw [List.getElem?_map]
  split
  next h => rw [List.getElem?_range h]; rfl
  next h => rw [List.getElem?_eq_none (by rw [List.length_range]; omega)]; rfl

section

variable (hw : Writing sb k bs off (off + n) s s') (h : Loaded sb k s)
  (hoff : off ≤ (s.icache k).din.size.toNat) (hmax : off + n ≤ MAXFILE * BSIZE)
include hw h hoff hmax

/-- The bytes of the file when the loop is done. -/
theorem Writing.content :
    content sb (table sb (s'.resize k (max (s.icache k).din.size.toNat (off + n))) k)
        (s'.resize k (max (s.icache k).din.size.toNat (off + n))).disk (s.icache k).inum =
      overwrite (Fs.content sb (table sb s k) s.disk (s.icache k).inum) off ((List.range n).map bs) := by
  have hle : (s.icache k).din.size.toNat ≤ MAXFILE * BSIZE := by
    have := h.rep.size_le _ h.inum h.table_type
    rwa [table_self] at this
  have hsize : (table sb (s'.resize k (max (s.icache k).din.size.toNat (off + n))) k (s.icache k).inum).size.toNat =
      max (s.icache k).din.size.toNat (off + n) := by
    rw [table_resize _ _ _ _ h.inum, hw.on.inum, update_self]
    exact toNat_setSize (by omega)
  have hlen : off ≤ (Fs.content sb (table sb s k) s.disk (s.icache k).inum).length := by
    rw [length_content, table_self]
    exact hoff
  apply List.ext_getElem?
  intro o
  rw [getElem?_content, hsize, byteAt_resize, getElem?_overwrite hlen, List.length_map,
    List.length_range, getElem?_map_range, getElem?_content,
    table_self]
  by_cases hin : off ≤ o ∧ o < off + n
  · rw [if_pos (by omega), if_pos hin, if_pos (by omega), hw.new o hin.1 hin.2]
  · rw [if_neg hin]
    by_cases ho : o < (s.icache k).din.size.toNat
    · have hmapped := h.rep.mapped h.inum h.table_type (o := o) (by rw [table_self]; exact ho)
      rw [if_pos (by omega), if_pos ho, hw.old _ o hmapped (by omega)]
    · rw [if_neg (by omega), if_neg ho]

/-- The files when the loop is done. -/
theorem Writing.view :
    view sb (table sb (s'.resize k (max (s.icache k).din.size.toNat (off + n))) k)
        (s'.resize k (max (s.icache k).din.size.toNat (off + n))).disk =
      update (Fs.view sb (table sb s k) s.disk) (s.icache k).inum
        ((Fs.view sb (table sb s k) s.disk (s.icache k).inum).map fun v => v.write off ((List.range n).map bs)) := by
  funext j
  by_cases hj : j = (s.icache k).inum
  · subst hj
    have hdin : table sb (s'.resize k (max (s.icache k).din.size.toNat (off + n))) k (s.icache k).inum =
        (s'.icache k).din.setSize (max (s.icache k).din.size.toNat (off + n)) := by
      rw [table_resize _ _ _ _ h.inum, hw.on.inum, update_self]
    have htype : (table sb (s'.resize k (max (s.icache k).din.size.toNat (off + n))) k (s.icache k).inum).type ≠ 0 := by
      rw [hdin]
      exact hw.loaded.type
    rw [update_self, view_eq h.inum h.table_type, view_eq h.inum htype, hw.content h hoff hmax, hdin, table_self, hw.din]
    rfl
  · rw [update_of_ne hj]
    by_cases hlt : j < sb.ninodes
    · have hino : table sb (s'.resize k (max (s.icache k).din.size.toNat (off + n))) k j = table sb s k j := by
        rw [table_resize _ _ _ j hlt, hw.on.inum, update_of_ne hj]
        unfold table
        rw [hw.on.inum, update_of_ne hj, update_of_ne hj, hw.inodes j hlt]
      apply view_congr hino
      intro hlt ht o ho
      rw [byteAt_resize, hw.old j o (h.rep.mapped hlt ht ho) fun e => hj e.1]
    · rw [view_none fun e => absurd e hlt, view_none fun e => absurd e hlt]

/-- The inode is copied to the disk at the end. -/
theorem Writing.wrote (hup : Updated sb k (s'.resize k (max (s.icache k).din.size.toNat (off + n))) s'') :
    Wrote sb k off ((List.range n).map bs) s s'' := by
  have hloaded := hw.resize h hoff hmax
  have hself : s''.icache k = (s'.icache k).setDin ((s'.icache k).din.setSize (max (s.icache k).din.size.toNat (off + n))) := by
    rw [hup.on.icache, icache_resize]
  refine ⟨(hw.on.trans (.setDin _)).trans (hup.on.onInode k), hup.loaded hloaded, fun j hj hne => ?_, fun _ => ?_, ?_, ?_⟩
  · rw [hup.inodes, table_resize _ _ _ j hj, hw.on.inum, update_of_ne hne]
    unfold table
    rw [hw.on.inum, update_of_ne hne, hw.inodes j hj]
  · rw [hup.inodes, table_resize _ _ _ _ h.inum, hw.on.inum, update_self, hself]
    rfl
  · rw [hself, List.length_map, List.length_range]
    show (s'.icache k).din.setSize _ = _
    rw [hw.din]
    rfl
  · rw [hup.view hloaded, hw.view h hoff hmax]

end

/-- Nothing is written, and the inode is left alone. -/
theorem Writing.nothing (hw : Writing sb k bs off (off + 0) s s') (h : Loaded sb k s) (hoff : off ≤ (s.icache k).din.size.toNat)
    (hmax : off + 0 ≤ MAXFILE * BSIZE) : Wrote sb k off ((List.range 0).map bs) s s' := by
  have hview := hw.view h hoff hmax
  rw [add_zero, Nat.max_eq_left hoff, resize_self (by rw [hw.din])] at hview
  refine ⟨hw.on, hw.loaded, fun j hj _ => hw.inodes j hj, fun hne => absurd rfl hne, ?_, hview⟩
  rw [show ((List.range 0).map bs).length = 0 from rfl, add_zero, Nat.max_eq_left hoff, BitVec.ofNat_toNat, BitVec.setWidth_eq]
  exact hw.din

/-- The arguments that `writei` does not refuse. -/
def Fits (size off n : Nat) : Prop := off ≤ size ∧ off + n < 2 ^ 32 ∧ off + n ≤ MAXFILE * BSIZE

/-- The blocks that are logged when the places of `L` are written: those there, the blocks of the
bitmap that the missing ones are taken from, and the inode's block. -/
def cost (sb : Super) (s : State P) (k : Fin NINODE) (L : Finset Nat) : Nat :=
  L.card + min (bitmaps sb).card (L.card - (placed sb s k L).card) + 1

/-- The log overflows, filled by fewer than `m` distinct blocks. -/
def TooBig (m : Nat) (s : State P) (e : Stop) (s' : State P) : Prop :=
  e = .log .tooBig ∧ Filled s'.log ∧ ∃ W : Finset Nat, W.card < m ∧ Logged W s.log s'.log

theorem Logs.card_lt (h : Logs sb k L s s') : (touched sb (placed sb s k L) (placed sb s' k L)).card < cost sb s k L :=
  Nat.lt_succ_of_le (card_touched h.1 card_placed_le)

/-- `writei` with all the bytes readable that it reads. -/
theorem writei_spec (h : Loaded sb k s) (hop : 1 ≤ s.log.outstanding) (hn : n < 2 ^ 32)
    (hsrc : Fits (s.icache k).din.size.toNat off n → ∀ j, j < n → src j = some (bs j)) (hL : Reaches L off n) :
    wp (writei sb k src off n)
      (fun r s' => (Fits (s.icache k).din.size.toNat off n → r = some n ∧ Wrote sb k off ((List.range n).map bs) s s') ∧
        (¬ Fits (s.icache k).din.size.toNat off n → r = none ∧ s' = s) ∧ Spends (cost sb s k L) s s' ∧ Balance sb k L s s')
      (fun e s' => Fits (s.icache k).din.size.toNat off n ∧ (e = .balloc ∧ ¬ Enough sb s k L ∨ TooBig (cost sb s k L) s e s')) s := by
  have hspent : Spends (cost sb s k L) s s := (Logged.refl ∅ s.log).spends (Nat.zero_le _)
  have hmax : MAXFILE * BSIZE < 2 ^ 32 := by decide
  unfold writei
  simp only [wp_bind, wp_read]
  apply wp_ite
  · intro hbad
    have hno : ¬ Fits (s.icache k).din.size.toNat off n := by
      rintro ⟨hle, hlt, -⟩
      rw [Nat.mod_eq_of_lt hlt] at hbad
      omega
    exact ⟨fun hfits => absurd hfits hno, fun _ => ⟨rfl, rfl⟩, hspent, .refl k L s⟩
  · intro hgood
    have hlt : off + n < 2 ^ 32 := by omega
    rw [Nat.mod_eq_of_lt hlt]
    apply wp_ite
    · intro hbig
      have hno : ¬ Fits (s.icache k).din.size.toNat off n := fun hfits => absurd hfits.2.2 (by omega)
      exact ⟨fun hfits => absurd hfits hno, fun _ => ⟨rfl, rfl⟩, hspent, .refl k L s⟩
    · intro hsmall
      have hle : off ≤ (s.icache k).din.size.toNat := by omega
      have hfits : Fits (s.icache k).din.size.toNat off n := ⟨hle, hlt, by omega⟩
      have hloop : wp (writeLoop sb k src n off (off - off) n) _ _ s := writeLoop_spec (Writing.start h bs off) hop (Nat.le_refl off)
        (Nat.le_refl n) (by omega) (fun j hj => hsrc hfits j (by omega)) hL
      rw [Nat.sub_self] at hloop
      rw [wp_bind]
      apply wp_mono hloop
      · intro r s₁ hr
        obtain ⟨rfl, hw, hlogs, hbalance⟩ := hr
        rw [wp_bind]
        apply wp_onlyIf
        · intro hpos
          -- the two branches leave the same state
          have hresize : wp (Prog.onlyIf (off + n > (s.icache k).din.size.toNat) (setDin k (·.setSize (off + n))))
              (fun _ s₂ => s₂ = s₁.resize k (max (s.icache k).din.size.toNat (off + n))) never s₁ := by
            apply wp_onlyIf
            · intro hgrow
              rw [Nat.max_eq_right (by omega)]
              rfl
            · intro hkeep
              rw [Nat.max_eq_left (by omega)]
              exact (resize_self (by rw [hw.din])).symm
          rw [wp_bind]
          apply wp_mono hresize
          · intro _ s₂ hs₂
            subst hs₂
            have hop₂ : 1 ≤ (s₁.resize k (max (s.icache k).din.size.toNat (off + n))).log.outstanding := by
              show 1 ≤ s₁.log.outstanding
              rw [hw.on.outstanding]
              exact hop
            apply wp_mono (iupdate_spec (hw.resize h hle (by omega)).inum hop₂)
            · rintro _ s₃ ⟨hup, b, hlogged⟩
              have hspent₁ : Spends (cost sb s k L) s s₃ :=
                ((hlogs.2.mono (subset_insert b _)).trans (hlogged.mono (singleton_subset_iff.mpr (mem_insert_self _ _)))).spends
                  ((card_insert_le _ _).trans hlogs.card_lt)
              exact ⟨fun _ => ⟨rfl, hw.wrote h hle (by omega) hup⟩, fun hno => absurd hfits hno, hspent₁,
                (hbalance.trans (balance_resize _ _)).trans (hup.balance (hw.resize h hle (by omega)) L)⟩
            · rintro e s₃ ⟨rfl, rfl, hfilled⟩
              exact ⟨hfits, .inr ⟨rfl, hfilled, _, hlogs.card_lt, hlogs.2⟩⟩
          · exact fun _ _ => False.elim
        · intro hzero
          obtain rfl : n = 0 := by omega
          exact ⟨fun _ => ⟨rfl, hw.nothing h hle (by omega)⟩, fun hno => absurd hfits hno,
            hlogs.2.spends (le_of_lt hlogs.card_lt), hbalance⟩
      · intro e s₁ he
        refine ⟨hfits, he.imp id ?_⟩
        rintro ⟨he, hfilled, B, hB, hcard, hlogged⟩
        exact ⟨he, hfilled, _, Nat.lt_succ_of_le (card_touched hB hcard), hlogged⟩

theorem Wrote.content {bs : List Byte} (hw : Wrote sb k off bs s s') (h : Loaded sb k s) :
    content sb (table sb s' k) s'.disk (s.icache k).inum =
      overwrite (Fs.content sb (table sb s k) s.disk (s.icache k).inum) off bs := by
  have hview := congrFun hw.view (s.icache k).inum
  have htype := hw.loaded.table_type
  rw [hw.on.inum] at htype
  rw [update_self, view_eq h.inum h.table_type, view_eq h.inum htype] at hview
  exact congrArg FileView.content (Option.some.inj hview)

theorem Wrote.size {bs : List Byte} (hw : Wrote sb k off bs s s') (h : Loaded sb k s) (hmax : off + bs.length ≤ MAXFILE * BSIZE) :
    (s'.icache k).din.size.toNat = max (s.icache k).din.size.toNat (off + bs.length) := by
  have hle := h.rep.size_le _ h.inum h.table_type
  rw [table_self] at hle
  rw [hw.din]
  exact toNat_setSize (v := (s.icache k).din) (by omega)

/-- The places of the blocks that the bytes from `off` on are in, that of the indirect block
included. -/
def needed (off n : Nat) : Finset Nat :=
  if n = 0 then ∅
  else (Finset.Icc (off / BSIZE) ((off + n - 1) / BSIZE)).image placeOf ∪ if NDIRECT ≤ (off + n - 1) / BSIZE then {NDIRECT} else ∅

theorem reaches_needed (off n : Nat) : Reaches (needed off n) off n := by
  intro o ho ho'
  have hlast : o / BSIZE ≤ (off + n - 1) / BSIZE := Nat.div_le_div_right (by omega)
  unfold needed
  rw [if_neg (by omega)]
  constructor
  · apply mem_union_left
    apply mem_image_of_mem
    exact mem_Icc.mpr ⟨Nat.div_le_div_right ho, hlast⟩
  · intro hind
    apply mem_union_right
    rw [if_pos (by omega)]
    exact mem_singleton_self _

/-- `readi` returns the bytes of the content. -/
theorem map_readi {r : Nat × Sector} (hcount : r.1 = readCount (s.icache k).din.size.toNat off n)
    (hbytes : ∀ j, j < r.1 → r.2 j = byteAt sb (table sb s k) s.disk (s.icache k).inum (off + j)) :
    (List.range r.1).map r.2 = if off ≤ (s.icache k).din.size.toNat ∧ off + n < 2 ^ 32 then
      ((content sb (table sb s k) s.disk (s.icache k).inum).drop off).take n else [] := by
  unfold readCount at hcount
  split
  next hgood =>
    rw [if_pos hgood] at hcount
    apply List.ext_getElem?
    intro o
    rw [getElem?_map_range, List.getElem?_take, List.getElem?_drop, getElem?_content, table_self]
    by_cases ho : o < r.1
    · rw [if_pos ho, if_pos (by omega), if_pos (by omega), hbytes o ho]
    · rw [if_neg ho]
      split
      next => rw [if_neg (by omega)]
      next => rfl
  next hbad =>
    rw [if_neg hbad] at hcount
    rw [hcount]
    rfl

/-- The content has been overwritten, and the other files are as they were. -/
def Overwritten (sb : Super) (k : Fin NINODE) (off : Nat) (bs : List Byte) (s s' : State P) : Prop :=
  Loaded sb k s' ∧ (s'.icache k).din.size.toNat = max (s.icache k).din.size.toNat (off + bs.length) ∧
    content sb (table sb s' k) s'.disk (s.icache k).inum = overwrite (content sb (table sb s k) s.disk (s.icache k).inum) off bs ∧
    ∀ j, j ≠ (s.icache k).inum → view sb (table sb s' k) s'.disk j = view sb (table sb s k) s.disk j

/-- `writei` and `readi` on a well-formed inode are the operations of an array of bytes. Only the
log can be too small for a write, and it is not if there is room for the distinct blocks that are
logged. -/
theorem inode_is_byte_array (sb : Super) (k : Fin NINODE) (s : State P) (h : Loaded sb k s) (hop : 1 ≤ s.log.outstanding)
    (off n : BitVec 32) :
    (∀ src : Nat → Option Byte, (∀ j, j < n.toNat → (src j).isSome = true) →
      (Fits (s.icache k).din.size.toNat off.toNat n.toNat → Enough sb s k (needed off.toNat n.toNat) →
        (Roomy s.log (cost sb s k (needed off.toNat n.toNat)) → ∃ s', writei sb k src off.toNat n.toNat s = .ok (some n.toNat) s' ∧
          Overwritten sb k off.toNat ((List.range n.toNat).map fun j => (src j).getD 0) s s') ∧
        wp (writei sb k src off.toNat n.toNat)
          (fun r s' => r = some n.toNat ∧ Overwritten sb k off.toNat ((List.range n.toNat).map fun j => (src j).getD 0) s s')
          (TooBig (cost sb s k (needed off.toNat n.toNat)) s) s) ∧
      (¬ Fits (s.icache k).din.size.toNat off.toNat n.toNat → writei sb k src off.toNat n.toNat s = .ok none s)) ∧
    ∀ dst : Nat → Bool, (∀ j, j < n.toNat → dst j = true) →
      ∃ r, readi sb k dst off.toNat n.toNat s = .ok r s ∧
        (List.range r.1).map r.2 = if off.toNat ≤ (s.icache k).din.size.toNat ∧ off.toNat + n.toNat < 2 ^ 32 then
          ((content sb (table sb s k) s.disk (s.icache k).inum).drop off.toNat).take n.toNat else [] := by
  refine ⟨fun src hsrc => ?_, fun dst hdst => ?_⟩
  · have hbytes : ∀ j, j < n.toNat → src j = some ((src j).getD 0) := by
      intro j hj
      obtain ⟨b, hb⟩ := Option.isSome_iff_exists.mp (hsrc j hj)
      rw [hb]
      rfl
    have hwp := writei_spec h hop n.isLt (fun _ => hbytes) (reaches_needed off.toNat n.toNat)
    constructor
    · intro hfits henough
      have hwrites : wp (writei sb k src off.toNat n.toNat)
          (fun r s' => r = some n.toNat ∧ Overwritten sb k off.toNat ((List.range n.toNat).map fun j => (src j).getD 0) s s')
          (TooBig (cost sb s k (needed off.toNat n.toNat)) s) s := by
        apply wp_mono hwp
        · intro r s' hr
          obtain ⟨rfl, hwrote⟩ := hr.1 hfits
          refine ⟨rfl, hwrote.loaded, hwrote.size h ?_, hwrote.content h, fun j hj => ?_⟩
          · rw [List.length_map, List.length_range]
            exact hfits.2.2
          · rw [hwrote.view, update_of_ne hj]
        · exact fun e s' he => he.2.resolve_left fun hfull => hfull.2 henough
      refine ⟨fun hroom => ?_, hwrites⟩
      have hnever : ∀ e s', ¬ TooBig (cost sb s k (needed off.toNat n.toNat)) s e s' := by
        rintro e s' ⟨-, hfilled, W, hcard, hlogged⟩
        exact hlogged.not_roomy hfilled hcard hroom
      obtain ⟨r, s', hok, rfl, hover⟩ := wp_returns (wp_mono hwrites (fun _ _ => id) hnever)
      exact ⟨s', hok, hover⟩
    · intro hno
      have hreturns : wp (writei sb k src off.toNat n.toNat) (fun r s' => r = none ∧ s' = s) never s := by
        apply wp_mono hwp
        · intro r s' hr
          exact hr.2.1 hno
        · intro e s' he
          exact hno he.1
      obtain ⟨r, s', hok, rfl, rfl⟩ := wp_returns hreturns
      exact hok
  · obtain ⟨r, s', hok, rfl, hcount, hbytes⟩ := wp_returns (readi_spec h off.isLt n.isLt hdst)
    exact ⟨r, hok, map_readi hcount hbytes⟩

/-- A run of free blocks is enough. -/
theorem enough_of_free {c : Nat} (hL : L.card ≤ c)
    (hfree : ∀ b, a ≤ b → b < a + c → b < sb.size ∧ used sb s.disk b = false) :
    Enough sb s k L := by
  have hsub : Finset.Ico a (a + c) ⊆ Owned.unused (used sb s.disk) sb.size := by
    intro b hb
    obtain ⟨hlo, hhi⟩ := mem_Ico.mp hb
    obtain ⟨hlt, hunused⟩ := hfree b hlo hhi
    exact mem_filter.mpr ⟨mem_range.mpr hlt, hunused⟩
  calc (Owned.vacant (pos sb (table sb s k) s.disk) ({(s.icache k).inum} ×ˢ L)).card
      ≤ ({(s.icache k).inum} ×ˢ L).card := card_filter_le _ _
    _ = L.card := by rw [card_product, card_singleton, one_mul]
    _ ≤ (Finset.Ico a (a + c)).card := by rw [Nat.card_Ico]; omega
    _ ≤ _ := card_le_card hsub

/-- Below the size nothing is needed. -/
theorem enough_below (h : Loaded sb k s) (hsize : off + n ≤ (s.icache k).din.size.toNat) : Enough sb s k (needed off n) := by
  have hthere : ∀ bn, bn ≤ (off + n - 1) / BSIZE → n ≠ 0 → pos sb (table sb s k) s.disk ((s.icache k).inum, placeOf bn) ≠ 0 := by
    intro bn hbn hn
    apply h.rep.holes _ h.inum h.table_type
    rw [table_self]
    have hle : bn * BSIZE ≤ (off + n - 1) / BSIZE * BSIZE := Nat.mul_le_mul_right BSIZE hbn
    have hdiv := Nat.div_mul_le_self (off + n - 1) BSIZE
    omega
  have hnone : Owned.vacant (pos sb (table sb s k) s.disk) ({(s.icache k).inum} ×ˢ needed off n) = ∅ := by
    apply filter_eq_empty_iff.mpr
    intro p hp
    obtain ⟨hi, hl⟩ := mem_product.mp hp
    obtain ⟨i, l⟩ := p
    obtain rfl : i = (s.icache k).inum := mem_singleton.mp hi
    unfold needed at hl
    split at hl
    next => exact absurd hl (notMem_empty _)
    next hn =>
      rcases mem_union.mp hl with hl | hl
      · obtain ⟨bn, hbn, rfl⟩ := mem_image.mp hl
        exact hthere bn (mem_Icc.mp hbn).2 hn
      · split at hl
        next hind =>
          obtain rfl : l = NDIRECT := mem_singleton.mp hl
          rw [h.pos, addrAt_le le_rfl]
          exact (h.addr_indirect (Nat.not_lt.mpr hind) (hthere _ le_rfl hn)).2.1
        next => exact absurd hl (notMem_empty _)
  unfold Enough
  rw [hnone, card_empty]
  exact Nat.zero_le _

theorem card_needed (off n : Nat) : (needed off n).card ≤ turns off n + 1 := by
  unfold needed turns
  split
  next => exact Nat.zero_le _
  next =>
    have himage := card_image_le (s := Finset.Icc (off / BSIZE) ((off + n - 1) / BSIZE)) (f := placeOf)
    have hind : (if NDIRECT ≤ (off + n - 1) / BSIZE then ({NDIRECT} : Finset Nat) else ∅).card ≤ 1 := by
      split
      next => exact Nat.le_of_eq (card_singleton _)
      next => exact Nat.zero_le _
    rw [Nat.card_Icc] at himage
    apply (card_union_le _ _).trans
    have hle : off / BSIZE ≤ (off + n - 1) / BSIZE := Nat.div_le_div_right (by omega)
    omega

theorem cost_le (sb : Super) (s : State P) (k : Fin NINODE) (off n : Nat) : cost sb s k (needed off n) ≤ 2 * turns off n + 3 := by
  have := card_needed off n
  unfold cost
  omega

theorem enough_mounted [DecidableEq P] (p : P) (size outstanding : Int) (root : Fin NINODE) {off n : Nat} (h : turns off n ≤ 952) :
    Enough mkfsSuper (mounted p size outstanding root) k (needed off n) := by
  apply enough_of_free (a := nmeta + 1) (c := 953)
  · have := card_needed off n
    omega
  · intro b hlo hhi
    have hb : b < mkfsSuper.size := by
      rw [show mkfsSuper.size = nmeta + 1 + 953 by decide]
      exact hhi
    refine ⟨hb, (used_image hb).trans ?_⟩
    rw [decide_eq_false_iff_not]
    omega

theorem card_bitmaps : (bitmaps mkfsSuper).card = 1 := by decide +kernel

/-- Twenty blocks are written over the root directory of an empty disk, where there was one, and it
is read. -/
theorem inode_is_byte_array_root :
    (∃ s', writei mkfsSuper slot0 (fun j => some (BitVec.ofNat 8 j)) 0 (20 * BSIZE)
      (mounted () LOGSIZE 1 slot0) = .ok (some (20 * BSIZE)) s' ∧
      (s'.icache slot0).din.size.toNat = 20 * BSIZE) ∧
    writei mkfsSuper slot0 (fun _ => some 0) (BSIZE + 1) 5 (mounted () LOGSIZE 1 slot0) = .ok none (mounted () LOGSIZE 1 slot0) ∧
    ∃ r, readi mkfsSuper slot0 (fun _ => true) 0 4 (mounted () LOGSIZE 1 slot0) = .ok r (mounted () LOGSIZE 1 slot0) ∧
      (List.range r.1).map r.2 = [1, 0, 46, 0] := by
  have harray := inode_is_byte_array mkfsSuper slot0 (mounted () LOGSIZE 1 slot0) (loaded_mounted _ _ _ _) (by decide)
  refine ⟨?_, ?_, ?_⟩
  · have hcost : cost mkfsSuper (mounted () LOGSIZE 1 slot0) slot0 (needed 0 20480) ≤ 23 := by
      have hneeded : _ ≤ 21 := card_needed 0 20480
      unfold cost
      rw [card_bitmaps]
      omega
    obtain ⟨s', hok, -, hsize, -⟩ := (((harray 0#32 20480#32).1 (fun j => some (BitVec.ofNat 8 j)) fun _ _ => rfl).1
      ⟨by decide, by decide, by decide⟩ (enough_mounted _ _ _ _ (by decide))).1 (Roomy.mono ⟨by decide, by decide, by decide⟩ hcost)
    rw [List.length_map, List.length_range] at hsize
    exact ⟨s', hok, hsize⟩
  · exact ((harray 1025#32 5#32).1 (fun _ => some 0) fun _ _ => rfl).2 fun hfits => absurd hfits.1 (by decide)
  · obtain ⟨r, hok, hbytes⟩ := (harray 0#32 4#32).2 (fun _ => true) fun _ _ => rfl
    refine ⟨r, hok, hbytes.trans ?_⟩
    decide +kernel

/-- Forty blocks are too many for one transaction, however empty the log and the disk are. -/
theorem writei_overflows_log :
    Loaded mkfsSuper slot0 (mounted () LOGSIZE 1 slot0) ∧
      Fits ((mounted () LOGSIZE 1 slot0).icache slot0).din.size.toNat 0 (40 * BSIZE) ∧
      Enough mkfsSuper (mounted () LOGSIZE 1 slot0) slot0 (needed 0 (40 * BSIZE)) ∧
      (writei mkfsSuper slot0 (fun _ => some 0) 0 (40 * BSIZE) (mounted () LOGSIZE 1 slot0)).stopped = some (.log .tooBig) :=
  ⟨loaded_mounted _ _ _ _, ⟨by decide, by decide, by decide⟩, enough_mounted _ _ _ _ (by decide), by decide +kernel⟩

end

end Xv6.Fs
