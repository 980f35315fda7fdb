import Mathlib.Data.List.Nodup
import Mathlib.Data.Option.Basic

/-!
# Circular lists linked both ways

The nodes are a head, written `none`, and the members `some a`. `Path` follows the links from one
node to another, both ways at once; a circular list is a path from the head to itself. An edit joins
two nodes (`join`), so that `unlink` is one join and `pushFront` two. A rule about the start of a
path comes from the one about its end by reading the links backwards (`flip`).
-/

namespace Xv6

open Function List

structure Links (A : Type) where
  next : Option A → Option A
  prev : Option A → Option A

namespace Links

variable {A : Type}

/-- From `a` over the members `L` to `b`. -/
def Path (l : Links A) : Option A → List A → Option A → Prop
  | a, [], b => l.next a = b ∧ l.prev b = a
  | a, x :: L, b => (l.next a = some x ∧ l.prev (some x) = a) ∧ l.Path (some x) L b

/-- The links read backwards. -/
def flip (l : Links A) : Links A := ⟨l.prev, l.next⟩

variable {l l' : Links A} {a b c : Option A} {x : A} {L M : List A}

theorem path_append : l.Path a (L ++ x :: M) b ↔ l.Path a L (some x) ∧ l.Path (some x) M b := by
  induction L generalizing a with
  | nil => rfl
  | cons y L ih =>
    show _ ∧ l.Path (some y) (L ++ x :: M) b ↔ (_ ∧ l.Path (some y) L (some x)) ∧ _
    rw [ih]
    exact and_assoc.symm

/-- A path reads `next` of all its nodes but the last, and `prev` of all but the first. -/
theorem Path.congr (h : l.Path a L b) (hnext : ∀ y, y = a ∨ y ∈ L.map some → l'.next y = l.next y)
    (hprev : ∀ y, y = b ∨ y ∈ L.map some → l'.prev y = l.prev y) : l'.Path a L b := by
  induction L generalizing a with
  | nil => exact ⟨(hnext a (.inl rfl)).trans h.1, (hprev b (.inl rfl)).trans h.2⟩
  | cons x L ih =>
    obtain ⟨⟨hn, hp⟩, hrest⟩ := h
    have hx : some x ∈ (x :: L).map some := mem_cons_self
    refine ⟨⟨(hnext a (.inl rfl)).trans hn, (hprev _ (.inr hx)).trans hp⟩, ih hrest ?_ ?_⟩
    · rintro y (rfl | hy)
      · exact hnext _ (.inr hx)
      · exact hnext y (.inr (mem_cons_of_mem _ hy))
    · rintro y (rfl | hy)
      · exact hprev y (.inl rfl)
      · exact hprev y (.inr (mem_cons_of_mem _ hy))

theorem Path.reverse (h : l.Path a L b) : l.flip.Path b L.reverse a := by
  induction L generalizing a with
  | nil => exact ⟨h.2, h.1⟩
  | cons x L ih =>
    obtain ⟨⟨hn, hp⟩, hrest⟩ := h
    rw [reverse_cons, path_append]
    exact ⟨ih hrest, hp, hn⟩

/-- The node before the last one. -/
theorem Path.prev_mem (h : l.Path a L b) : l.prev b ∈ a :: L.map some := by
  induction L generalizing a with
  | nil =>
    rw [h.2]
    exact mem_cons_self
  | cons x L ih => exact mem_cons_of_mem _ (ih h.2)

theorem Path.prev_next (h : l.Path a L b) : ∀ y ∈ a :: L.map some, l.prev (l.next y) = y := by
  induction L generalizing a with
  | nil =>
    intro y hy
    cases mem_singleton.mp hy
    rw [h.1, h.2]
  | cons x L ih =>
    intro y hy
    rcases mem_cons.mp hy with rfl | hy
    · rw [h.1.1, h.1.2]
    · exact ih h.2 y hy

/-- In a circular list through all members the links are inverse to each other. -/
theorem Path.inverse (h : l.Path none L none) (hall : ∀ x, x ∈ L) (y : Option A) :
    l.prev (l.next y) = y ∧ l.next (l.prev y) = y := by
  have hmem : ∀ M : List A, (∀ x, x ∈ M) → y ∈ none :: M.map some := by
    intro M hM
    cases y with
    | none => exact mem_cons_self
    | some x => exact mem_cons_of_mem _ (mem_map_of_mem (hM x))
  exact ⟨h.prev_next y (hmem L hall), h.reverse.prev_next y (hmem L.reverse fun x => mem_reverse.mpr (hall x))⟩

theorem none_notMem (L : List A) : none ∉ L.map some := by simp

theorem some_mem : some x ∈ L.map some ↔ x ∈ L := by simp

theorem nodup_nodes (h : L.Nodup) : (none :: L.map some).Nodup :=
  nodup_cons.mpr ⟨none_notMem L, h.map (Option.some_injective A)⟩

section

variable [DecidableEq A]

/-- Make `b` the node after `a`. -/
def join (l : Links A) (a b : Option A) : Links A :=
  ⟨update l.next a b, update l.prev b a⟩

/-- Take a member out. -/
def unlink (l : Links A) (x : A) : Links A :=
  let l := { l with prev := update l.prev (l.next (some x)) (l.prev (some x)) }
  { l with next := update l.next (l.prev (some x)) (l.next (some x)) }

/-- Put a member in after the head. -/
def pushFront (l : Links A) (x : A) : Links A :=
  let l := { l with next := update l.next (some x) (l.next none) }
  let l := { l with prev := update l.prev (some x) none }
  let l := { l with prev := update l.prev (l.next none) (some x) }
  { l with next := update l.next none (some x) }

/-- The end of a path is moved to `b`. -/
theorem Path.join_end (h : l.Path a L c) (hnodup : (a :: L.map some).Nodup) (hb : b ∉ L.map some) :
    (l.join (l.prev c) b).Path a L b := by
  induction L generalizing a with
  | nil =>
    obtain ⟨-, hp⟩ := h
    rw [hp]
    exact ⟨update_self .., update_self ..⟩
  | cons x L ih =>
    obtain ⟨⟨hn, hp⟩, hrest⟩ := h
    obtain ⟨ha, hnodup⟩ := nodup_cons.mp hnodup
    have hx : b ≠ some x := fun e => hb (e ▸ mem_cons_self)
    -- the node before the end comes after `a`
    have hne : a ≠ l.prev c := fun e => ha (e ▸ hrest.prev_mem)
    refine ⟨⟨?_, ?_⟩, ih hrest hnodup fun h => hb (mem_cons_of_mem _ h)⟩
    · exact (update_of_ne hne ..).trans hn
    · exact (update_of_ne (Ne.symm hx) ..).trans hp

/-- The start of a path is moved to `b`. -/
theorem Path.join_start (h : l.Path c L a) (hnodup : (a :: L.map some).Nodup) (hb : b ∉ L.map some) :
    (l.join b (l.next c)).Path b L a := by
  have hnodup' : (a :: L.reverse.map some).Nodup := by
    rw [map_reverse]
    exact (List.Perm.cons a (reverse_perm _)).nodup_iff.mpr hnodup
  have hb' : b ∉ L.reverse.map some := by
    rw [map_reverse, mem_reverse]
    exact hb
  have hback := (h.reverse.join_end hnodup' hb').reverse
  rw [reverse_reverse] at hback
  exact hback

theorem unlink_eq (l : Links A) (x : A) : l.unlink x = l.join (l.prev (some x)) (l.next (some x)) := by
  have hprev : update l.prev (l.next (some x)) (l.prev (some x)) (some x) = l.prev (some x) := by
    rcases eq_or_ne (some x) (l.next (some x)) with h | h
    · rw [← h, update_self]
    · rw [update_of_ne h]
  show Links.mk (update l.next (update l.prev _ _ (some x)) _) _ = _
  rw [hprev]
  rfl

theorem Path.unlink (h : l.Path none (L ++ x :: M) none) (hnodup : (L ++ x :: M).Nodup) :
    (l.unlink x).Path none (L ++ M) none := by
  obtain ⟨hL, hM⟩ := path_append.mp h
  obtain ⟨hLnodup, hMnodup, hdisj⟩ := nodup_append.mp hnodup
  rw [unlink_eq]
  cases M with
  | nil =>
    rw [hM.1, append_nil]
    exact hL.join_end (nodup_nodes hLnodup) (none_notMem L)
  | cons y M =>
    obtain ⟨⟨hn, -⟩, hrest⟩ := hM
    have hyM := (nodup_cons.mp (nodup_cons.mp hMnodup).2).1
    have hout : ∀ w ∈ y :: M, w ∉ L := fun w hw hL => hdisj w hL w (mem_cons_of_mem _ hw) rfl
    have hyL : some y ∉ L.map some := fun h => hout y mem_cons_self (some_mem.mp h)
    rw [hn, path_append]
    refine ⟨hL.join_end (nodup_nodes hLnodup) hyL, hrest.congr ?_ ?_⟩
    · -- `next` changed at a node before `x`
      intro z hz
      have hz : z ∈ (y :: M).map some := mem_cons.mpr hz
      obtain ⟨w, hw, rfl⟩ := mem_map.mp hz
      have hne : some w ≠ l.prev (some x) := fun e => by
        rcases mem_cons.mp (e ▸ hL.prev_mem) with hz | hz
        · cases hz
        · exact hout w hw (some_mem.mp hz)
      exact update_of_ne hne ..
    · -- `prev` changed at the node after `x`
      intro z hz
      have hne : z ≠ some y := by
        rintro rfl
        rcases hz with hz | hz
        · cases hz
        · exact hyM (some_mem.mp hz)
      exact update_of_ne hne ..

theorem Path.pushFront (h : l.Path none L none) (hnodup : L.Nodup) (hx : x ∉ L) :
    (l.pushFront x).Path none (x :: L) none := by
  have hxL : some x ∉ L.map some := fun h => hx (some_mem.mp h)
  have hne : some x ≠ l.next none := fun e => by
    rcases mem_cons.mp (h.reverse.prev_mem) with hz | hz
    · cases e.trans hz
    · rw [map_reverse, mem_reverse] at hz
      exact hxL (e ▸ hz)
  have hnext : (l.pushFront x).next = update (l.join (some x) (l.next none)).next none (some x) := rfl
  have hprev : (l.pushFront x).prev = update (l.join (some x) (l.next none)).prev (some x) none := by
    show update (update l.prev (some x) none) (l.next none) (some x) = _
    exact update_comm hne ..
  refine ⟨⟨?_, ?_⟩, (h.join_start (nodup_nodes hnodup) hxL).congr ?_ ?_⟩
  · rw [hnext, update_self]
  · rw [hprev, update_self]
  · rintro y hy
    rw [hnext, update_of_ne]
    rintro rfl
    exact hy.elim nofun (none_notMem L)
  · rintro y hy
    rw [hprev, update_of_ne]
    rintro rfl
    exact hy.elim nofun hxL

/-- Members pushed one after the other. -/
theorem Path.pushAll (h : l.Path none L none) (hnodup : (M.reverse ++ L).Nodup) :
    (M.foldl Links.pushFront l).Path none (M.reverse ++ L) none := by
  induction M generalizing l L with
  | nil => exact h
  | cons x M ih =>
    rw [reverse_cons, append_assoc] at hnodup ⊢
    have hL := (nodup_append.mp hnodup).2.1
    obtain ⟨hx, hL⟩ := nodup_cons.mp hL
    exact ih (h.pushFront hL hx) hnodup

end

/-! ## Loops over the list -/

/-- The first member with `p` on the way along `next`, over at most `n` nodes. -/
def scan (next : Option A → Option A) (p : A → Bool) : Nat → Option A → Option (Option A)
  | 0, _ => none
  | _ + 1, none => some none
  | n + 1, some x => if p x then some (some x) else scan next p n (next (some x))

theorem Path.scan_next (h : l.Path a L none) (p : A → Bool) :
    scan l.next p (L.length + 1) (l.next a) = some (L.find? p) := by
  induction L generalizing a with
  | nil =>
    rw [h.1]
    rfl
  | cons x L ih =>
    rw [h.1.1, scan.eq_def]
    cases hp : p x with
    | true => simp [hp]
    | false => simpa [hp] using ih h.2

theorem Path.scan_prev (h : l.Path none L none) (p : A → Bool) :
    scan l.prev p (L.length + 1) (l.prev none) = some (L.reverse.find? p) := by
  have hback := h.reverse.scan_next p
  rw [length_reverse] at hback
  exact hback

end Links

end Xv6
