import Mathlib.Algebra.Order.Pi
import Xv6.Fs.Array

/-!
# The inode cache inside a call

`Ok` says that the kernel's tables agree with the disk: the entries in use are of different inodes,
allocated ones, and their copies are those on the disk. It holds between the functions of `fs.c`.
`Effect` says what such a function has done: to the files, to the reference counts, to the log and
the bitmap; effects compose (`Effect.trans`). A function that does not return has run out of
something (`Short`).
-/

namespace Xv6.Fs

open Prog Finset
open Function (update_eq_self update update_self update_of_ne update_idem)
open Bitmap (Roomy)

variable {P : Type} {sb : Super} {s s' s'' : State P} {k : Fin NINODE} {L L' : Fin NINODE → Bool}

/-- An entry of `icache` that is in use. -/
structure Entry (sb : Super) (d : Disk) (ip : Inode) : Prop where
  inum : ip.inum < sb.ninodes
  type : (inode sb d ip.inum).type ≠ 0
  din : ip.valid = true → ip.din = inode sb d ip.inum

/-- The kernel's tables agree with the disk. The entries of `L` are locked. -/
structure Ok (sb : Super) (L : Fin NINODE → Bool) (s : State P) : Prop where
  rep : Rep sb (inode sb s.disk) s.disk
  nonneg : ∀ k, 0 ≤ (s.icache k).ref
  uniq : ∀ k k', 0 < (s.icache k).ref → 0 < (s.icache k').ref → (s.icache k').inum = (s.icache k).inum → k' = k
  entry : ∀ k, 0 < (s.icache k).ref → Entry sb s.disk (s.icache k)
  locked : ∀ k, (s.icache k).locked = L k
  held : ∀ k, L k = true → 0 < (s.icache k).ref

/-- Entry `k` is in use for inode `i`, and has been read. -/
structure Held (k : Fin NINODE) (i : Nat) (s : State P) : Prop where
  ref : 0 < (s.icache k).ref
  inum : (s.icache k).inum = i
  valid : (s.icache k).valid = true

/-- How many blocks are free. -/
def free (sb : Super) (s : State P) : Nat := (Owned.unused (used sb s.disk) sb.size).card

/-- How many entries of `icache` are not in use. -/
def spare (s : State P) : Nat := (univ.filter fun k => (s.icache k).ref = 0).card

/-- What a function has done: the files are `F`, the references of each entry have changed by `δ`,
at most `c` blocks have been logged and `m` blocks have been taken. -/
structure Effect (sb : Super) (L : Fin NINODE → Bool) (F : Nat → Option FileView)
    (δ : Fin NINODE → Int) (c m : Nat) (s s' : State P) : Prop where
  ok : Ok sb L s'
  files : files sb s'.disk = F
  ref : ∀ k, (s'.icache k).ref = (s.icache k).ref + δ k
  keep : ∀ k, 0 < (s.icache k).ref → 0 < (s'.icache k).ref →
    (s'.icache k).inum = (s.icache k).inum ∧ ((s.icache k).valid = true → (s'.icache k).valid = true)
  ftable : s'.ftable = s.ftable
  proc : s'.proc = s.proc
  ops : s'.ops = s.ops
  log : s'.log = { s.log with lh := s'.log.lh }
  spends : Spends c s s'
  blocks : free sb s ≤ free sb s' + m

/-- The log was too full, or the disk, or the cache. -/
def Short (sb : Super) (c m r : Nat) (s : State P) (e : Stop) : Prop :=
  e = .log .tooBig ∧ ¬ Roomy s.log c ∨ e = .balloc ∧ free sb s < m ∨ e = .iget ∧ spare s < r

section

variable {F F' : Nat → Option FileView} {δ δ' : Fin NINODE → Int} {c c' m m' r r' t : Nat} {e : Stop}

section

variable (h : Effect sb L F δ c m s s')
include h

theorem Effect.pos (hδ : 0 ≤ δ) (hk : 0 < (s.icache k).ref) : 0 < (s'.icache k).ref := by
  have := hδ k
  rw [h.ref]
  exact Int.lt_of_lt_of_le hk (Int.le_add_of_nonneg_right this)

/-- One after the other. -/
theorem Effect.trans (h' : Effect sb L' F' δ' c' m' s' s'') (hδ : 0 ≤ δ) :
    Effect sb L' F' (δ + δ') (c + c') (m + m') s s'' := by
  refine ⟨h'.ok, h'.files, fun k => ?_, fun k hk hk' => ?_, h'.ftable.trans h.ftable, h'.proc.trans h.proc, h'.ops.trans h.ops, ?_,
    h.spends.trans h'.spends, ?_⟩
  · rw [h'.ref, h.ref, Pi.add_apply, Int.add_assoc]
  · have hmid := h.pos hδ hk
    obtain ⟨hinum, hvalid⟩ := h.keep k hk hmid
    obtain ⟨hinum', hvalid'⟩ := h'.keep k hmid hk'
    exact ⟨hinum'.trans hinum, fun hv => hvalid' (hvalid hv)⟩
  · have := h'.log
    rw [h.log] at this
    exact this
  · have := h.blocks
    have := h'.blocks
    omega

/-- The second function leaves the files alone. -/
theorem Effect.next (h' : Effect sb L' (Fs.files sb s'.disk) δ' c' m' s' s'') (hδ : 0 ≤ δ) :
    Effect sb L' F (δ + δ') (c + c') (m + m') s s'' := by
  rw [h.files] at h'
  exact h.trans h' hδ

/-- The second function only locks or unlocks. -/
theorem Effect.still (h' : Effect sb L' (Fs.files sb s'.disk) 0 0 0 s' s'') (hδ : 0 ≤ δ) :
    Effect sb L' F δ c m s s'' := by
  have hnext := h.next h' hδ
  rwa [add_zero, add_zero, add_zero] at hnext

theorem Effect.outstanding : s'.log.outstanding = s.log.outstanding := by rw [h.log]

theorem Effect.spare_le : spare s ≤ spare s' + (univ.filter fun k => 0 < δ k).card := by
  have hsub : (univ.filter fun k => (s.icache k).ref = 0) ⊆
      (univ.filter fun k => (s'.icache k).ref = 0) ∪ univ.filter fun k => 0 < δ k := by
    intro k hk
    have hzero := (mem_filter.mp hk).2
    have hnonneg := h.ok.nonneg k
    have href := h.ref k
    rw [mem_union, mem_filter, mem_filter]
    by_cases hpos : 0 < δ k
    · exact .inr ⟨mem_univ k, hpos⟩
    · exact .inl ⟨mem_univ k, by omega⟩
  exact (card_le_card hsub).trans (card_union_le _ _)

end

theorem Short.mono (h : Short sb c m r s e) (hc : c ≤ c') (hm : m ≤ m') (hr : r ≤ r') : Short sb c' m' r' s e := by
  rcases h with ⟨he, h⟩ | ⟨he, h⟩ | ⟨he, h⟩
  · exact .inl ⟨he, fun hroom => h (Roomy.mono hroom hc)⟩
  · exact .inr (.inl ⟨he, by omega⟩)
  · exact .inr (.inr ⟨he, by omega⟩)

theorem Short.after (h : Effect sb L F δ c m s s') (ht : (univ.filter fun k => 0 < δ k).card ≤ t) (h' : Short sb c' m' r s' e) :
    Short sb (c + c') (m + m') (t + r) s e := by
  have hblocks := h.blocks
  have hspare := h.spare_le
  rcases h' with ⟨he, h'⟩ | ⟨he, h'⟩ | ⟨he, h'⟩
  · exact .inl ⟨he, fun hroom => h' (h.spends c' hroom)⟩
  · exact .inr (.inl ⟨he, by omega⟩)
  · exact .inr (.inr ⟨he, by omega⟩)

theorem card_pos_zero : (univ.filter fun k => 0 < (0 : Fin NINODE → Int) k).card = 0 := by
  rw [card_eq_zero, filter_eq_empty_iff]
  exact fun _ _ => Int.lt_irrefl 0

end

/-! ## Entries -/

theorem Held.loaded {i : Nat} (hk : Held k i s) (h : Ok sb L s) : Loaded sb k s ∧ table sb s k = inode sb s.disk := by
  have hentry := h.entry k hk.ref
  have hdin := hentry.din hk.valid
  have htable : table sb s k = inode sb s.disk := by
    unfold table
    rw [hdin, update_eq_self]
  refine ⟨⟨?_, hentry.inum, ?_⟩, htable⟩
  · rw [htable]
    exact h.rep
  · rw [hdin]
    exact hentry.type

/-- One entry changes. -/
theorem Ok.setInode (h : Ok sb L s) {ip : Inode} (hnonneg : 0 ≤ ip.ref) (hentry : 0 < ip.ref → Entry sb s.disk ip)
    (huniq : 0 < ip.ref → ∀ j, j ≠ k → 0 < (s.icache j).ref → (s.icache j).inum ≠ ip.inum) (hheld : ip.locked = true → 0 < ip.ref) :
    Ok sb (update L k ip.locked) (s.setInode k ip) := by
  have hself : (s.setInode k ip).icache k = ip := update_self ..
  have hother : ∀ j, j ≠ k → (s.setInode k ip).icache j = s.icache j := fun j hj => update_of_ne hj ..
  refine ⟨h.rep, fun j => ?_, fun i j hi hj e => ?_, fun j hj => ?_, fun j => ?_, fun j hj => ?_⟩
  · by_cases hjk : j = k
    · rw [hjk, hself]
      exact hnonneg
    · rw [hother j hjk]
      exact h.nonneg j
  · by_cases hik : i = k <;> by_cases hjk : j = k
    · rw [hik, hjk]
    · rw [hik, hself] at hi e
      rw [hother j hjk] at hj e
      exact absurd e (huniq hi j hjk hj)
    · rw [hjk, hself] at hj e
      rw [hother i hik] at hi e
      exact absurd e.symm (huniq hj i hik hi)
    · rw [hother i hik] at hi e
      rw [hother j hjk] at hj e
      exact h.uniq i j hi hj e
  · by_cases hjk : j = k
    · rw [hjk, hself] at hj ⊢
      exact hentry hj
    · rw [hother j hjk] at hj ⊢
      exact h.entry j hj
  · by_cases hjk : j = k
    · rw [hjk, hself, update_self]
    · rw [hother j hjk, update_of_ne hjk]
      exact h.locked j
  · by_cases hjk : j = k
    · rw [hjk, update_self] at hj
      rw [hjk, hself]
      exact hheld hj
    · rw [update_of_ne hjk] at hj
      rw [hother j hjk]
      exact h.held j hj

theorem Effect.setInode (h : Ok sb L s) (ip : Inode) (hnonneg : 0 ≤ ip.ref) (hentry : 0 < ip.ref → Entry sb s.disk ip)
    (huniq : 0 < ip.ref → ∀ j, j ≠ k → 0 < (s.icache j).ref → (s.icache j).inum ≠ ip.inum) (hheld : ip.locked = true → 0 < ip.ref)
    (hkeep : 0 < (s.icache k).ref → 0 < ip.ref → ip.inum = (s.icache k).inum ∧ ((s.icache k).valid = true → ip.valid = true)) :
    Effect sb (update L k ip.locked) (Fs.files sb s.disk) (Pi.single k (ip.ref - (s.icache k).ref)) 0 0 s (s.setInode k ip) := by
  have hself : (s.setInode k ip).icache k = ip := update_self ..
  have hother : ∀ j, j ≠ k → (s.setInode k ip).icache j = s.icache j := fun j hj => update_of_ne hj ..
  refine ⟨h.setInode hnonneg hentry huniq hheld, rfl, fun j => ?_, fun j hj hj' => ?_, rfl, rfl, rfl, rfl, .refl s, le_rfl⟩
  · by_cases hjk : j = k
    · subst hjk
      rw [hself, Pi.single_eq_same]
      omega
    · rw [hother j hjk, Pi.single_eq_of_ne hjk]
      omega
  · by_cases hjk : j = k
    · subst hjk
      rw [hself] at hj' ⊢
      exact hkeep hj hj'
    · rw [hother j hjk]
      exact ⟨rfl, id⟩

/-- An entry stays in use for its inode. -/
theorem Effect.touch (h : Ok sb L s) (ip : Inode) (hk : 0 < (s.icache k).ref)
    (hinum : ip.inum = (s.icache k).inum) (hnonneg : 0 ≤ ip.ref)
    (hdin : ip.valid = true → ip.din = inode sb s.disk ip.inum) (hvalid : (s.icache k).valid = true → ip.valid = true)
    (hheld : ip.locked = true → 0 < ip.ref) :
    Effect sb (update L k ip.locked) (Fs.files sb s.disk) (Pi.single k (ip.ref - (s.icache k).ref)) 0 0 s (s.setInode k ip) := by
  have hentry := h.entry k hk
  apply Effect.setInode h ip hnonneg
  · intro _
    exact ⟨by rw [hinum]; exact hentry.inum, by rw [hinum]; exact hentry.type, hdin⟩
  · intro _ j hj hpos e
    exact hj (h.uniq k j hk hpos (e.trans hinum))
  · exact hheld
  · exact fun _ _ => ⟨hinum, hvalid⟩

/-- Its reference count stays as it is. -/
theorem Effect.retouch (h : Ok sb L s) (ip : Inode) (hk : 0 < (s.icache k).ref) (hinum : ip.inum = (s.icache k).inum)
    (href : ip.ref = (s.icache k).ref) (hdin : ip.valid = true → ip.din = inode sb s.disk ip.inum)
    (hvalid : (s.icache k).valid = true → ip.valid = true) :
    Effect sb (update L k ip.locked) (Fs.files sb s.disk) 0 0 0 s (s.setInode k ip) := by
  have heffect := Effect.touch h ip hk hinum (by omega) hdin hvalid fun _ => by omega
  rwa [href, Int.sub_self, Pi.single_zero] at heffect

theorem Ok.ilock (h : Ok sb L s) (hk : 0 < (s.icache k).ref) (hL : L k = false) :
    wp (ilock sb k) (fun _ s' => Effect sb (update L k true) (files sb s.disk) 0 0 0 s s' ∧ Held k (s.icache k).inum s') never s := by
  have hentry := h.entry k hk
  have hfree : ¬ (s.icache k).locked = true := by rw [h.locked, hL]; exact Bool.false_ne_true
  have hlocked : (s.setInode k ((s.icache k).setLocked true)).icache k = (s.icache k).setLocked true := update_self ..
  unfold Fs.ilock acquire
  simp only [wp_bind, wp_read]
  rw [if_neg (by omega)]
  simp only [wp_bind, wp_read]
  rw [if_neg hfree]
  simp only [wp_change]
  apply wp_onlyIf
  · intro hinvalid
    simp only [wp_bind, wp_change, din, wp_read, hlocked]
    have hstate : (s.setInode k ((s.icache k).setLocked true)).setInode k
      (((s.icache k).setLocked true).load (inode sb s.disk (s.icache k).inum)) =
        s.setInode k (((s.icache k).setLocked true).load (inode sb s.disk (s.icache k).inum)) := by
      unfold State.setInode
      rw [update_idem]
    have hself : (s.setInode k (((s.icache k).setLocked true).load (inode sb s.disk (s.icache k).inum))).icache k =
        ((s.icache k).setLocked true).load (inode sb s.disk (s.icache k).inum) := update_self ..
    have heffect := Effect.retouch h (((s.icache k).setLocked true).load (inode sb s.disk (s.icache k).inum)) hk rfl rfl (fun _ => rfl)
      fun _ => rfl
    show wp _ _ _ ((s.setInode k ((s.icache k).setLocked true)).setInode k
      (((s.icache k).setLocked true).load (inode sb s.disk (s.icache k).inum)))
    rw [hstate]
    apply wp_onlyIf
    · intro hzero
      simp only [State.setInode, update_self] at hzero
      exact absurd hzero hentry.type
    · intro _
      exact ⟨heffect, by rw [hself]; exact hk, by rw [hself]; rfl, by rw [hself]; rfl⟩
  · intro hvalid
    have hvalid : (s.icache k).valid = true := by simpa using hvalid
    have heffect := Effect.retouch h ((s.icache k).setLocked true) hk rfl rfl hentry.din fun _ => hvalid
    exact ⟨heffect, by rw [hlocked]; exact hk, by rw [hlocked]; rfl, by rw [hlocked]; exact hvalid⟩

theorem Ok.iunlock (h : Ok sb L s) (hL : L k = true) :
    wp (iunlock k) (fun _ s' => Effect sb (update L k false) (files sb s.disk) 0 0 0 s s') never s := by
  have hk := h.held k hL
  have hlocked : (s.icache k).locked = true := by rw [h.locked, hL]
  unfold Fs.iunlock release
  simp only [wp_bind, wp_read]
  rw [if_neg (by simp only [hlocked, Bool.true_eq_false, false_or]; omega)]
  exact Effect.retouch h ((s.icache k).setLocked false) hk rfl rfl (h.entry k hk).din id

/-! ## `iget` -/

theorem cached_some {i : Nat} (hk : cached s.icache i = some k) : 0 < (s.icache k).ref ∧ (s.icache k).inum = i := by
  have := List.find?_some hk
  simpa using this

theorem empty_some (hk : empty s.icache = some k) : (s.icache k).ref = 0 := by
  have := List.find?_some hk
  simpa using this

theorem empty_none (hk : empty s.icache = none) : spare s = 0 := by
  unfold spare
  rw [card_eq_zero, filter_eq_empty_iff]
  intro k _ hzero
  have := List.find?_eq_none.mp hk k (List.mem_finRange k)
  exact this (by rw [hzero]; rfl)

/-! ## The inode's content -/

section

variable {i c m : Nat}

/-- One inode in use is changed, in memory and on the disk. -/
theorem Effect.onInode {F : Nat → Option FileView} (h : Ok sb L s) (hk : Held k i s) (hon : OnInode k s s')
    (hrep : Rep sb (inode sb s'.disk) s'.disk) (hothers : ∀ j, j < sb.ninodes → j ≠ i → inode sb s'.disk j = inode sb s.disk j)
    (hself : inode sb s'.disk i = (s'.icache k).din) (htype : (s'.icache k).din.type ≠ 0) (hfiles : Fs.files sb s'.disk = F)
    (hspends : Spends c s s') (hblocks : free sb s ≤ free sb s' + m) : Effect sb L F 0 c m s s' := by
  have hk' : s'.icache k = (s.icache k).setDin (s'.icache k).din := by
    have := congrFun hon.icache k
    rwa [update_self] at this
  have hother : ∀ j, j ≠ k → s'.icache j = s.icache j := by
    intro j hj
    rw [hon.icache, update_of_ne hj]
  have hfields : ∀ j, (s'.icache j).ref = (s.icache j).ref ∧ (s'.icache j).inum = (s.icache j).inum ∧
      (s'.icache j).locked = (s.icache j).locked ∧ (s'.icache j).valid = (s.icache j).valid := by
    intro j
    by_cases hj : j = k
    · rw [hj, hk']
      exact ⟨rfl, rfl, rfl, rfl⟩
    · rw [hother j hj]
      exact ⟨rfl, rfl, rfl, rfl⟩
  refine ⟨⟨hrep, fun j => ?_, fun j j' hj hj' e => ?_, fun j hj => ?_, fun j => ?_, fun j hj => ?_⟩,
    hfiles, fun j => ?_, fun j _ _ => ?_,
    hon.ftable, hon.proc, hon.ops, hon.log, hspends, hblocks⟩
  · rw [(hfields j).1]
    exact h.nonneg j
  · rw [(hfields j).1] at hj
    rw [(hfields j').1] at hj'
    rw [(hfields j).2.1, (hfields j').2.1] at e
    exact h.uniq j j' hj hj' e
  · rw [(hfields j).1] at hj
    have hentry := h.entry j hj
    by_cases hjk : j = k
    · subst hjk
      refine ⟨?_, ?_, fun _ => ?_⟩
      · rw [(hfields j).2.1]
        exact hentry.inum
      · rw [(hfields j).2.1, hk.inum, hself]
        exact htype
      · rw [(hfields j).2.1, hk.inum, hself]
    · have hne : (s.icache j).inum ≠ i := fun e => hjk (h.uniq k j hk.ref hj (e.trans hk.inum.symm))
      rw [hother j hjk]
      refine ⟨hentry.inum, ?_, fun hvalid => ?_⟩
      · rw [hothers _ hentry.inum hne]
        exact hentry.type
      · rw [hothers _ hentry.inum hne]
        exact hentry.din hvalid
  · rw [(hfields j).2.2.1]
    exact h.locked j
  · rw [(hfields j).1]
    exact h.held j hj
  · rw [(hfields j).1]
    exact (add_zero _).symm
  · rw [(hfields j).2.1, (hfields j).2.2.2]
    exact ⟨rfl, id⟩

/-- The size of an inode in use, and its file. -/
theorem Held.file (hk : Held k i s) (h : Ok sb L s) : files sb s.disk i = some {
    type := (s.icache k).din.type, major := (s.icache k).din.major, minor := (s.icache k).din.minor, nlink := (s.icache k).din.nlink,
    content := content sb (inode sb s.disk) s.disk i } := by
  have hentry := h.entry k hk.ref
  have hdin := hentry.din hk.valid
  have hi := hk.inum
  subst hi
  rw [hdin]
  exact view_eq hentry.inum hentry.type

theorem Held.size (hk : Held k i s) (h : Ok sb L s) : (s.icache k).din.size.toNat = fileSize (files sb s.disk) i := by
  unfold fileSize
  rw [hk.file h]
  show _ = (content sb (inode sb s.disk) s.disk i).length
  rw [length_content, (h.entry k hk.ref).din hk.valid, hk.inum]

variable {bs : Nat → Byte} {off n : Nat}

theorem Ok.writei {src : Nat → Option Byte} (h : Ok sb L s) (hk : Held k i s)
    (hop : 1 ≤ s.log.outstanding) (hn : n < 2 ^ 32) (hpos : 0 < n)
    (hsrc : Fits (fileSize (files sb s.disk) i) off n → ∀ j, j < n → src j = some (bs j)) :
    wp (writei sb k src off n)
      (fun r s' => (Fits (fileSize (files sb s.disk) i) off n → r = some n ∧
          Effect sb L (update (files sb s.disk) i ((files sb s.disk i).map fun v => v.write off ((List.range n).map bs))) 0
            (2 * turns off n + 3) (turns off n + 1) s s') ∧
        (¬ Fits (fileSize (files sb s.disk) i) off n → r = none ∧ s' = s))
      (fun e _ => Fits (fileSize (files sb s.disk) i) off n ∧ Short sb (2 * turns off n + 3) (turns off n + 1) 0 s e) s := by
  obtain ⟨hloaded, htable⟩ := hk.loaded h
  rw [← hk.size h] at hsrc ⊢
  have hi := hk.inum
  subst hi
  apply wp_mono (writei_spec hloaded hop hn hsrc (reaches_needed off n))
  · intro r s' hr
    obtain ⟨hfits, hno, hspends, hbalance⟩ := hr
    refine ⟨fun hf => ?_, hno⟩
    obtain ⟨hr, hw⟩ := hfits hf
    have hself := hw.self fun hnil => by
      have := congrArg List.length hnil
      rw [List.length_map, List.length_range, List.length_nil] at this
      omega
    have htable' : ∀ j, j < sb.ninodes → inode sb s'.disk j = table sb s' k j := by
      intro j hj
      unfold table
      rw [hw.on.inum]
      by_cases hjk : j = (s.icache k).inum
      · rw [hjk, update_self, hself]
      · rw [update_of_ne hjk]
    refine ⟨hr, Effect.onInode h hk hw.on (hw.loaded.rep.ino htable') hw.others hself hw.loaded.type ?_ (hspends.mono (cost_le ..)) ?_⟩
    · unfold files
      rw [view_ino htable', hw.view, htable]
    · exact hbalance.free_le.trans (Nat.add_le_add_left (card_needed off n) _)
  · intro e s' he
    refine ⟨he.1, ?_⟩
    rcases he.2 with ⟨he, hno⟩ | ⟨he, hfilled, W, hcard, hlogged⟩
    · refine .inr (.inl ⟨he, ?_⟩)
      have hcard := card_needed off n
      have hvacant : (Owned.vacant (pos sb (table sb s k) s.disk)
        ({(s.icache k).inum} ×ˢ needed off n)).card ≤ (needed off n).card := by
        apply (card_filter_le _ _).trans
        rw [card_product, card_singleton, one_mul]
      unfold Enough at hno
      unfold free
      omega
    · exact .inl ⟨he, fun hroom => hlogged.not_roomy hfilled hcard (Roomy.mono hroom (cost_le ..))⟩

end

end Xv6.Fs
