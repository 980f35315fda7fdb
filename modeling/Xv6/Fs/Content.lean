import Xv6.Fs.Rep

/-!
# What the functions on an inode's content do

`balloc`, `bmap`, `itrunc`, `readi` and `writei`, each with what it does to the representation, to
the blocks of the other inodes, and with the panics that it may reach. The inode is one in memory,
whose copy may be ahead of the disk until `iupdate`: `table` is the inodes with that copy in place.
-/

namespace Xv6.Fs

open Prog
open Function (update update_eq_self update_self update_idem update_of_ne update_eq_self_iff)

variable {P : Type}

/-! ## What may change -/

/-- Only the disk and the list of logged blocks change. -/
structure OnDisk (s s' : State P) : Prop where
  icache : s'.icache = s.icache
  ftable : s'.ftable = s.ftable
  proc : s'.proc = s.proc
  ops : s'.ops = s.ops
  log : s'.log = { s.log with lh := s'.log.lh }

/-- And one inode's copy in memory. -/
structure OnInode (k : Fin NINODE) (s s' : State P) : Prop where
  icache : s'.icache = update s.icache k ((s.icache k).setDin (s'.icache k).din)
  ftable : s'.ftable = s.ftable
  proc : s'.proc = s.proc
  ops : s'.ops = s.ops
  log : s'.log = { s.log with lh := s'.log.lh }

section

variable {s s' s'' : State P} {k : Fin NINODE}

theorem OnDisk.refl (s : State P) : OnDisk s s := ⟨rfl, rfl, rfl, rfl, rfl⟩

theorem OnDisk.trans (h : OnDisk s s') (h' : OnDisk s' s'') : OnDisk s s'' :=
  ⟨h'.icache.trans h.icache, h'.ftable.trans h.ftable, h'.proc.trans h.proc, h'.ops.trans h.ops, by
    have := h'.log
    rw [h.log] at this
    exact this⟩

theorem OnDisk.onInode (h : OnDisk s s') (k : Fin NINODE) : OnInode k s s' := by
  refine ⟨?_, h.ftable, h.proc, h.ops, h.log⟩
  rw [h.icache]
  exact (update_eq_self k s.icache).symm

theorem OnInode.refl (k : Fin NINODE) (s : State P) : OnInode k s s := (OnDisk.refl s).onInode k

theorem OnInode.inum (h : OnInode k s s') : (s'.icache k).inum = (s.icache k).inum := by
  rw [h.icache, update_self]
  rfl

theorem OnInode.trans (h : OnInode k s s') (h' : OnInode k s' s'') : OnInode k s s'' := by
  refine ⟨?_, h'.ftable.trans h.ftable, h'.proc.trans h.proc, h'.ops.trans h.ops, ?_⟩
  · have := h'.icache
    rw [h.icache, update_idem, update_self] at this
    exact this
  · have := h'.log
    rw [h.log] at this
    exact this

theorem OnInode.outstanding (h : OnInode k s s') : s'.log.outstanding = s.log.outstanding := by
  rw [h.log]

theorem OnInode.setDin (v : Dinode) : OnInode k s (s.setInode k ((s.icache k).setDin v)) := by
  refine ⟨?_, rfl, rfl, rfl, rfl⟩
  show update s.icache k _ = update s.icache k _
  congr 1
  show _ = (s.icache k).setDin (update s.icache k _ k).din
  rw [update_self]
  rfl

end

/-- The state after `log_write`. -/
def State.wrote (s : State P) (b : Nat) (data : Block) : State P :=
  (s.setDisk (update s.disk b data)).setLog { s.log with lh := Log.LogState.absorb s.log.lh b }

theorem onDisk_wrote (s : State P) (b : Nat) (data : Block) : OnDisk s (s.wrote b data) := ⟨rfl, rfl, rfl, rfl, rfl⟩

/-- Inside an operation `log_write` stores the block, or finds the transaction too big. -/
theorem wp_logWrite {s : State P} {b : Nat} {data : Block} {Q : Unit → State P → Prop} {E : Stop → State P → Prop}
    (hop : 1 ≤ s.log.outstanding) (hQ : Q () (s.wrote b data)) (hE : E (.log .tooBig) s) : wp (logWrite b data) Q E s := by
  unfold wp logWrite Log.LogState.logWrite Log.LogState.check
  by_cases hbig : (s.log.lh.length : Int) ≥ LOGSIZE ∨ (s.log.lh.length : Int) ≥ s.log.size - 1
  · simp only [hbig, if_true]
    exact hE
  · simp only [hbig, if_false, show ¬ s.log.outstanding < 1 by omega]
    exact hQ

/-- The disk is full, or the transaction too big. -/
def Full (e : Stop) (_ : State P) : Prop := e = .balloc ∨ e = .log .tooBig

section

variable (sb : Super)

/-- The inodes, with the copy in memory of one of them. -/
def table (s : State P) (k : Fin NINODE) : Nat → Dinode :=
  update (inode sb s.disk) (s.icache k).inum (s.icache k).din

end

variable {sb : Super}

theorem table_self (s : State P) (k : Fin NINODE) : table sb s k (s.icache k).inum = (s.icache k).din :=
  update_self ..

/-! ## Blocks -/

theorem firstFree_some {d : Disk} {b : Nat} (h : firstFree sb d = some b) : b < sb.size ∧ used sb d b = false := by
  refine ⟨List.mem_range.mp (List.mem_of_find?_eq_some h), ?_⟩
  simpa using List.find?_some h

theorem balloc_spec {s : State P} (hop : 1 ≤ s.log.outstanding) :
    wp (balloc sb) (fun b s' => b < sb.size ∧ used sb s.disk b = false ∧ OnDisk s s' ∧ s'.disk = allocated sb s.disk b)
      Full s := by
  unfold balloc
  simp only [wp_bind, wp_read]
  cases hfree : firstFree sb s.disk with
  | none => exact .inl rfl
  | some b =>
    obtain ⟨hb, hu⟩ := firstFree_some hfree
    simp only [wp_bind, bread, wp_read, bzero, wp_pure]
    refine wp_logWrite hop (wp_logWrite hop ?_ (.inr rfl)) (.inr rfl)
    exact ⟨hb, hu, (onDisk_wrote _ _ _).trans (onDisk_wrote _ _ _), rfl⟩

/-! ## `bmap` -/

/-- What `bmap` does for the place `l` of the inode in slot `k`: it has block `a` there, and every
other block is the one it was, with the same content, but for an entry in the indirect block. -/
structure Mapped (sb : Super) (k : Fin NINODE) (l a : Nat) (s s' : State P) : Prop where
  on : OnInode k s s'
  rep : Rep sb (table sb s' k) s'.disk
  inodes : ∀ i, i < sb.ninodes → inode sb s'.disk i = inode sb s.disk i
  din : (s'.icache k).din = { (s.icache k).din with addrs := (s'.icache k).din.addrs }
  place : pos sb (table sb s' k) s'.disk ((s.icache k).inum, l) = a
  nonzero : a ≠ 0
  keeps : ∀ p, pos sb (table sb s k) s.disk p ≠ 0 → pos sb (table sb s' k) s'.disk p = pos sb (table sb s k) s.disk p
  news : ∀ p, pos sb (table sb s k) s.disk p = 0 → pos sb (table sb s' k) s'.disk p ≠ 0 →
    p = ((s.icache k).inum, l) ∨ p = ((s.icache k).inum, NDIRECT)
  data : ∀ p, pos sb (table sb s k) s.disk p ≠ 0 → p ≠ ((s.icache k).inum, NDIRECT) →
    s'.disk (pos sb (table sb s k) s.disk p) = s.disk (pos sb (table sb s k) s.disk p)
  fresh : pos sb (table sb s k) s.disk ((s.icache k).inum, l) = 0 → s'.disk a = fun _ => 0

/-- The inode in slot `k`, as the functions on its content find it. -/
structure Loaded (sb : Super) (k : Fin NINODE) (s : State P) : Prop where
  rep : Rep sb (table sb s k) s.disk
  inum : (s.icache k).inum < sb.ninodes
  type : (s.icache k).din.type ≠ 0

section

variable {s s' : State P} {k : Fin NINODE}

theorem Loaded.pos (h : Loaded sb k s) (l : Nat) :
    pos sb (table sb s k) s.disk ((s.icache k).inum, l) = addrAt (s.icache k).din s.disk l := by
  rw [pos_eq h.inum (by rw [table_self]; exact h.type), table_self]

/-- The place has a block already. -/
theorem Mapped.hit (h : Loaded sb k s) {l a : Nat} (ha : Fs.pos sb (table sb s k) s.disk ((s.icache k).inum, l) = a)
    (hne : a ≠ 0) : Mapped sb k l a s s :=
  ⟨.refl k s, h.rep, fun _ _ => rfl, rfl, ha, hne, fun _ _ => rfl, fun _ h0 h1 => absurd h0 h1, fun _ _ _ => rfl,
    fun h0 => absurd (ha.symm.trans h0) hne⟩

theorem Mapped.loaded (h : Loaded sb k s) {l a : Nat} (hm : Mapped sb k l a s s') : Loaded sb k s' := by
  refine ⟨hm.rep, ?_, ?_⟩
  · rw [hm.on.inum]
    exact h.inum
  · rw [hm.din]
    exact h.type

/-- The table when the copy in memory changes and the inodes on the disk do not. -/
theorem table_congr {v : Dinode} (hd : ∀ i, i < sb.ninodes → inode sb s'.disk i = inode sb s.disk i)
    (hk : s'.icache k = (s.icache k).setDin v) (j : Nat) (hj : j < sb.ninodes) :
    table sb s' k j = update (table sb s k) (s.icache k).inum v j := by
  unfold table
  rw [hk, update_idem]
  by_cases hjk : j = (s.icache k).inum
  · subst hjk
    rw [update_self]
    exact update_self ..
  · rw [update_of_ne (show j ≠ ((s.icache k).setDin v).inum from hjk), update_of_ne hjk]
    exact hd j hj

theorem Rep.ino {ino ino' : Nat → Dinode} {d : Disk} (h : Rep sb ino d) (hi : ∀ j, j < sb.ninodes → ino' j = ino j) :
    Rep sb ino' d :=
  h.congr (fun _ _ => rfl) (fun _ _ => rfl) fun j hj => by rw [hi j hj]; exact ⟨Iff.rfl, rfl, rfl⟩

/-- A new block for the place. -/
theorem Mapped.attach {l b : Nat} (hon : OnInode k s s') (hrep : Rep sb (table sb s' k) s'.disk)
    (hinodes : ∀ i, i < sb.ninodes → inode sb s'.disk i = inode sb s.disk i)
    (hdin : (s'.icache k).din = { (s.icache k).din with addrs := (s'.icache k).din.addrs })
    (hpos : Fs.pos sb (table sb s' k) s'.disk = update (Fs.pos sb (table sb s k) s.disk) ((s.icache k).inum, l) b)
    (hzero : Fs.pos sb (table sb s k) s.disk ((s.icache k).inum, l) = 0) (hb : b ≠ 0)
    (hdata : ∀ p, Fs.pos sb (table sb s k) s.disk p ≠ 0 → p ≠ ((s.icache k).inum, NDIRECT) →
      s'.disk (Fs.pos sb (table sb s k) s.disk p) = s.disk (Fs.pos sb (table sb s k) s.disk p))
    (hfresh : s'.disk b = fun _ => 0) : Mapped sb k l b s s' := by
  refine ⟨hon, hrep, hinodes, hdin, ?_, hb, fun p hp => ?_, fun p hp hp' => .inl ?_, hdata, fun _ => hfresh⟩
  · rw [hpos, update_self]
  · rw [hpos, update_of_ne]
    rintro rfl
    exact hp hzero
  · by_contra hne
    rw [hpos, update_of_ne hne] at hp'
    exact hp' hp

theorem Loaded.table_type (h : Loaded sb k s) : (table sb s k (s.icache k).inum).type ≠ 0 := by
  rw [table_self]
  exact h.type

theorem Loaded.ne_zero_of_free (h : Loaded sb k s) {b : Nat} (hb : b < sb.size) (hfree : used sb s.disk b = false) : b ≠ 0 := by
  have := (h.rep.free hb hfree).1
  have := sb.datastart_pos
  omega

/-- `ip->addrs[i]`, allocating if necessary. -/
theorem loadAddr_spec (h : Loaded sb k s) (hop : 1 ≤ s.log.outstanding) {i : Nat} (hi : i ≤ NDIRECT) :
    wp (loadAddr sb k i) (fun a s' => Mapped sb k i a s s' ∧ (s'.icache k).din.addr i = a ∧
      ∀ p, Fs.pos sb (table sb s k) s.disk p ≠ 0 → s'.disk (Fs.pos sb (table sb s k) s.disk p) =
        s.disk (Fs.pos sb (table sb s k) s.disk p))
      Full s := by
  have hplace : Fs.pos sb (table sb s k) s.disk ((s.icache k).inum, i) = (s.icache k).din.addr i := by
    rw [h.pos, addrAt_le hi]
  unfold loadAddr din
  simp only [wp_bind, wp_read]
  refine wp_ite (fun hzero => wp_seq (balloc_spec hop) ?_) fun hne => ?_
  · rintro b s₁ ⟨hb, hfree, hon, hdisk⟩
    simp only [setDin, wp_bind, wp_change, wp_pure]
    obtain ⟨hrep, hpos⟩ := h.rep.setAddr h.inum h.table_type hi hb hfree (by rw [table_self]; exact hzero)
    rw [table_self] at hrep hpos
    have hself : (s₁.setInode k ((s₁.icache k).setDin ((s₁.icache k).din.setAddr i b))).icache k =
        (s.icache k).setDin ((s.icache k).din.setAddr i b) := by
      show update s₁.icache k _ k = _
      rw [update_self, hon.icache]
    have hinodes : ∀ j, j < sb.ninodes → inode sb s₁.disk j = inode sb s.disk j := fun j hj => by
      rw [hdisk]
      exact inode_allocated (h.rep.free hb hfree).1 hj
    have htable : ∀ j, j < sb.ninodes →
        table sb (s₁.setInode k ((s₁.icache k).setDin ((s₁.icache k).din.setAddr i b))) k j =
          update (table sb s k) (s.icache k).inum ((s.icache k).din.setAddr i b) j := table_congr hinodes hself
    have hdata : ∀ p, Fs.pos sb (table sb s k) s.disk p ≠ 0 →
        s₁.disk (Fs.pos sb (table sb s k) s.disk p) = s.disk (Fs.pos sb (table sb s k) s.disk p) := fun p hp => by
      rw [hdisk]
      exact h.rep.allocated_owned hb hfree hp
    refine ⟨.attach ((hon.onInode k).trans (.setDin _)) ?_ hinodes ?_ ?_ (hplace.trans hzero) (h.ne_zero_of_free hb hfree)
      (fun p hp _ => hdata p hp) ?_, ?_, hdata⟩
    · refine Rep.ino ?_ htable
      show Rep sb _ s₁.disk
      rw [hdisk]
      exact hrep
    · rw [hself]
      rfl
    · rw [pos_ino htable]
      show Fs.pos sb _ s₁.disk = _
      rw [hdisk, hpos]
    · show s₁.disk b = _
      rw [hdisk]
      exact allocated_self
    · rw [hself]
      show ((s.icache k).din.setAddr i b).addr i = b
      rw [Dinode.addr_setAddr (by omega) (sb.lt_word hb), update_self]
  · exact ⟨.hit h hplace hne, rfl, fun _ _ => rfl⟩

theorem placeOf_indirect {bn : Nat} (h : ¬ bn < NDIRECT) : placeOf bn = NDIRECT + 1 + (bn - NDIRECT) := by
  rw [placeOf, if_neg h]
  omega

/-- `a[j] = balloc()` in the indirect block. -/
theorem entry_spec (h : Loaded sb k s) (hop : 1 ≤ s.log.outstanding) {j ind : Nat} (hj : j < NINDIRECT)
    (hind : (s.icache k).din.addr NDIRECT = ind) (hne : ind ≠ 0) (hzero : word (s.disk ind) j = 0) :
    wp (do
      let a ← balloc sb
      let bp ← bread ind
      logWrite ind (bp.putU32 (4 * j) (BitVec.ofNat 32 a))
      return a) (fun a s' => Mapped sb k (NDIRECT + 1 + j) a s s') Full s := by
  have hind' : (table sb s k (s.icache k).inum).addr NDIRECT = ind := by
    rw [table_self]
    exact hind
  have hplace : Fs.pos sb (table sb s k) s.disk ((s.icache k).inum, NDIRECT) = ind := by
    rw [h.pos, addrAt_le le_rfl, hind]
  have harea := (h.rep.owned.area _ (by rw [hplace]; exact hne)).1
  rw [hplace] at harea
  refine wp_seq (balloc_spec hop) ?_
  rintro b s₁ ⟨hb, hfree, hon, hdisk⟩
  simp only [bread, wp_bind, wp_read, wp_pure]
  refine wp_logWrite (by rw [hon.log]; exact hop) ?_ (.inr rfl)
  have hrep := h.rep.setEntry h.inum h.table_type hj hb hfree (by rw [hind']; exact hne) (by rw [hind']; exact hzero)
  rw [hind'] at hrep
  obtain ⟨hrep, hpos⟩ := hrep
  have hblock : s₁.disk ind = s.disk ind := by
    rw [hdisk, ← hplace]
    exact h.rep.allocated_owned hb hfree (by rw [hplace]; exact hne)
  rw [hblock]
  have hne' : b ≠ ind := fun e => (h.rep.free hb hfree).2 _ (hplace.trans e.symm)
  have hdisk' : ∀ x, (s₁.wrote ind x).disk = update (allocated sb s.disk b) ind x := fun x => by
    show update s₁.disk ind x = _
    rw [hdisk]
  have hon' : ∀ x, OnDisk s (s₁.wrote ind x) := fun x => hon.trans (onDisk_wrote s₁ ind x)
  have hinodes : ∀ x i, i < sb.ninodes → inode sb (s₁.wrote ind x).disk i = inode sb s.disk i := fun x i hi => by
    rw [hdisk', inode_data hi harea, inode_allocated (h.rep.free hb hfree).1 hi]
  have hself : ∀ x, (s₁.wrote ind x).icache k = (s.icache k).setDin (s.icache k).din := fun x => by
    rw [(hon' x).icache]
    rfl
  have htable : ∀ x j, j < sb.ninodes → table sb (s₁.wrote ind x) k j = table sb s k j := fun x j hj => by
    rw [table_congr (hinodes x) (hself x) j hj, update_eq_self_iff.mpr (table_self s k).symm]
  refine .attach ((hon' _).onInode k) ?_ (hinodes _) ?_ ?_ ?_ (h.ne_zero_of_free hb hfree) (fun p hp hp' => ?_) ?_
  · refine Rep.ino ?_ (htable _)
    rw [hdisk']
    exact hrep
  · rw [hself]
    rfl
  · rw [pos_ino (htable _), hdisk', hpos]
  · rw [h.pos, addrAt_entry hj (by rw [hind]; exact hne), hind]
    exact hzero
  · have hne : Fs.pos sb (table sb s k) s.disk p ≠ ind := fun e => hp' <|
      (h.rep.owned.inj p _ hp (hplace.trans e.symm)).symm
    rw [hdisk', update_of_ne hne]
    exact h.rep.allocated_owned hb hfree hp
  · rw [hdisk', update_of_ne hne']
    exact allocated_self

theorem bmap_spec (h : Loaded sb k s) (hop : 1 ≤ s.log.outstanding) {bn : Nat} (hbn : bn < MAXFILE) :
    wp (bmap sb k bn) (fun a s' => Mapped sb k (placeOf bn) a s s') Full s := by
  unfold bmap
  refine wp_ite (fun hdir => ?_) fun hdir => wp_ite (fun hlt => ?_) fun hge => ?_
  · rw [placeOf, if_pos hdir]
    exact wp_mono (loadAddr_spec h hop (le_of_lt hdir)) (fun _ _ hm => hm.1) fun _ _ => id
  · rw [placeOf_indirect hdir]
    refine wp_seq (loadAddr_spec h hop le_rfl) ?_
    rintro ind s₁ ⟨hm, hind, hdata⟩
    have h₁ := hm.loaded h
    simp only [wp_bind, wp_read]
    refine wp_ite (fun hzero => ?_) fun hne => ?_
    · refine wp_mono (entry_spec h₁ (by rw [hm.on.outstanding]; exact hop) hlt hind hm.nonzero hzero) (fun a s₂ hm' => ?_)
        fun _ _ => id
      -- the indirect block first, then the entry
      have hinum := hm.on.inum
      refine ⟨hm.on.trans hm'.on, hm'.rep, fun i hi => (hm'.inodes i hi).trans (hm.inodes i hi), ?_, ?_, hm'.nonzero,
        fun p hp => ?_, fun p hp hp' => ?_, fun p hp hp' => ?_, fun hzero => ?_⟩
      · rw [hm'.din, hm.din]
      · rw [← hinum]
        exact hm'.place
      · rw [hm'.keeps p (by rw [hm.keeps p hp]; exact hp), hm.keeps p hp]
      · rw [← hinum]
        by_cases hp₁ : Fs.pos sb (table sb s₁ k) s₁.disk p = 0
        · exact hm'.news p hp₁ hp'
        · rw [hinum]
          exact .inr ((hm.news p hp hp₁).elim id id)
      · have := hm'.data p (by rw [hm.keeps p hp]; exact hp) (by rw [hinum]; exact hp')
        rw [hm.keeps p hp] at this
        rw [this]
        exact hdata p hp
      · refine hm'.fresh ?_
        rw [h₁.pos, addrAt_entry hlt (by rw [hind]; exact hm.nonzero), hind]
        assumption
    · refine ⟨hm.on, hm.rep, hm.inodes, hm.din, ?_, hne, hm.keeps, fun p hp hp' => ?_, hm.data, fun hzero => ?_⟩
      · rw [← hm.on.inum, h₁.pos, addrAt_entry hlt (by rw [hind]; exact hm.nonzero), hind]
      · exact .inr ((hm.news p hp hp').elim id id)
      · exfalso
        have hplace : Fs.pos sb (table sb s₁ k) s₁.disk ((s.icache k).inum, NDIRECT + 1 + (bn - NDIRECT)) ≠ 0 := by
          rw [← hm.on.inum, h₁.pos, addrAt_entry hlt (by rw [hind]; exact hm.nonzero), hind]
          exact hne
        rcases hm.news _ hzero hplace with e | e <;>
        · have := congrArg Prod.snd e
          simp only at this
          omega
  · unfold MAXFILE at hbn
    omega

end

end Xv6.Fs
