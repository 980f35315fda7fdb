import Xv6.Kernel.Owned

/-!
# What the file functions do to pages and counts

Each function of `file.c` and `pipe.c` keeps `Core`, with the references that it takes or drops. The
last `fileclose` of the last end of a pipe gives its page back, because the two flags of the pipe
then are 0.
-/

namespace Xv6.Kernel

open Prog Radix Vm Function Multiset

variable {L : Layout} {s s' : State} {B X : Multiset Nat} {held : FileId → Int} {f : FileId} {p : Slot}

/-- Only memory and the file table differ. -/
structure SameProcs (s s' : State) : Prop where
  proc : s'.proc = s.proc
  initproc : s'.initproc = s.initproc
  nextpid : s'.nextpid = s.nextpid

theorem SameProcs.refl (s : State) : SameProcs s s := ⟨rfl, rfl, rfl⟩

theorem SameProcs.trans {s'' : State} (h : SameProcs s s') (h' : SameProcs s' s'') : SameProcs s s'' :=
  ⟨h'.proc.trans h.proc, h'.initproc.trans h.initproc, h'.nextpid.trans h.nextpid⟩

theorem sameProcs_setFile (s : State) (f : FileId) (x : File) : SameProcs s (s.setFile f x) := ⟨rfl, rfl, rfl⟩

theorem sameProcs_setMem (s : State) (m : Mem) : SameProcs s (s.setMem m) := ⟨rfl, rfl, rfl⟩

/-! ## The flags of a pipe -/

theorem low_append (hi lo : BitVec 32) : (hi ++ lo).extractLsb' 0 32 = lo := by
  apply BitVec.eq_of_getLsbD_eq
  intro i h
  simp only [BitVec.getLsbD_extractLsb', h, decide_true, Bool.true_and, BitVec.getLsbD_append, zero_add, if_true]

theorem high_append (hi lo : BitVec 32) : (hi ++ lo).extractLsb' 32 32 = hi := by
  apply BitVec.eq_of_getLsbD_eq
  intro i h
  simp only [BitVec.getLsbD_extractLsb', h, decide_true, Bool.true_and, BitVec.getLsbD_append,
    show ¬ 32 + i < 32 by omega, if_false, Nat.add_sub_cancel_left]

@[simp] theorem readopen_setReadopen (w : Word) (x : BitVec 32) : readopen (setReadopen w x) = x := low_append _ _
@[simp] theorem writeopen_setReadopen (w : Word) (x : BitVec 32) : writeopen (setReadopen w x) = writeopen w := high_append _ _
@[simp] theorem readopen_setWriteopen (w : Word) (x : BitVec 32) : readopen (setWriteopen w x) = readopen w := low_append _ _
@[simp] theorem writeopen_setWriteopen (w : Word) (x : BitVec 32) : writeopen (setWriteopen w x) = x := high_append _ _

theorem isOpen_closeEnd (v writable : Bool) (w : Word) : IsOpen v (closeEnd writable w) ↔ v ≠ writable ∧ IsOpen v w := by
  cases v <;> cases writable <;> simp [IsOpen, closeEnd]

/-- Both flags are 0. -/
theorem closed_iff (w : Word) : readopen w = 0 ∧ writeopen w = 0 ↔ ∀ v, ¬ IsOpen v w := by
  simp [IsOpen]

theorem isOpen_new (v : Bool) (w : Word) : IsOpen v (setWriteopen (setReadopen w 1) 1) := by
  cases v <;> simp [IsOpen]

/-! ## Counts -/

/-- The pointer from a descriptor to a file, as a count. -/
def points (x : Option FileId) (f : FileId) : Int := if x = some f then 1 else 0

theorem points_none : points none = 0 := rfl

theorem card_refs_setOfile {proc : Slot → Proc} (fd : Desc) (x : Option FileId) (f : FileId) :
    ((refs (update proc p ((proc p).setOfile fd x)) f).card : Int) =
      (refs proc f).card + points x f - points ((proc p).ofile fd) f := by
  have hcard := card_pointers_update (fun q => (proc q).ofile) p fd x f
  have hofile : refs (update proc p ((proc p).setOfile fd x)) f =
      pointers (update (fun q => (proc q).ofile) p (update (proc p).ofile fd x)) f := by
    unfold refs
    rw [update_apply_field]
    rfl
  rw [hofile, refs]
  unfold points
  split_ifs at hcard ⊢ <;> omega

/-- A descriptor is set. -/
theorem Core.setOfile (h : Core L s B held) (fd : Desc) (x : Option FileId) :
    Core L (s.setProc p ((s.proc p).setOfile fd x)) B (held + points ((s.proc p).ofile fd) - points x) := by
  obtain ⟨⟨X, hbody, hpool⟩, hpipes, hcounted⟩ := h
  refine ⟨⟨X, hbody.congr ?_ rfl rfl (.refl _ _), hpool⟩, hpipes, fun g => ?_⟩
  · funext q
    show (update s.proc p _ q).layer = (s.proc q).layer
    by_cases hq : q = p
    · rw [hq, update_self]
      rfl
    · rw [update_of_ne hq]
  · show ((s.file g).ref : Int) = (refs (update s.proc p _) g).card + _
    rw [card_refs_setOfile, hcounted g, Pi.sub_apply, Pi.add_apply]
    omega

/-- The count of a file changes, and nothing that belongs to a pipe. -/
theorem Core.setRef (h : Core L s B held) {x : File} {k : Int} (hx : ∀ page w, x.IsEnd page w ↔ (s.file f).IsEnd page w)
    (hfree : x.ref = 0 → x.type = .nothing) (href : (x.ref : Int) = (s.file f).ref + k) :
    Core L (s.setFile f x) B (held + Pi.single f k) := by
  obtain ⟨⟨X, hbody, hpool⟩, hpipes, hcounted⟩ := h
  have hends : ∀ g page w, (update s.file f x g).IsEnd page w ↔ (s.file g).IsEnd page w := by
    intro g page w
    by_cases hg : g = f
    · rw [hg, update_self]
      exact hx page w
    · rw [update_of_ne hg]
  have hpages : pipePages (update s.file f x) = pipePages s.file := by
    ext page
    rw [mem_pipePages, mem_pipePages]
    simp only [hends]
  refine ⟨⟨X, hbody.congr rfl rfl hpages (.refl _ _), hpool⟩, ⟨fun g => ?_, fun g g' page w hg hg' => ?_, ?_⟩, fun g => ?_⟩
  · show (update s.file f x g).ref = 0 → (update s.file f x g).type = .nothing
    by_cases hg : g = f
    · rw [hg, update_self]
      exact hfree
    · rw [update_of_ne hg]
      exact hpipes.free g
  · exact hpipes.ends g g' page w ((hends g page w).mp hg) ((hends g' page w).mp hg')
  · intro page hpage w
    show IsOpen w (s.mem.word page PIPE_OPEN) ↔ ∃ g, (update s.file f x g).IsEnd page w
    simp only [hends]
    exact hpipes.flag page (hpages ▸ hpage) w
  · show ((update s.file f x g).ref : Int) = (refs s.proc g).card + _
    rw [Pi.add_apply]
    by_cases hg : g = f
    · subst hg
      have := hcounted g
      rw [update_self, Pi.single_eq_same]
      omega
    · rw [update_of_ne hg, Pi.single_eq_of_ne hg, Int.add_zero]
      exact hcounted g

/-! ## `filealloc` and `filedup` -/

theorem filealloc_spec (h : Core L s B held) : wp filealloc (fun r s' =>
    (r = none ∧ s' = s) ∨ ∃ f, r = some f ∧ (s.file f).ref = 0 ∧ s' = s.setFile f ((s.file f).setRef 1) ∧
      Core L s' B (held + Pi.single f 1)) never s := by
  unfold filealloc
  rw [wp_bind, wp_read]
  cases hfind : (List.finRange NFILE).find? fun f => (s.file f).ref = 0 with
  | none => exact .inl ⟨rfl, rfl⟩
  | some f =>
    have href : (s.file f).ref = 0 := by simpa using List.find?_some hfind
    exact .inr ⟨f, rfl, href, rfl, h.setRef (fun _ _ => Iff.rfl) nofun (by rw [href]; rfl)⟩

theorem filedup_spec (h : Core L s B held) (hpos : 0 < (s.file f).ref) :
    wp (filedup f) (fun _ s' => SameProcs s s' ∧ Core L s' B (held + Pi.single f 1)) never s := by
  unfold filedup
  rw [wp_bind, wp_read, if_neg (by omega)]
  exact ⟨⟨rfl, rfl, rfl⟩, h.setRef (fun _ _ => Iff.rfl) nofun (Int.natCast_succ _)⟩

/-! ## `fileclose` -/

/-- The pages of the open pipes, and all others. -/
theorem Body.pipes (h : Body L s X) : ∃ R, X = R + (pipePages s.file).val ∧
    ∀ s', SameOn R s.mem.word s'.mem.word → s'.layer = s.layer → s'.kernelPagetable = s.kernelPagetable →
      Body L s' (R + (pipePages s'.file).val) := by
  obtain ⟨F, K, howns, hkernel, rfl⟩ := h
  refine ⟨∑ p, F p + K, (add_assoc ..).symm, fun s' hs hlayer hroot => ⟨F, K, fun p => ?_, ?_, add_assoc ..⟩⟩
  · rw [hlayer]
    exact (howns p).congr (hs.left.mono (Finset.single_le_sum (fun _ _ => Multiset.zero_le _) (Finset.mem_univ p)))
  · rw [hroot]
    exact hkernel.congr hs.right

section

variable {file : FileId → File} {word : Nat → Nat → Word} {page : Nat} {writable : Bool}

/-- The last reference to an end of a pipe is dropped: the other ends are still there. -/
theorem isEnd_clear (g : FileId) (page' : Nat) (v : Bool) :
    (update file f (file f).clear g).IsEnd page' v ↔ g ≠ f ∧ (file g).IsEnd page' v := by
  by_cases hg : g = f
  · rw [hg, update_self]
    exact ⟨fun h => absurd h.1 (FileType.noConfusion ·), fun h => absurd rfl h.1⟩
  · rw [update_of_ne hg]
    exact ⟨fun h => ⟨hg, h⟩, fun h => h.2⟩

theorem pipePages_clear (hend : (file f).IsEnd page writable) :
    pipePages file = insert page (pipePages (update file f (file f).clear)) := by
  ext page'
  rw [Finset.mem_insert, mem_pipePages, mem_pipePages]
  simp only [isEnd_clear]
  constructor
  · rintro ⟨g, v, hg⟩
    by_cases hgf : g = f
    · subst hgf
      exact .inl (hg.2.1.symm.trans hend.2.1)
    · exact .inr ⟨g, v, hgf, hg⟩
  · rintro (rfl | ⟨g, v, -, hg⟩)
    · exact ⟨f, writable, hend⟩
    · exact ⟨g, v, hg⟩

section

variable (h : Pipes word file) (hend : (file f).IsEnd page writable)
include h hend

/-- What the flags of a pipe say after one end has been closed. -/
theorem Pipes.flag_clear (v : Bool) :
    IsOpen v (closeEnd writable (word page PIPE_OPEN)) ↔ ∃ g, (update file f (file f).clear g).IsEnd page v := by
  have hpage : page ∈ pipePages file := mem_pipePages.mpr ⟨f, writable, hend⟩
  rw [isOpen_closeEnd, h.flag page hpage]
  simp only [isEnd_clear]
  constructor
  · rintro ⟨hv, g, hg⟩
    refine ⟨g, ?_, hg⟩
    rintro rfl
    exact hv (hg.2.2.symm.trans hend.2.2)
  · rintro ⟨g, hgf, hg⟩
    refine ⟨?_, g, hg⟩
    rintro rfl
    exact hgf (h.ends g f page v hg hend)

/-- The pipe is closed when the last end has gone. -/
theorem Pipes.closed_iff_notMem :
    (∀ v, ¬ IsOpen v (closeEnd writable (word page PIPE_OPEN))) ↔
      page ∉ pipePages (update file f (file f).clear) := by
  rw [mem_pipePages]
  simp only [h.flag_clear hend]
  constructor
  · rintro hno ⟨g, v, hg⟩
    exact hno v ⟨g, hg⟩
  · rintro hno v ⟨g, hg⟩
    exact hno ⟨g, v, hg⟩

/-- Entry and flags after an end has been closed. -/
theorem Pipes.clear {word' : Nat → Nat → Word}
    (hself : page ∈ pipePages (update file f (file f).clear) → word' page PIPE_OPEN = closeEnd writable (word page PIPE_OPEN))
    (hother : ∀ page' ∈ pipePages (update file f (file f).clear), page' ≠ page → word' page' = word page') :
    Pipes word' (update file f (file f).clear) := by
  refine ⟨fun g => ?_, fun g g' page' v hg hg' => ?_, fun page' hpage' v => ?_⟩
  · by_cases hg : g = f
    · rw [hg, update_self]
      exact fun _ => rfl
    · rw [update_of_ne hg]
      exact h.free g
  · exact h.ends g g' page' v ((isEnd_clear g page' v).mp hg).2 ((isEnd_clear g' page' v).mp hg').2
  · by_cases hpp : page' = page
    · subst hpp
      rw [hself hpage']
      exact h.flag_clear hend v
    · have hold : page' ∈ pipePages file := by
        rw [pipePages_clear hend]
        exact Finset.mem_insert_of_mem hpage'
      rw [hother page' hpage' hpp, h.flag page' hold]
      simp only [isEnd_clear]
      constructor
      · rintro ⟨g, hg⟩
        refine ⟨g, ?_, hg⟩
        rintro rfl
        exact hpp (hg.2.1.symm.trans hend.2.1)
      · rintro ⟨g, -, hg⟩
        exact ⟨g, hg⟩

end

end

theorem dropped : held - Pi.single f 1 = held + Pi.single f (-1) := by
  funext g
  rw [Pi.sub_apply, Pi.add_apply]
  by_cases hg : g = f
  · rw [hg, Pi.single_eq_same, Pi.single_eq_same]
    rfl
  · rw [Pi.single_eq_of_ne hg, Pi.single_eq_of_ne hg]
    rfl

/-- The count of a file whose last reference is dropped. -/
theorem counted_clear (h : Counted s held) (href : (s.file f).ref = 1) {m' : Mem} :
    Counted ((s.setFile f (s.file f).clear).setMem m') (held - Pi.single f 1) := by
  intro g
  show ((update s.file f (s.file f).clear g).ref : Int) = (refs s.proc g).card + _
  rw [Pi.sub_apply]
  by_cases hg : g = f
  · subst hg
    have := h g
    rw [update_self, Pi.single_eq_same]
    show ((0 : Nat) : Int) = _
    omega
  · rw [update_of_ne hg, Pi.single_eq_of_ne hg, Int.sub_zero]
    exact h g

/-- `pipeclose` on the pipe of an end that has just gone from the table. -/
theorem pipeclose_spec (h : Core L s B held) (href : (s.file f).ref = 1) (htype : (s.file f).type = .pipe) :
    wp (onMem (pipeclose L (s.file f).pipe (s.file f).writable))
      (fun _ s' => SameProcs s s' ∧ Core L s' B (held - Pi.single f 1)) never (s.setFile f (s.file f).clear) := by
  obtain ⟨⟨X, hbody, hpool⟩, hpipes, hcounted⟩ := h
  have hend : (s.file f).IsEnd (s.file f).pipe (s.file f).writable := ⟨htype, rfl, rfl⟩
  generalize (s.file f).pipe = page at hend ⊢
  generalize (s.file f).writable = writable at hend ⊢
  obtain ⟨R, rfl, hback⟩ := hbody.pipes
  have hinsert := pipePages_clear hend
  have hmem : page ∈ (pipePages s.file).val := mem_pipePages.mpr ⟨f, writable, hend⟩
  have hnot : page ∉ R := fun hR => Pool.disjoint (Multiset.add_assoc .. ▸ hpool) hR (by simp [hmem])
  have hpool₁ : Pool L (s.mem.setWord page PIPE_OPEN (closeEnd writable (s.mem.word page PIPE_OPEN)))
      (R + (pipePages s.file).val + B) := hpool.setWord (by simp [hmem]) ..
  have hset : ∀ w, (s.mem.setWord page PIPE_OPEN w).word page PIPE_OPEN = w := fun w => Radix.set_self ..
  unfold pipeclose
  rw [wp_onMem, wp_bind, wp_change, wp_bind, wp_read]
  show wp (if _ then _ else _) _ _ (s.mem.setWord page PIPE_OPEN (closeEnd writable (s.mem.word page PIPE_OPEN)))
  apply wp_ite
  · -- the page goes back
    intro hclosed
    have hgone : page ∉ pipePages (update s.file f (s.file f).clear) :=
      (hpipes.closed_iff_notMem hend).mp fun v hv => (closed_iff _).mp hclosed v ((hset _).symm ▸ hv)
    have hval : (pipePages s.file).val = page ::ₘ (pipePages (update s.file f (s.file f).clear)).val := by
      rw [hinsert]
      exact Finset.insert_val_of_notMem hgone
    have hpool₂ : Pool L (s.mem.setWord page PIPE_OPEN (closeEnd writable (s.mem.word page PIPE_OPEN)))
        (page ::ₘ (R + (pipePages (update s.file f (s.file f).clear)).val + B)) := by
      apply hpool₁.of_eq
      rw [hval]
      simp
    apply wp_mono (kfree_spec hpool₂) _ fun _ _ h => h
    rintro _ m' ⟨hpool', hsame⟩
    have hsame' : SameOn (R + (pipePages (update s.file f (s.file f).clear)).val) s.mem.word m'.word := by
      apply SameOn.trans _ hsame.left
      intro page' hpage'
      have hne : page' ≠ page := by
        rintro rfl
        rcases mem_add.mp hpage' with hR | hP
        · exact hnot hR
        · exact hgone hP
      exact Radix.set_of_ne hne
    refine ⟨⟨rfl, rfl, rfl⟩, ⟨_, hback _ hsame'.left rfl rfl, hpool'⟩, ?_, counted_clear hcounted href⟩
    exact hpipes.clear hend (fun h => absurd h hgone) fun page' hpage' _ => hsame'.right page' hpage'
  · intro hopen
    have hstays : page ∈ pipePages (update s.file f (s.file f).clear) := by
      by_contra hgone
      exact hopen ((closed_iff _).mpr ((hset _).symm ▸ (hpipes.closed_iff_notMem hend).mpr hgone))
    have hval : pipePages (update s.file f (s.file f).clear) = pipePages s.file := by
      rw [hinsert, Finset.insert_eq_of_mem hstays]
    refine ⟨⟨rfl, rfl, rfl⟩, ⟨R + (pipePages s.file).val, ?_, hpool₁⟩, ?_, counted_clear hcounted href⟩
    · have hbody' := hback ((s.setFile f (s.file f).clear).setMem
        (s.mem.setWord page PIPE_OPEN (closeEnd writable (s.mem.word page PIPE_OPEN))))
        (fun b hb => Radix.set_of_ne fun e => hnot (e ▸ hb)) rfl rfl
      rw [← hval]
      exact hbody'
    · exact hpipes.clear hend (fun _ => hset _) fun page' _ hne => Radix.set_of_ne hne

theorem fileclose_spec (h : Core L s B held) (hpos : 0 < (s.file f).ref) :
    wp (fileclose L f) (fun _ s' => SameProcs s s' ∧ Core L s' B (held - Pi.single f 1)) never s := by
  unfold fileclose
  rw [wp_bind, wp_read, if_neg (by omega)]
  apply wp_ite
  · intro hmore
    have hless : (((s.file f).ref - 1 : Nat) : Int) = (s.file f).ref + -1 := by omega
    rw [dropped]
    exact ⟨⟨rfl, rfl, rfl⟩, h.setRef (fun _ _ => Iff.rfl) (fun h => absurd (show (s.file f).ref - 1 = 0 from h) (by omega)) hless⟩
  · intro hlast
    have href : (s.file f).ref = 1 := by omega
    rw [wp_bind, assignFile, wp_change]
    apply wp_ite
    · intro htype
      exact pipeclose_spec h href htype
    · intro htype
      have hends : ∀ page w, (s.file f).clear.IsEnd page w ↔ (s.file f).IsEnd page w := fun page w =>
        ⟨fun h => absurd h.1 (FileType.noConfusion ·), fun h => absurd h.1 htype⟩
      rw [dropped]
      exact ⟨⟨rfl, rfl, rfl⟩, h.setRef hends (fun _ => rfl) (by rw [href]; rfl)⟩

/-! ## Calls on memory -/

/-- A page of the call that is going on is written. -/
theorem Core.write (h : Core L s B held) {page : Nat} (hpage : page ∈ B) (m' : Mem) (hfree : m'.freelist = s.mem.freelist)
    (hfails : m'.fails = s.mem.fails) (hword : ∀ q, q ≠ page → m'.word q = s.mem.word q) : Core L (s.setMem m') B held := by
  obtain ⟨X, hpool, hback⟩ := h.around
  have hnot : page ∉ X := fun hX => hpool.disjoint hX hpage
  apply hback m' B
  · have hmem : page ∈ X + B := mem_add.mpr (.inr hpage)
    have hwrite := hpool.write hmem hword
    rw [← hfree, ← hfails] at hwrite
    exact hwrite
  · exact fun q hq => hword q fun e => hnot (e ▸ hq)

theorem Core.kalloc (h : Core L s B held) : wp (onMem kalloc) (fun r s' => ∃ m', s' = s.setMem m' ∧
    ((r = 0 ∧ Core L s' B held) ∨ (r ≠ 0 ∧ Core L s' ({r} + B) held))) never s := by
  obtain ⟨X, hpool, hback⟩ := h.around
  rw [wp_onMem]
  apply wp_mono (kalloc_spec hpool) _ fun _ _ h => h
  intro r m' halloc
  refine ⟨m', rfl, ?_⟩
  cases halloc with
  | failed pool same _ _ => exact .inl ⟨rfl, hback m' B pool fun q _ => by rw [same]⟩
  | page r pool same _ =>
    refine .inr ⟨pool.ne_zero (mem_cons_self _ _), hback m' _ (pool.of_eq ?_) same.left⟩
    rw [← singleton_add]
    abel

/-- A page of the call that is going on is given back. -/
theorem Core.kfree {page : Nat} (h : Core L s ({page} + B) held) :
    wp (onMem (kfree L page)) (fun _ s' => ∃ m', s' = s.setMem m' ∧ Core L s' B held) never s := by
  obtain ⟨X, hpool, hback⟩ := h.around
  have hpool : Pool L s.mem (page ::ₘ (X + B)) := by
    apply hpool.of_eq
    rw [← singleton_add]
    abel
  rw [wp_onMem]
  apply wp_mono (kfree_spec hpool) _ fun _ _ h => h
  rintro _ m' ⟨hpool', hsame⟩
  exact ⟨m', rfl, hback m' B hpool' hsame.left⟩

theorem Core.of_held {held' : FileId → Int} (h : Core L s B held) (heq : held = held') : Core L s B held' := heq ▸ h

/-- A call that leaves the shape of a space as it is leaves everything else alone. -/
theorem Core.user_call {α : Type} {c : Call α} (h : Core L s B held) (hlive : (s.proc p).pagetable ≠ 0)
    (hc : ∀ {C T mp m m'}, Room L C m m' (s.proc p).pagetable (s.proc p).trapframe (npages (s.proc p).sz) T mp →
      wp c (fun _ m'' => Room L C m m'' (s.proc p).pagetable (s.proc p).trapframe (npages (s.proc p).sz) T mp) never m') :
    wp (onMem c) (fun _ s' => ∃ m', s' = s.setMem m' ∧ Core L s' B held) never s := by
  obtain ⟨R, T, mp, -, hroom, -, hback⟩ := h.room hlive
  rw [wp_onMem]
  apply wp_mono (hc hroom) _ fun _ _ h => h
  intro a m' hroom'
  have hcore := hback m' (s.proc p) T mp rfl rfl rfl hroom'
  rw [← State.setMem_proc s m', State.setProc_self] at hcore
  exact ⟨m', rfl, hcore⟩

/-! ## Descriptors -/

theorem points_some (f : FileId) : points (some f) = Pi.single f 1 := by
  funext g
  unfold points
  by_cases hg : g = f
  · rw [hg, Pi.single_eq_same, if_pos rfl]
  · rw [Pi.single_eq_of_ne hg, if_neg fun h => hg (Option.some.inj h).symm]

/-- Only memory, the file table and the descriptors of one process differ. -/
def Reopened (p : Slot) (s s' : State) : Prop :=
  (∃ ofile, s'.proc = update s.proc p ((s.proc p).setOfiles ofile)) ∧ s'.initproc = s.initproc ∧
    s'.nextpid = s.nextpid

theorem SameProcs.reopened (h : SameProcs s s') (p : Slot) : Reopened p s s' :=
  ⟨⟨(s.proc p).ofile, h.proc.trans (update_eq_self p s.proc).symm⟩, h.initproc, h.nextpid⟩

theorem Reopened.refl (p : Slot) (s : State) : Reopened p s s := (SameProcs.refl s).reopened p

theorem Reopened.trans {s'' : State} (h : Reopened p s s') (h' : Reopened p s' s'') : Reopened p s s'' := by
  obtain ⟨⟨o, hproc⟩, hinit, hpid⟩ := h
  obtain ⟨⟨o', hproc'⟩, hinit', hpid'⟩ := h'
  refine ⟨⟨o', ?_⟩, hinit'.trans hinit, hpid'.trans hpid⟩
  rw [hproc', hproc, update_idem, update_self]
  rfl

theorem reopened_setOfile (s : State) (p : Slot) (fd : Desc) (x : Option FileId) :
    Reopened p s (s.setProc p ((s.proc p).setOfile fd x)) :=
  ⟨⟨_, rfl⟩, rfl, rfl⟩

theorem Core.ref_pos_of_held (h : Core L s B held) (hf : 0 < held f) : 0 < (s.file f).ref := by
  have := h.counted f
  omega

/-- A file that a descriptor points to is not free. -/
theorem Core.ref_pos {fd : Desc} (h : Core L s B held) (hf : 0 ≤ held f) (hofile : (s.proc p).ofile fd = some f) :
    0 < (s.file f).ref := by
  have hcard : 0 < (refs s.proc f).card := card_pointers_pos hofile
  have := h.counted f
  omega

theorem fdalloc_spec (h : Core L s B held) : wp (fdalloc p f) (fun r s' =>
    (r = none ∧ s' = s) ∨ ∃ fd, r = some fd ∧ (s.proc p).ofile fd = none ∧
      s' = s.setProc p ((s.proc p).setOfile fd (some f)) ∧ Core L s' B (held - Pi.single f 1)) never s := by
  unfold fdalloc
  rw [wp_bind, wp_read]
  cases hfind : (List.finRange NOFILE).find? fun fd => (s.proc p).ofile fd = none with
  | none => exact .inl ⟨rfl, rfl⟩
  | some fd =>
    have hnone : (s.proc p).ofile fd = none := by simpa using List.find?_some hfind
    refine .inr ⟨fd, rfl, hnone, rfl, (h.setOfile fd (some f)).of_held ?_⟩
    rw [hnone, points_none, points_some, add_zero]

theorem sysDup_spec (h : Core L s 0 0) {fd : Desc} :
    wp (sysDup p fd) (fun _ s' => Reopened p s s' ∧ Core L s' 0 0) never s := by
  unfold sysDup
  rw [wp_bind, wp_read]
  cases hfd : (s.proc p).ofile fd with
  | none => exact ⟨.refl p s, h⟩
  | some f =>
    have hpos : 0 < (s.file f).ref := h.ref_pos (Int.le_refl 0) hfd
    apply wp_seq (fdalloc_spec h)
    rintro r s₁ (⟨rfl, rfl⟩ | ⟨fd', rfl, -, rfl, hcore⟩)
    · exact ⟨.refl p s₁, h⟩
    · apply wp_seq (filedup_spec hcore hpos)
      rintro _ s₂ ⟨hsame, hcore₂⟩
      refine ⟨(reopened_setOfile s p fd' (some f)).trans (hsame.reopened p), hcore₂.of_held ?_⟩
      abel

theorem sysClose_spec (h : Core L s 0 0) {fd : Desc} :
    wp (sysClose L p fd) (fun _ s' => Reopened p s s' ∧ Core L s' 0 0) never s := by
  unfold sysClose
  rw [wp_bind, wp_read]
  cases hfd : (s.proc p).ofile fd with
  | none => exact ⟨.refl p s, h⟩
  | some f =>
    have hpos : 0 < (s.file f).ref := h.ref_pos (Int.le_refl 0) hfd
    rw [wp_bind, assign, wp_change]
    apply wp_seq (fileclose_spec (h.setOfile fd none) hpos)
    rintro _ s₁ ⟨hsame, hcore⟩
    refine ⟨(reopened_setOfile s p fd none).trans (hsame.reopened p), hcore.of_held ?_⟩
    rw [hfd, points_some, points_none]
    abel

theorem sysOpen_spec (h : Core L s 0 0) {device readable writable : Bool} {ip : Nat} :
    wp (sysOpen L p device readable writable ip) (fun _ s' => Reopened p s s' ∧ Core L s' 0 0) never s := by
  unfold sysOpen
  apply wp_seq (filealloc_spec h)
  rintro r s₁ (⟨rfl, rfl⟩ | ⟨f, rfl, href, rfl, hcore⟩)
  · exact ⟨.refl p s₁, h⟩
  have hfile : (s.setFile f ((s.file f).setRef 1)).file f = (s.file f).setRef 1 := update_self ..
  have hsame := sameProcs_setFile s f ((s.file f).setRef 1)
  apply wp_seq (fdalloc_spec hcore)
  rintro r s₂ (⟨rfl, rfl⟩ | ⟨fd, rfl, -, rfl, hcore₂⟩)
  · apply wp_seq (fileclose_spec hcore (by rw [hfile]; exact Nat.one_pos))
    rintro _ s₃ ⟨hsame₃, hcore₃⟩
    exact ⟨(hsame.trans hsame₃).reopened p, hcore₃.of_held (by abel)⟩
  · rw [wp_bind, assignFile, wp_change, wp_pure]
    refine ⟨((hsame.reopened p).trans (reopened_setOfile _ p fd _)).trans ((sameProcs_setFile ..).reopened p), ?_⟩
    rw [show (0 : FileId → Int) = 0 + Pi.single f 1 - Pi.single f 1 + Pi.single f 0 by rw [Pi.single_zero]; abel]
    apply hcore₂.setRef
    · intro page w
      have hnothing : (s.file f).type = .nothing := h.pipes.free f href
      show (((s.setFile f ((s.file f).setRef 1)).file f).setInode device readable writable ip).IsEnd page w ↔
        ((s.setFile f ((s.file f).setRef 1)).file f).IsEnd page w
      rw [hfile]
      constructor
      · intro hend
        have htype : (if device then FileType.device else FileType.inode) = .pipe := hend.1
        cases device <;> cases htype
      · intro hend
        exact absurd (hnothing.symm.trans hend.1) (FileType.noConfusion ·)
    · intro hzero
      have hone : ((s.setFile f ((s.file f).setRef 1)).file f).ref = 0 := hzero
      rw [hfile] at hone
      cases hone
    · exact (Int.add_zero _).symm

end Xv6.Kernel
