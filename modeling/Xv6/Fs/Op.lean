import Xv6.Fs.Cache

/-!
# A transaction from start to end

Between two calls nobody is in a transaction (`Idle`) and no inode is locked. What a function has
done inside a transaction (`Effect`) is what the transaction has done when it has ended (`Done`).
-/

namespace Xv6.Fs

open Prog
open Bitmap (Roomy)

variable {P : Type} {sb : Super} {s s' s'' : State P}

/-- Nobody is in a transaction, and the log is empty. -/
structure Idle (l : Log.LogState) : Prop where
  outstanding : l.outstanding = 0
  committing : l.committing = false
  lh : l.lh = []
  size : LOGSIZE ≤ l.size

/-- No inode is locked. -/
def unlocked : Fin NINODE → Bool := fun _ => false

/-- `begin_op` has been called. -/
def State.begun (s : State P) : State P := s.setLog { s.log with outstanding := s.log.outstanding + 1 }

/-- What transactions have done. -/
structure Done (sb : Super) (F : Nat → Option FileView) (δ : Fin NINODE → Int) (s s' : State P) : Prop where
  ok : Ok sb unlocked s'
  idle : Idle s'.log
  files : files sb s'.disk = F
  ref : ∀ k, (s'.icache k).ref = (s.icache k).ref + δ k
  keep : ∀ k, 0 < (s.icache k).ref → 0 < (s'.icache k).ref →
    (s'.icache k).inum = (s.icache k).inum ∧ ((s.icache k).valid = true → (s'.icache k).valid = true)
  ftable : s'.ftable = s.ftable
  proc : s'.proc = s.proc

section

variable {L : Fin NINODE → Bool} {F F' : Nat → Option FileView} {δ δ' : Fin NINODE → Int} {c m : Nat}

/-- The log is empty when an operation starts. -/
theorem Idle.roomy (h : Idle s.log) {n : Nat} (hn : n < LOGSIZE) : Roomy s.begun.log n := by
  have hsize := h.size
  refine ⟨?_, ?_, ?_⟩
  · show 1 ≤ s.log.outstanding + 1
    rw [h.outstanding]
    decide
  · show s.log.lh.length + n ≤ LOGSIZE
    rw [h.lh, List.length_nil]
    omega
  · show (s.log.lh.length + n : Int) ≤ s.log.size - 1
    rw [h.lh, List.length_nil]
    omega

theorem Idle.beginOp (h : Idle s.log) : beginOp s = .ok () s.begun := by
  have hgo : ¬ s.log.mustWait := by
    unfold Log.LogState.mustWait
    rw [h.outstanding, h.committing, h.lh]
    decide
  unfold Fs.beginOp
  rw [if_neg hgo]
  rfl

/-- `Ok` is about the disk and the cache only. -/
theorem Ok.congr (h : Ok sb L s) (hdisk : s'.disk = s.disk) (hicache : s'.icache = s.icache) : Ok sb L s' := by
  refine ⟨?_, ?_, ?_, ?_, ?_, ?_⟩
  · rw [hdisk]; exact h.rep
  · rw [hicache]; exact h.nonneg
  · rw [hicache]; exact h.uniq
  · rw [hicache, hdisk]; exact h.entry
  · rw [hicache]; exact h.locked
  · rw [hicache]; exact h.held

theorem Effect.setFile (h : Effect sb L F δ c m s s') (f : Fin NFILE) (x : File) :
    Effect sb L F δ c m (s.setFile f x) (s'.setFile f x) :=
  ⟨h.ok.congr rfl rfl, h.files, h.ref, h.keep, by unfold State.setFile; rw [h.ftable], h.proc, h.ops, h.log, h.spends, h.blocks⟩

/-- `end_op` ends the only operation, and commits. -/
theorem Effect.endOp (h : Effect sb unlocked F δ c m s.begun s') (hidle : Idle s.log) :
    wp endOp (fun _ s'' => Done sb F δ s s'') never s' := by
  have hlog := h.log
  have hout : s'.log.outstanding = 1 := by
    rw [hlog]
    show s.log.outstanding + 1 = 1
    rw [hidle.outstanding]
    rfl
  have hcommitting : s'.log.committing = false := by
    rw [hlog]
    exact hidle.committing
  have hend : s'.log.endOp = .ok ({ s'.log with outstanding := s'.log.outstanding - 1, committing := true }, true) := by
    unfold Log.LogState.endOp
    rw [if_neg (by rw [hcommitting]; decide), if_pos (by rw [hout]; decide)]
  have hstep : Fs.endOp s' = .ok () (s'.endOp { s'.log with outstanding := 0, committing := false, lh := [] } s'.log.lh) := by
    unfold Fs.endOp
    rw [hend, hout]
    rfl
  apply wp_of_ok hstep
  · refine ⟨h.ok.congr rfl rfl, ⟨rfl, rfl, rfl, ?_⟩, h.files, h.ref, h.keep, h.ftable, h.proc⟩
    show LOGSIZE ≤ s'.log.size
    rw [hlog]
    exact hidle.size

theorem Done.refl (h : Ok sb unlocked s) (hidle : Idle s.log) : Done sb (Fs.files sb s.disk) 0 s s :=
  ⟨h, hidle, rfl, fun _ => (add_zero _).symm, fun _ _ _ => ⟨rfl, id⟩, rfl, rfl⟩

theorem Done.trans (h : Done sb F δ s s') (h' : Done sb F' δ' s' s'') (hδ : 0 ≤ δ) : Done sb F' (δ + δ') s s'' := by
  refine ⟨h'.ok, h'.idle, h'.files, fun k => ?_, fun k hk hk' => ?_, h'.ftable.trans h.ftable, h'.proc.trans h.proc⟩
  · rw [h'.ref, h.ref, Pi.add_apply, Int.add_assoc]
  · have hmid : 0 < (s'.icache k).ref := by
      have := hδ k
      rw [h.ref]
      exact Int.lt_of_lt_of_le hk (Int.le_add_of_nonneg_right this)
    obtain ⟨hinum, hvalid⟩ := h.keep k hk hmid
    obtain ⟨hinum', hvalid'⟩ := h'.keep k hmid hk'
    exact ⟨hinum'.trans hinum, fun hv => hvalid' (hvalid hv)⟩

/-- The state after mounting is as between two calls. -/
theorem ok_mounted [DecidableEq P] (p : P) (size outstanding : Int) (root : Fin NINODE) :
    Ok mkfsSuper unlocked (mounted p size outstanding root) := by
  have hself : (mounted p size outstanding root).icache root =
      { inum := ROOTINO, ref := 1, locked := false, valid := true, din := rootInode } := if_pos rfl
  have hother : ∀ k, k ≠ root → (mounted p size outstanding root).icache k =
      { inum := 0, ref := 0, locked := false, valid := false, din := .zero } := fun k hk => if_neg hk
  have hroot : ∀ k, 0 < ((mounted p size outstanding root).icache k).ref → k = root := by
    intro k hk
    by_contra hne
    rw [hother k hne] at hk
    exact absurd hk (by decide)
  have hinode : inode mkfsSuper image ROOTINO = rootInode := (inode_image (by decide)).trans (if_pos rfl)
  refine ⟨rep_image, fun k => ?_, fun k k' hk hk' _ => ?_, fun k hk => ?_, fun k => ?_, fun k hk => ?_⟩
  · by_cases hk : k = root
    · rw [hk, hself]
      decide
    · rw [hother k hk]
  · rw [hroot k hk, hroot k' hk']
  · rw [hroot k hk, hself]
    refine ⟨by decide, ?_, fun _ => hinode.symm⟩
    show (inode mkfsSuper image ROOTINO).type ≠ 0
    rw [hinode]
    decide
  · by_cases hk : k = root
    · rw [hk, hself]
      rfl
    · rw [hother k hk]
      rfl
  · cases hk

theorem Done.setFile (h : Done sb F δ s s') (f : Fin NFILE) (x : File) : Done sb F δ (s.setFile f x) (s'.setFile f x) :=
  ⟨h.ok.congr rfl rfl, h.idle, h.files, h.ref, h.keep, by unfold State.setFile; rw [h.ftable], h.proc⟩

end

end Xv6.Fs
