import Xv6.Kernel.Files

/-!
# `pipealloc` and `sys_pipe`

A new pipe gets a page and two entries of the file table, which the call holds until both have a
descriptor. On every failure the call drops what it holds, and the second `fileclose` gives the page
back.
-/

namespace Xv6.Kernel

open Prog Radix Vm Function Multiset

variable {L : Layout} {s s' : State} {B : Multiset Nat} {held : FileId → Int} {f₀ f₁ : FileId} {p : Slot} {page : Nat}

/-! ## The entries of a new pipe -/

/-- The file table after the assignments of `pipealloc`. -/
def withPipe (file : FileId → File) (f₀ f₁ : FileId) (page : Nat) : FileId → File :=
  update (update file f₀ ((file f₀).setPipe false page)) f₁ ((file f₁).setPipe true page)

section

variable {file : FileId → File} {word word' : Nat → Nat → Word}

theorem withPipe_isEnd (hne : f₀ ≠ f₁) (h₀ : (file f₀).type = .nothing) (h₁ : (file f₁).type = .nothing)
    (g : FileId) (page' : Nat) (w : Bool) : (withPipe file f₀ f₁ page g).IsEnd page' w ↔
      (page' = page ∧ (g = f₀ ∧ w = false ∨ g = f₁ ∧ w = true)) ∨ (file g).IsEnd page' w := by
  unfold withPipe
  by_cases hg₁ : g = f₁
  · subst hg₁
    rw [update_self]
    simp [File.IsEnd, File.setPipe, h₁, hne.symm, eq_comm]
  · rw [update_of_ne hg₁]
    by_cases hg₀ : g = f₀
    · subst hg₀
      rw [update_self]
      simp [File.IsEnd, File.setPipe, h₀, hg₁, eq_comm]
    · rw [update_of_ne hg₀]
      simp [hg₀, hg₁]

theorem pipePages_withPipe (hne : f₀ ≠ f₁) (h₀ : (file f₀).type = .nothing) (h₁ : (file f₁).type = .nothing) :
    pipePages (withPipe file f₀ f₁ page) = insert page (pipePages file) := by
  ext page'
  rw [Finset.mem_insert, mem_pipePages, mem_pipePages]
  simp only [withPipe_isEnd hne h₀ h₁]
  constructor
  · rintro ⟨g, w, ⟨rfl, -⟩ | hend⟩
    · exact .inl rfl
    · exact .inr ⟨g, w, hend⟩
  · rintro (rfl | ⟨g, w, hend⟩)
    · exact ⟨f₀, false, .inl ⟨rfl, .inl ⟨rfl, rfl⟩⟩⟩
    · exact ⟨g, w, .inr hend⟩

theorem Pipes.withPipe (h : Pipes word file) (hne : f₀ ≠ f₁) (h₀ : (file f₀).type = .nothing) (h₁ : (file f₁).type = .nothing)
    (hr₀ : (file f₀).ref ≠ 0) (hr₁ : (file f₁).ref ≠ 0) (hpage : page ∉ pipePages file)
    (hsame : ∀ page' ∈ pipePages file, word' page' = word page') (hopen : ∀ w, IsOpen w (word' page PIPE_OPEN)) :
    Pipes word' (Kernel.withPipe file f₀ f₁ page) := by
  have hends : ∀ g page' w, ((Kernel.withPipe file f₀ f₁ page) g).IsEnd page' w ↔
      (page' = page ∧ (g = f₀ ∧ w = false ∨ g = f₁ ∧ w = true)) ∨ (file g).IsEnd page' w := withPipe_isEnd hne h₀ h₁
  have hnew : ∀ g w, ¬ (file g).IsEnd page w := fun g w hend => hpage (mem_pipePages.mpr ⟨g, w, hend⟩)
  refine ⟨fun g href => ?_, fun g g' page' w hg hg' => ?_, fun page' hpage' w => ?_⟩
  · unfold Kernel.withPipe at href ⊢
    by_cases hg₁ : g = f₁
    · subst hg₁
      rw [update_self] at href
      exact absurd href hr₁
    · rw [update_of_ne hg₁] at href ⊢
      by_cases hg₀ : g = f₀
      · subst hg₀
        rw [update_self] at href
        exact absurd href hr₀
      · rw [update_of_ne hg₀] at href ⊢
        exact h.free g href
  · rw [hends] at hg hg'
    rcases hg with ⟨rfl, hg⟩ | hg
    · rcases hg' with ⟨-, hg'⟩ | hg'
      · rcases hg with ⟨rfl, rfl⟩ | ⟨rfl, rfl⟩ <;> rcases hg' with ⟨rfl, hw⟩ | ⟨rfl, hw⟩ <;> cases hw <;> rfl
      · exact absurd hg' (hnew g' w)
    · rcases hg' with ⟨rfl, -⟩ | hg'
      · exact absurd hg (hnew g w)
      · exact h.ends g g' page' w hg hg'
  · simp only [hends]
    rw [pipePages_withPipe hne h₀ h₁, Finset.mem_insert] at hpage'
    by_cases hpp : page' = page
    · subst hpp
      refine ⟨fun _ => ?_, fun _ => hopen w⟩
      cases w with
      | false => exact ⟨f₀, .inl ⟨rfl, .inl ⟨rfl, rfl⟩⟩⟩
      | true => exact ⟨f₁, .inl ⟨rfl, .inr ⟨rfl, rfl⟩⟩⟩
    · have hold := hpage'.resolve_left hpp
      rw [hsame page' hold, h.flag page' hold w]
      simp [hpp]

end

/-! ## `pipealloc` -/

/-- The references that a call holds to two files. -/
def both (f₀ f₁ : FileId) : FileId → Int := Pi.single f₀ 1 + Pi.single f₁ 1

theorem both_left (hne : f₀ ≠ f₁) : both f₀ f₁ f₀ = 1 := by
  rw [both, Pi.add_apply, Pi.single_eq_same, Pi.single_eq_of_ne hne]
  rfl

theorem closeBoth_spec (h : Core L s B (both f₀ f₁)) (hne : f₀ ≠ f₁) :
    wp (closeBoth L f₀ f₁) (fun _ s' => SameProcs s s' ∧ Core L s' B 0) never s := by
  unfold closeBoth
  apply wp_seq (fileclose_spec h (h.ref_pos_of_held (by rw [both_left hne]; decide)))
  rintro _ s₁ ⟨hsame₁, hcore₁⟩
  have hcore₁ : Core L s₁ B (Pi.single f₁ 1) := hcore₁.of_held (by unfold both; abel)
  apply wp_mono (fileclose_spec hcore₁ (hcore₁.ref_pos_of_held (by rw [Pi.single_eq_same]; decide))) _ fun _ _ => id
  rintro _ s₂ ⟨hsame₂, hcore₂⟩
  exact ⟨hsame₁.trans hsame₂, hcore₂.of_held (sub_self _)⟩

/-- The page of a call becomes the page of a pipe. -/
theorem Core.addPipe (h : Core L s ({page} + B) held) (hne : f₀ ≠ f₁) (h₀ : (s.file f₀).type = .nothing)
    (h₁ : (s.file f₁).type = .nothing) (hr₀ : (s.file f₀).ref ≠ 0) (hr₁ : (s.file f₁).ref ≠ 0)
    (hopen : ∀ w, IsOpen w (s.mem.word page PIPE_OPEN)) (hs : SameProcs s s') (hmem : s'.mem = s.mem)
    (hroot : s'.kernelPagetable = s.kernelPagetable) (hfile : s'.file = withPipe s.file f₀ f₁ page) :
    Core L s' B held := by
  obtain ⟨⟨X, hbody, hpool⟩, hpipes, hcounted⟩ := h
  obtain ⟨R, rfl, hback⟩ := hbody.pipes
  have hpage : page ∉ pipePages s.file := by
    intro hmem
    exact Pool.disjoint hpool (mem_add.mpr (.inr hmem)) (by simp)
  have hinsert : pipePages s'.file = insert page (pipePages s.file) := by
    rw [hfile]
    exact pipePages_withPipe hne h₀ h₁
  refine ⟨⟨R + (pipePages s'.file).val, ?_, ?_⟩, ?_, fun g => ?_⟩
  · apply hback
    · rw [hmem]
      exact .refl _ _
    · funext q
      unfold State.layer
      rw [hs.proc]
    · exact hroot
  · rw [hmem]
    apply hpool.of_eq
    rw [hinsert, Finset.insert_val_of_notMem hpage, ← singleton_add]
    abel
  · rw [hfile, hmem]
    exact hpipes.withPipe hne h₀ h₁ hr₀ hr₁ hpage (fun _ _ => rfl) hopen
  · have href : (s'.file g).ref = (s.file g).ref := by
      rw [hfile, withPipe]
      by_cases hg₁ : g = f₁
      · rw [hg₁, update_self]
        rfl
      · rw [update_of_ne hg₁]
        by_cases hg₀ : g = f₀
        · rw [hg₀, update_self]
          rfl
        · rw [update_of_ne hg₀]
    rw [href, hs.proc]
    exact hcounted g

theorem pipealloc_spec (h : Core L s B 0) : wp (pipealloc L) (fun r s' => SameProcs s s' ∧
    ((r = none ∧ Core L s' B 0) ∨ ∃ f₀ f₁, r = some (f₀, f₁) ∧ f₀ ≠ f₁ ∧ Core L s' B (both f₀ f₁))) never s := by
  unfold pipealloc
  apply wp_seq (filealloc_spec h)
  rintro r s₁ (⟨rfl, rfl⟩ | ⟨f₀, rfl, href₀, rfl, hcore₁⟩)
  · exact ⟨.refl _, .inl ⟨rfl, h⟩⟩
  have hfile₀ : (s.setFile f₀ ((s.file f₀).setRef 1)).file f₀ = (s.file f₀).setRef 1 := update_self ..
  apply wp_seq (filealloc_spec hcore₁)
  rintro r s₂ (⟨rfl, rfl⟩ | ⟨f₁, rfl, href₁, rfl, hcore₂⟩)
  · apply wp_seq (fileclose_spec hcore₁ (by rw [hfile₀]; exact Nat.one_pos))
    rintro _ s₃ ⟨hsame, hcore⟩
    exact ⟨(sameProcs_setFile ..).trans hsame, .inl ⟨rfl, hcore.of_held (by abel)⟩⟩
  have hne : f₀ ≠ f₁ := by
    rintro rfl
    rw [hfile₀] at href₁
    cases href₁
  have hcore₂ : Core L _ B (both f₀ f₁) := hcore₂.of_held (by unfold both; abel)
  have hothers : (s.setFile f₀ ((s.file f₀).setRef 1)).file f₁ = s.file f₁ := update_of_ne hne.symm ..
  rw [hothers] at href₁ hcore₂ ⊢
  generalize hs₂ : (s.setFile f₀ ((s.file f₀).setRef 1)).setFile f₁ ((s.file f₁).setRef 1) = s₂ at hcore₂ ⊢
  have hsame₂ : SameProcs s s₂ := hs₂ ▸ ⟨rfl, rfl, rfl⟩
  have hf₀ : s₂.file f₀ = (s.file f₀).setRef 1 := by
    rw [← hs₂]
    exact (update_of_ne hne ..).trans hfile₀
  have hf₁ : s₂.file f₁ = (s.file f₁).setRef 1 := by
    rw [← hs₂]
    exact update_self ..
  apply wp_seq hcore₂.kalloc
  rintro page s₃ ⟨m₃, rfl, ⟨rfl, hcore₃⟩ | ⟨hpage, hcore₃⟩⟩
  · rw [if_pos rfl]
    apply wp_seq (closeBoth_spec hcore₃ hne)
    rintro _ s₄ ⟨hsame₄, hcore₄⟩
    exact ⟨hsame₂.trans ((sameProcs_setMem ..).trans hsame₄), .inl ⟨rfl, hcore₄⟩⟩
  · rw [if_neg hpage, wp_bind, wp_onMem, wp_change, wp_bind, assignFile, wp_change, wp_bind, assignFile, wp_change, wp_pure]
    refine ⟨hsame₂.trans ⟨rfl, rfl, rfl⟩, .inr ⟨f₀, f₁, rfl, hne, ?_⟩⟩
    have hwrite := hcore₃.write (mem_add.mpr (.inl (mem_singleton_self page))) (m₃.setWord page PIPE_OPEN
      (setWriteopen (setReadopen (m₃.word page PIPE_OPEN) 1) 1)) rfl rfl fun _ hne => Radix.set_of_ne hne
    apply hwrite.addPipe hne
    · show (s₂.file f₀).type = .nothing
      rw [hf₀]
      exact h.pipes.free f₀ href₀
    · show (s₂.file f₁).type = .nothing
      rw [hf₁]
      exact h.pipes.free f₁ href₁
    · show (s₂.file f₀).ref ≠ 0
      rw [hf₀]
      exact Nat.one_ne_zero
    · show (s₂.file f₁).ref ≠ 0
      rw [hf₁]
      exact Nat.one_ne_zero
    · intro w
      show IsOpen w (Radix.set _ page PIPE_OPEN _ page PIPE_OPEN)
      rw [Radix.set_self]
      exact isOpen_new w _
    · exact ⟨rfl, rfl, rfl⟩
    · rfl
    · rfl
    · show update (update s₂.file f₀ _) f₁ (File.setPipe (update s₂.file f₀ _ f₁) true page) = _
      rw [update_of_ne hne.symm]
      rfl

/-! ## `sys_pipe` -/

variable {fd₀ fd₁ : Desc} {fdarray : Nat}

/-- The descriptors of a pipe that cannot be handed out are cleared. -/
theorem pipeUndo_spec (h : Core L s 0 0) (hne : f₀ ≠ f₁) (hfd : fd₀ ≠ fd₁)
    (hfd₀ : (s.proc p).ofile fd₀ = some f₀) (hfd₁ : (s.proc p).ofile fd₁ = some f₁) :
    wp (do
        assign p fun q => q.setOfile fd₀ none
        assign p fun q => q.setOfile fd₁ none
        closeBoth L f₀ f₁
        return -1) (fun (_ : Int) s' => Reopened p s s' ∧ Core L s' 0 0) never s := by
  rw [wp_bind, assign, wp_change, wp_bind, assign, wp_change]
  generalize hs₁ : s.setProc p ((s.proc p).setOfile fd₀ none) = s₁
  have hcore₁ : Core L s₁ 0 (Pi.single f₀ 1) := by
    rw [← hs₁]
    apply (h.setOfile fd₀ none).of_held
    rw [hfd₀, points_some, points_none]
    abel
  have hofile : (s₁.proc p).ofile fd₁ = some f₁ := by
    rw [← hs₁]
    show (update s.proc p _ p).ofile fd₁ = _
    rw [update_self]
    exact (update_of_ne hfd.symm ..).trans hfd₁
  have hcore₂ : Core L (s₁.setProc p ((s₁.proc p).setOfile fd₁ none)) 0 (both f₀ f₁) := by
    apply (hcore₁.setOfile fd₁ none).of_held
    rw [hofile, points_some, points_none, both]
    abel
  apply wp_seq (closeBoth_spec hcore₂ hne)
  rintro _ s₂ ⟨hsame, hcore⟩
  have hre : Reopened p s s₁ := hs₁ ▸ reopened_setOfile s p fd₀ none
  exact ⟨(hre.trans (reopened_setOfile s₁ p fd₁ none)).trans (hsame.reopened p), hcore⟩

theorem copyoutPair_spec {m m' : Mem} {C T : Multiset Nat} {root tf n : Nat}
    {mp : Nat → Option Word} (h : Room L C m m' root tf n T mp) :
    wp (copyoutPair root fdarray fd₀ fd₁) (fun _ m'' => Room L C m m'' root tf n T mp) never m' := by
  unfold copyoutPair
  apply wp_seq (copyout_spec h)
  intro r₀ m₁ h₁
  apply wp_ite
  · intro _
    exact h₁
  · intro _
    apply wp_seq (copyout_spec h₁)
    intro r₁ m₂ h₂
    exact h₂

theorem pipeCopyout_spec (h : Core L s 0 0) (hlive : (s.proc p).pagetable ≠ 0) (hne : f₀ ≠ f₁)
    (hfd : fd₀ ≠ fd₁) (hfd₀ : (s.proc p).ofile fd₀ = some f₀)
    (hfd₁ : (s.proc p).ofile fd₁ = some f₁) :
    wp (pipeCopyout L p fdarray fd₀ fd₁ f₀ f₁) (fun _ s' => Reopened p s s' ∧ Core L s' 0 0) never s := by
  unfold pipeCopyout
  rw [wp_bind, wp_read]
  apply wp_seq (h.user_call hlive copyoutPair_spec)
  rintro ok s₁ ⟨m₁, rfl, hcore₁⟩
  have hre₁ := (sameProcs_setMem s m₁).reopened p
  apply wp_ite
  · intro _
    apply wp_mono (pipeUndo_spec hcore₁ hne hfd hfd₀ hfd₁) _ fun _ _ => id
    rintro _ s₂ ⟨hre₂, hcore₂⟩
    exact ⟨hre₁.trans hre₂, hcore₂⟩
  · intro _
    exact ⟨hre₁, hcore₁⟩

theorem sysPipe_spec (h : Core L s 0 0) (hlive : (s.proc p).pagetable ≠ 0) :
    wp (sysPipe L p fdarray) (fun _ s' => Reopened p s s' ∧ Core L s' 0 0) never s := by
  unfold sysPipe
  apply wp_seq (pipealloc_spec h)
  rintro r s₁ ⟨hsame₁, ⟨rfl, hcore₁⟩ | ⟨f₀, f₁, rfl, hne, hcore₁⟩⟩
  · exact ⟨hsame₁.reopened p, hcore₁⟩
  have hre₁ := hsame₁.reopened p
  apply wp_seq (fdalloc_spec hcore₁)
  rintro r s₂ (⟨rfl, rfl⟩ | ⟨fd₀, rfl, hnone₀, rfl, hcore₂⟩)
  · apply wp_seq (closeBoth_spec hcore₁ hne)
    rintro _ s₃ ⟨hsame₃, hcore₃⟩
    exact ⟨hre₁.trans (hsame₃.reopened p), hcore₃⟩
  have hre₂ := hre₁.trans (reopened_setOfile s₁ p fd₀ (some f₀))
  generalize hs₂ : s₁.setProc p ((s₁.proc p).setOfile fd₀ (some f₀)) = s₂ at hcore₂ hre₂ ⊢
  have hproc₂ : s₂.proc p = (s₁.proc p).setOfile fd₀ (some f₀) := hs₂ ▸ update_self ..
  have hfd₀ : (s₂.proc p).ofile fd₀ = some f₀ := by
    rw [hproc₂]
    exact update_self ..
  apply wp_seq (fdalloc_spec hcore₂)
  rintro r s₃ (⟨rfl, rfl⟩ | ⟨fd₁, rfl, hnone₁, rfl, hcore₃⟩)
  · rw [wp_bind, assign, wp_change]
    have hcore₄ : Core L (s₃.setProc p ((s₃.proc p).setOfile fd₀ none)) 0 (both f₀ f₁) := by
      apply (hcore₂.setOfile fd₀ none).of_held
      rw [hfd₀, points_some, points_none]
      abel
    apply wp_seq (closeBoth_spec hcore₄ hne)
    rintro _ s₅ ⟨hsame₅, hcore₅⟩
    exact ⟨(hre₂.trans (reopened_setOfile s₃ p fd₀ none)).trans (hsame₅.reopened p), hcore₅⟩
  have hfd : fd₀ ≠ fd₁ := by
    rintro rfl
    rw [hfd₀] at hnone₁
    cases hnone₁
  have hre₃ := hre₂.trans (reopened_setOfile s₂ p fd₁ (some f₁))
  generalize hs₃ : s₂.setProc p ((s₂.proc p).setOfile fd₁ (some f₁)) = s₃ at hcore₃ hre₃ ⊢
  have hproc₃ : s₃.proc p = (s₂.proc p).setOfile fd₁ (some f₁) := hs₃ ▸ update_self ..
  have hlive₃ : (s₃.proc p).pagetable ≠ 0 := by
    rw [hproc₃, Proc.setOfile, hproc₂, Proc.setOfile, hsame₁.proc]
    exact hlive
  have hcore₃ : Core L s₃ 0 0 := hcore₃.of_held (by unfold both; abel)
  have hfd₀' : (s₃.proc p).ofile fd₀ = some f₀ := by
    rw [hproc₃]
    exact (update_of_ne hfd ..).trans hfd₀
  have hfd₁ : (s₃.proc p).ofile fd₁ = some f₁ := by
    rw [hproc₃]
    exact update_self ..
  apply wp_mono (pipeCopyout_spec hcore₃ hlive₃ hne hfd hfd₀' hfd₁) _ fun _ _ => id
  rintro r s₄ ⟨hre₄, hcore₄⟩
  exact ⟨hre₃.trans hre₄, hcore₄⟩

end Xv6.Kernel
