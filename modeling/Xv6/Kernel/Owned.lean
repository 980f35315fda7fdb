import Xv6.Kernel.Sys
import Xv6.Vm.User
import Mathlib.Algebra.BigOperators.Fin

/-!
# Who holds which page

`Body L s X`: the pages `X` are those of the processes, of the kernel and of the open pipes, each
counted as often as something points to it. With `Pool` the pages `X`, the free list and the pages
`B` of a call that is going on are all frames, each once: this is `Core`. A call works on the pages
of one process (`Core.focus`) or on `B` (`Core.around`), and leaves the rows of all others alone.

`Core` also has the counts of the file table. `held f` are the references to `f` in the local
variables of the call that is going on, less those that it has dropped before it cleared the
descriptor.
-/

namespace Xv6.Kernel

open Prog Radix Vm Function Multiset Finset

theorem wp_onMem {α : Type} {c : Call α} {Q : α → State → Prop} {E : Panic → State → Prop} {s : State} :
    wp (onMem c) Q E s ↔ wp c (fun a m => Q a (s.setMem m)) (fun e m => E e (s.setMem m)) s.mem :=
  wp_zoom

theorem onMem_spec {α : Type} {c : Call α} {Q : α → Mem → Prop} {s : State} (h : wp c Q never s.mem) :
    wp (onMem c) (fun a s' => ∃ m, s' = s.setMem m ∧ Q a m) never s :=
  wp_onMem.mpr (wp_mono h (fun _ m h => ⟨m, rfl, h⟩) fun _ _ => id)

/-! ## Processes -/

/-- The page table, the trapframe and the size of a process. -/
structure Layer where
  pagetable : Nat
  trapframe : Nat
  sz : Nat

def Proc.layer (q : Proc) : Layer := ⟨q.pagetable, q.trapframe, q.sz⟩

/-- The pages that hang from a process. -/
inductive Owns (L : Layout) (word : Nat → Nat → Word) : Layer → Multiset Nat → Prop
  | nothing : Owns L word ⟨0, 0, 0⟩ 0
  /-- in `allocproc` -/
  | bare (trapframe : Nat) (htf : trapframe ≠ 0) : Owns L word ⟨0, trapframe, 0⟩ {trapframe}
  | space (x : Layer) (T : Multiset Nat) (mp : Nat → Option Word) (hroot : x.pagetable ≠ 0) (htf : x.trapframe ≠ 0)
    (hspace : Space L word x.pagetable x.trapframe (npages x.sz) T mp) :
    Owns L word x (T + (pages mp 0 (npages x.sz) + {x.trapframe}))

variable {L : Layout} {word word' : Nat → Nat → Word}

theorem Owns.congr {x : Layer} {F : Multiset Nat} (h : Owns L word x F) (hs : SameOn F word word') :
    Owns L word' x F := by
  cases h with
  | nothing => exact .nothing
  | bare trapframe htf => exact .bare trapframe htf
  | space _ T mp hroot htf hspace => exact .space x T mp hroot htf (hspace.congr hs.left)

/-- The space of a process that has a page table. -/
theorem Owns.live {x : Layer} {F : Multiset Nat} (h : Owns L word x F) (hlive : x.pagetable ≠ 0) :
    ∃ T mp, x.trapframe ≠ 0 ∧ Space L word x.pagetable x.trapframe (npages x.sz) T mp ∧
      F = T + (pages mp 0 (npages x.sz) + {x.trapframe}) := by
  cases h with
  | nothing => exact absurd rfl hlive
  | bare => exact absurd rfl hlive
  | space _ T mp _ htf hspace => exact ⟨T, mp, htf, hspace, rfl⟩

/-! ## The kernel -/

/-- The page number of a process's kernel stack. -/
def stackPage (p : Slot) : Nat := KSTACK p.val / PGSIZE

/-- The pages of the kernel's page table, and the kernel stacks that it maps. -/
def KernelPages (word : Nat → Nat → Word) (root : Nat) (K : Multiset Nat) : Prop :=
  ∃ T mp, PageTable word root T mp ∧ (∀ p, ∃ w, mp (stackPage p) = some w) ∧ K = T + ∑ p, pageOf (mp (stackPage p))

theorem KernelPages.congr {root : Nat} {K : Multiset Nat} (h : KernelPages word root K)
    (hs : SameOn K word word') : KernelPages word' root K := by
  obtain ⟨T, mp, ht, hstacks, rfl⟩ := h
  exact ⟨T, mp, ht.congr hs.left, hstacks, rfl⟩

/-! ## Pipes -/

/-- The flag of one end of a pipe. -/
def IsOpen (writable : Bool) (w : Word) : Prop := if writable then writeopen w ≠ 0 else readopen w ≠ 0

/-- The file is an end of a pipe. -/
def File.IsEnd (x : File) (page : Nat) (writable : Bool) : Prop := x.type = .pipe ∧ x.pipe = page ∧ x.writable = writable

/-- The pages of the pipes that have an end in the file table. -/
def pipePages (file : FileId → File) : Finset Nat :=
  (univ.filter fun f => (file f).type = .pipe).image fun f => (file f).pipe

/-- A free entry has no type, no two entries are the same end, and the flags of a pipe say which
ends there are. -/
structure Pipes (word : Nat → Nat → Word) (file : FileId → File) : Prop where
  free : ∀ f, (file f).ref = 0 → (file f).type = .nothing
  ends : ∀ f g page w, (file f).IsEnd page w → (file g).IsEnd page w → f = g
  flag : ∀ page ∈ pipePages file, ∀ w, IsOpen w (word page PIPE_OPEN) ↔ ∃ f, (file f).IsEnd page w

theorem mem_pipePages {file : FileId → File} {page : Nat} : page ∈ pipePages file ↔ ∃ f w, (file f).IsEnd page w := by
  simp only [pipePages, Finset.mem_image, Finset.mem_filter, Finset.mem_univ, true_and, File.IsEnd]
  constructor
  · rintro ⟨f, htype, hpage⟩
    exact ⟨f, _, htype, hpage, rfl⟩
  · rintro ⟨f, w, htype, hpage, -⟩
    exact ⟨f, htype, hpage⟩

theorem Pipes.congr {file : FileId → File} (h : Pipes word file)
    (hs : SameOn (pipePages file).val word word') : Pipes word' file := by
  refine ⟨h.free, h.ends, fun page hpage w => ?_⟩
  rw [hs page hpage]
  exact h.flag page hpage w

/-! ## References to files -/

/-- The descriptors that point to a file. -/
def refs (proc : Slot → Proc) (f : FileId) : Finset (Slot × Desc) := pointers (fun p => (proc p).ofile) f

def Counted (s : State) (held : FileId → Int) : Prop := ∀ f, ((s.file f).ref : Int) = (refs s.proc f).card + held f

/-! ## All pages -/

def State.layer (s : State) (p : Slot) : Layer := (s.proc p).layer

def Body (L : Layout) (s : State) (X : Multiset Nat) : Prop :=
  ∃ (F : Slot → Multiset Nat) (K : Multiset Nat), (∀ p, Owns L s.mem.word (s.layer p) (F p)) ∧
    KernelPages s.mem.word s.kernelPagetable K ∧
    X = ∑ p, F p + (K + (pipePages s.file).val)

structure Core (L : Layout) (s : State) (B : Multiset Nat) (held : FileId → Int) : Prop where
  frames : ∃ X, Body L s X ∧ Pool L s.mem (X + B)
  pipes : Pipes s.mem.word s.file
  counted : Counted s held

/-- Process `p` and the call that is going on may get other pages, as long as the rows of the rest
`R` stay. -/
def Core.Frame (L : Layout) (s : State) (p : Slot) (R : Multiset Nat) (held : FileId → Int) : Prop :=
  ∀ m' q B' F', Pool L m' (F' + (R + B')) → SameOn R s.mem.word m'.word → Owns L m'.word q.layer F' →
    q.ofile = (s.proc p).ofile → Core L ((s.setMem m').setProc p q) B' held

variable {s s' : State} {B B' X : Multiset Nat} {held : FileId → Int}

/-- The rows of the other pages do not matter. -/
theorem Body.congr (h : Body L s X) (hlayer : s'.layer = s.layer) (hroot : s'.kernelPagetable = s.kernelPagetable)
    (hfile : pipePages s'.file = pipePages s.file) (hs : SameOn X s.mem.word s'.mem.word) : Body L s' X := by
  obtain ⟨F, K, howns, hkernel, rfl⟩ := h
  refine ⟨F, K, fun p => ?_, ?_, ?_⟩
  · rw [hlayer]
    exact (howns p).congr (hs.left.mono (single_le_sum (fun _ _ => Multiset.zero_le _) (mem_univ p)))
  · rw [hroot]
    exact hkernel.congr hs.right.left
  · rw [hfile]

/-- The pages of one process, and all others. -/
theorem Body.split (h : Body L s X) (p : Slot) : ∃ F R, X = F + R ∧ Owns L s.mem.word (s.layer p) F ∧
    (∀ q, q ≠ p → ∃ G, G ≤ R ∧ Owns L s.mem.word (s.layer q) G) ∧ (pipePages s.file).val ≤ R ∧
    ∀ s' F', SameOn R s.mem.word s'.mem.word → (∀ q, q ≠ p → s'.layer q = s.layer q) →
      s'.kernelPagetable = s.kernelPagetable → pipePages s'.file = pipePages s.file →
      Owns L s'.mem.word (s'.layer p) F' → Body L s' (F' + R) := by
  obtain ⟨F, K, howns, hkernel, rfl⟩ := h
  have hle : ∀ q, q ≠ p → F q ≤ ∑ q ∈ univ.erase p, F q := fun q hq =>
    single_le_sum (fun _ _ => Multiset.zero_le _) (mem_erase.mpr ⟨hq, mem_univ q⟩)
  refine ⟨F p, ∑ q ∈ univ.erase p, F q + (K + (pipePages s.file).val), ?_, howns p, fun q hq => ?_, ?_, ?_⟩
  · rw [← add_sum_erase _ _ (mem_univ p), add_assoc]
  · exact ⟨F q, (hle q hq).trans (Multiset.le_add_right _ _), howns q⟩
  · exact (Multiset.le_add_left _ _).trans (Multiset.le_add_left _ _)
  · intro s' F' hs hlayer hroot hfile hp
    refine ⟨update F p F', K, fun q => ?_, ?_, ?_⟩
    · by_cases hq : q = p
      · subst hq
        rw [update_self]
        exact hp
      · rw [update_of_ne hq, hlayer q hq]
        exact (howns q).congr (hs.left.mono (hle q hq))
    · rw [hroot]
      exact hkernel.congr hs.right.left
    · have hrest : ∑ q ∈ univ.erase p, update F p F' q = ∑ q ∈ univ.erase p, F q :=
        sum_congr rfl fun q hq => update_of_ne (ne_of_mem_erase hq) ..
      rw [← add_sum_erase _ _ (mem_univ p), hrest, update_self, hfile, add_assoc]

namespace Core

section

variable (h : Core L s B held)
include h

/-- A call that only changes memory, outside the pages that are held. -/
theorem around : ∃ X, Pool L s.mem (X + B) ∧ ∀ m' B', Pool L m' (X + B') →
    SameOn X s.mem.word m'.word → Core L (s.setMem m') B' held := by
  obtain ⟨⟨X, hbody, hpool⟩, hpipes, hcounted⟩ := h
  refine ⟨X, hpool, fun m' B' hpool' hs => ⟨⟨X, hbody.congr rfl rfl rfl hs, hpool'⟩, hpipes.congr ?_, hcounted⟩⟩
  obtain ⟨F, K, -, -, rfl⟩ := hbody
  exact hs.right.right

/-- Fields of the processes that have nothing to do with memory or with files are assigned. -/
theorem of_fields (hmem : s'.mem = s.mem) (hroot : s'.kernelPagetable = s.kernelPagetable)
    (hfile : s'.file = s.file) (hlayer : s'.layer = s.layer)
    (hofile : ∀ p, (s'.proc p).ofile = (s.proc p).ofile) : Core L s' B held := by
  obtain ⟨⟨X, hbody, hpool⟩, hpipes, hcounted⟩ := h
  refine ⟨⟨X, hbody.congr hlayer hroot (by rw [hfile]) (by rw [hmem]; exact .refl _ _), hmem ▸ hpool⟩, ?_, fun f => ?_⟩
  · rw [hmem, hfile]
    exact hpipes
  · have hrefs : refs s'.proc f = refs s.proc f := by
      unfold refs
      simp only [hofile]
    rw [hrefs, hfile]
    exact hcounted f

/-- Assignments to a process that have nothing to do with memory or with files. -/
theorem assign {p : Slot} {q : Proc} (hlayer : q.layer = (s.proc p).layer)
    (hofile : q.ofile = (s.proc p).ofile) : Core L (s.setProc p q) B held := by
  apply h.of_fields
  · rfl
  · rfl
  · rfl
  · funext r
    by_cases hr : r = p
    · subst hr
      exact (congrArg Proc.layer (s.setProc_proc r q)).trans hlayer
    · exact congrArg Proc.layer (s.setProc_of_ne q hr)
  · intro r
    by_cases hr : r = p
    · subst hr
      exact (congrArg Proc.ofile (s.setProc_proc r q)).trans hofile
    · exact congrArg Proc.ofile (s.setProc_of_ne q hr)

/-- The pages of one process change, and those of a call that is going on. -/
theorem focus (p : Slot) : ∃ F R, Pool L s.mem (F + (R + B)) ∧ Owns L s.mem.word (s.layer p) F ∧
    (∀ q, q ≠ p → ∃ G, G ≤ R ∧ Owns L s.mem.word (s.layer q) G) ∧ Frame L s p R held := by
  obtain ⟨⟨X, hbody, hpool⟩, hpipes, hcounted⟩ := h
  obtain ⟨F, R, rfl, howns, hothers, hle, hback⟩ := hbody.split p
  refine ⟨F, R, add_assoc F R B ▸ hpool, howns, hothers, fun m' q B' F' hpool' hs howns' hofile => ⟨⟨F' + R, ?_, ?_⟩, ?_, ?_⟩⟩
  · apply hback _ _ hs
    · intro r hr
      show (update s.proc p q r).layer = _
      rw [update_of_ne hr]
      rfl
    · rfl
    · rfl
    · show Owns L m'.word (update s.proc p q p).layer F'
      rw [update_self]
      exact howns'
  · rw [add_assoc]
    exact hpool'
  · exact hpipes.congr (hs.mono hle)
  · intro f
    have hrefs : refs (update s.proc p q) f = refs s.proc f := by
      unfold refs
      rw [update_apply_field, hofile, update_eq_self]
    show ((s.file f).ref : Int) = (refs (update s.proc p q) f).card + held f
    rw [hrefs]
    exact hcounted f

/-- The space of one process changes. -/
theorem room {p : Slot} (hlive : (s.proc p).pagetable ≠ 0) : ∃ R T mp, (s.proc p).trapframe ≠ 0 ∧
    Room L ({(s.proc p).trapframe} + (R + B)) s.mem s.mem (s.proc p).pagetable (s.proc p).trapframe (npages (s.proc p).sz) T mp ∧
    (∀ q, q ≠ p → ∃ G, G ≤ R ∧ Owns L s.mem.word (s.layer q) G) ∧
    ∀ m' q T' mp', q.pagetable = (s.proc p).pagetable → q.trapframe = (s.proc p).trapframe → q.ofile = (s.proc p).ofile →
      Room L ({(s.proc p).trapframe} + (R + B)) s.mem m' (s.proc p).pagetable (s.proc p).trapframe (npages q.sz) T' mp' →
      Core L ((s.setMem m').setProc p q) B held := by
  obtain ⟨F, R, hpool, howns, hothers, hback⟩ := h.focus p
  obtain ⟨T, mp, htf, hspace, rfl⟩ := howns.live hlive
  refine ⟨R, T, mp, htf, ⟨hspace, hpool.of_eq ?_, .refl _ _⟩, hothers, fun m' q T' mp' hroot htf' hofile hroom => ?_⟩
  · simp only [add_assoc]
    rfl
  · have hspace' : Space L m'.word q.layer.pagetable q.layer.trapframe (npages q.layer.sz) T' mp' := by
      show Space L m'.word q.pagetable q.trapframe (npages q.sz) T' mp'
      rw [hroot, htf']
      exact hroom.space
    have hroot' : q.layer.pagetable ≠ 0 := fun h => hlive (hroot.symm.trans h)
    have htf'' : q.layer.trapframe ≠ 0 := fun h => htf (htf'.symm.trans h)
    apply hback m' q B _ _ hroom.same.right.left (.space _ T' mp' hroot' htf'' hspace') hofile
    apply hroom.pool.of_eq
    show _ = T' + (Vm.pages mp' 0 (npages q.sz) + {q.trapframe}) + (R + B)
    rw [htf']
    simp only [add_assoc]

end

end Core

end Xv6.Kernel
