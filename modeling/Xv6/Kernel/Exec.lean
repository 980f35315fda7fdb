import Xv6.Kernel.Build
import Xv6.Kernel.Calls

/-!
# `exec` and `sys_exec`

`exec` builds the new space beside the old one, from pages that were free. So as long as it does not
commit, it can give them all back and nothing has happened (`Undone`). After it has committed the
old space is not needed any more and is freed. `sys_exec` holds the pages of the argument strings
meanwhile.
-/

namespace Xv6.Kernel

open Prog Radix Vm Multiset

variable {L : Layout} {s s' : State} {B : Multiset Nat} {held : FileId → Int} {p : Slot}

/-- Only memory differs, and of memory only pages that were free. Of those, `A` are not free now. -/
structure Borrowed (L : Layout) (A : Multiset Nat) (s s' : State) : Prop where
  eq : s' = s.setMem s'.mem
  frames : ∃ out, Pool L s.mem out ∧ Pool L s'.mem (A + out) ∧ SameOn out s.mem.word s'.mem.word

/-- Every page that was borrowed is back. -/
def Undone (L : Layout) (s s' : State) : Prop := Borrowed L 0 s s'

variable {A A' out : Multiset Nat}

theorem undone_of_pool (h : Pool L s.mem out) {m' : Mem} (h' : Pool L m' out) (hsame : SameOn out s.mem.word m'.word) :
    Undone L s (s.setMem m') :=
  ⟨rfl, out, h, h'.of_eq (zero_add out).symm, hsame⟩

theorem Undone.refl (h : Pool L s.mem out) : Undone L s s := undone_of_pool h h (.refl _ _)

variable {page : Nat} {path : List UInt8} {argv : List Nat}

namespace Borrowed

theorem trans {s'' : State} (h : Borrowed L A s s') (h' : Borrowed L A' s' s'') : Borrowed L (A' + A) s s'' := by
  obtain ⟨heq, out, hpool, hpool', hsame⟩ := h
  obtain ⟨heq', out', hpool₁, hpool'', hsame'⟩ := h'
  have hout := hpool₁.unique hpool'
  subst hout
  refine ⟨?_, out, hpool, hpool''.of_eq (add_assoc ..).symm, hsame.trans hsame'.right⟩
  rw [heq', heq]
  rfl

/-- A borrowed page is written. -/
theorem write (h : Borrowed L A s s') (hpage : page ∈ A) (row : Nat → Word) :
    Borrowed L A s (s'.setMem (s'.mem.setPage page row)) := by
  obtain ⟨heq, out, hpool, hpool', hsame⟩ := h
  refine ⟨?_, out, hpool, hpool'.setPage (mem_add.mpr (.inl hpage)) row, ?_⟩
  · rw [heq]
    rfl
  · exact hsame.trans (sameOn_setPage (hpool'.disjoint hpage))

/-- A borrowed page is given back. -/
theorem kfree (h : Borrowed L ({page} + A) s s') :
    wp (onMem (kfree L page)) (fun _ s'' => Borrowed L A s s'') never s' := by
  obtain ⟨heq, out, hpool, hpool', hsame⟩ := h
  rw [add_assoc, singleton_add] at hpool'
  rw [wp_onMem]
  apply wp_mono (kfree_spec hpool') _ fun _ _ h => h
  rintro _ m'' ⟨hpool'', hsame''⟩
  refine ⟨?_, out, hpool, hpool'', hsame.trans hsame''.right⟩
  rw [heq]
  rfl

/-- A page is borrowed. -/
theorem kalloc (h : Pool L s.mem out) :
    wp (onMem kalloc) (fun r s' => (r = 0 ∧ Borrowed L 0 s s') ∨ (r ≠ 0 ∧ Borrowed L {r} s s')) never s := by
  rw [wp_onMem]
  apply wp_mono (kalloc_spec h) _ fun _ _ h => h
  intro r m' halloc
  cases halloc with
  | failed pool same _ _ => exact .inl ⟨rfl, undone_of_pool h pool fun q _ => by rw [same]⟩
  | page r pool same _ =>
    refine .inr ⟨pool.ne_zero (mem_cons_self _ _), rfl, out, h, ?_, same⟩
    rw [singleton_add]
    exact pool

end Borrowed

/-- Borrowing changes nothing but the pages that the call holds. -/
theorem Core.borrowed (h : Core L s B held) (hb : Borrowed L A s s') : Core L s' (A + B) held := by
  obtain ⟨X, hpool, hback⟩ := h.around
  obtain ⟨heq, out, hpool₀, hpool', hsame⟩ := hb
  have hout := hpool₀.unique hpool
  subst hout
  rw [heq]
  apply hback s'.mem (A + B) (hpool'.of_eq _) hsame.left
  abel

/-! ## The commit -/

/-- The process after the commit. -/
def Proc.commit (q : Proc) (name : List UInt8) (pagetable sz : Nat) : Proc := ((q.setName name).setPagetable pagetable).setSz sz

theorem commit_spec {root entry argc sz sp : Nat} {F R T : Multiset Nat} {mp : Nat → Option Word}
    {m₁ : Mem} (hlive : (s.proc p).pagetable ≠ 0) (howns : Owns L s.mem.word (s.layer p) F)
    (hback : Core.Frame L s p R held) (hroot : root ≠ 0)
    (hroom : Room L (F + (R + B)) s.mem m₁ root (s.proc p).trapframe (npages sz) T mp) :
    wp (commit L p path root entry argc sz sp) (fun r s' => r = argc ∧ ∃ m',
      s' = (s.setMem m').setProc p ((s.proc p).commit (baseName path) root sz) ∧ Core L s' B held) never (s.setMem m₁) := by
  obtain ⟨T₀, mp₀, htf, hspace₀, rfl⟩ := howns.live hlive
  have hspace₀ : Space L m₁.word (s.proc p).pagetable (s.proc p).trapframe (npages (s.proc p).sz) T₀ mp₀ :=
    hspace₀.congr hroom.same.left.left
  have hpool₁ := hroom.pool
  have hspace₁ := hroom.space
  have hsame₁ : SameOn (R + B) s.mem.word m₁.word := hroom.same.right
  change Pool L m₁ (T + (Vm.pages mp 0 (npages sz) +
    (T₀ + (Vm.pages mp₀ 0 (npages (s.proc p).sz) + {(s.proc p).trapframe}) + (R + B)))) at hpool₁
  unfold commit
  rw [wp_bind, wp_read, wp_bind, wp_setReg, wp_bind, assign, wp_change, wp_bind, assign, wp_change, wp_bind, assign, wp_change,
    wp_bind, wp_setReg, wp_bind, wp_setReg, wp_bind, wp_onMem]
  simp only [State.setProc_proc, State.setProc_setProc, State.setMem_proc, State.setProc_setMem, State.setMem_setMem]
  show wp (procFreepagetable L (s.proc p).pagetable (s.proc p).sz) _ _
    (((m₁.setWord (s.proc p).trapframe TF_A1 (BitVec.ofNat 64 sp)).setWord (s.proc p).trapframe TF_EPC
      (BitVec.ofNat 64 entry)).setWord (s.proc p).trapframe TF_SP (BitVec.ofNat 64 sp))
  -- the registers are words of the trapframe
  generalize hm₂ : ((m₁.setWord (s.proc p).trapframe TF_A1 (BitVec.ofNat 64 sp)).setWord (s.proc p).trapframe TF_EPC
    (BitVec.ofNat 64 entry)).setWord (s.proc p).trapframe TF_SP (BitVec.ofNat 64 sp) = m₂
  have hword : ∀ page, page ≠ (s.proc p).trapframe → m₂.word page = m₁.word page := by
    intro page hpage
    rw [← hm₂]
    exact (Radix.set_of_ne hpage).trans ((Radix.set_of_ne hpage).trans (Radix.set_of_ne hpage))
  have hpool₂ : Pool L m₂ ({(s.proc p).trapframe} + (T₀ + (Vm.pages mp₀ 0 (npages (s.proc p).sz) +
      (T + (Vm.pages mp 0 (npages sz) + (R + B)))))) := by
    have hpool₁ : Pool L m₁ ({(s.proc p).trapframe} + (T₀ + (Vm.pages mp₀ 0 (npages (s.proc p).sz) +
        (T + (Vm.pages mp 0 (npages sz) + (R + B)))))) := by
      apply hpool₁.of_eq
      abel
    have hmem : (s.proc p).trapframe ∈ ({(s.proc p).trapframe} : Multiset Nat) + (T₀ +
        (Vm.pages mp₀ 0 (npages (s.proc p).sz) + (T + (Vm.pages mp 0 (npages sz) + (R + B))))) := by simp
    rw [← hm₂]
    exact ((hpool₁.setWord hmem ..).setWord hmem ..).setWord hmem ..
  have hnot := Pool.notMem_of_cons (singleton_add _ _ ▸ hpool₂)
  simp only [mem_add, not_or] at hnot
  obtain ⟨hT₀, -, hT, -, hR, hB⟩ := hnot
  have hsame : ∀ {C : Multiset Nat}, (s.proc p).trapframe ∉ C → SameOn C m₁.word m₂.word := fun hC page hpage =>
    hword page (ne_of_mem_of_not_mem hpage hC)
  have hold : Room L ({(s.proc p).trapframe} + (T + (Vm.pages mp 0 (npages sz) + (R + B)))) m₂ m₂ (s.proc p).pagetable
      (s.proc p).trapframe (npages (s.proc p).sz) T₀ mp₀ := by
    refine ⟨hspace₀.congr (hsame hT₀), hpool₂.of_eq ?_, .refl _ _⟩
    abel
  apply wp_mono (procFreepagetable_spec rfl hold) _ fun _ _ h => h
  rintro _ m₃ ⟨hpool₃, hsame₃⟩
  refine ⟨rfl, m₃, rfl, ?_⟩
  have hspace₃ : Space L m₃.word root (s.proc p).trapframe (npages sz) T mp :=
    (hspace₁.congr (hsame hT)).congr hsame₃.right.left
  have hR₃ : SameOn R s.mem.word m₃.word := hsame₁.left.trans ((hsame hR).trans hsame₃.right.right.right.left)
  have hown : Owns L m₃.word ((s.proc p).commit (baseName path) root sz).layer
      (T + (Vm.pages mp 0 (npages sz) + {(s.proc p).trapframe})) :=
    .space ⟨root, (s.proc p).trapframe, sz⟩ T mp hroot htf hspace₃
  apply hback m₃ _ B _ (hpool₃.of_eq _) hR₃ hown rfl
  abel

/-! ## `exec` -/

/-- What `exec` does: nothing, or a new image. -/
inductive Execed (L : Layout) (s : State) (p : Slot) (B : Multiset Nat) (held : FileId → Int) : Int → State → Prop
  | failed (s' : State) (undone : Undone L s s') : Execed L s p B held (-1) s'
  | done (argc : Nat) (m' : Mem) (name : List UInt8) (root sz : Nat) (hroot : root ≠ 0)
    (core : Core L ((s.setMem m').setProc p ((s.proc p).commit name root sz)) B held) :
    Execed L s p B held argc ((s.setMem m').setProc p ((s.proc p).commit name root sz))

section

variable {φ ε ι : Type} {F : Files φ ε ι} {ip : ι} {f : φ} {R T : Multiset Nat} {mp : Nat → Option Word} {m₁ : Mem} {root sz : Nat}

/-- The space that has been built is given back. -/
theorem freed_undone (hpool : Pool L s.mem out) (hroom : Room L out s.mem m₁ root (s.proc p).trapframe (npages sz) T mp) :
    wp (onMem (procFreepagetable L root sz)) (fun _ s' => Undone L s s') never (s.setMem m₁) := by
  rw [wp_onMem]
  apply wp_mono (procFreepagetable_spec rfl hroom) _ fun _ _ => id
  rintro _ m₂ ⟨hpool₂, hsame₂⟩
  exact undone_of_pool hpool hpool₂ hsame₂

theorem execFinish_spec {entry : Nat} {X : Multiset Nat} (hlive : (s.proc p).pagetable ≠ 0)
    (hpool : Pool L s.mem (X + (R + B))) (howns : Owns L s.mem.word (s.layer p) X)
    (hback : Core.Frame L s p R held) (hroot : root ≠ 0)
    (hroom : Room L (X + (R + B)) s.mem m₁ root (s.proc p).trapframe (npages sz) T mp) :
    wp (execFinish L p path root entry sz argv) (Execed L s p B held) never (s.setMem m₁) := by
  unfold execFinish
  rw [wp_bind, wp_onMem]
  apply wp_mono (buildImage_spec hroom) _ fun _ _ => id
  rintro image m₂ ⟨T₂, mp₂, hroom₂⟩
  cases image with
  | bad sz =>
    have hfree := freed_undone (p := p) hpool hroom₂
    exact wp_seq hfree fun _ s₃ hundone => .failed s₃ hundone
  | ready argc sz sp =>
    apply wp_mono (commit_spec hlive howns hback hroot hroom₂) _ fun _ _ => id
    rintro r s₃ ⟨rfl, m₃, rfl, hcore⟩
    exact .done argc m₃ (baseName path) root sz hroot hcore

theorem execBad_spec (h : Undone L s s') : wp (execBad F ip) (fun r t => Execed L s p B held r t.1) inSecond (s', f) := by
  apply wp_seq wp_second
  rintro _ ⟨_, f₁⟩ rfl
  apply wp_seq wp_second
  rintro _ ⟨_, f₂⟩ rfl
  exact .failed _ h

theorem execImage_spec {elf : Elfhdr} (h : Core L s B held) (hlive : (s.proc p).pagetable ≠ 0) :
    wp (execImage L F p path ip elf argv) (fun r t => Execed L s p B held r t.1) inSecond (s, f) := by
  obtain ⟨X, R, hpool, howns, -, hback⟩ := h.focus p
  have htf : wp (read fun s => (s.proc p).trapframe) (fun r s' => s' = s ∧ r = (s.proc p).trapframe) (never (ε := Panic)) s :=
    ⟨rfl, rfl⟩
  unfold execImage
  apply wp_seq (wp_first htf)
  rintro _ ⟨_, f₁⟩ ⟨rfl, rfl⟩
  apply wp_seq (wp_first (onMem_spec (procPagetable_spec hpool)))
  rintro root ⟨_, f₂⟩ ⟨m₁, rfl, ⟨rfl, hpool₁, hsame₁, -⟩ | ⟨hroot, T, mp, hroom, -, -⟩⟩
  · rw [if_pos rfl]
    exact execBad_spec (undone_of_pool hpool hpool₁ hsame₁)
  rw [if_neg hroot, wp_bind, wp_zoom]
  have hstart : Loaded L (X + (R + B)) _ root _ (true, 0) m₁ := ⟨T, mp, hroom, fun v w hv => absurd hv (Nat.not_lt_zero v)⟩
  apply wp_mono (loadProgram_spec hstart) _ fun _ _ => id
  rintro ⟨ok, sz⟩ ⟨m₂, f₃⟩ ⟨T₂, mp₂, hroom₂, -⟩
  cases ok with
  | false =>
    apply wp_seq (wp_first (freed_undone hpool hroom₂))
    rintro _ ⟨s₃, f₄⟩ hundone
    exact execBad_spec hundone
  | true =>
    apply wp_seq wp_second
    rintro _ ⟨_, f₄⟩ rfl
    apply wp_seq wp_second
    rintro _ ⟨_, f₅⟩ rfl
    exact wp_first (execFinish_spec hlive hpool howns hback hroot hroom₂)

theorem exec_spec (h : Core L s B held) (hlive : (s.proc p).pagetable ≠ 0) :
    wp (exec L F p path argv) (fun r t => Execed L s p B held r t.1) inSecond (s, f) := by
  obtain ⟨X, hpool, -⟩ := h.around
  have hnothing : Undone L s s := .refl hpool
  unfold exec
  apply wp_seq wp_second
  rintro _ ⟨_, f₁⟩ rfl
  apply wp_seq wp_second
  rintro ip ⟨_, f₂⟩ rfl
  cases ip with
  | none =>
    apply wp_seq wp_second
    rintro _ ⟨_, f₃⟩ rfl
    exact .failed _ hnothing
  | some ip =>
    apply wp_seq wp_second
    rintro _ ⟨_, f₃⟩ rfl
    apply wp_seq wp_second
    rintro bytes ⟨_, f₄⟩ rfl
    apply wp_ite
    · intro _
      exact execBad_spec hnothing
    · intro _
      apply wp_ite
      · intro _
        exact execBad_spec hnothing
      · intro _
        exact execImage_spec h hlive

end

/-! ## `sys_exec` -/

theorem fetchaddr_spec {addr : Nat} (h : Core L s B held) (hlive : (s.proc p).pagetable ≠ 0) :
    wp (fetchaddr p addr) (fun _ s' => s' = s) never s := by
  obtain ⟨R, T, mp, -, hroom, -⟩ := h.room hlive
  unfold fetchaddr
  rw [wp_bind, wp_read]
  apply wp_ite
  · intro _
    rfl
  · intro _
    rw [wp_bind, wp_onMem]
    apply wp_mono (copyin_spec hroom.space) _ fun _ _ h => h
    rintro _ m' rfl
    rfl

/-- The string goes to a page that the call has. -/
theorem fetchstr_spec {addr : Nat} (h : Core L s' B held) (hlive : (s'.proc p).pagetable ≠ 0)
    (hb : Borrowed L A s s') (hpage : page ∈ A) :
    wp (fetchstr p addr page) (fun _ s'' => Borrowed L A s s'') never s' := by
  obtain ⟨R, T, mp, -, hroom, -⟩ := h.room hlive
  unfold fetchstr
  rw [wp_bind, wp_read, wp_bind, wp_onMem]
  apply wp_mono (copyinstr_spec hroom.space) _ fun _ _ h => h
  rintro bytes m' rfl
  rw [wp_bind, wp_onMem, store, wp_change, wp_pure]
  exact hb.write hpage _

/-- The pages of `argv` are what `sys_exec` has borrowed, when it succeeds and when it fails. -/
theorem fetchArgs_spec {uargv k i : Nat} (h : Core L s B held) (hlive : (s.proc p).pagetable ≠ 0)
    (hb : Borrowed L argv s s') :
    wp (fetchArgs p uargv k i argv) (fun r s'' => Borrowed L r.2 s s'') never s' := by
  induction k generalizing i argv s' with
  | zero => exact hb
  | succ k ih =>
    have hcore := h.borrowed hb
    have hproc : s'.proc p = s.proc p := hb.eq ▸ rfl
    rw [fetchArgs]
    apply wp_seq (fetchaddr_spec hcore (hproc ▸ hlive))
    rintro uarg s₁ rfl
    cases uarg with
    | none => exact hb
    | some uarg =>
      apply wp_ite
      · intro _
        exact hb
      · intro _
        obtain ⟨X, hpool, -⟩ := hcore.around
        apply wp_seq (Borrowed.kalloc hpool)
        rintro page s₂ (⟨rfl, hb₂⟩ | ⟨hpage, hb₂⟩)
        · rw [if_pos rfl]
          have hb₂ := hb.trans hb₂
          rw [zero_add] at hb₂
          exact hb₂
        · rw [if_neg hpage]
          have hb₂ := hb.trans hb₂
          have hproc₂ : s₂.proc p = s.proc p := hb₂.eq ▸ rfl
          have hargv : ({page} : Multiset Nat) + (argv : Multiset Nat) = ((argv ++ [page] : List Nat) : Multiset Nat) := by
            rw [← coe_add, add_comm]
            rfl
          rw [hargv] at hb₂
          have hmem : page ∈ ((argv ++ [page] : List Nat) : Multiset Nat) := by simp
          apply wp_seq (fetchstr_spec (h.borrowed hb₂) (hproc₂ ▸ hlive) hb₂ hmem)
          intro ok s₃ hb₃
          apply wp_ite
          · intro _
            exact ih hb₃
          · intro _
            exact hb₃

theorem freeArgs_undone (hb : Borrowed L argv s s') :
    wp (freeArgs L argv) (fun _ s'' => Undone L s s'') never s' := by
  apply wp_each (fun argv s'' => Borrowed L (argv : List Nat) s s'') _ argv s' hb
  intro page argv s₁ hb₁
  rw [← cons_coe, ← singleton_add] at hb₁
  exact hb₁.kfree

theorem freeArgs_spec (h : Core L s argv held) :
    wp (freeArgs L argv) (fun _ s' => ∃ m', s' = s.setMem m' ∧ Core L s' 0 held) never s := by
  apply wp_each (fun argv s' => ∃ m', s' = s.setMem m' ∧ Core L s' (argv : List Nat) held) _ argv s ⟨s.mem, rfl, h⟩
  rintro page argv s₁ ⟨m₁, rfl, hcore₁⟩
  rw [← cons_coe, ← singleton_add] at hcore₁
  apply wp_mono hcore₁.kfree _ fun _ _ => id
  rintro _ s₂ ⟨m₂, rfl, hcore₂⟩
  exact ⟨m₂, rfl, hcore₂⟩

theorem sysExec_spec {φ ε ι : Type} {F : Files φ ε ι} {f : φ} {uargv : Nat} (h : Core L s 0 held)
    (hlive : (s.proc p).pagetable ≠ 0) :
    wp (sysExec L F p path uargv) (fun r t => Execed L s p 0 held r t.1) inSecond (s, f) := by
  obtain ⟨X, hpool, -⟩ := h.around
  unfold sysExec
  apply wp_seq (wp_first (fetchArgs_spec h hlive (Undone.refl hpool : Borrowed L ([] : List Nat) s s)))
  rintro ⟨ok, argv⟩ ⟨s₁, f₁⟩ (hb₁ : Borrowed L argv s s₁)
  have hcore₁ := h.borrowed hb₁
  have hproc₁ : s₁.proc p = s.proc p := hb₁.eq ▸ rfl
  rw [add_zero] at hcore₁
  apply wp_ite
  · intro _
    apply wp_seq (exec_spec hcore₁ (hproc₁ ▸ hlive))
    rintro r ⟨s₂, f₂⟩ hexec
    cases hexec with
    | failed _ hundone =>
      have hb₂ := hb₁.trans hundone
      rw [zero_add] at hb₂
      apply wp_seq (wp_first (freeArgs_undone hb₂))
      rintro _ ⟨s₃, f₃⟩ hb₃
      exact .failed s₃ hb₃
    | done argc m₂ name root sz hroot hcore₂ =>
      apply wp_seq (wp_first (freeArgs_spec hcore₂))
      rintro _ ⟨_, f₃⟩ ⟨m₃, rfl, hcore₃⟩
      rw [hb₁.eq] at hcore₃ ⊢
      exact .done argc m₃ name root sz hroot hcore₃
  · intro _
    apply wp_seq (wp_first (freeArgs_undone hb₁))
    rintro _ ⟨s₃, f₃⟩ hb₃
    exact .failed s₃ hb₃

end Xv6.Kernel
