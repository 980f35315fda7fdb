import Xv6.Fs.Image
import Xv6.Kernel.Ownership

/-!
# `exec` and the file system

`exec` with the calls of `fs.c` that it makes. The file system may be in any state and the file may
hold any bytes. What `exec` does of its own does not panic; a call of the file system may, as
`namei` does when the inode cache is full. If `exec` returns -1, the process and the memory are as
before. That the file system's calls themselves return is not shown here.
-/

namespace Xv6.Kernel

open Prog Radix Vm

/-- The calls that `exec` makes, of a process whose current directory is `cwd`. -/
def fsFiles {P : Type} (sb : Fs.Super) (cwd : Fin NINODE) : Files (Fs.State P) Fs.Stop (Fin NINODE) where
  beginOp := Fs.beginOp
  namei path := Fs.namei sb cwd (path.map UInt8.toBitVec)
  ilock ip := Fs.ilock sb ip
  readi ip off n := do
    let r ← Fs.readi sb ip (fun _ => true) off n
    return (List.range r.1).map fun i => ⟨r.2 i⟩
  iunlockput ip := Fs.iunlockput sb ip
  endOp := Fs.endOp

variable {L : Layout} {s s' : State} {p : Slot}

/-- Processes and files are as before, the same frames are free, and the others hold what they held.
-/
structure Unchanged (L : Layout) (s s' : State) : Prop where
  proc : s'.proc = s.proc
  file : s'.file = s.file
  free : (freePages L s'.mem : Multiset Nat) = freePages L s.mem
  word : ∀ frame ∈ L.frames, frame ∉ freePages L s.mem → s'.mem.word frame = s.mem.word frame

theorem unchanged_of_undone (h : Undone L s s') : Unchanged L s s' := by
  obtain ⟨heq, out, hpool, hpool', hsame⟩ := h
  rw [Multiset.zero_add] at hpool'
  have hfree := hpool.freePages_add
  have hfree' := hpool'.freePages_add
  refine ⟨heq ▸ rfl, heq ▸ rfl, ?_, fun frame hframe hnot => ?_⟩
  · rw [← hfree] at hfree'
    exact Multiset.add_left_inj.mp hfree'
  · rw [← hfree, Multiset.mem_add] at hframe
    exact hsame frame (hframe.resolve_left hnot)

theorem Execed.unchanged {B : Multiset Nat} {r : Int} (h : Execed L s p B 0 r s') (hr : r = -1) : Unchanged L s s' := by
  cases h with
  | failed _ hundone => exact unchanged_of_undone hundone
  | done argc => omega

/-- The calls of an `exec` that finds a header and then no page. -/
theorem exec_no_page {φ ε ι : Type} {F : Files φ ε ι} (path bytes : List UInt8) (argv : List Nat) (ip : ι) {f f₁ f₂ f₃ f₄ f₅ f₆ : φ}
    (h₁ : F.beginOp f = .ok () f₁) (h₂ : F.namei path f₁ = .ok (some ip) f₂) (h₃ : F.ilock ip f₂ = .ok () f₃)
    (h₄ : F.readi ip 0 ELFSIZE f₃ = .ok bytes f₄) (hlen : bytes.length = ELFSIZE) (hmagic : (Elfhdr.parse bytes).magic = ELF_MAGIC)
    (h₅ : F.iunlockput ip f₄ = .ok () f₅) (h₆ : F.endOp f₅ = .ok () f₆) :
    exec L F p path argv (s.setMem (s.mem.setFails [true]), f) = .ok (-1) (s.setMem (s.mem.setFails []), f₆) := by
  unfold exec
  rw [bind_of_ok (second_ok h₁), bind_of_ok (second_ok h₂)]
  show (second _ >>= _) _ = _
  rw [bind_of_ok (second_ok h₃), bind_of_ok (second_ok h₄), if_neg (not_not.mpr hlen), if_neg (not_not.mpr hmagic)]
  show (second _ >>= _) _ = _
  rw [bind_of_ok (second_ok h₅), bind_of_ok (second_ok h₆)]
  rfl

/-- A header without segments. -/
def elfHeader : List UInt8 := [0x7f, 0x45, 0x4c, 0x46] ++ List.replicate 60 0

/-- The root is a program. -/
def program : Fs.State Unit :=
  { Fs.mounted () LOGSIZE 0 Fs.slot0 with
    disk := fun b i => if b = Fs.nmeta then (elfHeader.getD i 0).toBitVec else 0
    icache := fun k =>
      if k = Fs.slot0 then ⟨ROOTINO, 1, false, true, Fs.rootInode.setType Fs.T_FILE⟩ else ⟨0, 0, false, false, .zero⟩ }

/-- All entries of the inode cache are in use, for other inodes than the root's. -/
def fullCache : Fs.State Unit :=
  { Fs.mounted () LOGSIZE 0 Fs.slot0 with icache := fun k => ⟨k.val + 2, 1, false, false, .zero⟩ }

end Xv6.Kernel
