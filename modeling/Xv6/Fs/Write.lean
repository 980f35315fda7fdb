import Xv6.Fs.Op
import Xv6.Fs.Sys

/-!
# What `read` and `write` say

`filewrite` cuts a write into transactions of at most `maxWrite` bytes. When `either_copyin` finds
every byte that it is asked for, each transaction stores all of its bytes or none, and so the offset
has advanced by what has been stored, and `n` is returned only if that is everything.

`writei` returns `n` even when `either_copyin` fails, and `filewrite` takes its word: the offset has
then passed a byte that was not read. `write_lies` is a write that stores nothing and returns its
length.
-/

namespace Xv6.Fs

open Prog Function List
open Bitmap (Roomy)

variable {P : Type} {sb : Super} {s s' : State P} {f : Fin NFILE} {bs : Nat → Byte}

/-- The size of the inode that the file is on. -/
def fsize (sb : Super) (s : State P) (f : Fin NFILE) : Nat := fileSize (files sb s.disk) (s.icache (s.ftable f).ip).inum

/-- The files after the first `t` bytes have been stored at the file's offset. -/
def stored (sb : Super) (s : State P) (f : Fin NFILE) (bs : Nat → Byte) (t : Nat) : Nat → Option FileView :=
  update (files sb s.disk) (s.icache (s.ftable f).ip).inum
    ((files sb s.disk (s.icache (s.ftable f).ip).inum).map fun v => v.write (s.ftable f).off ((range t).map bs))

/-- The file's offset has advanced by `t`. -/
def State.advance (s : State P) (f : Fin NFILE) (t : Nat) : State P := s.setFile f ((s.ftable f).setOff ((s.ftable f).off + t))

theorem stored_zero : stored sb s f bs 0 = files sb s.disk := by
  unfold stored
  rw [update_eq_self_iff]
  cases files sb s.disk (s.icache (s.ftable f).ip).inum with
  | none => rfl
  | some v =>
    show some (v.write _ []) = some v
    unfold FileView.write
    rw [overwrite_nil]

theorem advance_zero : s.advance f 0 = s := by
  unfold State.advance State.setFile File.setOff
  rw [add_zero, update_eq_self]

/-- A transaction is small enough for an empty log. -/
theorem turns_maxWrite {off n : Nat} (h : n ≤ maxWrite) : 2 * turns off n + 3 < LOGSIZE := by
  have hmax : maxWrite = 3072 := by decide
  have hlog : LOGSIZE = 30 := by decide
  unfold turns BSIZE
  split <;> omega

theorem Short.balloc_of_idle (hidle : Idle s.log) {c m : Nat} {e : Stop} (hc : c < LOGSIZE)
    (h : Short sb c m 0 s.begun e) : e = .balloc := by
  rcases h with ⟨-, hno⟩ | ⟨he, -⟩ | ⟨-, hno⟩
  · exact absurd (hidle.roomy hc) hno
  · exact he
  · exact absurd hno (Nat.not_lt_zero _)

theorem relock (k : Fin NINODE) : update (update unlocked k true) k false = unlocked := by
  rw [update_idem, update_eq_self_iff]
  rfl

theorem writeOp_spec {src : Nat → Option Byte} {n : Nat} (h : Ok sb unlocked s) (hidle : Idle s.log)
    (href : 0 < (s.icache (s.ftable f).ip).ref) (hpos : 0 < n) (hmax : n ≤ maxWrite)
    (hsrc : Fits (fsize sb s f) (s.ftable f).off n → ∀ j, j < n → (src j).isSome = true) :
    wp (writeOp sb f src n)
      (fun r s' => (Fits (fsize sb s f) (s.ftable f).off n →
          r = some n ∧ Done sb (stored sb s f (fun j => (src j).getD 0) n) 0 (s.advance f n) s') ∧
        (¬ Fits (fsize sb s f) (s.ftable f).off n →
          r = none ∧ Done sb (files sb s.disk) 0 s s'))
      (fun e _ => e = .balloc) s := by
  have hn : n < 2 ^ 32 := by
    have : maxWrite < 2 ^ 32 := by decide
    omega
  have hbytes : Fits (fsize sb s f) (s.ftable f).off n →
      ∀ j, j < n → src j = some ((src j).getD 0) := by
    intro hfits j hj
    obtain ⟨b, hb⟩ := Option.isSome_iff_exists.mp (hsrc hfits j hj)
    rw [hb]
    rfl
  unfold writeOp
  simp only [wp_bind, wp_read, wp_pure]
  apply wp_of_ok hidle.beginOp
  have hbegun : Ok sb unlocked s.begun := h.congr rfl rfl
  apply wp_mono (hbegun.ilock href rfl)
  · intro _ s₁ hlock
    obtain ⟨hlock, hheld⟩ := hlock
    have hop : 1 ≤ s₁.log.outstanding := by
      rw [hlock.outstanding]
      exact (hidle.roomy (n := 1) (by decide)).1
    have hwrite : wp (writei sb (s.ftable f).ip src (s.ftable f).off n) _ _ s₁ :=
      hlock.ok.writei hheld hop hn hpos (by rwa [hlock.files])
    rw [hlock.files] at hwrite
    apply wp_mono hwrite
    · intro r s₂ hr
      obtain ⟨hfits, hno⟩ := hr
      by_cases hf : Fits (fsize sb s f) (s.ftable f).off n
      · obtain ⟨rfl, hwrote⟩ := hfits hf
        have hoff : ((s.ftable f).off + n) % 2 ^ 32 = (s.ftable f).off + n := Nat.mod_eq_of_lt hf.2.1
        apply wp_onlyIf
        · intro _
          rw [wp_change]
          have heffect := (hlock.trans hwrote le_rfl).setFile f ((s.ftable f).setOff ((s.ftable f).off + n))
          show wp _ _ _ (s₂.setFile f ((s.ftable f).setOff (((s.ftable f).off + n) % 2 ^ 32)))
          rw [hoff]
          apply wp_mono (heffect.ok.iunlock (update_self ..))
          · intro _ s₃ hunlock
            have hend := heffect.still hunlock le_rfl
            rw [relock, add_zero] at hend
            apply wp_mono (Effect.endOp (s := s.advance f n) hend hidle)
            · intro _ s₄ hdone
              exact ⟨fun _ => ⟨rfl, hdone⟩, fun hno => absurd hf hno⟩
            · exact fun _ _ => False.elim
          · exact fun _ _ => False.elim
        · intro hzero
          exact absurd hpos hzero
      · obtain ⟨rfl, rfl⟩ := hno hf
        apply wp_onlyIf
        · exact fun hpos => absurd hpos (Nat.not_lt_zero 0)
        · intro _
          apply wp_mono (hlock.ok.iunlock (update_self ..))
          · intro _ s₃ hunlock
            have hend := hlock.still hunlock le_rfl
            rw [relock] at hend
            apply wp_mono (hend.endOp hidle)
            · intro _ s₄ hdone
              exact ⟨fun hfits => absurd hfits hf, fun _ => ⟨rfl, hdone⟩⟩
            · exact fun _ _ => False.elim
          · exact fun _ _ => False.elim
    · intro e s₂ he
      exact ((he.2.after hlock (Nat.le_of_eq card_pos_zero)).mono (Nat.le_of_eq (zero_add _)) le_rfl le_rfl).balloc_of_idle hidle
        (turns_maxWrite hmax)
  · exact fun _ _ => False.elim

/-! ## The offset -/

section

variable {src : Nat → Option Byte} {k : Fin NINODE} {n : Nat}

theorem keeps_logWrite (b : Nat) (data : Block) : Keeps State.ftable (logWrite b data : Kern P Unit) := by
  intro s
  unfold wp logWrite
  cases s.log.logWrite b with
  | ok _ => rfl
  | error _ => trivial

theorem keeps_balloc : Keeps State.ftable (balloc sb : Kern P Nat) := by
  refine .bind (.read _) fun b => ?_
  cases b with
  | none => exact .stop _
  | some b => exact .bind (.read _) fun _ => .bind (keeps_logWrite _ _) fun _ => .bind (keeps_logWrite _ _) fun _ => .pure _

theorem keeps_loadAddr (i : Nat) : Keeps State.ftable (loadAddr sb k i : Kern P Nat) :=
  .bind (.read _) fun _ => .ite (.bind keeps_balloc fun _ => .bind (.change fun _ => rfl) fun _ => .pure _) (.pure _)

theorem keeps_bmap (bn : Nat) : Keeps State.ftable (bmap sb k bn : Kern P Nat) :=
  .ite (keeps_loadAddr _) (.ite (.bind (keeps_loadAddr _) fun _ => .bind (.read _) fun _ =>
    .ite (.bind keeps_balloc fun _ => .bind (.read _) fun _ => .bind (keeps_logWrite _ _) fun _ => .pure _) (.pure _)) (.stop _))

theorem keeps_writeLoop : ∀ fuel off tot left, Keeps State.ftable (writeLoop sb k src fuel off tot left : Kern P Nat)
  | 0, _, _, _ => .pure _
  | _ + 1, _, _, _ => .ite (.pure _) (.bind (keeps_bmap _) fun _ => .bind (.read _) fun _ =>
      .ite (.bind (keeps_logWrite _ _) fun _ => keeps_writeLoop _ _ _ _) (.bind (.change fun _ => rfl) fun _ => .pure _))

theorem keeps_iupdate : Keeps State.ftable (iupdate sb k : Kern P Unit) :=
  .bind (.read _) fun _ => .bind (.read _) fun _ => keeps_logWrite _ _

theorem keeps_ilock : Keeps State.ftable (ilock sb k : Kern P Unit) :=
  .bind (.read _) fun _ => .ite (.stop _) (.bind (.bind (.read _) fun _ => .ite (.stop _) (.change fun _ => rfl)) fun _ =>
    .ite (.bind (.change fun _ => rfl) fun _ => .bind (.read _) fun _ => .ite (.stop _) (.pure _)) (.pure _))

theorem keeps_iunlock : Keeps State.ftable (iunlock k : Kern P Unit) :=
  .bind (.read _) fun _ => .ite (.stop _) (.change fun _ => rfl)

theorem keeps_beginOp : Keeps State.ftable (beginOp : Kern P Unit) := by
  intro s
  unfold wp beginOp
  by_cases hwait : s.log.mustWait
  · rw [if_pos hwait]
    trivial
  · rw [if_neg hwait]
    rfl

/-- A transaction's start. -/
theorem keeps_enter : Keeps State.ftable (beginOp >>= fun _ => ilock sb k : Kern P Unit) := .bind keeps_beginOp fun _ => keeps_ilock

theorem keeps_endOp : Keeps State.ftable (endOp : Kern P Unit) := by
  intro s
  unfold wp endOp
  match s.log.endOp with
  | .ok (_, true) => rfl
  | .ok (_, false) => rfl
  | .error _ => trivial

/-- `writei` returns `n` whether the bytes could be read or not. -/
theorem writei_returns (off : Nat) :
    wp (writei sb k src off n) (fun r s' => s'.ftable = s.ftable ∧ (r = none ∨ r = some n ∧ off ≤ (off + n) % 2 ^ 32) ∧
      (Fits (s.icache k).din.size.toNat off n → r = some n)) (fun _ _ => True) s := by
  unfold writei
  simp only [wp_bind, wp_read]
  apply wp_ite
  · intro hbad
    refine ⟨rfl, .inl rfl, fun hfits => ?_⟩
    obtain ⟨hle, hlt, -⟩ := hfits
    rw [Nat.mod_eq_of_lt hlt] at hbad
    omega
  · intro hgood
    apply wp_ite
    · intro hbig
      refine ⟨rfl, .inl rfl, fun hfits => ?_⟩
      obtain ⟨-, hlt, hmax⟩ := hfits
      rw [Nat.mod_eq_of_lt hlt] at hbig
      omega
    · intro _
      apply wp_seq (keeps_writeLoop n off 0 n s)
      intro off' s₁ hloop
      have hrest : Keeps State.ftable (Prog.onlyIf (n > 0) do
          Prog.onlyIf (off' > (s.icache k).din.size.toNat) (setDin k (·.setSize off'))
          iupdate sb k : Kern P Unit) :=
        .ite (.bind (.ite (.change fun _ => rfl) (.pure _)) fun _ => keeps_iupdate) (.pure _)
      apply wp_seq (hrest s₁)
      intro _ s₂ hupdate
      exact ⟨hupdate.trans hloop, .inr ⟨rfl, by omega⟩, fun _ => rfl⟩

/-- A transaction does not move the offset back. If `writei` is not to refuse it, the offset goes to
the end of its bytes. -/
theorem writeOp_off {fits : Prop} (hlock : wp (beginOp >>= fun _ => ilock sb (s.ftable f).ip)
      (fun _ s' => fits → Fits (s'.icache (s.ftable f).ip).din.size.toNat (s.ftable f).off n) (fun _ _ => True) s) :
    wp (writeOp sb f src n) (fun r s' => (s.ftable f).off ≤ (s'.ftable f).off ∧
      (fits → r = some n ∧ (s'.ftable f).off = (s.ftable f).off + n)) (fun _ _ => True) s := by
  have hboth := wp_and hlock (keeps_enter s)
  simp only [wp_bind] at hboth
  unfold writeOp
  simp only [wp_bind, wp_read]
  apply wp_mono hboth _ fun _ _ _ => trivial
  intro _ s₁ hlocked
  apply wp_mono hlocked _ fun _ _ _ => trivial
  rintro _ s₂ ⟨hfits, htable⟩
  apply wp_mono (writei_returns (s.ftable f).off) _ fun _ _ => id
  rintro r s₃ ⟨hkept, hr, hsome⟩
  have hfile : s₃.ftable f = s.ftable f := by rw [hkept, htable]
  apply wp_mono (Q := fun _ s₄ => (s.ftable f).off ≤ (s₄.ftable f).off ∧ (fits → r = some n ∧ (s₄.ftable f).off = (s.ftable f).off + n))
    (E := fun _ _ => True)
  · apply wp_onlyIf
    · intro hpos
      rcases hr with rfl | ⟨rfl, hle⟩
      · cases hpos
      · rw [wp_change]
        show _ ≤ (update s₃.ftable f _ f).off ∧ (fits → _ ∧ (update s₃.ftable f _ f).off = _)
        rw [update_self]
        exact ⟨hle, fun h => ⟨rfl, Nat.mod_eq_of_lt (hfits h).2.1⟩⟩
    · intro hzero
      rw [hfile]
      refine ⟨le_rfl, fun h => ?_⟩
      obtain rfl := hsome (hfits h)
      exact ⟨rfl, Nat.left_eq_add.mpr (Nat.eq_zero_of_not_pos hzero)⟩
  · intro _ s₄ hoff
    have hend : Keeps State.ftable (iunlock (s.ftable f).ip >>= fun _ => endOp : Kern P Unit) := .bind keeps_iunlock fun _ => keeps_endOp
    have hend := hend s₄
    rw [wp_bind] at hend
    apply wp_mono hend _ fun _ _ => id
    intro _ s₅ hend
    apply wp_mono hend _ fun _ _ => id
    intro _ s₆ hsame
    rw [wp_pure, hsame]
    exact hoff
  · exact fun _ _ => id

/-- A transaction that `writei` does not refuse is counted, whatever could be read. -/
theorem writeOp_counts (h : Ok sb unlocked s) (hidle : Idle s.log) (href : 0 < (s.icache (s.ftable f).ip).ref)
    (hfits : Fits (fsize sb s f) (s.ftable f).off n) :
    wp (writeOp sb f src n) (fun r s' => r = some n ∧ (s'.ftable f).off = (s.ftable f).off + n) (fun _ _ => True) s := by
  have hlock : wp (beginOp >>= fun _ => ilock sb (s.ftable f).ip)
      (fun _ s' => True → Fits (s'.icache (s.ftable f).ip).din.size.toNat (s.ftable f).off n) (fun _ _ => True) s := by
    rw [wp_bind]
    apply wp_of_ok hidle.beginOp
    have hbegun : Ok sb unlocked s.begun := h.congr rfl rfl
    apply wp_mono (hbegun.ilock href rfl) _ fun _ _ => False.elim
    rintro _ s₁ ⟨hlocked, hheld⟩ -
    rw [hheld.size hlocked.ok, hlocked.files]
    exact hfits
  exact wp_mono (writeOp_off hlock) (fun _ _ hr => hr.2 trivial) fun _ _ => id

/-- The transactions that are left do not move the offset back. -/
theorem filewriteLoop_off {fuel i : Nat} :
    wp (filewriteLoop sb f src n fuel i) (fun _ s' => (s.ftable f).off ≤ (s'.ftable f).off) (fun _ _ => True) s := by
  induction fuel generalizing i s with
  | zero => exact le_rfl
  | succ fuel ih =>
    apply wp_ite
    · intro _
      apply wp_seq (writeOp_off (wp_mono (keeps_enter s) (fun _ _ _ => False.elim) fun _ _ => id))
      rintro r s₁ ⟨hle, -⟩
      cases r with
      | none => exact hle
      | some r => exact wp_ite (fun _ => trivial) fun _ => wp_mono ih (fun _ _ => hle.trans) fun _ _ => id
    · intro _
      exact le_rfl

end

/-- `either_copyin` finds every byte that it is asked for: those of the transactions, one from each
multiple `i` of `maxWrite` on, that `writei` does not refuse. -/
def NoFault (sb : Super) (s : State P) (f : Fin NFILE) (src : Nat → Option Byte) (n : Nat) : Prop :=
  ∀ i, maxWrite ∣ i → (s.ftable f).off ≤ fsize sb s f → (s.ftable f).off + i + min (n - i) maxWrite ≤ MAXFILE * BSIZE →
    ∀ j, j < min (n - i) maxWrite → (src (i + j)).isSome = true

/-- The loop has ended after `i` bytes, all of them readable. -/
theorem NoFault.of_end {src : Nat → Option Byte} {n i : Nat} (hdvd : i < n → maxWrite ∣ i) (hsome : ∀ j, j < i → (src j).isSome = true)
    (hend : i < n → (s.ftable f).off ≤ fsize sb s f → MAXFILE * BSIZE < (s.ftable f).off + i +
      min (n - i) maxWrite) : NoFault sb s f src n := by
  intro i' hdvd' hoff hmax j hj
  rw [show maxWrite = 3072 by decide] at *
  apply hsome
  by_cases hn : i < n
  · have := hdvd hn
    have := hend hn hoff
    omega
  · omega

theorem bytes_add (i n : Nat) : (range i).map bs ++ (range n).map (fun j => bs (i + j)) = (range (i + n)).map bs := by
  rw [range_add, map_append, map_map]
  rfl

section

variable {i n : Nat} {s₁ : State P}

theorem Done.file (hdone : Done sb (stored sb s f bs i) 0 (s.advance f i) s₁) :
    s₁.ftable f = (s.ftable f).setOff ((s.ftable f).off + i) := by
  rw [hdone.ftable]
  exact update_self ..

section

variable (hdone : Done sb (stored sb s f bs i) 0 (s.advance f i) s₁)
  (href : 0 < (s.icache (s.ftable f).ip).ref)
include hdone href

theorem Done.inode :
    0 < (s₁.icache (s₁.ftable f).ip).ref ∧ (s₁.icache (s₁.ftable f).ip).inum = (s.icache (s.ftable f).ip).inum := by
  have hip : (s₁.ftable f).ip = (s.ftable f).ip := by
    rw [hdone.file]
    rfl
  have hpos : 0 < (s₁.icache (s.ftable f).ip).ref := by
    rw [hdone.ref]
    exact Int.lt_of_lt_of_le href (Int.le_of_eq (add_zero _).symm)
  rw [hip]
  exact ⟨hpos, (hdone.keep (s.ftable f).ip href hpos).1⟩

/-- Two transactions one after the other. -/
theorem stored_stored (hoff : (s.ftable f).off ≤ fsize sb s f) :
    stored sb s₁ f (fun j => bs (i + j)) n = stored sb s f bs (i + n) := by
  have hat : (s₁.ftable f).off = (s.ftable f).off + i := by
    rw [hdone.file]
    rfl
  have hinum := (hdone.inode href).2
  unfold stored at hdone ⊢
  rw [hdone.files, hat, hinum, update_idem, update_self, Option.map_map]
  congr 1
  unfold fsize fileSize at hoff
  cases hv : files sb s.disk (s.icache (s.ftable f).ip).inum with
  | none => rfl
  | some v =>
    rw [hv] at hoff
    have hlen : ((range i).map bs).length = i := by rw [length_map, length_range]
    have hwrite : overwrite (overwrite _ _ ((range i).map bs)) _ ((range n).map fun j => bs (i + j)) = _ := overwrite_overwrite hoff _
    rw [hlen, bytes_add] at hwrite
    show some ((v.write _ _).write _ _) = some (v.write _ _)
    unfold FileView.write
    simp only [Option.some.injEq, FileView.mk.injEq, true_and]
    exact hwrite

theorem Done.advance {s₂ : State P}
    (hoff : (s.ftable f).off ≤ fileSize (Fs.files sb s.disk) (s.icache (s.ftable f).ip).inum)
    (hnext : Done sb (stored sb s₁ f (fun j => bs (i + j)) n) 0 (s₁.advance f n) s₂) :
    Done sb (stored sb s f bs (i + n)) 0 (s.advance f (i + n)) s₂ := by
  have hstart : (s.advance f i).setFile f ((s₁.ftable f).setOff ((s₁.ftable f).off + n)) = s.advance f (i + n) := by
    rw [hdone.file]
    unfold State.advance State.setFile File.setOff
    rw [update_idem, add_assoc]
  have hfirst := hdone.setFile f ((s₁.ftable f).setOff ((s₁.ftable f).off + n))
  rw [hstart] at hfirst
  have hboth := hfirst.trans hnext le_rfl
  rwa [add_zero, stored_stored hdone href hoff] at hboth

/-- What has been stored is in the file. -/
theorem Done.le_fsize (h : Ok sb unlocked s) (hoff : (s.ftable f).off ≤ fsize sb s f) : (s.ftable f).off + i ≤ fsize sb s₁ f := by
  have hentry := h.entry _ href
  have hfile := view_eq (d := s.disk) hentry.inum hentry.type
  unfold fsize fileSize Fs.files at hoff
  unfold fsize fileSize
  rw [hfile] at hoff
  rw [(hdone.inode href).2, hdone.files, stored, update_self, Fs.files, hfile]
  show _ ≤ (overwrite _ _ _).length
  rw [length_overwrite hoff, length_map, length_range]
  exact Nat.le_max_right ..

end

/-- `i` bytes have been stored, all of them readable, and the rest of the loop is to come. -/
structure Going (sb : Super) (s : State P) (f : Fin NFILE) (src : Nat → Option Byte) (n i : Nat) (s' : State P) : Prop where
  le : i ≤ n
  some : ∀ j, j < i → (src j).isSome = true
  off : i ≠ 0 → (s.ftable f).off ≤ fsize sb s f
  done : Done sb (stored sb s f (fun j => (src j).getD 0) i) 0 (s.advance f i) s'

/-- The offset has passed a byte that could not be read. -/
def Passed (s : State P) (f : Fin NFILE) (src : Nat → Option Byte) (s' : State P) : Prop :=
  ∃ j, src j = none ∧ (s.ftable f).off + j < (s'.ftable f).off

variable {src : Nat → Option Byte}

/-- `filewrite`'s loop, after `i` bytes. -/
theorem filewriteLoop_spec {fuel : Nat} (h : Ok sb unlocked s) (href : 0 < (s.icache (s.ftable f).ip).ref)
    (hgoing : Going sb s f src n i s₁) (hfuel : n - i ≤ fuel) (hdvd : i < n → maxWrite ∣ i) :
    wp (filewriteLoop sb f src n fuel i)
      (fun t s' => NoFault sb s f src n ∧ Going sb s f src n t s' ∨
        ¬ NoFault sb s f src n ∧ Passed s f src s')
      (fun e _ => NoFault sb s f src n → e = .balloc) s₁ := by
  induction fuel generalizing i s₁ with
  | zero => exact .inl ⟨.of_end hdvd hgoing.some fun hlt => by omega, hgoing⟩
  | succ fuel ih =>
    have hdone := hgoing.done
    obtain ⟨href₁, hinum⟩ := hdone.inode href
    have hmax : maxWrite = 3072 := by decide
    have hat : (s₁.ftable f).off = (s.ftable f).off + i := by rw [hdone.file]; rfl
    unfold filewriteLoop
    apply wp_ite
    · intro hlt
      by_cases hf : Fits (fsize sb s₁ f) (s₁.ftable f).off (min (n - i) maxWrite)
      · -- the first chunk tells that the offset is inside the file
        have hin : (s.ftable f).off ≤ fsize sb s f := by
          by_cases hzero : i = 0
          · subst hzero
            have hle := hf.1
            unfold fsize at hle ⊢
            rw [hinum, hdone.files, stored_zero, hat] at hle
            exact hle
          · exact hgoing.off hzero
        by_cases hread : ∀ j, j < min (n - i) maxWrite → (src (i + j)).isSome = true
        · rw [wp_bind]
          apply wp_mono (writeOp_spec hdone.ok hdone.idle href₁ (by omega) (Nat.min_le_right ..) fun _ => hread)
          · intro r s₂ hr
            obtain ⟨rfl, hnext⟩ := hr.1 hf
            show wp (if (min (n - i) maxWrite) ≠ min (n - i) maxWrite then _ else _) _ _ s₂
            rw [if_neg (fun hne => hne rfl)]
            have hdvd' : i + min (n - i) maxWrite < n → maxWrite ∣ i + min (n - i) maxWrite := by
              intro hlt'
              rw [Nat.min_eq_right (by omega)]
              exact Nat.dvd_add_self_right.mpr (hdvd hlt)
            refine ih ⟨by omega, fun j hj => ?_, fun _ => hin, hdone.advance href hin hnext⟩ (by omega) hdvd'
            by_cases hj' : j < i
            · exact hgoing.some j hj'
            · have hnew := hread (j - i) (by omega)
              rwa [show i + (j - i) = j by omega] at hnew
          · exact fun _ _ he _ => he
        · -- the transaction is counted, whatever has been copied
          simp only [not_forall] at hread
          obtain ⟨j, hj, hnone⟩ := hread
          have hfault : ¬ NoFault sb s f src n := by
            intro hno
            have hmax := hf.2.2
            rw [hat] at hmax
            exact hnone (hno i (hdvd hlt) hin hmax j hj)
          apply wp_mono (wp_seq (writeOp_counts hdone.ok hdone.idle href₁ hf) (R := fun _ s' => Passed s f src s') _)
            (fun _ _ hp => .inr ⟨hfault, hp⟩) fun _ _ _ hno => absurd hno hfault
          rintro r s₂ ⟨rfl, hoff⟩
          have hpassed : (s.ftable f).off + (i + j) < (s₂.ftable f).off := by omega
          refine wp_ite (fun _ => trivial) fun _ => wp_mono filewriteLoop_off (fun _ _ hle => ?_) fun _ _ => id
          exact ⟨i + j, Option.not_isSome_iff_eq_none.mp hnone, hpassed.trans_le hle⟩
      · rw [wp_bind]
        apply wp_mono (writeOp_spec hdone.ok hdone.idle href₁ (by omega) (Nat.min_le_right ..) fun hfits => absurd hfits hf)
        · intro r s₂ hr
          obtain ⟨rfl, hnext⟩ := hr.2 hf
          have hboth := hdone.trans hnext le_rfl
          rw [add_zero, hdone.files] at hboth
          refine .inl ⟨.of_end hdvd hgoing.some fun _ hin => ?_, hgoing.le, hgoing.some, hgoing.off, hboth⟩
          have hsmall : MAXFILE * BSIZE < 2 ^ 32 := by decide
          rw [hat] at hf
          exact Nat.lt_of_not_le fun hle => hf ⟨hdone.le_fsize href h hin, by omega, hle⟩
        · exact fun _ _ he _ => he
    · intro hnlt
      exact .inl ⟨.of_end hdvd hgoing.some fun hlt => absurd hlt hnlt, hgoing⟩

end

/-- `filewrite` to an inode, when it returns: `t` bytes of the buffer have been stored at the old
offset, all of them if `n` is returned, and the offset has advanced by `t`, for some `t`, exactly if
no fault is reached. Without one it stops only when the disk is full. -/
theorem filewrite_tells_truth (sb : Super) (s : State P) (f : Fin NFILE) (src : Nat → Option Byte) (n : Int) (driver : Option Int)
    (h : Ok sb unlocked s) (hidle : Idle s.log) (htype : (s.ftable f).type = .inode) (hwritable : (s.ftable f).writable = true)
    (href : 0 < (s.icache (s.ftable f).ip).ref) (hn : 0 ≤ n) :
    wp (filewrite sb f src n driver)
      (fun r s' => (r = n ∨ r = -1) ∧
        ((∃ t : Nat, t ≤ n ∧ (∀ j, j < t → (src j).isSome = true) ∧ (r = n → t = n) ∧
          files sb s'.disk = update (files sb s.disk) (s.icache (s.ftable f).ip).inum
            ((files sb s.disk (s.icache (s.ftable f).ip).inum).map fun v =>
              v.write (s.ftable f).off ((range t).map fun j => (src j).getD 0)) ∧
          (t ≠ 0 → (s.ftable f).off ≤ fsize sb s f) ∧
          (s'.ftable f).off = (s.ftable f).off + t) ↔
        NoFault sb s f src n.toNat))
      (fun e _ => NoFault sb s f src n.toNat → e = .balloc) s := by
  have hstart : Going sb s f src n.toNat 0 s := by
    refine ⟨Nat.zero_le _, fun _ => nofun, fun hne => absurd rfl hne, ?_⟩
    rw [stored_zero, advance_zero]
    exact .refl h hidle
  unfold filewrite
  simp only [wp_bind, wp_read]
  rw [if_neg (by rw [hwritable]; decide), htype]
  simp only [wp_bind]
  apply wp_mono (filewriteLoop_spec h href hstart (Nat.le_of_eq (Nat.sub_zero _)) fun _ => Nat.dvd_zero _) _ fun _ _ => id
  rintro t s' (⟨hno, hgoing⟩ | ⟨hfault, j, hnone, hpassed⟩)
  · have hle := hgoing.le
    have hoff : (s'.ftable f).off = (s.ftable f).off + t := by
      rw [hgoing.done.file]
      rfl
    apply wp_ite
    · intro hall
      exact ⟨.inl rfl, fun _ => hno, fun _ => ⟨t, Int.le_of_eq hall, hgoing.some, fun _ => hall, hgoing.done.files, hgoing.off, hoff⟩⟩
    · intro hpart
      exact ⟨.inr rfl, fun _ => hno, fun _ => ⟨t, by omega, hgoing.some, fun heq => by omega, hgoing.done.files, hgoing.off, hoff⟩⟩
  · -- the offset says that the unreadable byte has been stored
    have hlies : ¬ ∃ t, (∀ j, j < t → (src j).isSome = true) ∧ (s'.ftable f).off = (s.ftable f).off + t := by
      rintro ⟨t, hsome, hoff⟩
      have hj := hsome j (by omega)
      rw [hnone] at hj
      cases hj
    apply wp_ite
    · intro _
      exact ⟨.inl rfl, fun h => absurd (h.imp fun _ ht => ⟨ht.2.1, ht.2.2.2.2.2⟩) hlies, fun hno => absurd hno hfault⟩
    · intro _
      exact ⟨.inr rfl, fun h => absurd (h.imp fun _ ht => ⟨ht.2.1, ht.2.2.2.2.2⟩) hlies, fun hno => absurd hno hfault⟩

theorem nfile_pos : 0 < NFILE := by decide

/-- The first entry of `ftable`. -/
def file0 : Fin NFILE := ⟨0, nfile_pos⟩

/-- A file on the root directory's inode, at its start. -/
def openRoot : State Unit :=
  (mounted () LOGSIZE 0 slot0).setFile file0
    { type := .inode, ref := 1, readable := true, writable := true, ip := slot0, off := 0, major := 0 }

/-- Four bytes to a file at its start. -/
theorem filewrite_tells_truth_four :
    wp (filewrite mkfsSuper file0 (fun j => some (BitVec.ofNat 8 j)) 4 none)
      (fun r s' => ∃ t : Nat, (r = 4 → t = (4 : Int)) ∧ (s'.ftable file0).off = t) (fun e _ => e = .balloc) openRoot := by
  have hoff : (openRoot.ftable file0).off = 0 := rfl
  have hno : NoFault mkfsSuper openRoot file0 (fun j => some (BitVec.ofNat 8 j)) 4 := fun _ _ _ _ _ _ => rfl
  apply wp_mono (filewrite_tells_truth mkfsSuper openRoot file0
    (fun j => some (BitVec.ofNat 8 j)) 4 none ((ok_mounted () LOGSIZE 0 slot0).congr rfl rfl)
    ⟨rfl, rfl, rfl, by decide⟩ rfl rfl (by decide) (by decide)) _ fun _ _ he => he hno
  rintro r s' ⟨-, htruth⟩
  obtain ⟨t, -, -, hall, -, -, ht⟩ := htruth.mpr hno
  refine ⟨t, hall, ?_⟩
  rw [ht, hoff, zero_add]

theorem readCount_le {size off n t : Nat} (h : t = readCount size off n) (hoff : off < 2 ^ 32) :
    (t = 0 ∨ off + t ≤ size) ∧ off + t < 2 ^ 32 := by
  unfold readCount at h
  split at h <;> omega

/-- `fileread` of an inode gives the file's bytes from the offset on, as many as there are, and
advances the offset. It changes no file and never stops. -/
theorem fileread_tells_truth (sb : Super) (s : State P) (f : Fin NFILE) (dst : Nat → Bool) (n : BitVec 32) (driver : Option Int)
    (h : Ok sb unlocked s) (htype : (s.ftable f).type = .inode) (hreadable : (s.ftable f).readable = true)
    (href : 0 < (s.icache (s.ftable f).ip).ref) (hoff : (s.ftable f).off < 2 ^ 32) (hmapped : ∀ j, j < n.toNat → dst j = true) :
    wp (fileread sb f dst n.toNat driver)
      (fun r s' => ∃ v t, files sb s.disk (s.icache (s.ftable f).ip).inum = some v ∧ r.1 = (t : Nat) ∧
        t = readCount v.content.length (s.ftable f).off n.toNat ∧ (∀ j, j < t → v.content[(s.ftable f).off + j]? = some (r.2 j)) ∧
        Effect sb unlocked (files sb s.disk) 0 0 0 (s.advance f t) s') never s := by
  unfold fileread
  simp only [wp_bind, wp_read]
  rw [if_neg (by rw [hreadable]; decide), htype]
  simp only [wp_bind]
  apply wp_mono (h.ilock href rfl) _ fun _ _ => id
  rintro _ s₁ ⟨hlock, hheld⟩
  obtain ⟨hloaded, htable⟩ := hheld.loaded hlock.ok
  apply wp_mono (readi_spec hloaded hoff n.isLt hmapped) _ fun _ _ => id
  rintro r _ ⟨rfl, hcount, hbytes⟩
  have hfile := hheld.file hlock.ok
  rw [hlock.files] at hfile
  rw [← table_self, htable, hheld.inum] at hcount
  rw [htable, hheld.inum] at hbytes
  have hle := readCount_le hcount hoff
  rw [Nat.mod_eq_of_lt hle.2]
  apply wp_mono (Q := fun _ => Effect sb _ _ 0 0 0 (s.advance f r.1)) (E := never)
  · apply wp_onlyIf
    · intro _
      exact hlock.setFile f _
    · intro hzero
      rwa [Nat.eq_zero_of_not_pos hzero, advance_zero]
  · intro _ s₂ hat
    apply wp_mono (hat.ok.iunlock (update_self ..)) _ fun _ _ => id
    intro _ s₃ hunlock
    have hend := hat.still hunlock le_rfl
    rw [relock] at hend
    refine ⟨_, r.1, hfile, rfl, ?_, ?_, hend⟩
    · rw [hcount, length_content]
    · intro j hj
      rw [getElem?_content, hbytes j hj, if_pos (by omega)]
  · exact fun _ _ => id

/-- Sixteen bytes of the root directory. -/
theorem fileread_tells_truth_root :
    wp (fileread mkfsSuper file0 (fun _ => true) 16 none) (fun r s' => (s'.ftable file0).off = r.1) never openRoot := by
  apply wp_mono (fileread_tells_truth mkfsSuper openRoot file0 (fun _ => true) 16 none
    ((ok_mounted () LOGSIZE 0 slot0).congr rfl rfl) rfl rfl (by decide)
    (by decide) fun _ _ => rfl) _ fun _ _ => id
  rintro r s' ⟨_, t, -, hr, -, -, heffect⟩
  rw [heffect.ftable, hr]
  exact congrArg Nat.cast (zero_add t)

/-- A user memory with the string "x" at address 0, and nothing else. -/
def onlyX : Mem := fun a => if a = 0 then some 120 else if a = 1 then some 0 else none

/-- A process creates a file and writes one byte to it from an address that is not mapped. The call
returns 1 and the offset is 1, and the file is empty. -/
theorem write_lies :
    onlyX 100 = none ∧
      ∃ s₁ s₂ : State Unit, sysOpen mkfsSuper () onlyX 0 (O_CREATE ||| O_WRONLY) (mounted () LOGSIZE 0 slot0) = .ok 0 s₁ ∧
        sysWrite mkfsSuper () onlyX 0 100 1 none s₁ = .ok 1 s₂ ∧ (s₂.ftable file0).off = 1 ∧
        (s₂.icache (s₂.ftable file0).ip).inum = 2 ∧ (inode mkfsSuper s₂.disk 2).type = T_FILE ∧
          (inode mkfsSuper s₂.disk 2).size = 0 := by
  refine ⟨by decide, ?_⟩
  have hrun : (sysOpen mkfsSuper () onlyX 0 (O_CREATE ||| O_WRONLY) (mounted () LOGSIZE 0 slot0)).okWith (fun r s₁ => r = 0 &&
      (sysWrite mkfsSuper () onlyX 0 100 1 none s₁).okWith fun r s₂ => r = 1 && (s₂.ftable file0).off = 1 &&
        (s₂.icache (s₂.ftable file0).ip).inum = 2 && (inode mkfsSuper s₂.disk 2).type = T_FILE &&
          (inode mkfsSuper s₂.disk 2).size = 0) = true := by
    decide +kernel
  obtain ⟨r, s₁, hopen, hrest⟩ := Res.exists_of_okWith hrun
  rw [Bool.and_eq_true] at hrest
  obtain ⟨r', s₂, hwrite, hend⟩ := Res.exists_of_okWith hrest.2
  simp only [Bool.and_eq_true, decide_eq_true_eq] at hend hrest
  refine ⟨s₁, s₂, ?_, ?_, hend.1.1.1.2, hend.1.1.2, hend.1.2, hend.2⟩
  · rw [hopen, hrest.1]
  · rw [hwrite, hend.1.1.1.1]

end Xv6.Fs
