import Mathlib.Data.List.GetD
import Xv6.Log.Code

/-!
# Crash atomicity of the redo log

The argument is one predicate on disks. `Installed start size T B t d` says that the header of `d`
lists the blocks `B`, that the log holds `T`'s content for each of them, that the first `t` of them
are home already, and that every other block outside the log is `T`'s. `recover_from_log` drives
any such disk to `T` (`recover_wp`), and every disk on its way is such a disk again, so that a
crash inside recovery changes nothing: that is `Recoverable`.

A commit leaves the disk recoverable to the old blocks up to its first header write, and
recoverable to the new ones from there on (`commit_wp`). The header write is the commit point.
That the disk writes a block whole or not at all is assumed.
-/

namespace Xv6.Log

open Instr Function List

/-- The log's own blocks: the header and `size - 1` data blocks. -/
def InLog (start size k : Nat) : Prop := start ≤ k ∧ k < start + size

/-- A disk on which the blocks `B` are committed with content `T`, the first `t` of them home. -/
structure Installed (start size : Nat) (T : Disk) (B : List Nat) (t : Nat) (d : Disk) : Prop where
  head : headOf (d start) = B
  home : ∀ k ∈ B, ¬ InLog start size k
  room : B.length < size
  logged : ∀ j (h : j < B.length), d (start + j + 1) = T B[j]
  done : ∀ j (h : j < B.length), j < t → d B[j] = T B[j]
  rest : ∀ k, ¬ InLog start size k → k ∉ B → d k = T k

/-- A disk that `recover_from_log` turns into `T` outside the log. -/
def Recoverable (start size : Nat) (T d : Disk) : Prop := ∃ B, Installed start size T B 0 d

namespace Installed

variable {start size t : Nat} {T d : Disk} {B : List Nat}

section

variable (h : Installed start size T B t d)
include h

theorem recoverable : Recoverable start size T d :=
  ⟨B, { h with done := fun _ _ hj => absurd hj (Nat.not_lt_zero _) }⟩

theorem inLog_logged {j : Nat} (hj : j < B.length) : InLog start size (start + j + 1) := by
  have := h.room
  constructor <;> omega

theorem inLog_head : InLog start size start := by
  have := h.room
  constructor <;> omega

/-- Writing the next block home. -/
theorem write (ht : t < B.length) :
    Installed start size T B (t + 1) (update d B[t] (T B[t])) := by
  have hout : ¬ InLog start size B[t] := h.home _ (getElem_mem ht)
  have hne : ∀ k, InLog start size k → k ≠ B[t] := fun k hk e => hout (e ▸ hk)
  refine ⟨?_, h.home, h.room, fun j hj => ?_, fun j hj hjt => ?_, fun k hk hkB => ?_⟩
  · rw [update_of_ne (hne _ h.inLog_head)]
    exact h.head
  · rw [update_of_ne (hne _ (h.inLog_logged hj))]
    exact h.logged j hj
  · -- an earlier block is either this one again or untouched by the write
    by_cases e : B[j] = B[t]
    · rw [e, update_self]
    · rw [update_of_ne e]
      exact h.done j hj (by rcases Nat.lt_succ_iff_lt_or_eq.mp hjt with hlt | rfl
                            · exact hlt
                            · exact absurd rfl e)
  · have hkt : k ≠ B[t] := fun e => hkB (by rw [e]; exact getElem_mem ht)
    rw [update_of_ne hkt]
    exact h.rest k hk hkB

end

/-- With every block home, the disk is `T` outside the log. -/
theorem all_home (h : Installed start size T B B.length d) {k : Nat} (hk : ¬ InLog start size k) :
    d k = T k := by
  by_cases hB : k ∈ B
  · obtain ⟨j, hj, rfl⟩ := mem_iff_getElem.mp hB
    exact h.done j hj hj
  · exact h.rest k hk hB

end Installed

/-- An empty header on a disk that is `T` outside the log. -/
theorem installed_nil {start size : Nat} {T d : Disk} (hsize : 0 < size) (hn : headN (d start) ≤ 0)
    (hT : ∀ k, ¬ InLog start size k → d k = T k) : Installed start size T [] 0 d :=
  ⟨headOf_eq_nil hn, fun _ h => absurd h not_mem_nil, hsize,
    fun _ h => absurd h (Nat.not_lt_zero _), fun _ h => absurd h (Nat.not_lt_zero _),
    fun k hk _ => hT k hk⟩

/-! ## Installing a committed transaction -/

variable {m : Image}

theorem exec_installTrans {start t : Nat} {B : List Nat} (hlh : m.lh = B) (ht : t < B.length) :
    exec start (installTrans t) m = (m, installBody (start + t + 1) B[t] ++ [installTrans (t + 1)]) := by
  subst hlh
  rw [exec, installTransFrom, if_pos ht, getD_eq_getElem _ _ ht]

theorem exec_installTrans_done {start t : Nat} {B : List Nat} (hlh : m.lh = B) (ht : B.length ≤ t) :
    exec start (installTrans t) m = (m, []) := by
  subst hlh
  rw [exec, installTransFrom, if_neg (Nat.not_lt.mpr ht)]

section Install

variable {start size : Nat} {T : Disk} {B : List Nat} {W : List (Nat × Block) → Prop} {Q : Image → Prop}

/-- `install_trans`'s loop, from any index. `W` is a property of the writes issued so far that
further writes keep. -/
theorem install_wp (hW : ∀ w ws, W ws → W (w :: ws)) {c : List Instr}
    (hc : ∀ m, m.lh = B → Installed start size T B B.length m.disk → W m.writes →
      Wp (exec start) (fun _ m => Recoverable start size T m.disk ∧ W m.writes) Q c m) :
    ∀ (r t : Nat) (m : Image), t + r = B.length → m.lh = B → Installed start size T B t m.disk →
      (∀ j (h : j < B.length), m.cache (start + j + 1) = T B[j]) → W m.writes →
      Wp (exec start) (fun _ m => Recoverable start size T m.disk ∧ W m.writes) Q
        (installTrans t :: c) m := by
  -- induction on the number of blocks still to install
  intro r
  induction r with
  | zero =>
    intro t m ht hlh hd _ hw
    refine .cons_of (exec_installTrans_done hlh (by omega)) ⟨hd.recoverable, hw⟩ ?_
    exact hc m hlh (by rwa [show B.length = t by omega]) hw
  | succ r ih =>
    intro t m ht hlh hd hcache hw
    have htB : t < B.length := by omega
    have hne : ∀ j, j < B.length → start + j + 1 ≠ B[t] := fun j hj e =>
      hd.home _ (getElem_mem htB) (e ▸ hd.inLog_logged hj)
    refine .cons_of (exec_installTrans hlh htB) ⟨hd.recoverable, hw⟩ ?_
    refine .cons ⟨hd.recoverable, hw⟩ (.cons ⟨hd.recoverable, hw⟩ (.cons ⟨hd.recoverable, hw⟩ ?_))
    -- the home buffer now holds the logged content, and `bwrite` makes it durable
    refine .cons ⟨hd.recoverable, hw⟩ ?_
    have hd' : Installed start size T B (t + 1) (update m.disk B[t] (T B[t])) := hd.write htB
    have hstep : (exec start (bwrite B[t])
        { m with cache := update m.cache B[t] (m.cache (start + t + 1)) }).1.disk =
          update m.disk B[t] (T B[t]) := by
      simp only [exec, update_self, hcache t htB]
    refine .cons ⟨hstep ▸ hd'.recoverable, hW _ _ hw⟩ (.cons ⟨hstep ▸ hd'.recoverable, hW _ _ hw⟩
      (.cons ⟨hstep ▸ hd'.recoverable, hW _ _ hw⟩ ?_))
    refine ih (t + 1) _ (by omega) hlh (hstep ▸ hd') (fun j hj => ?_) (hW _ _ hw)
    exact (update_of_ne (hne j hj) _ _).trans (hcache j hj)

/-- `log.lh.n = 0; write_head();` clears the log of a transaction that is home. -/
theorem clear_wp (hW : ∀ w ws, W ws → W (w :: ws)) (hd : Installed start size T B B.length m.disk)
    (hw : W m.writes) :
    Wp (exec start) (fun _ m => Recoverable start size T m.disk ∧ W m.writes)
      (fun m => headN (m.disk start) = 0 ∧ (∀ k, ¬ InLog start size k → m.disk k = T k) ∧ W m.writes)
      (zeroHead :: writeHead start) m := by
  refine .cons ⟨hd.recoverable, hw⟩ (.cons ⟨hd.recoverable, hw⟩ (.cons ⟨hd.recoverable, hw⟩
    (.cons ⟨hd.recoverable, hw⟩ ?_)))
  have hhead : ∀ b, headN (update m.disk start (putHead [] b) start) = 0 := fun b => by
    rw [update_self, headN_putHead_nil]
  have hhome : ∀ b k, ¬ InLog start size k → update m.disk start (putHead [] b) k = T k := by
    intro b k hk
    have hks : k ≠ start := fun e => hk (by rw [e]; exact hd.inLog_head)
    rw [update_of_ne hks]
    exact hd.all_home hk
  have hdisk : ∀ lh cache ws, (exec start (bwrite start) ⟨lh, update cache start (putHead [] (cache start)),
      m.disk, ws⟩).1.disk = update m.disk start (putHead [] (cache start)) := by
    intro lh cache ws
    simp only [exec, update_self]
  have hsize : 0 < size := lt_of_le_of_lt (Nat.zero_le _) hd.room
  refine .cons ⟨?_, hW _ _ hw⟩ (.nil ⟨?_, ?_, hW _ _ hw⟩)
  · exact hdisk _ _ _ ▸ ⟨[], installed_nil hsize (Int.le_of_eq (hhead _)) (hhome _)⟩
  · exact hdisk _ _ _ ▸ hhead _
  · exact hdisk _ _ _ ▸ hhome _

/-- `recover_from_log` on a disk with a committed transaction, or with none: it runs to its end
with `T` outside the log and an empty header, and every disk on the way is recoverable to `T`. -/
theorem recover_wp {d : Disk} (h : Recoverable start size T d) :
    Wp (exec start) (fun _ m => Recoverable start size T m.disk)
      (fun m => headN (m.disk start) = 0 ∧ ∀ k, ¬ InLog start size k → m.disk k = T k)
      (recoverFromLog start) (boot d) := by
  obtain ⟨B, hB⟩ := h
  have key : Wp (exec start) (fun _ m => Recoverable start size T m.disk ∧ True)
      (fun m => headN (m.disk start) = 0 ∧ (∀ k, ¬ InLog start size k → m.disk k = T k) ∧ True)
      (recoverFromLog start) (boot d) := by
    refine .cons ⟨hB.recoverable, trivial⟩ (.cons ⟨hB.recoverable, trivial⟩
      (.cons ⟨hB.recoverable, trivial⟩ ?_))
    -- `read_head` leaves the header's blocks in `log.lh`
    exact install_wp (W := fun _ => True) (fun _ _ h => h)
      (fun m _ hm _ => clear_wp (W := fun _ => True) (fun _ _ h => h) hm trivial) B.length 0 _ (zero_add _) hB.head hB
      hB.logged trivial
  exact (key.weaken fun _ _ h => h.1).mono fun _ h => ⟨h.1, h.2.1⟩

end Install

/-- However often recovery is cut short, the disk stays recoverable to the same blocks. -/
theorem reboots_recoverable {start size : Nat} {T d d' : Disk} (hd : Recoverable start size T d)
    (h : Reboots start d d') : Recoverable start size T d' := by
  induction h with
  | none => exact hd
  | again _ hrun ih =>
    refine (recover_wp ih).crash (fun m hm => ?_) hrun
    obtain ⟨B, hB⟩ := ih
    exact ⟨[], installed_nil (lt_of_le_of_lt (Nat.zero_le _) hB.room) (Int.le_of_eq hm.1) hm.2⟩

/-! ## The commit -/

/-- The kernel as `commit` starts: the blocks of `lh` have their new content in the cache, and
everything else in the cache is what the disk holds. -/
def pending (lh : List Nat) (old new : Disk) : Image :=
  { lh := lh, cache := fun k => if k ∈ lh then new k else old k, disk := old, writes := [] }

/-- The blocks after the transaction. -/
def after (lh : List Nat) (old new : Disk) : Disk := fun k => if k ∈ lh then new k else old k

/-- The header write with `n > 0` is among the block writes issued. -/
def Committed (start : Nat) (ws : List (Nat × Block)) : Prop := ∃ w ∈ ws, w.1 = start ∧ 0 < headN w.2

/-- What a crash finds during a commit: the old blocks until the header write, the new ones after.
-/
def CrashImage (start size : Nat) (lh : List Nat) (old new : Disk) (m : Image) : Prop :=
  (Committed start m.writes → Recoverable start size (after lh old new) m.disk) ∧
    (¬ Committed start m.writes → Recoverable start size old m.disk)

section Commit

variable {start size : Nat} {lh : List Nat} {old new : Disk}

/-- `write_log` has copied the first `t` blocks to the log. -/
structure Writing (start size : Nat) (lh : List Nat) (old new : Disk) (t : Nat) (m : Image) : Prop where
  list : m.lh = lh
  head : headN (m.disk start) = 0
  same : ∀ k, ¬ InLog start size k → m.disk k = old k
  cached : ∀ k ∈ lh, m.cache k = new k
  onDisk : ∀ j (h : j < lh.length), j < t → m.disk (start + j + 1) = new lh[j]
  inCache : ∀ j (h : j < lh.length), j < t → m.cache (start + j + 1) = new lh[j]
  early : ¬ Committed start m.writes

theorem Writing.crashImage {t : Nat} (hsize : 0 < size) (h : Writing start size lh old new t m) :
    CrashImage start size lh old new m :=
  ⟨fun hc => absurd hc h.early, fun _ => ⟨[], installed_nil hsize (Int.le_of_eq h.head) h.same⟩⟩

/-- Blocks that one transaction can hold: outside the log, with a log block for each, in the
header's array, and numbered by a `uint`. -/
structure Loggable (start size : Nat) (lh : List Nat) : Prop where
  home : ∀ k ∈ lh, ¬ InLog start size k
  room : lh.length < size
  fits : lh.length ≤ LOGSIZE
  wide : ∀ k ∈ lh, k < 2 ^ 32

theorem exec_writeLog {t : Nat} {B : List Nat} (hlh : m.lh = B) (ht : t < B.length) :
    exec start (writeLog t) m = (m, writeLogBody (start + t + 1) B[t] ++ [writeLog (t + 1)]) := by
  subst hlh
  rw [exec, writeLogFrom, if_pos ht, getD_eq_getElem _ _ ht]

theorem exec_writeLog_done {t : Nat} {B : List Nat} (hlh : m.lh = B) (ht : B.length ≤ t) :
    exec start (writeLog t) m = (m, []) := by
  subst hlh
  rw [exec, writeLogFrom, if_neg (Nat.not_lt.mpr ht)]

section

variable (hl : Loggable start size lh)
include hl

/-- Copying block `t` of the transaction into the log's buffer, before it is written. -/
theorem Writing.copy {t : Nat} (ht : t < lh.length) (h : Writing start size lh old new t m) :
    Writing start size lh old new t
      { m with cache := update m.cache (start + t + 1) (m.cache lh[t]) } := by
  have := hl.room
  refine ⟨h.list, h.head, h.same, fun k hk => ?_, h.onDisk, fun j hj hjt => ?_, h.early⟩
  · have hne : k ≠ start + t + 1 := fun e => hl.home k hk (by rw [e]; constructor <;> omega)
    exact (update_of_ne hne _ _).trans (h.cached k hk)
  · have hne : start + j + 1 ≠ start + t + 1 := by omega
    exact (update_of_ne hne _ _).trans (h.inCache j hj hjt)

/-- Writing the log block out. -/
theorem Writing.write {t : Nat} (ht : t < lh.length) (h : Writing start size lh old new t m)
    (hc : m.cache (start + t + 1) = new lh[t]) :
    Writing start size lh old new (t + 1) (exec start (bwrite (start + t + 1)) m).1 := by
  have := hl.room
  refine ⟨h.list, ?_, fun k hk => ?_, h.cached, fun j hj hjt => ?_, fun j hj hjt => ?_, ?_⟩
  · have hne : start ≠ start + t + 1 := by omega
    show headN (update m.disk (start + t + 1) (m.cache (start + t + 1)) start) = 0
    rw [update_of_ne hne]
    exact h.head
  · have hne : k ≠ start + t + 1 := fun e => hk (by rw [e]; constructor <;> omega)
    exact (update_of_ne hne _ _).trans (h.same k hk)
  · rcases Nat.lt_succ_iff_lt_or_eq.mp hjt with hlt | rfl
    · have hne : start + j + 1 ≠ start + t + 1 := by omega
      exact (update_of_ne hne _ _).trans (h.onDisk j hj hlt)
    · exact (update_self _ _ _).trans hc
  · rcases Nat.lt_succ_iff_lt_or_eq.mp hjt with hlt | rfl
    · exact h.inCache j hj hlt
    · exact hc
  · -- a log block's write is no header write
    rintro ⟨w, hw, hs, hn⟩
    rcases mem_cons.mp hw with rfl | hw
    · exact absurd hs (by show start + t + 1 ≠ start; omega)
    · exact h.early ⟨w, hw, hs, hn⟩

/-- `write_log`'s loop, from any index. -/
theorem writeLog_wp {Q : Image → Prop} {c : List Instr}
    (hc : ∀ m, Writing start size lh old new lh.length m → Wp (exec start) (fun _ => CrashImage start size lh old new) Q c m) :
    ∀ (r t : Nat) (m : Image), t + r = lh.length → Writing start size lh old new t m →
      Wp (exec start) (fun _ => CrashImage start size lh old new) Q (writeLog t :: c) m := by
  have hsize : 0 < size := lt_of_le_of_lt (Nat.zero_le _) hl.room
  intro r
  induction r with
  | zero =>
    intro t m ht hm
    refine .cons_of (exec_writeLog_done hm.list (by omega)) (hm.crashImage hsize) ?_
    exact hc m (by rwa [show lh.length = t by omega])
  | succ r ih =>
    intro t m ht hm
    have htl : t < lh.length := by omega
    have hcopy := hm.copy hl htl
    have hdata : update m.cache (start + t + 1) (m.cache lh[t]) (start + t + 1) = new lh[t] := by
      rw [update_self]
      exact hm.cached _ (getElem_mem htl)
    have hwrite := hcopy.write hl htl hdata
    have h0 := hm.crashImage hsize
    have h2 := hwrite.crashImage hsize
    refine .cons_of (exec_writeLog hm.list htl) h0 (.cons h0 (.cons h0 (.cons h0
      (.cons (hcopy.crashImage hsize) (.cons h2 (.cons h2 ?_))))))
    exact ih (t + 1) _ (by omega) hwrite

/-- The header write turns a fully logged transaction into a committed one. -/
theorem Writing.commits (h : Writing start size lh old new lh.length m) (b : Block) :
    Installed start size (after lh old new) lh 0 (update m.disk start (putHead lh b)) := by
  have hroom := hl.room
  have hfits := hl.fits
  have hlen : lh.length < 2 ^ 31 := lt_of_le_of_lt hfits (by decide)
  refine ⟨?_, hl.home, hroom, fun j hj => ?_, fun _ _ hj => absurd hj (Nat.not_lt_zero _), fun k hk hB => ?_⟩
  · rw [update_self, headOf_putHead b hlen hl.wide]
  · have hne : start + j + 1 ≠ start := by omega
    rw [update_of_ne hne, h.onDisk j hj hj, after, if_pos (getElem_mem hj)]
  · have hne : k ≠ start := fun e => hk (by rw [e]; constructor <;> omega)
    rw [update_of_ne hne, h.same k hk, after, if_neg hB]

end

theorem exec_commit (hlh : m.lh = lh) (h : 0 < lh.length) : exec start commit m =
    (m, writeLog 0 :: (writeHead start ++ (installTrans 0 :: zeroHead :: writeHead start))) := by
  rw [exec, commitFrom, hlh, if_pos h]
  rfl

theorem exec_commit_nil (hlh : m.lh = []) : exec start commit m = (m, []) := by
  rw [exec, commitFrom, hlh]
  rfl

/-- `commit` runs to its end with the new blocks home and the log empty, and a crash at any point
on the way finds the old blocks before the header write and the new ones after it. -/
theorem commit_wp (hl : Loggable start size lh) (hn : headN (old start) = 0) :
    Wp (exec start) (fun _ => CrashImage start size lh old new)
      (fun m => CrashImage start size lh old new m ∧ headN (m.disk start) = 0 ∧
        ∀ k, ¬ InLog start size k → m.disk k = after lh old new k)
      [commit] (pending lh old new) := by
  have hsize : 0 < size := lt_of_le_of_lt (Nat.zero_le _) hl.room
  have hearly : ¬ Committed start (pending lh old new).writes := fun ⟨_, hw, _⟩ => absurd hw not_mem_nil
  have hstart : Writing start size lh old new 0 (pending lh old new) :=
    ⟨rfl, hn, fun _ _ => rfl, fun k hk => if_pos hk, fun _ _ h => absurd h (Nat.not_lt_zero _),
      fun _ _ h => absurd h (Nat.not_lt_zero _), hearly⟩
  have h0 := hstart.crashImage hsize
  by_cases hlh : 0 < lh.length
  · refine .cons_of (exec_commit rfl hlh) h0 ?_
    refine writeLog_wp hl (fun m hm => ?_) lh.length 0 _ (zero_add _) hstart
    have hm0 := hm.crashImage hsize
    -- `storeHead` changes the header's buffer only; the write after it commits
    refine .cons hm0 (.cons hm0 (.cons ⟨hm0.1, hm0.2⟩ ?_))
    have hexec : (exec start (bwrite start) (exec start (storeHead start) m).1).1 =
        { lh := lh, cache := update m.cache start (putHead lh (m.cache start)),
          disk := update m.disk start (putHead lh (m.cache start)),
          writes := (start, putHead lh (m.cache start)) :: m.writes } := by
      simp only [exec, update_self, hm.list]
    have hinst := hm.commits hl (m.cache start)
    have hcommitted : Committed start ((start, putHead lh (m.cache start)) :: m.writes) :=
      ⟨_, mem_cons_self, rfl, by rw [headN_putHead _ (lt_of_le_of_lt hl.fits (by decide))]; omega⟩
    have hcache : ∀ j (h : j < lh.length),
        update m.cache start (putHead lh (m.cache start)) (start + j + 1) = after lh old new lh[j] := by
      intro j hj
      have hne : start + j + 1 ≠ start := by omega
      rw [update_of_ne hne, hm.inCache j hj hj, after, if_pos (getElem_mem hj)]
    have hW : ∀ w ws, Committed start ws → Committed start (w :: ws) :=
      fun w ws ⟨v, hv, hs⟩ => ⟨v, mem_cons_of_mem _ hv, hs⟩
    refine Wp.weaken (G := fun _ m => Recoverable start size (after lh old new) m.disk ∧
      Committed start m.writes) ?_ (fun _ m h => ⟨fun _ => h.1, fun hc => absurd h.2 hc⟩)
    show Wp _ _ _ (brelse start :: installTrans 0 :: zeroHead :: writeHead start)
      (exec start (bwrite start) (exec start (storeHead start) m).1).1
    rw [hexec]
    refine .cons ⟨hinst.recoverable, hcommitted⟩ (install_wp hW (fun m' _ hm' hw' => ?_) lh.length 0 _
      (zero_add _) rfl hinst hcache hcommitted)
    refine (clear_wp hW hm' hw').mono fun m'' h => ⟨⟨fun _ => ?_, fun hc => absurd h.2.2 hc⟩, h.1, h.2.1⟩
    exact ⟨[], installed_nil hsize (Int.le_of_eq h.1) h.2.1⟩
  · have hnil : lh = [] := length_eq_zero_iff.mp (by omega)
    subst hnil
    exact .cons_of (exec_commit_nil rfl) h0 (.nil ⟨h0, hn, fun k _ => by
      rw [after, if_neg not_mem_nil]; rfl⟩)

theorem crashImage_of_runs (hl : Loggable start size lh) (hn : headN (old start) = 0) {m : Image} {c : List Instr}
    (h : Runs (exec start) (pending lh old new) [commit] m c) : CrashImage start size lh old new m := by
  cases (commit_wp hl hn).runs h with
  | nil hQ => exact hQ.1
  | cons hG _ => exact hG

end Commit

/-- **Crash atomicity.** Start from a disk whose log header has `n = 0` and a transaction `lh` of
blocks outside the log that fits in it, with new contents `new`. Crash anywhere in `commit()`, crash
any number of times in `recover_from_log()`, then let it complete, as it does. Outside the log every
block is the old one, or every logged block is the new one and the others are unchanged; the latter
if the header write with `n > 0` came before the crash. The header ends with `n = 0`. -/
theorem commit_crash_atomic {start size : Nat} {lh : List Nat} {old new : Disk}
    (hn : headN (old start) = 0) (hl : Loggable start size lh)
    {m : Image} {c : List Instr} (hcrash : Runs (exec start) (pending lh old new) [commit] m c)
    {d : Disk} (hboots : Reboots start m.disk d) :
    (∃ m', Runs (exec start) (boot d) (recoverFromLog start) m' []) ∧
    ∀ m', Runs (exec start) (boot d) (recoverFromLog start) m' [] →
      ((∀ k, ¬ InLog start size k → m'.disk k = old k) ∨
        (∀ k, ¬ InLog start size k → m'.disk k = if k ∈ lh then new k else old k)) ∧
      (Committed start m.writes → ∀ k, ¬ InLog start size k → m'.disk k = if k ∈ lh then new k else old k) ∧
      headN (m'.disk start) = 0 := by
  have himage := crashImage_of_runs hl hn hcrash
  -- whichever blocks the crash left recoverable, recovery brings them home
  have hfinal : ∀ T, Recoverable start size T m.disk →
      (∃ m', Runs (exec start) (boot d) (recoverFromLog start) m' []) ∧
      ∀ m', Runs (exec start) (boot d) (recoverFromLog start) m' [] →
        headN (m'.disk start) = 0 ∧ ∀ k, ¬ InLog start size k → m'.disk k = T k := by
    intro T hT
    have hwp := recover_wp (reboots_recoverable hT hboots)
    exact ⟨hwp.halts.imp fun _ h => h.1, fun m' hm' => (hwp.runs hm').post⟩
  by_cases hc : Committed start m.writes
  · obtain ⟨hex, hall⟩ := hfinal _ (himage.1 hc)
    exact ⟨hex, fun m' hm' => ⟨.inr (hall m' hm').2, fun _ => (hall m' hm').2, (hall m' hm').1⟩⟩
  · obtain ⟨hex, hall⟩ := hfinal _ (himage.2 hc)
    exact ⟨hex, fun m' hm' => ⟨.inl (hall m' hm').2, fun h => absurd h hc, (hall m' hm').1⟩⟩

/-- The power fails right after the header write of a one-block transaction: recovery installs it.
-/
theorem commit_crash_atomic_after_header :
    ∃ m m' : Image, ∃ c, Runs (exec 2) (pending [50] (fun _ _ => 0) (fun _ _ => 7)) [commit] m c ∧
      m.disk 50 = (fun _ => 0) ∧ Runs (exec 2) (boot m.disk) (recoverFromLog 2) m' [] ∧
      m'.disk 50 = (fun _ => 7) ∧ headN (m'.disk 2) = 0 := by
  have hl : Loggable 2 30 [50] := by
    refine ⟨?_, by decide, by decide, by decide⟩
    simp only [mem_singleton, forall_eq, InLog]
    omega
  have hcrash : ∃ m c, Runs (exec 2) (pending [50] (fun _ _ => 0) (fun _ _ => 7)) [commit] m c ∧
      m.disk 50 = (fun _ => 0) ∧ Committed 2 m.writes := by
    refine ⟨?m, ?c, ?run, ?same, ?commits⟩
    case run =>
      iterate 12 apply Runs.step
      exact .refl _ _
    case same => rfl
    case commits => exact ⟨_, mem_cons_self, rfl, by decide⟩
  obtain ⟨m, c, hrun, hold, hc⟩ := hcrash
  obtain ⟨⟨m', hm'⟩, hall⟩ := commit_crash_atomic (by decide) hl hrun (.none _)
  obtain ⟨_, hnew, hhead⟩ := hall m' hm'
  refine ⟨m, m', c, hrun, hold, hm', ?_, hhead⟩
  rw [hnew hc 50 (hl.home 50 mem_cons_self), if_pos mem_cons_self]

/-- What a commit may make of the disk `d`, and whether it has come to its commit point: it runs to
its end, or the power fails in it, and then in any number of recoveries before one completes. -/
inductive Attempt (start : Nat) (lh : List Nat) (d new : Disk) : Bool → Disk → Prop
  | complete {m : Image} : Runs (exec start) (pending lh d new) [commit] m [] → Attempt start lh d new true m.disk
  | crash {m m' : Image} {c : List Instr} {d' : Disk} {done : Bool} : Runs (exec start) (pending lh d new) [commit] m c →
    (done = true ↔ Committed start m.writes) → Reboots start m.disk d' → Runs (exec start) (boot d') (recoverFromLog start) m' [] →
    Attempt start lh d new done m'.disk

/-- The life of a disk, with the transactions that have been committed. -/
inductive History (start size : Nat) (d₀ : Disk) : List (List Nat × Disk) → Disk → Prop
  | new : History start size d₀ [] d₀
  | next {ts : List (List Nat × Disk)} {d d' new : Disk} {lh : List Nat} {done : Bool} : History start size d₀ ts d →
    Loggable start size lh → Attempt start lh d new done d' → History start size d₀ (if done then ts ++ [(lh, new)] else ts) d'

theorem Attempt.atomic {start size : Nat} {lh : List Nat} {d d' new : Disk} {done : Bool} (hn : headN (d start) = 0)
    (hl : Loggable start size lh) (h : Attempt start lh d new done d') :
    headN (d' start) = 0 ∧ ∀ k, ¬ InLog start size k → d' k = if done then after lh d new k else d k := by
  cases h with
  | complete hrun => exact ((commit_wp hl hn).runs hrun).post.2
  | @crash m m' c d' done hrun hdone hboots hrec =>
    have himage := crashImage_of_runs hl hn hrun
    have hfinal := fun T (hT : Recoverable start size T m.disk) => ((recover_wp (reboots_recoverable hT hboots)).runs hrec).post
    cases done with
    | true => exact hfinal _ (himage.1 (hdone.mp rfl))
    | false => exact hfinal _ (himage.2 fun hc => Bool.false_ne_true (hdone.mpr hc))

/-- Over any number of commits, crashes and reboots, the blocks outside the log are what the
committed transactions, one after the other, make of the first disk, and the log is empty. -/
theorem history_replays {start size : Nat} {d₀ d : Disk} {ts : List (List Nat × Disk)} (hn : headN (d₀ start) = 0)
    (h : History start size d₀ ts d) :
    headN (d start) = 0 ∧ ∀ k, ¬ InLog start size k → d k = ts.foldl (fun d t => after t.1 d t.2) d₀ k := by
  induction h with
  | new => exact ⟨hn, fun _ _ => rfl⟩
  | @next ts d d' new lh done _ hl hattempt ih =>
    obtain ⟨hhead, hd⟩ := hattempt.atomic ih.1 hl
    refine ⟨hhead, fun k hk => (hd k hk).trans ?_⟩
    cases done with
    | true =>
      rw [if_pos rfl, if_pos rfl, foldl_append]
      show (if k ∈ lh then new k else d k) = if k ∈ lh then new k else _
      rw [ih.2 k hk]
    | false => exact ih.2 k hk

/-- A transaction is committed, and the power fails while the next one is copied to the log. -/
theorem history_replays_cut : ∃ m m' : Image, ∃ c d, Runs (exec 2) (pending [50] m.disk fun _ _ => 9) [commit] m' c ∧ m'.writes ≠ [] ∧
    History 2 30 (fun _ _ => 0) [([50], fun _ _ => 7)] d ∧ d 50 = fun _ => 7 := by
  have hl : Loggable 2 30 [50] := ⟨by simp [InLog], by decide, by decide, by decide⟩
  obtain ⟨m, hm, -, hn, -⟩ : ∃ m, Runs (exec 2) (pending [50] (fun _ _ => 0) fun _ _ => 7) [commit] m [] ∧ _ :=
    (commit_wp hl (by decide)).halts
  have hcut : ∃ m' c, Runs (exec 2) (pending [50] m.disk fun _ _ => 9) [commit] m' c ∧ m'.writes ≠ [] ∧ ¬ Committed 2 m'.writes := by
    refine ⟨?m, ?c, ?run, ?wrote, ?cut⟩
    case run =>
      iterate 6 apply Runs.step
      exact .refl _ _
    case wrote => exact cons_ne_nil _ _
    case cut =>
      rintro ⟨w, hw, hstart, -⟩
      rw [mem_singleton.mp (show w ∈ [(3, _)] from hw)] at hstart
      cases hstart
  obtain ⟨m', c, hrun, hwrote, hcut⟩ := hcut
  obtain ⟨m'', hrec, -⟩ := (recover_wp ((crashImage_of_runs hl hn hrun).2 hcut)).halts
  have hattempt : Attempt 2 [50] m.disk (fun _ _ => 9) false m''.disk := .crash hrun
    (iff_of_false Bool.false_ne_true hcut) (.none _) hrec
  have h := (History.new.next hl (.complete hm)).next hl hattempt
  have hd := (history_replays (by decide) h).2 50 (by simp [InLog])
  exact ⟨m, m', c, _, hrun, hwrote, h, by simpa [after] using hd⟩

end Xv6.Log
