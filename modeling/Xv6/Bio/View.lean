import Xv6.Lib.Update
import Xv6.Log.Recovery

/-!
# What the log's code does to the cache, the disk and the pins

The process that commits sees the blocks through the cache, and `bunpin` in `install_trans` gives
back the pins that `log_write` took. `View` is `Log.Image` with the pinned blocks, and `View.exec`
is `Log.exec` with `bunpin`'s effect on them.

`commit_unpins` is about the pins alone: a commit of the logged blocks, pinned once each, unpins
each of them once, and nothing else. `commit_good` is about the contents: seen through the cache,
no block outside the log changes during a commit, and a block whose cached copy differs from the
disk is pinned or about to be written.
-/

namespace Xv6.Bio

open Log (Instr)
open Log.Instr Function List

structure View extends Log.Image where
  pins : List Nat

/-- The pins after an instruction. -/
def unpin (pins : List Nat) : Instr → List Nat
  | .bunpin b => pins.erase b
  | _ => pins

namespace View

def exec (start : Nat) (i : Instr) (v : View) : View × List Instr :=
  ({ toImage := (Log.exec start i v.toImage).1, pins := unpin v.pins i }, (Log.exec start i v.toImage).2)

theorem exec_writeLog {start t : Nat} {v : View} {lh : List Nat} (hlh : v.lh = lh) (ht : t < lh.length) :
    exec start (writeLog t) v = (v, Log.writeLogBody (start + t + 1) (lh.getD t 0) ++ [writeLog (t + 1)]) := by
  subst hlh
  show (v, Log.writeLogFrom start v.lh t) = _
  rw [Log.writeLogFrom, if_pos ht]

theorem exec_writeLog_done {start : Nat} {v : View} {lh : List Nat} (hlh : v.lh = lh) :
    exec start (writeLog lh.length) v = (v, []) := by
  subst hlh
  show (v, Log.writeLogFrom start v.lh v.lh.length) = _
  rw [Log.writeLogFrom, if_neg (lt_irrefl _)]

theorem exec_installTrans {start t : Nat} {v : View} {lh : List Nat} (hlh : v.lh = lh) (ht : t < lh.length) :
    exec start (installTrans t) v =
      (v, Log.installBody (start + t + 1) (lh.getD t 0) ++ [installTrans (t + 1)]) := by
  subst hlh
  show (v, Log.installTransFrom start v.lh t) = _
  rw [Log.installTransFrom, if_pos ht]

theorem exec_installTrans_done {start : Nat} {v : View} {lh : List Nat} (hlh : v.lh = lh) :
    exec start (installTrans lh.length) v = (v, []) := by
  subst hlh
  show (v, Log.installTransFrom start v.lh v.lh.length) = _
  rw [Log.installTransFrom, if_neg (lt_irrefl _)]

/-- `commit` of a log that is not empty. -/
theorem exec_commit {start : Nat} {v : View} (h : 0 < v.lh.length) : exec start commit v =
    (v, [writeLog 0] ++ Log.writeHead start ++ [installTrans 0, zeroHead] ++ Log.writeHead start) := by
  show (v, Log.commitFrom start v.lh) = _
  rw [Log.commitFrom, if_pos h]

theorem exec_commit_nil {start : Nat} {v : View} (h : v.lh = []) : exec start commit v = (v, []) := by
  show (v, Log.commitFrom start v.lh) = _
  rw [h]
  rfl

/-! ## Each pin is given back once -/

end View

open View

/-- What the counts need of the next instruction of a commit. -/
def Unpins : Instr → View → Prop
  | .bunpin b, v => b ∈ v.pins
  | .zeroHead, v => v.pins = []
  | .loadHead _, _ => False
  | _, _ => True

theorem commit_unpins {start : Nat} {v : View} (hpins : v.pins = v.lh) :
    Wp (exec start) Unpins (fun v => v.lh = [] ∧ v.pins = []) [commit] v := by
  obtain ⟨lh, hlh⟩ : ∃ lh, v.lh = lh := ⟨_, rfl⟩
  rw [hlh] at hpins
  by_cases hempty : lh = []
  · subst hempty
    exact .cons_of (exec_commit_nil hlh) trivial (.nil ⟨hlh, hpins⟩)
  · refine .cons_of (exec_commit (by rw [hlh]; exact length_pos_iff.mpr hempty)) trivial ?_
    refine Wp.loop writeLog (fun t => Log.writeLogBody (start + t + 1) (lh.getD t 0)) (fun _ v => v.lh = lh ∧ v.pins = lh)
      (fun t v ht h => exec_writeLog h.1 ht) (fun v h => exec_writeLog_done h.1) (fun _ _ _ => trivial)
      (fun t v _ h => ?_) (fun v h => ?_) lh.length 0 v (zero_add _) ⟨hlh, hpins⟩
    · exact .cons trivial (.cons trivial (.cons trivial (.cons trivial (.cons trivial (.cons trivial (.nil h))))))
    · refine .cons trivial (.cons trivial (.cons trivial (.cons trivial ?_)))
      -- turn `t` has given back the pins of the first `t` blocks
      refine Wp.loop installTrans (fun t => Log.installBody (start + t + 1) (lh.getD t 0))
        (fun t v => v.lh = lh ∧ v.pins = lh.drop t)
        (fun t v ht h => exec_installTrans h.1 ht) (fun v h => exec_installTrans_done h.1)
        (fun _ _ _ => trivial) (fun t v ht h => ?_) (fun v h => ?_) lh.length 0 _ (zero_add _) ⟨h.1, h.2⟩
      · have hdrop : v.pins = lh.getD t 0 :: lh.drop (t + 1) := by
          rw [h.2, drop_eq_getElem_cons ht, getD_eq_getElem _ _ ht]
        refine .cons trivial (.cons trivial (.cons trivial (.cons trivial (.cons ?_ (.cons trivial (.cons trivial (.nil ?_)))))))
        · show lh.getD t 0 ∈ v.pins
          rw [hdrop]
          exact mem_cons_self
        · refine ⟨h.1, ?_⟩
          show v.pins.erase (lh.getD t 0) = _
          rw [hdrop, erase_cons_head]
      · have hnone : v.pins = [] := by rw [h.2, drop_length]
        exact .cons hnone (.cons trivial (.cons trivial (.cons trivial (.cons trivial (.nil ⟨rfl, hnone⟩)))))

/-! ## The contents stay -/

/-- Seen through the cache, the blocks outside the log are `T`, and every block is on the disk, or
pinned, or the one about to be written. -/
structure Good (start : Nat) (T : Disk) (pending : Option Nat) (cache disk : Disk) (pins : List Nat) : Prop where
  home : ∀ k, ¬ Log.InLog start LOGSIZE k → cache k = T k
  clean : ∀ k, k ∈ pins ∨ pending = some k ∨ disk k = cache k
  away : ∀ b ∈ pins, ¬ Log.InLog start LOGSIZE b

namespace Good

variable {start : Nat} {T cache disk : Disk} {pins : List Nat} {b : Nat}

/-- A buffer is overwritten: a log block, or a block with its own content. -/
theorem store (h : Good start T none cache disk pins) {data : Block}
    (hb : ¬ Log.InLog start LOGSIZE b → data = T b) : Good start T (some b) (update cache b data) disk pins := by
  refine ⟨forall_update (C := fun k x => ¬ Log.InLog start LOGSIZE k → x = T k) hb fun k _ => h.home k, fun k => ?_, h.away⟩
  by_cases hk : k = b
  · exact .inr (.inl (congrArg some hk.symm))
  · rw [update_of_ne hk]
    exact (h.clean k).imp_right fun e => .inr (e.resolve_left nofun)

/-- The buffer is written to the disk. -/
theorem flush (h : Good start T (some b) cache disk pins) :
    Good start T none cache (update disk b (cache b)) pins := by
  refine ⟨h.home, fun k => ?_, h.away⟩
  by_cases hk : k = b
  · rw [hk, update_self]
    exact .inr (.inr rfl)
  · rw [update_of_ne hk]
    exact (h.clean k).imp_right fun e => .inr (e.resolve_left fun e => hk (Option.some.inj e).symm)

theorem erase (h : Good start T none cache disk pins) (hb : disk b = cache b) :
    Good start T none cache disk (pins.erase b) := by
  refine ⟨h.home, fun k => ?_, fun k hk => h.away k (mem_of_mem_erase hk)⟩
  by_cases hk : k = b
  · rw [hk]
    exact .inr (.inr hb)
  · rw [mem_erase_of_ne hk]
    exact h.clean k

end Good

/-- The block that an instruction writes to the disk. -/
def pendingOf : Instr → Option Nat
  | .bwrite b => some b
  | _ => none

/-- What the contents need of the next instruction: a block is unpinned with its content on the
disk. -/
def Keeps (start : Nat) (T : Disk) (i : Instr) (v : View) : Prop :=
  Good start T (pendingOf i) v.cache v.disk v.pins ∧ ∀ b, i = .bunpin b → v.disk b = v.cache b

theorem Good.keeps {start : Nat} {T : Disk} {v : View} (h : Good start T none v.cache v.disk v.pins) {i : Instr}
    (hi : pendingOf i = none) (hb : ∀ b, i ≠ .bunpin b) : Keeps start T i v :=
  ⟨by rw [hi]; exact h, fun b e => absurd e (hb b)⟩

section

variable {start : Nat} {T : Disk} {lh : List Nat} {c : List Instr} {Q : View → Prop}

theorem inLog_start : Log.InLog start LOGSIZE start := ⟨le_rfl, by simp [LOGSIZE, MAXOPBLOCKS]⟩

theorem inLog_block {t : Nat} (ht : t + 1 < LOGSIZE) : Log.InLog start LOGSIZE (start + t + 1) := by
  constructor <;> omega

/-- `write_head`, in any view whose blocks are as they should be. -/
theorem writeHead_keeps {v : View} (h : Good start T none v.cache v.disk v.pins)
    (hQ : ∀ v' : View, v'.lh = v.lh → v'.pins = v.pins → Good start T none v'.cache v'.disk v'.pins →
      (∀ k, k ≠ start → v'.cache k = v.cache k) → Wp (exec start) (Keeps start T) Q c v') :
    Wp (exec start) (Keeps start T) Q (Log.writeHead start ++ c) v := by
  have hstore : Good start T (some start) (update v.cache start (Log.putHead v.lh (v.cache start))) v.disk v.pins :=
    h.store fun hn => absurd inLog_start hn
  refine .cons (h.keeps rfl nofun) (.cons (h.keeps rfl nofun) (.cons ⟨hstore, nofun⟩ ?_))
  exact .cons (Good.keeps hstore.flush rfl nofun)
    (hQ _ rfl rfl hstore.flush fun k hk => update_of_ne hk _ _)

/-- The first `t` blocks of the log hold what is to be installed. -/
def Logged (start : Nat) (T : Disk) (lh : List Nat) (t : Nat) (cache : Disk) : Prop :=
  ∀ j, j < t → cache (start + j + 1) = T (lh.getD j 0)

/-- A commit of blocks outside the log, if the log has room for them. -/
theorem commit_good {v : View} (hlh : v.lh = lh) (hroom : lh.length < LOGSIZE)
    (hmem : ∀ b ∈ lh, b ∈ v.pins) (h : Good start T none v.cache v.disk v.pins) :
    Wp (exec start) (Keeps start T) (fun v => Good start T none v.cache v.disk v.pins) [commit] v := by
  have hget : ∀ t, t < lh.length → lh.getD t 0 ∈ lh := fun t ht => by
    rw [getD_eq_getElem _ _ ht]
    exact getElem_mem ht
  have haway : ∀ t, t < lh.length → ¬ Log.InLog start LOGSIZE (lh.getD t 0) := fun t ht =>
    h.away _ (hmem _ (hget t ht))
  by_cases hempty : lh = []
  · subst hempty
    exact .cons_of (exec_commit_nil hlh) (h.keeps rfl nofun) (.nil h)
  refine .cons_of (exec_commit (by rw [hlh]; exact length_pos_iff.mpr hempty)) (h.keeps rfl nofun) ?_
  refine Wp.loop writeLog (fun t => Log.writeLogBody (start + t + 1) (lh.getD t 0))
    (fun t v => v.lh = lh ∧ (∀ b ∈ lh, b ∈ v.pins) ∧ Good start T none v.cache v.disk v.pins ∧ Logged start T lh t v.cache)
    (fun t v ht h => exec_writeLog h.1 ht) (fun v h => exec_writeLog_done h.1)
    (fun _ _ h => h.2.2.1.keeps rfl nofun) ?_ ?_ lh.length 0 v (zero_add _)
    ⟨hlh, hmem, h, fun _ hj => absurd hj (Nat.not_lt_zero _)⟩
  · -- one turn of `write_log`: the block's content goes to its place in the log
    rintro t v ht ⟨hlh, hpins, h, hlogged⟩
    have hin : Log.InLog start LOGSIZE (start + t + 1) := inLog_block (by omega)
    have hstore : Good start T (some (start + t + 1))
        (update v.cache (start + t + 1) (v.cache (lh.getD t 0))) v.disk v.pins := h.store fun hn => absurd hin hn
    refine .cons (h.keeps rfl nofun) (.cons (h.keeps rfl nofun) (.cons (h.keeps rfl nofun) (.cons ⟨hstore, nofun⟩ ?_)))
    refine .cons (Good.keeps hstore.flush rfl nofun) (.cons (Good.keeps hstore.flush rfl nofun)
      (.nil ⟨hlh, hpins, hstore.flush, fun j hj => ?_⟩))
    show update v.cache (start + t + 1) (v.cache (lh.getD t 0)) (start + j + 1) = _
    by_cases hjt : j = t
    · rw [hjt, update_self]
      exact h.home _ (haway t ht)
    · rw [update_of_ne (by omega)]
      exact hlogged j (by omega)
  rintro v ⟨hlh, hpins, h, hlogged⟩
  refine writeHead_keeps h fun v' hlh' hpins' h' hsame => ?_
  refine Wp.loop installTrans (fun t => Log.installBody (start + t + 1) (lh.getD t 0))
    (fun _ v => v.lh = lh ∧ Good start T none v.cache v.disk v.pins ∧ Logged start T lh lh.length v.cache)
    (fun t v ht h => exec_installTrans h.1 ht) (fun v h => exec_installTrans_done h.1)
    (fun _ _ h => h.2.1.keeps rfl nofun) ?_ ?_ lh.length 0 v' (zero_add _)
    ⟨hlh'.trans hlh, h', fun j hj => (hsame _ (by omega)).trans (hlogged j hj)⟩
  · -- one turn of `install_trans`: the home block is given the content it has already
    rintro t v ht ⟨hlh, h, hlogged⟩
    have hstore : Good start T (some (lh.getD t 0))
        (update v.cache (lh.getD t 0) (v.cache (start + t + 1))) v.disk v.pins := h.store fun _ => hlogged t ht
    have hflush := hstore.flush
    have herase := hflush.erase (b := lh.getD t 0) (update_self ..)
    refine .cons (h.keeps rfl nofun) (.cons (h.keeps rfl nofun) (.cons (h.keeps rfl nofun) (.cons ⟨hstore, nofun⟩ ?_)))
    refine .cons ⟨hflush, fun b e => ?_⟩ (.cons (Good.keeps herase rfl nofun) (.cons (Good.keeps herase rfl nofun)
      (.nil ⟨hlh, herase, fun j hj => ?_⟩)))
    · cases e
      exact update_self ..
    · have hne : start + j + 1 ≠ lh.getD t 0 := fun e => haway t ht (by rw [← e]; exact inLog_block (by omega))
      show update v.cache (lh.getD t 0) _ (start + j + 1) = _
      rw [update_of_ne hne]
      exact hlogged j hj
  · rintro v ⟨hlh, h, hlogged⟩
    refine .cons (h.keeps rfl nofun) ?_
    have := writeHead_keeps (c := []) (Q := fun v => Good start T none v.cache v.disk v.pins)
      (v := (exec start zeroHead v).1) h fun v' _ _ h' _ => .nil h'
    rwa [append_nil] at this

/-- The boot, when the header lists no block. -/
theorem boot_good {v : View} (hhead : Log.headN (v.cache start) ≤ 0) (h : Good start T none v.cache v.disk v.pins) :
    Wp (exec start) (Keeps start T) (fun v => Good start T none v.cache v.disk v.pins)
      ([bread 1, brelse 1] ++ Log.recoverFromLog start) v := by
  refine .cons (h.keeps rfl nofun) (.cons (h.keeps rfl nofun) (.cons (h.keeps rfl nofun) (.cons (h.keeps rfl nofun) ?_)))
  refine .cons (Good.keeps h rfl nofun) ?_
  have hnil : (exec start (loadHead start) v).1.lh = [] := Log.headOf_eq_nil hhead
  refine .cons_of (exec_installTrans_done hnil) (Good.keeps h rfl nofun) (.cons (Good.keeps h rfl nofun) ?_)
  have := writeHead_keeps (c := []) (Q := fun v => Good start T none v.cache v.disk v.pins)
    (v := (exec start zeroHead (exec start (loadHead start) v).1).1) h fun v' _ _ h' _ => .nil h'
  rwa [append_nil] at this

/-! ## Other processes meanwhile -/

/-- Other processes have written blocks of the array home. -/
structure Interfered (start : Nat) (T : Disk) (v w : View) : Prop where
  lh : w.lh = v.lh
  cache : w.cache = v.cache
  pins : w.pins = v.pins
  disk : ∀ k, w.disk k = v.disk k ∨ ¬ Log.InLog start LOGSIZE k ∧ w.disk k = T k

namespace Interfered

variable {v w : View}

theorem good {pending : Option Nat} (h : Interfered start T v w) (hv : Good start T pending v.cache v.disk v.pins) :
    Good start T pending w.cache w.disk w.pins := by
  rw [h.cache, h.pins]
  refine ⟨hv.home, fun k => ?_, hv.away⟩
  rcases h.disk k with e | ⟨hk, e⟩
  · rw [e]
    exact hv.clean k
  · exact .inr (.inr (e.trans (hv.home k hk).symm))

theorem keeps (h : Interfered start T v w) {i : Instr} (hv : Keeps start T i v) : Keeps start T i w := by
  refine ⟨h.good hv.1, fun b hb => ?_⟩
  rw [h.cache]
  rcases h.disk b with e | ⟨hk, e⟩
  · exact e.trans (hv.2 b hb)
  · exact e.trans (hv.1.home b hk).symm

theorem exec (h : Interfered start T v w) (i : Instr) :
    Interfered start T (exec start i v).1 (exec start i w).1 ∧
      (exec start i w).2 = (exec start i v).2 := by
  obtain ⟨hlh, hcache, hpins, hdisk⟩ := h
  cases i with
  | bwrite b =>
    refine ⟨⟨hlh, hcache, hpins, ?_⟩, rfl⟩
    show ∀ k, update w.disk b (w.cache b) k = update v.disk b (v.cache b) k ∨ _
    intro k
    by_cases hk : k = b
    · rw [hk, hcache, update_self, update_self]
      exact .inl rfl
    · simp only [View.exec, Log.exec, update_of_ne hk]
      exact hdisk k
  | bunpin b => exact ⟨⟨hlh, hcache, congrArg (·.erase b) hpins, hdisk⟩, rfl⟩
  | memmove dst src =>
    refine ⟨⟨hlh, ?_, hpins, hdisk⟩, rfl⟩
    show update w.cache dst (w.cache src) = update v.cache dst (v.cache src)
    rw [hcache]
  | loadHead b =>
    refine ⟨⟨?_, hcache, hpins, hdisk⟩, rfl⟩
    show Log.headOf (w.cache b) = Log.headOf (v.cache b)
    rw [hcache]
  | storeHead b =>
    refine ⟨⟨hlh, ?_, hpins, hdisk⟩, rfl⟩
    show update w.cache b (Log.putHead w.lh (w.cache b)) = update v.cache b (Log.putHead v.lh (v.cache b))
    rw [hcache, hlh]
  | zeroHead => exact ⟨⟨rfl, hcache, hpins, hdisk⟩, rfl⟩
  | writeLog t => exact ⟨⟨hlh, hcache, hpins, hdisk⟩, congrArg (Log.writeLogFrom start · t) hlh⟩
  | installTrans t => exact ⟨⟨hlh, hcache, hpins, hdisk⟩, congrArg (Log.installTransFrom start · t) hlh⟩
  | commit => exact ⟨⟨hlh, hcache, hpins, hdisk⟩, congrArg (Log.commitFrom start) hlh⟩
  | bread b => exact ⟨⟨hlh, hcache, hpins, hdisk⟩, rfl⟩
  | brelse b => exact ⟨⟨hlh, hcache, hpins, hdisk⟩, rfl⟩

end Interfered

/-- The block whose cached copy an instruction overwrites. -/
def storesTo : Instr → Option Nat
  | .memmove dst _ => some dst
  | .storeHead b => some b
  | _ => none

/-- After an instruction, only the block that it overwrote may differ from the disk without a pin.
-/
theorem Keeps.clean_next {i : Instr} {v : View} (h : Keeps start T i v) (k : Nat) :
    k ∈ (exec start i v).1.pins ∨ storesTo i = some k ∨
      (exec start i v).1.disk k = (exec start i v).1.cache k := by
  have hclean := h.1.clean k
  cases i with
  | bwrite b =>
    by_cases hk : k = b
    · refine .inr (.inr ?_)
      show update v.disk b (v.cache b) k = v.cache k
      rw [hk, update_self]
    · refine hclean.imp_right fun e => .inr ?_
      show update v.disk b (v.cache b) k = v.cache k
      rw [update_of_ne hk]
      exact e.resolve_left fun e => hk (Option.some.inj e).symm
  | bunpin b =>
    by_cases hk : k = b
    · rw [hk]
      exact .inr (.inr (h.2 b rfl))
    · refine hclean.imp (fun hm => (mem_erase_of_ne hk).mpr hm) fun e => .inr (e.resolve_left nofun)
  | memmove dst src =>
    by_cases hk : k = dst
    · exact .inr (.inl (congrArg some hk.symm))
    · refine hclean.imp_right fun e => .inr ?_
      show v.disk k = update v.cache dst (v.cache src) k
      rw [update_of_ne hk]
      exact e.resolve_left nofun
  | storeHead b =>
    by_cases hk : k = b
    · exact .inr (.inl (congrArg some hk.symm))
    · refine hclean.imp_right fun e => .inr ?_
      show v.disk k = update v.cache b _ k
      rw [update_of_ne hk]
      exact e.resolve_left nofun
  | _ => exact hclean.imp_right fun e => .inr (e.resolve_left nofun)

end

end Xv6.Bio
