import Mathlib.Data.List.Forall2
import Mathlib.Data.List.GetD
import Xv6.Lib.Lines
import Xv6.Lib.Turns
import Xv6.Param
import Xv6.User.Str

/-!
# `xargs` (user/xargs.c)

`xargs` reads a line into `buff`, lets `cargv` point to its words and executes the command. Both are
used again for the next line. `fork` succeeds, and the child's call of `exec` is recorded with the
strings to which `cargv` points then.

The loop that cuts the line looks at `buff[i]`, where `i` is left over from the loop before and is
`argc`, not the place it is at. So a line is passed on whole, or, if `buff[i]` is a blank, up to
there and once more without its first byte. `xargs_iff` says for which inputs this is right: lines
that are one word, and by chance lines such as `aa a`.
-/

namespace Xv6.Xargs

open Lines Function
open List hiding tail

def newline : Byte := ascii '\n'

def blank : Byte := ascii ' '

/-- The size of `buff`. -/
def BUFFSZ : Nat := 1024

/-! ## The code -/

/-- An element of `cargv`: an argument of `xargs`, or a place in `buff`. -/
inductive Ptr
  | null
  | arg (s : List Byte)
  | line (k : Nat)

/-- `readline`, with `room` bytes of `buff` left. `read` returns 0 at the end of the input. -/
def readline : Nat → Nat → (Nat → Byte) → List Byte → Int × (Nat → Byte) × List Byte
  | 0, _, buff, input => (-2, buff, input)
  | _ + 1, _, buff, [] => (0, buff, [])
  | room + 1, bx, buff, b :: input =>
    let buff := update buff bx b
    if buff bx = newline then (bx, update buff bx 0, input) else readline room (bx + 1) buff input

/-- The loop over a line, with `left` bytes of it to come; `none` if it writes past the end of
`cargv`. -/
def argLoop (i cargc : Nat) : Nat → Nat → Bool → (Nat → Ptr) → (Nat → Byte) → Option ((Nat → Ptr) × (Nat → Byte))
  | 0, _, _, cargv, buff => some (cargv, buff)
  | left + 1, eargc, flag, cargv, buff =>
    if flag = false ∧ MAXARG ≤ cargc + eargc then none
    else
      let cargv := if flag = false then update cargv (cargc + eargc) (.line eargc) else cargv
      if buff i = blank then argLoop i cargc left (eargc + 1) false cargv (update buff i 0)
      else argLoop i cargc left (eargc + 1) true cargv buff

/-- The string at `buff[k]`, if it ends in `buff`. -/
def strAt (buff : Nat → Byte) (k : Nat) : Option (List Byte) :=
  let s := (range (BUFFSZ - k)).map fun j => buff (k + j)
  if s.contains 0 then some (s.takeWhile (· != 0)) else none

/-- The arguments from the `j`th one up to the null pointer. -/
def argvFrom (cargv : Nat → Ptr) (buff : Nat → Byte) : Nat → Nat → Option (List (List Byte))
  | 0, _ => none
  | n + 1, j =>
    match cargv j with
    | .null => some []
    | .arg s => (argvFrom cargv buff n (j + 1)).map (s :: ·)
    | .line k => (strAt buff k).bind fun s => (argvFrom cargv buff n (j + 1)).map (s :: ·)

/-- The loop of `main`: what has been executed, and the exit status. -/
def mainLoop (i cargc : Nat) : Nat → (Nat → Ptr) → (Nat → Byte) → List Byte → List (List (List Byte)) →
    Option (List (List (List Byte)) × Nat)
  | 0, _, _, _, _ => none
  | fuel + 1, cargv, buff, input, log =>
    match readline BUFFSZ 0 buff input with
    | (ret, buff, input) =>
      if ret ≤ 0 then some (log, 2)
      else
        match argLoop i cargc ret.toNat 0 false cargv buff with
        | none => none
        | some (cargv, buff) =>
          match argvFrom cargv buff MAXARG 0 with
          | none => none
          | some argv => mainLoop i cargc fuel cargv buff input (log ++ [argv])

/-- `main` with the command and its arguments, which are `argv` without the name of the program.
What `buff` holds at the start is left over on the stack. -/
def xargs (cmd : List (List Byte)) (buff : Nat → Byte) (fuel : Nat) (input : List Byte) : Option (List (List (List Byte)) × Nat) :=
  let argc := cmd.length + 1
  let cargv := fun j => match cmd[j]? with
    | some s => Ptr.arg s
    | none => .null
  if argc < 2 then some ([], 1) else mainLoop argc cmd.length fuel cargv buff input []

/-! ## What is to be executed -/

/-- The words of a line. -/
def words (l : List Byte) : List (List Byte) := (lines blank (l ++ [blank])).filter (· ≠ [])

/-- One command for each line. -/
def commands (cmd : List (List Byte)) (input : List Byte) : List (List (List Byte)) :=
  (lines newline input).map fun l => cmd ++ words l

variable {l : List Byte} {buff : Nat → Byte} {cargc i : Nat} {cmd : List (List Byte)}

theorem words_of_word (hne : l ≠ []) (h : blank ∉ l) : words l = [l] := by
  unfold words lines
  rw [split_line h]
  show filter _ [l] = [l]
  rw [filter_cons_of_pos (by simpa using hne)]
  rfl

theorem mem_words {w : List Byte} (h : w ∈ words l) : w ≠ [] ∧ blank ∉ w := by
  obtain ⟨hw, hne⟩ := mem_filter.mp h
  exact ⟨of_decide_eq_true hne, notMem_of_mem_lines hw⟩

theorem exists_word {b : Byte} (h : b ∈ l) (hb : b ≠ blank) : ∃ w ∈ words l, b ∈ w := by
  have htail : tail blank (l ++ [blank]) = [] := by
    unfold tail
    rw [split_append]
    exact congrArg Prod.snd (split_line (tail_notMem blank l) [])
  rcases mem_lines_or_tail (mem_append_left [blank] h) hb with ⟨w, hw, hbw⟩ | hbt
  · exact ⟨w, mem_filter.mpr ⟨hw, decide_eq_true (ne_nil_of_mem hbw)⟩, hbw⟩
  · rw [htail] at hbt
    cases hbt

/-! ## A line is read -/

theorem readline_eq (hl : newline ∉ l) (input : List Byte) {room : Nat} (hroom : l.length < room)
    (bx : Nat) (buff : Nat → Byte) :
    ∃ buff', readline room bx buff (l ++ newline :: input) = (((bx + l.length : Nat) : Int), buff', input) ∧
      (∀ j (hj : j < l.length), buff' (bx + j) = l[j]) ∧ buff' (bx + l.length) = 0 ∧
      ∀ j, j < bx ∨ bx + l.length < j → buff' j = buff j := by
  induction l generalizing room bx buff with
  | nil =>
    obtain ⟨room, rfl⟩ := Nat.exists_eq_succ_of_ne_zero (by omega : room ≠ 0)
    refine ⟨update (update buff bx newline) bx 0, ?_, ?_, update_self .., ?_⟩
    · rw [nil_append, readline]
      simp only [update_self, if_true]
      rfl
    · exact fun j hj => absurd hj (Nat.not_lt_zero j)
    · intro j hj
      have hne : j ≠ bx := by
        rw [length_nil] at hj
        omega
      rw [update_of_ne hne, update_of_ne hne]
  | cons b l ih =>
    obtain ⟨room, rfl⟩ := Nat.exists_eq_succ_of_ne_zero (by omega : room ≠ 0)
    have hb : b ≠ newline := fun e => hl (e ▸ mem_cons_self ..)
    rw [length_cons] at hroom
    obtain ⟨buff', hread, hline, hnul, hrest⟩ :=
      ih (fun h => hl (mem_cons_of_mem _ h)) (by omega : l.length < room) (bx + 1) (update buff bx b)
    refine ⟨buff', ?_, ?_, ?_, ?_⟩
    · rw [cons_append, readline]
      simp only [update_self, if_neg hb]
      rw [hread, length_cons, Nat.add_right_comm, Nat.add_assoc]
    · intro j hj
      cases j with
      | zero =>
        rw [Nat.add_zero, hrest bx (Or.inl (Nat.lt_succ_self bx)), update_self]
        rfl
      | succ j =>
        have heq := hline j (Nat.lt_of_succ_lt_succ hj)
        rw [Nat.add_right_comm, Nat.add_assoc] at heq
        exact heq
    · rw [length_cons, ← hnul, Nat.add_right_comm, Nat.add_assoc]
    · intro j hj
      rw [length_cons] at hj
      rw [hrest j (by omega), update_of_ne (by omega)]

/-- The string that is in front of the first NUL. -/
def cstr (s : List Byte) : List Byte := s.takeWhile (· != 0)

theorem cstr_of_notMem {s : List Byte} (h : 0 ∉ s) : cstr s = s := by
  refine takeWhile_eq_self_iff.mpr fun b hb => ?_
  simpa using fun e : b = 0 => h (e ▸ hb)

theorem notMem_cstr (s : List Byte) : 0 ∉ cstr s := fun h => absurd (mem_takeWhile_imp h) (by decide)

theorem strAt_eq (hline : ∀ j (hj : j < l.length), buff j = l[j]) (hnul : buff l.length = 0)
    (hlen : l.length < BUFFSZ) {k : Nat} (hk : k ≤ l.length) :
    strAt buff k = some (cstr (l.drop k)) := by
  have hlength := length_drop (i := k) (l := l)
  have hmap := map_range_string (f := fun j => buff (k + j)) (l := l.drop k) (n := BUFFSZ - k)
    (fun j hj => by rw [getElem_drop, hline _ (by omega)]) (by rw [hlength, Nat.add_sub_cancel' hk, hnul]) (by omega)
  unfold strAt cstr
  simp only [hmap]
  rw [if_pos (by simp), takeWhile_append]
  split
  next h => rw [takeWhile_cons_of_neg (by simp), append_nil, List.IsPrefix.eq_of_length ( takeWhile_prefix _) h]
  next => rfl

/-! ## A line is cut -/

/-- `buff[i]` is a blank once the line is in `buff`: one of the line, or one that has been there. -/
def Cut (i : Nat) (buff : Nat → Byte) (l : List Byte) : Prop := l[i]? = some blank ∨ l.length < i ∧ buff i = blank

instance (i : Nat) (buff : Nat → Byte) (l : List Byte) : Decidable (Cut i buff l) := inferInstanceAs (Decidable (_ ∨ _))

theorem cut_iff {buff' : Nat → Byte} (hline : ∀ j (hj : j < l.length), buff' j = l[j])
    (hnul : buff' l.length = 0) (hrest : ∀ j, l.length < j → buff' j = buff j) :
    buff' i = blank ↔ Cut i buff l := by
  unfold Cut
  rcases Nat.lt_trichotomy i l.length with h | rfl | h
  · simp [hline i h, getElem?_eq_getElem h, Nat.lt_asymm h]
  · simpa [hnul] using (by decide : (0 : Byte) ≠ blank)
  · simp [hrest i h, getElem?_eq_none (Nat.le_of_lt h), h]

/-- What is left of the line. -/
def piece (i : Nat) (buff : Nat → Byte) (l : List Byte) : List Byte := if Cut i buff l then l.take i else l

/-- The line has a second argument, as a line before it had. -/
def more (i : Nat) (buff : Nat → Byte) (second : Bool) (l : List Byte) : Bool := second ||
    (decide (Cut i buff l) && decide (2 ≤ l.length))

/-- The arguments of which the line is made. -/
def arguments (i : Nat) (buff : Nat → Byte) (second : Bool) (l : List Byte) : List (List Byte) :=
  cstr (piece i buff l) :: if more i buff second l then [cstr ((piece i buff l).drop 1)] else []

theorem piece_at {buff' : Nat → Byte} (i : Nat) (buff : Nat → Byte) (hline : ∀ j (hj : j < l.length), buff' j = l[j])
    (hnul : buff' l.length = 0) :
    let after := if Cut i buff l then update buff' i 0 else buff'
    (∀ j (hj : j < (piece i buff l).length), after j = (piece i buff l)[j]) ∧ after (piece i buff l).length = 0 := by
  unfold piece
  by_cases hcut : Cut i buff l
  · simp only [if_pos hcut]
    have hlength := length_take (i := i) (l := l)
    refine ⟨fun j hj => ?_, ?_⟩
    · rw [update_of_ne (by omega), getElem_take, hline j (by omega)]
    · rcases Nat.lt_or_ge i l.length with h | h
      · rw [hlength, Nat.min_eq_left (Nat.le_of_lt h), update_self]
      · have hne : l.length ≠ i := by
          rcases hcut with h' | h'
          · rw [getElem?_eq_none h] at h'
            cases h'
          · exact Nat.ne_of_lt h'.1
        rw [hlength, Nat.min_eq_right h, update_of_ne hne, hnul]
  · simp only [if_neg hcut]
    exact ⟨hline, hnul⟩

variable {cargv : Nat → Ptr}

/-- A loop that finds no blank at `buff[i]` and has a word does nothing. -/
theorem argLoop_word (hi : buff i ≠ blank) (left eargc : Nat) :
    argLoop i cargc left eargc true cargv buff = some (cargv, buff) := by
  induction left generalizing eargc with
  | zero => rfl
  | succ left ih =>
    rw [argLoop, if_neg (fun h => Bool.noConfusion h.1)]
    simp only [if_neg hi]
    exact ih (eargc + 1)

/-- The first argument is the line, and the second one, if there is a blank at `buff[i]`, the line
without its first byte. -/
theorem argLoop_eq {left : Nat} (i : Nat) (cargv : Nat → Ptr) (buff : Nat → Byte) (hc : cargc < MAXARG) (hleft : 0 < left) :
    argLoop i cargc left 0 false cargv buff =
      if buff i = blank ∧ 2 ≤ left then
        if cargc + 1 < MAXARG then
          some (update (update cargv cargc (.line 0)) (cargc + 1) (.line 1), update buff i 0)
        else none
      else some (update cargv cargc (.line 0), if buff i = blank then update buff i 0 else buff) := by
  obtain ⟨left, rfl⟩ := Nat.exists_eq_succ_of_ne_zero (Nat.pos_iff_ne_zero.mp hleft)
  rw [argLoop, if_neg (fun h => absurd h.2 (by omega))]
  by_cases hi : buff i = blank
  · simp only [hi, if_true, true_and]
    cases left with
    | zero => rfl
    | succ left =>
      rw [if_pos (by omega), argLoop]
      by_cases hc1 : cargc + 1 < MAXARG
      · have hi' : (update buff i 0) i ≠ blank := by
          rw [update_self]
          decide
        rw [if_neg (fun h => absurd h.2 (by omega)), if_pos hc1]
        simp only [if_neg hi', if_true]
        exact argLoop_word hi' left _
      · rw [if_pos ⟨rfl, by omega⟩, if_neg hc1]
  · simp only [hi, if_true, false_and, if_false]
    exact argLoop_word hi left 1

/-! ## The command is executed -/

/-- What an element of `cargv` points to. -/
def Ptr.Holds (buff : Nat → Byte) : Ptr → List Byte → Prop
  | .null, _ => False
  | .arg s, t => s = t
  | .line k, t => strAt buff k = some t

theorem argvFrom_eq {ps : List Ptr} {ss : List (List Byte)}
    (h : List.Forall₂ (Ptr.Holds buff) ps ss) {j : Nat}
    (hptr : ∀ k (hk : k < ps.length), cargv (j + k) = ps[k])
    (hnull : cargv (j + ps.length) = .null) (n : Nat) :
    argvFrom cargv buff n j = if ps.length < n then some ss else none := by
  induction h generalizing n j with
  | nil =>
    cases n with
    | zero => rfl
    | succ n =>
      rw [argvFrom, show cargv j = .null from hnull]
      exact (if_pos (Nat.succ_pos n)).symm
  | @cons p s ps ss hp _ ih =>
    cases n with
    | zero => rfl
    | succ n =>
      have htail := ih (j := j + 1) (fun k hk => by
        rw [Nat.add_right_comm, Nat.add_assoc, hptr (k + 1) (Nat.succ_lt_succ hk)]
        rfl) (by rw [Nat.add_right_comm, Nat.add_assoc]; exact hnull) n
      rw [argvFrom, show cargv j = p from hptr 0 (Nat.succ_pos _), length_cons]
      simp only [htail, Nat.add_lt_add_iff_right]
      cases p with
      | null => exact hp.elim
      | arg s' =>
        obtain rfl : s' = s := hp
        by_cases hn : ps.length < n <;> simp only [hn, if_true, if_false, Option.map_some, Option.map_none]
      | line k =>
        have hs : strAt buff k = some s := hp
        by_cases hn : ps.length < n <;> simp only [hn, hs, if_true, if_false, Option.bind_some, Option.map_some, Option.map_none]

/-- `cargv` with the command, a place for the line, and what is left from lines that had a second
argument. -/
structure Points (cmd : List (List Byte)) (second : Bool) (cargv : Nat → Ptr) : Prop where
  args : ∀ j (hj : j < cmd.length), cargv j = .arg cmd[j]
  more : cargv (cmd.length + 1) = if second then .line 1 else .null
  null : cargv (cmd.length + 2) = .null

theorem Points.line {second : Bool} (h : Points cmd second cargv) (p : Ptr) :
    Points cmd second (update cargv cmd.length p) where
  args j hj := by rw [update_of_ne (Nat.ne_of_lt hj), h.args j hj]
  more := by rw [update_of_ne (by omega), h.more]
  null := by rw [update_of_ne (by omega), h.null]

theorem Points.second {second : Bool} (h : Points cmd second cargv) :
    Points cmd true (update cargv (cmd.length + 1) (.line 1)) where
  args j hj := by rw [update_of_ne (by omega), h.args j hj]
  more := update_self ..
  null := by rw [update_of_ne (by omega), h.null]

theorem Points.argvFrom {second : Bool} {s t : List Byte} (h : Points cmd second cargv)
    (hline : cargv cmd.length = .line 0) (hs : strAt buff 0 = some s) (ht : strAt buff 1 = some t) :
    argvFrom cargv buff MAXARG 0 =
      if cmd.length + 1 + second.toNat < MAXARG then some (cmd ++ s :: if second then [t] else []) else none := by
  have hholds : List.Forall₂ (Ptr.Holds buff) (cmd.map .arg ++ .line 0 :: if second then [.line 1] else [])
      (cmd ++ s :: if second then [t] else []) := by
    have hcmd : List.Forall₂ (Ptr.Holds buff) (cmd.map .arg) cmd :=
      forall₂_map_left_iff.mpr (forall₂_same.mpr fun _ _ => rfl)
    refine rel_append hcmd (List.Forall₂.cons (R := Ptr.Holds buff) hs ?_)
    split
    · exact .cons ht .nil
    · exact .nil
  have hmore := h.more
  have hlength : (cmd.map Ptr.arg ++ Ptr.line 0 :: if second then [Ptr.line 1] else []).length =
      cmd.length + 1 + second.toNat := by
    cases second <;> simp [Nat.add_assoc]
  rw [argvFrom_eq hholds (j := 0), hlength]
  · intro k hk
    rw [Nat.zero_add, getElem_append]
    split
    next hlt => rw [getElem_map, h.args k (by simpa using hlt)]
    next hge =>
      rw [length_map] at hge
      rw [hlength] at hk
      cases second with
      | false =>
        obtain rfl : k = cmd.length := by simp at hk; omega
        simpa using hline
      | true =>
        rcases (by simp at hk; omega : k = cmd.length ∨ k = cmd.length + 1) with rfl | rfl
        · simpa using hline
        · simpa using hmore
  · rw [hlength, Nat.zero_add]
    cases second with
    | false => exact hmore
    | true => exact h.null

/-- One turn of the loop of `main`. -/
theorem mainLoop_line (hcmd : cmd ≠ []) (hmax : cmd.length < MAXARG) {second : Bool}
    (hp : Points cmd second cargv) (buff : Nat → Byte) (hnl : newline ∉ l)
    (hlen : l.length < BUFFSZ) (hne : l ≠ []) (rest : List Byte) :
    let i := cmd.length + 1
    ∃ cargv' buff', Points cmd (more i buff second l) cargv' ∧ buff' i ≠ blank ∧ ∀ log fuel,
      mainLoop i cmd.length (fuel + 1) cargv buff (l ++ newline :: rest) log =
        if cmd.length + 1 + (more i buff second l).toNat < MAXARG then
          mainLoop i cmd.length fuel cargv' buff' rest (log ++ [cmd ++ arguments i buff second l])
        else none := by
  intro i
  obtain ⟨buff', hread, hline, hnul, hrest⟩ := readline_eq hnl rest hlen 0 buff
  simp only [Nat.zero_add, Nat.not_lt_zero, false_or] at hread hline hnul hrest
  have hpos : 0 < l.length := length_pos_of_ne_nil hne
  have hcpos : 0 < cmd.length := length_pos_of_ne_nil hcmd
  have hcut : buff' i = blank ↔ Cut i buff l := cut_iff hline hnul hrest
  obtain ⟨hpline, hpnul⟩ := piece_at i buff hline hnul
  set after := if Cut i buff l then update buff' i 0 else buff' with hafter
  have hplen : 1 ≤ (piece i buff l).length ∧ (piece i buff l).length < BUFFSZ := by
    unfold piece
    split
    · rw [length_take]
      omega
    · exact ⟨hpos, hlen⟩
  have hs := strAt_eq hpline hpnul hplen.2 (Nat.zero_le _)
  have ht := strAt_eq hpline hpnul hplen.2 hplen.1
  have hblank : after i ≠ blank := by
    rw [hafter]
    split
    next => rw [update_self]; decide
    next h => exact fun e => h (hcut.mp e)
  have hloop := argLoop_eq i cargv buff' hmax hpos
  simp only [hcut] at hloop
  have hturn : ∀ cargv', Points cmd (more i buff second l) cargv' → cargv' cmd.length = .line 0 →
      argLoop i cmd.length l.length 0 false cargv buff' = some (cargv', after) → ∀ log fuel,
      mainLoop i cmd.length (fuel + 1) cargv buff (l ++ newline :: rest) log =
        if cmd.length + 1 + (more i buff second l).toNat < MAXARG then
          mainLoop i cmd.length fuel cargv' after rest (log ++ [cmd ++ arguments i buff second l])
        else none := by
    intro cargv' hp' h0 hloop log fuel
    rw [mainLoop, hread]
    simp only [Int.natCast_nonpos_iff, if_neg (Nat.ne_of_gt hpos), Int.toNat_natCast, hloop, hp'.argvFrom h0 hs ht]
    by_cases hfits : cmd.length + 1 + (more i buff second l).toNat < MAXARG
    · simp only [if_pos hfits]
      rfl
    · simp only [if_neg hfits]
  by_cases h2 : Cut i buff l ∧ 2 ≤ l.length
  · have hmore : more i buff second l = true := by simp [more, h2]
    have hp' := (hp.line (.line 0)).second
    rw [← hmore] at hp'
    refine ⟨_, after, hp', hblank, ?_⟩
    by_cases hc : cmd.length + 1 < MAXARG
    · refine hturn _ hp' (by rw [update_of_ne (by omega), update_self]) ?_
      rw [hloop, if_pos h2, if_pos hc, hafter, if_pos h2.1]
    · intro log fuel
      rw [mainLoop, hread, if_neg (by omega)]
      simp only [Int.natCast_nonpos_iff, if_neg (Nat.ne_of_gt hpos), Int.toNat_natCast, hloop, if_pos h2, if_neg hc]
  · have hmore : more i buff second l = second := by simp only [more, ← Bool.decide_and, h2, decide_false, Bool.or_false]
    have hp' := hp.line (.line 0)
    rw [← hmore] at hp'
    refine ⟨_, after, hp', hblank, hturn _ hp' (update_self ..) ?_⟩
    rw [hloop, if_neg h2]

/-! ## When the words come out -/

/-- The line is one word. -/
structure Word (l : List Byte) : Prop where
  ne_nil : l ≠ []
  blank : blank ∉ l
  nul : 0 ∉ l

/-- The line has a blank at `i` and is two words, of which the second one is the first without its
first byte. -/
structure Twin (i : Nat) (l : List Byte) : Prop where
  blank : l[i]? = some blank
  nul : 0 ∉ l
  words : words l = [l.take i, (l.take i).drop 1]

/-- The lines are right: they are one word each, and after the first that is a twin they are all
twins. A blank that has been at `buff[i]` (`stale`) spoils the first line, unless it is short or
covers the blank. -/
def Kept (i : Nat) : Bool → Prop → List (List Byte) → Prop
  | _, _, [] => True
  | second, stale, l :: ls =>
    second = false ∧ Word l ∧ (stale → l.length = 1 ∨ i ≤ l.length) ∧ Kept i false False ls ∨ Twin i l ∧ Kept i true False ls

theorem kept_cons (hi : 2 ≤ i) (buff : Nat → Byte) (second : Bool) (hne : l ≠ [])
    (ls : List (List Byte)) :
    Kept i second (buff i = blank) (l :: ls) ↔
      arguments i buff second l = words l ∧ Kept i (more i buff second l) False ls := by
  have hpos : 0 < l.length := length_pos_of_ne_nil hne
  have hnul : arguments i buff second l = words l → 0 ∉ l := by
    intro h hmem
    obtain ⟨w, hw, h0⟩ := exists_word hmem (by decide)
    rw [← h] at hw
    unfold arguments at hw
    rcases mem_cons.mp hw with rfl | hw
    · exact notMem_cstr _ h0
    · split at hw
      · rw [mem_singleton.mp hw] at h0
        exact notMem_cstr _ h0
      · cases hw
  by_cases hblank : l[i]? = some blank
  · obtain ⟨hlt, hget⟩ := List.getElem?_eq_some_iff.mp hblank
    have hmore : more i buff second l = true := by simp [more, Cut, hblank, (by omega : 2 ≤ l.length)]
    have hargs : 0 ∉ l → arguments i buff second l = [l.take i, (l.take i).drop 1] := by
      intro h0
      have h0' : 0 ∉ l.take i := fun h => h0 (mem_of_mem_take h)
      unfold arguments piece
      rw [hmore, if_pos (.inl hblank), cstr_of_notMem h0', cstr_of_notMem fun h => h0' (mem_of_mem_drop h), if_pos rfl]
    have hword : ¬ Word l := fun h => h.blank (hget ▸ getElem_mem hlt)
    rw [hmore]
    constructor
    · rintro (⟨-, h, -⟩ | ⟨h, hls⟩)
      · exact absurd h hword
      · exact ⟨(hargs h.nul).trans h.words.symm, hls⟩
    · rintro ⟨h, hls⟩
      exact .inr ⟨⟨hblank, hnul h, by rw [← h, hargs (hnul h)]⟩, hls⟩
  · have hpiece : piece i buff l = l := by
      unfold piece
      split
      next h => exact take_of_length_le (Nat.le_of_lt (h.resolve_left hblank).1)
      next => rfl
    have hcut : Cut i buff l ↔ l.length < i ∧ buff i = blank := or_iff_right hblank
    constructor
    · rintro (⟨hsec, hword, hstale, hls⟩ | ⟨h, -⟩)
      · have hmore : more i buff second l = false := by
          simp only [more, hsec, Bool.false_or, Bool.and_eq_false_imp, decide_eq_true_eq, decide_eq_false_iff_not]
          intro h
          have := hstale (hcut.mp h).2
          have := (hcut.mp h).1
          omega
        rw [hmore]
        refine ⟨?_, hls⟩
        unfold arguments
        rw [hmore, hpiece, cstr_of_notMem hword.nul, words_of_word hne hword.blank]
        rfl
      · exact absurd h.blank hblank
    · rintro ⟨h, hls⟩
      have h0 := hnul h
      unfold arguments at h
      rw [hpiece, cstr_of_notMem h0] at h
      have hword : Word l := ⟨hne, (mem_words (h ▸ mem_cons_self ..)).2, h0⟩
      rw [words_of_word hne hword.blank] at h
      have hmore : more i buff second l = false := by
        by_contra hm
        rw [Bool.not_eq_false] at hm
        rw [if_pos hm] at h
        cases h
      rw [hmore] at hls
      simp only [more, Bool.or_eq_false_iff, Bool.and_eq_false_imp, decide_eq_true_eq, decide_eq_false_iff_not, hcut] at hmore
      refine .inl ⟨hmore.1, hword, fun hstale => ?_, hls⟩
      by_contra hcon
      have := hmore.2 ⟨by omega, hstale⟩
      omega

theorem mainLoop_log {fuel : Nat} {input : List Byte} {log out : List (List (List Byte))}
    {status : Nat} (h : mainLoop i cargc fuel cargv buff input log = some (out, status)) :
    log <+: out := by
  induction fuel generalizing cargv buff input log with
  | zero => cases h
  | succ fuel ih =>
    rw [mainLoop] at h
    split at h
    split at h
    · cases h
      exact prefix_rfl
    · split at h
      · cases h
      · split at h
        · cases h
        · exact (prefix_append ..).trans (ih h)

theorem mainLoop_iff (hcmd : cmd ≠ []) {ls : List (List Byte)}
    (hls : ∀ l ∈ ls, newline ∉ l ∧ l.length < BUFFSZ ∧ cmd.length + (words l).length < MAXARG)
    {second : Bool} (hp : Points cmd second cargv) (buff : Nat → Byte)
    (log : List (List (List Byte))) :
    Ends (fun fuel => mainLoop (cmd.length + 1) cmd.length fuel cargv buff (ls.flatMap (· ++ [newline])) log)
        (log ++ ls.map fun l => cmd ++ words l, 2) ↔
      Kept (cmd.length + 1) second (buff (cmd.length + 1) = blank) ls := by
  induction ls generalizing second cargv buff log with
  | nil =>
    refine iff_of_true (Ends.now fun fuel => ?_) trivial
    rw [map_nil, append_nil]
    rfl
  | cons l ls ih =>
    obtain ⟨hnl, hlen, hmax⟩ := hls l mem_cons_self
    rw [flatMap_cons, append_assoc, singleton_append, map_cons]
    have hcpos : 0 < cmd.length := length_pos_of_ne_nil hcmd
    by_cases hne : l = []
    · subst hne
      -- an empty line is taken for the end of the input
      refine iff_of_false ?_ ?_
      · rintro ⟨turns, h⟩
        obtain ⟨buff', hread, -⟩ := readline_eq hnl (ls.flatMap (· ++ [newline])) hlen 0 buff
        have hlog := h (turns + 1) (Nat.le_succ _)
        simp only [mainLoop, hread] at hlog
        simp at hlog
      · rintro (⟨-, h, -⟩ | ⟨h, -⟩)
        · exact h.ne_nil rfl
        · cases h.blank
    · obtain ⟨cargv', buff', hp', hblank, hturn⟩ := mainLoop_line hcmd (by omega) hp buff hnl hlen hne (ls.flatMap (· ++ [newline]))
      have hih := ih (fun l' h => hls l' (mem_cons_of_mem _ h)) hp' buff' (log ++ [cmd ++ words l])
      rw [append_assoc, singleton_append, eq_false hblank] at hih
      rw [kept_cons (by omega) buff second hne, ← hih, Ends.later_iff (hturn log)]
      constructor
      · rintro ⟨turns, h⟩
        have h' := h turns (Nat.le_refl _)
        split at h'
        next hfits =>
          obtain ⟨t, ht⟩ := mainLoop_log h'
          rw [append_assoc, append_cancel_left_eq, singleton_append] at ht
          have hargs := append_cancel_left (List.cons.inj ht).1
          simp only [if_pos hfits, hargs] at h
          exact ⟨hargs, turns, h⟩
        next => cases h'
      · rintro ⟨hargs, h⟩
        have hfits : cmd.length + 1 + (more (cmd.length + 1) buff second l).toNat < MAXARG := by
          rw [← hargs] at hmax
          unfold arguments at hmax
          generalize more (cmd.length + 1) buff second l = m at hmax ⊢
          cases m <;> simp at hmax ⊢ <;> omega
        simp only [if_pos hfits, hargs]
        exact h

/-- On lines that fit in `buff` and whose words fit in `cargv`, `xargs` executes for each line the
command with the words of the line exactly if the lines are `Kept`. -/
theorem xargs_iff (cmd : List (List Byte)) (hcmd : cmd ≠ []) (ls : List (List Byte))
    (hls : ∀ l ∈ ls, newline ∉ l ∧ l.length < BUFFSZ ∧ cmd.length + (words l).length < MAXARG) (buff : Nat → Byte) :
    Ends (fun fuel => xargs cmd buff fuel (ls.flatMap (· ++ [newline]))) (commands cmd (ls.flatMap (· ++ [newline])), 2) ↔
      Kept (cmd.length + 1) false (buff (cmd.length + 1) = blank) ls := by
  have hp : Points cmd false fun j => match cmd[j]? with
      | some s => Ptr.arg s
      | none => .null :=
    { args := by
        intro j hj
        rw [getElem?_eq_getElem hj]
      more := by rw [getElem?_eq_none (Nat.le_succ _)]; rfl
      null := by rw [getElem?_eq_none (Nat.le_add_right _ _)] }
  have hargc : ¬ cmd.length + 1 < 2 := by
    have := length_pos_of_ne_nil hcmd
    omega
  unfold xargs commands
  simp only [if_neg hargc]
  rw [lines_flatMap fun l h => (hls l h).1]
  exact mainLoop_iff hcmd hls hp buff []

/-- `xargs echo` on the lines `a` and `aa a`. -/
theorem xargs_iff_lines :
    Ends (fun fuel => xargs ["echo".toList.map ascii] (fun _ => 0) fuel
        (["a".toList.map ascii, "aa a".toList.map ascii].flatMap (· ++ [newline])))
      (commands ["echo".toList.map ascii] (["a".toList.map ascii, "aa a".toList.map ascii].flatMap (· ++ [newline])), 2) := by
  refine (xargs_iff ["echo".toList.map ascii] (by decide) ["a".toList.map ascii, "aa a".toList.map ascii] (by decide +kernel)
    (fun _ => 0)).mpr ?_
  have ha : Word ("a".toList.map ascii) := ⟨by decide, by decide, by decide⟩
  have haa : Twin 2 ("aa a".toList.map ascii) := ⟨by decide, by decide, by decide +kernel⟩
  exact .inl ⟨rfl, ha, fun _ => .inl rfl, .inr ⟨haa, trivial⟩⟩

/-- `xargs echo` on the line `a b` gives `echo` one argument, which is the line; and it ends at an
empty line. -/
theorem xargs_line_not_cut :
    xargs ["echo".toList.map ascii] (fun _ => 0) 5 ("a b\n".toList.map ascii) =
      some ([["echo".toList.map ascii, "a b".toList.map ascii]], 2) ∧
    commands ["echo".toList.map ascii] ("a b\n".toList.map ascii) =
      [["echo".toList.map ascii, "a".toList.map ascii, "b".toList.map ascii]] ∧
    xargs ["echo".toList.map ascii] (fun _ => 0) 5 ("\na\n".toList.map ascii) = some ([], 2) := by
  decide +kernel

end Xv6.Xargs
