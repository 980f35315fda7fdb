import Xv6.Lib.Lines
import Xv6.Lib.Turns
import Xv6.User.Memmove
import Xv6.User.Regex

/-!
# `grep` (user/grep.c)

`grep` reads its input into a buffer of 1024 bytes, cuts the lines in it where they are, and moves
what is left after the last line to the front. `read` may return any part of what is asked for:
`sizes` says how much it would return in each turn.

What is written are the lines that match, whatever the pieces in which the input arrives.
Nothing is said about a line that does not fit the buffer.
-/

namespace Xv6.Grep

open Memmove Regex Lines Function
open List hiding tail

def BUFSZ : Nat := 1024

def newline : Byte := ascii '\n'

section Code

-- where `buf` is, and the pattern with its NUL
variable (buf : Addr) (pattern : List Byte)

/-- `buf + p` -/
abbrev ptr (p : Nat) : Addr := buf + BitVec.ofNat 64 p

/-- What is in the buffer from `p` on. -/
def rest (m : Mem) (p : Nat) : List Byte := bytes m (ptr buf p) (BUFSZ - p)

/-- The inner loop, from `p` on. -/
def lineLoop : Nat → Nat → Mem → List Byte → Option (Nat × Mem × List Byte)
  | 0, _, _, _ => none
  | fuel + 1, p, mem, out =>
    match strchr (rest buf mem p) newline with
    | none => none
    | some none => some (p, mem, out)
    | some (some k) =>
      let q := p + k
      let mem := update mem (ptr buf q) 0
      match matchText pattern (rest buf mem p) with
      | none => none
      | some true =>
        let mem := update mem (ptr buf q) newline
        lineLoop fuel (q + 1) mem (out ++ bytes mem (ptr buf p) (q + 1 - p))
      | some false => lineLoop fuel (q + 1) mem out

/-- What `read` returns when `n` bytes are asked for: at least one byte, unless none is asked for or
left. -/
def readSize (size n : Nat) (input : List Byte) : Nat := min (max size 1) (min n input.length)

/-- The state of `grep` between two calls of `read`. -/
structure State where
  mem : Mem
  m : Nat
  input : List Byte
  out : List Byte

/-- The outer loop, with the sizes of the pieces to come. -/
def grepLoop (sizes : Nat → Nat) : Nat → Nat → State → Option (List Byte)
  | 0, _, _ => none
  | fuel + 1, turn, s =>
    let n := readSize (sizes turn) (BUFSZ - s.m - 1) s.input
    if n > 0 then
      let mem := store (s.input.take n) (ptr buf s.m) s.mem
      let m := s.m + n
      let mem := update mem (ptr buf m) 0
      match lineLoop buf pattern fuel 0 mem s.out with
      | none => none
      | some (p, mem, out) =>
        if m > 0 then
          let m := m - p
          grepLoop sizes fuel (turn + 1) ⟨(umemmove buf (ptr buf p) (BitVec.ofNat 32 m) mem).2, m, s.input.drop n, out⟩
        else grepLoop sizes fuel (turn + 1) ⟨mem, m, s.input.drop n, out⟩
    else some s.out

def grep (sizes : Nat → Nat) (fuel : Nat) (mem : Mem) (input : List Byte) : Option (List Byte) :=
  grepLoop buf pattern sizes fuel 0 ⟨mem, 0, input, []⟩

end Code

/-! ## What is written -/

/-- `match` holds of the line. -/
def keeps (re l : List Byte) : Bool := matchText (re ++ [0]) (l ++ [0]) == some true

/-- The lines that match, with their newlines. -/
def grepped (re input : List Byte) : List Byte := ((lines newline input).filter (keeps re)).flatMap (· ++ [newline])

/-- What is behind the strings does not matter. -/
theorem matchText_eq {re l : List Byte} (hre : 0 ∉ re) (hl : 0 ∉ l) (rejunk junk : List Byte) :
    matchText (re ++ 0 :: rejunk) (l ++ 0 :: junk) = some (keeps re l) := by
  obtain ⟨found, hf, hfound⟩ := matchText_decides hre rejunk l hl
  obtain ⟨found', hf', hfound'⟩ := matchText_decides hre [] l hl
  have heq : found = found' := Bool.eq_iff_iff.mpr (hfound.trans hfound'.symm)
  unfold keeps
  rw [hf, hf', heq]
  cases found' <;> rfl

theorem grepped_of_notMem {re s : List Byte} (h : newline ∉ s) : grepped re s = [] := by
  unfold grepped lines
  rw [split_of_notMem h]
  rfl

theorem grepped_line {re l : List Byte} (h : newline ∉ l) (s : List Byte) :
    grepped re (l ++ newline :: s) = (if keeps re l then l ++ [newline] else []) ++ grepped re s := by
  unfold grepped lines
  rw [split_line h]
  by_cases hk : keeps re l = true
  · rw [filter_cons_of_pos hk, if_pos hk]
    rfl
  · rw [filter_cons_of_neg hk, if_neg hk]
    rfl

theorem grepped_append (re s r : List Byte) : grepped re (s ++ r) = grepped re s ++ grepped re (tail newline s ++ r) := by
  unfold grepped
  rw [lines_append, filter_append, flatMap_append]

/-! ## The buffer -/

section

variable {buf : Addr} {m : Mem} {p q n : Nat} {l s : List Byte}

theorem ptr_add (p n : Nat) : ptr buf p + BitVec.ofNat 64 n = ptr buf (p + n) := by
  rw [ptr, BitVec.add_assoc, ← BitVec.ofNat_add]

/-- The bytes `s` are in the buffer at `p`, and a NUL behind them. -/
structure Text (buf : Addr) (m : Mem) (p : Nat) (s : List Byte) : Prop where
  bytes : bytes m (ptr buf p) s.length = s
  nul : m (ptr buf (p + s.length)) = 0
  fits : p + s.length < BUFSZ

theorem Text.rest (h : Text buf m p s) : ∃ junk, rest buf m p = s ++ 0 :: junk := by
  obtain ⟨k, hk⟩ : ∃ k, BUFSZ - p = s.length + (k + 1) := by
    have := h.fits
    exact ⟨BUFSZ - p - s.length - 1, by omega⟩
  refine ⟨Memmove.bytes m (ptr buf (p + s.length) + 1) k, ?_⟩
  unfold Grep.rest
  rw [hk, bytes_add, h.bytes, ptr_add, bytes_succ, h.nul]

/-- A store to the buffer outside some bytes. -/
theorem bytes_update (hbuf : buf.toNat + BUFSZ ≤ 2 ^ 64) (hq : q < BUFSZ) (hn : p + n ≤ BUFSZ) (hout : q < p ∨ p + n ≤ q) (v : Byte) :
    bytes (update m (ptr buf q) v) (ptr buf p) n = bytes m (ptr buf p) n := by
  apply bytes_congr
  intro i hi
  apply update_of_ne
  intro heq
  rw [ptr_add] at heq
  have := add_inj hbuf (by omega) hq heq
  omega

/-- The first line of a text, and the text behind it. -/
theorem Text.line (h : Text buf m p (l ++ newline :: s)) :
    Memmove.bytes m (ptr buf p) l.length = l ∧ m (ptr buf (p + l.length)) = newline ∧ Text buf m (p + l.length + 1) s := by
  have hbytes := h.bytes
  have hfits := h.fits
  have hnul := h.nul
  rw [length_append, length_cons] at hbytes hfits hnul
  rw [bytes_add, bytes_succ, ptr_add] at hbytes
  obtain ⟨hl, hrest⟩ := append_inj hbytes (length_bytes ..)
  obtain ⟨hnl, hs⟩ := List.cons.inj hrest
  refine ⟨hl, hnl, ?_, ?_, by omega⟩
  · rw [← ptr_add]
    exact hs
  · rw [← hnul]
    congr 2
    omega

/-- A store before a text. -/
theorem Text.set (hbuf : buf.toNat + BUFSZ ≤ 2 ^ 64) (h : Text buf m p s) (hq : q < p) (v : Byte) :
    Text buf (update m (ptr buf q) v) p s := by
  have hfits := h.fits
  refine ⟨?_, ?_, hfits⟩
  · rw [bytes_update hbuf (by omega) (by omega) (.inl hq), h.bytes]
  · rw [update_of_ne, h.nul]
    intro heq
    have := add_inj hbuf hfits (by omega) heq
    omega

end

/-! ## The loops -/

section

variable {buf : Addr} {re : List Byte}

/-- One turn of the inner loop: it goes past a line, which it writes if it matches. -/
theorem lineLoop_line (rejunk : List Byte) (hbuf : buf.toNat + BUFSZ ≤ 2 ^ 64) (hre : 0 ∉ re) {l s : List Byte} (hl : newline ∉ l)
    (hs : 0 ∉ l ++ newline :: s) {m : Mem} {p : Nat} (htext : Text buf m p (l ++ newline :: s)) (out : List Byte) :
    ∃ m', Text buf m' (p + l.length + 1) s ∧ ∀ fuel, lineLoop buf (re ++ 0 :: rejunk) (fuel + 1) p m out =
      lineLoop buf (re ++ 0 :: rejunk) fuel (p + l.length + 1) m' (out ++ if keeps re l then l ++ [newline] else []) := by
  have hfits := htext.fits
  rw [length_append, length_cons] at hfits
  have hl0 : 0 ∉ l := fun h => hs (mem_append_left _ h)
  obtain ⟨junk, hrest⟩ := htext.rest
  obtain ⟨hbytes, -, hafter⟩ := htext.line
  -- the line is cut, and `match` sees it alone
  generalize hm₁ : update m (ptr buf (p + l.length)) 0 = m₁
  have hbytes₁ : ∀ v, bytes (update m (ptr buf (p + l.length)) v) (ptr buf p) l.length = l := by
    intro v
    rw [bytes_update hbuf (by omega) (by omega) (.inr le_rfl), hbytes]
  have hcut : Text buf m₁ p l := by
    rw [← hm₁]
    exact ⟨hbytes₁ 0, update_self .., by omega⟩
  obtain ⟨junk', hrest'⟩ := hcut.rest
  have hmatch : matchText (re ++ 0 :: rejunk) (rest buf m₁ p) = some (keeps re l) := by
    rw [hrest', matchText_eq hre hl0]
  have hstrchr : strchr (rest buf m p) newline = some (some l.length) := by
    rw [hrest, append_assoc, cons_append, strchr_of_mem hl0 hl (by decide)]
  cases hkeep : keeps re l with
  | true =>
    -- the newline is put back and the line is written
    have hwritten : bytes (update m₁ (ptr buf (p + l.length)) newline) (ptr buf p) (p + l.length + 1 - p) = l ++ [newline] := by
      rw [show p + l.length + 1 - p = l.length + 1 by omega, ← hm₁, update_idem, bytes_add, hbytes₁, ptr_add]
      simp [bytes]
    refine ⟨update m₁ (ptr buf (p + l.length)) newline, ?_, fun fuel => ?_⟩
    · rw [← hm₁, update_idem]
      exact hafter.set hbuf (by omega) newline
    · rw [lineLoop, hstrchr]
      simp only [hm₁, hmatch, hkeep, if_true, hwritten]
  | false =>
    refine ⟨m₁, hm₁ ▸ hafter.set hbuf (by omega) 0, fun fuel => ?_⟩
    rw [lineLoop, hstrchr]
    simp only [hm₁, hmatch, hkeep]
    rw [if_neg Bool.false_ne_true, append_nil]

/-- The inner loop writes the lines that match and stops behind the last line. -/
theorem lineLoop_ends (rejunk : List Byte) (hbuf : buf.toNat + BUFSZ ≤ 2 ^ 64) (hre : 0 ∉ re)
    (s : List Byte) (hs : 0 ∉ s) {m : Mem} {p : Nat}
    (htext : Text buf m p s) (out : List Byte) :
    ∃ m' p', p' + (tail newline s).length = p + s.length ∧ bytes m' (ptr buf p') (tail newline s).length = tail newline s ∧
      Ends (fun fuel => lineLoop buf (re ++ 0 :: rejunk) fuel p m out) (p', m', out ++ grepped re s) := by
  induction s using Lines.induct newline generalizing m p out with
  | hlast s hnot =>
    have htail : tail newline s = s := by
      unfold tail
      rw [split_of_notMem hnot]
    rw [htail]
    refine ⟨m, p, rfl, htext.bytes, Ends.now fun fuel => ?_⟩
    obtain ⟨junk, hrest⟩ := htext.rest
    rw [lineLoop, hrest, strchr_of_notMem hs hnot, grepped_of_notMem hnot, append_nil]
  | hline l s hl ih =>
    have hs0 : 0 ∉ s := fun h => hs (mem_append_right _ (mem_cons_of_mem _ h))
    have htail : tail newline (l ++ newline :: s) = tail newline s := by
      unfold tail
      rw [split_line hl]
    obtain ⟨m₁, htext₁, hstep⟩ := lineLoop_line rejunk hbuf hre hl hs htext out
    obtain ⟨m', p', hp', hbytes', hends⟩ := ih hs0 htext₁ (out ++ if keeps re l then l ++ [newline] else [])
    rw [htail, grepped_line hl, ← append_assoc]
    refine ⟨m', p', ?_, hbytes', hends.later hstep⟩
    rw [length_append, length_cons]
    omega

/-- A text that starts with `pending` and has a line has one that is as long as `pending`. -/
theorem exists_line {pending input : List Byte} (hpending : newline ∉ pending) (h : newline ∈ pending ++ input) :
    ∃ l ∈ lines newline (pending ++ input), pending.length ≤ l.length := by
  rcases Lines.cases newline (pending ++ input) with hnot | ⟨l, s, hl, heq⟩
  · exact absurd h hnot
  · refine ⟨l, ?_, ?_⟩
    · unfold lines
      rw [heq, split_line hl]
      exact mem_cons_self ..
    · by_contra hlt
      apply hpending
      have hget : (pending ++ input)[l.length]? = some newline := by
        rw [heq, getElem?_append_right le_rfl, Nat.sub_self]
        rfl
      rw [getElem?_append_left (not_le.mp hlt)] at hget
      exact mem_of_getElem? hget

/-- A piece that is read is put behind what is left in the buffer, with a NUL. -/
theorem text_read (hbuf : buf.toNat + BUFSZ ≤ 2 ^ 64) {m : Mem} {pending piece : List Byte}
    (hbytes : bytes m buf pending.length = pending) (hfits : pending.length + piece.length < BUFSZ) :
    Text buf (update (store piece (ptr buf pending.length) m) (ptr buf (pending.length + piece.length)) 0) 0
      (pending ++ piece) := by
  have hzero : ptr buf 0 = buf := BitVec.add_zero buf
  have hstore : bytes (store piece (ptr buf pending.length) m) (ptr buf 0) pending.length = pending := by
    rw [hzero]
    refine Eq.trans (bytes_congr fun i hi => ?_) hbytes
    apply store_of_ne
    intro j hj heq
    rw [ptr_add] at heq
    have := add_inj hbuf (by omega) (by omega) heq
    omega
  have hpiece : bytes (store piece (ptr buf pending.length) m) (ptr buf pending.length) piece.length = piece := by
    apply bytes_store
    rw [toNat_add buf (by omega)]
    omega
  refine ⟨?_, ?_, ?_⟩
  · rw [length_append, bytes_update hbuf hfits (by omega) (.inr (by omega)), bytes_add, hstore, ptr_add, zero_add, hpiece]
  · rw [length_append, zero_add, update_self]
  · rw [length_append]
    omega

/-- Each turn of the outer loop writes the lines that a piece of the input completes. -/
theorem grepLoop_ends (rejunk : List Byte) (hbuf : buf.toNat + BUFSZ ≤ 2 ^ 64) (hre : 0 ∉ re) (sizes : Nat → Nat) (input : List Byte)
    {pending : List Byte} (hpending : newline ∉ pending) (hfits : pending.length < BUFSZ) (hnul : 0 ∉ pending ++ input)
    (hlines : ∀ l ∈ lines newline (pending ++ input), l.length + 1 ≤ BUFSZ - 1) (turn : Nat) {m : Mem}
    (hbytes : bytes m buf pending.length = pending) (out : List Byte) :
    Ends (fun fuel => grepLoop buf (re ++ 0 :: rejunk) sizes fuel turn ⟨m, pending.length, input, out⟩)
      (out ++ grepped re (pending ++ input)) := by
  induction hlen : input.length using Nat.strong_induction_on generalizing input pending turn m out with
  | _ k ih =>
    generalize hn : readSize (sizes turn) (BUFSZ - pending.length - 1) input = n
    have hsize := hn
    unfold readSize at hsize
    have hbufsz : BUFSZ = 1024 := rfl
    by_cases hzero : n = 0
    · -- the input is at its end, or the buffer is full and no newline can come
      have hnone : newline ∉ pending ++ input := by
        intro hmem
        obtain ⟨l, hl, hle⟩ := exists_line hpending hmem
        have := hlines l hl
        have hempty : input = [] := length_eq_zero_iff.mp (by omega)
        rw [hempty, append_nil] at hmem
        exact hpending hmem
      apply Ends.now
      intro fuel
      rw [grepLoop]
      simp only [hn, hzero, gt_iff_lt, lt_irrefl, if_false]
      rw [grepped_of_notMem hnone, append_nil]
    · -- the lines in the buffer are done, and the rest moves to the front
      have hpiece : (input.take n).length = n := length_take_of_le (by omega)
      have hsplit : pending ++ input = (pending ++ input.take n) ++ input.drop n := by
        rw [append_assoc, take_append_drop]
      have htext := text_read hbuf hbytes (by rw [hpiece]; omega : pending.length + (input.take n).length < BUFSZ)
      rw [hpiece] at htext
      have hnul' : 0 ∉ pending ++ input.take n := fun h => hnul (hsplit ▸ mem_append_left _ h)
      obtain ⟨m', p', hp', hbytes', hends⟩ := lineLoop_ends rejunk hbuf hre (pending ++ input.take n) hnul' htext out
      have hfits' := htext.fits
      rw [length_append, hpiece] at hp' hfits'
      have hlines' : ∀ l ∈ lines newline (tail newline (pending ++ input.take n) ++ input.drop n), l.length + 1 ≤ BUFSZ - 1 := by
        intro l hl
        apply hlines l
        rw [hsplit, lines_append]
        exact mem_append_right _ hl
      have hnul'' : 0 ∉ tail newline (pending ++ input.take n) := fun h => hnul' (mem_of_mem_tail h)
      have htail := tail_notMem newline (pending ++ input.take n)
      rw [hsplit, grepped_append, ← append_assoc]
      generalize tail newline (pending ++ input.take n) = t at hp' hbytes' hlines' hnul'' htail ⊢
      have hleft : pending.length + n - p' = t.length := by omega
      have hcast : (BitVec.ofNat 32 t.length).toNat = t.length := by
        rw [BitVec.toNat_ofNat]
        exact Nat.mod_eq_of_lt (by omega)
      have hmove : Moved buf (ptr buf p') (BitVec.ofNat 32 t.length).toNat m'
          (umemmove buf (ptr buf p') (BitVec.ofNat 32 t.length) m').2 := by
        apply umemmove_moved
        · rw [BitVec.toInt_eq_toNat_of_lt (by omega)]
          exact Int.natCast_nonneg _
        · omega
        · rw [toNat_add buf (by omega)]
          omega
      rw [hcast] at hmove
      have hrest := ih (input.drop n).length (by rw [length_drop]; omega) (input.drop n) htail (by omega)
        (fun h => by
          rcases mem_append.mp h with h | h
          · exact hnul'' h
          · exact hnul (mem_append_right _ (mem_of_mem_drop h)))
        hlines' (turn + 1) (hmove.bytes.trans hbytes')
        (out ++ grepped re (pending ++ input.take n)) rfl
      apply hends.after (k := fun fuel x => if pending.length + n > 0 then
          grepLoop buf (re ++ 0 :: rejunk) sizes fuel (turn + 1)
            ⟨(umemmove buf (ptr buf x.1) (BitVec.ofNat 32 (pending.length + n - x.1)) x.2.1).2, pending.length + n - x.1,
              input.drop n, x.2.2⟩
        else grepLoop buf (re ++ 0 :: rejunk) sizes fuel (turn + 1) ⟨x.2.1, pending.length + n, input.drop n, x.2.2⟩)
      · simp only [gt_iff_lt, show 0 < pending.length + n by omega, if_true, hleft]
        exact hrest
      · intro fuel x hx
        rw [grepLoop]
        simp only [hn, gt_iff_lt, show 0 < n by omega, if_true, hx]

end

/-- Whatever the sizes of the pieces that `read` returns, `grep` ends and has written the lines that
match, in order and with their newlines, as long as the lines fit the buffer. -/
theorem grep_any_split (buf : Addr) (hbuf : buf.toNat + BUFSZ ≤ 2 ^ 64) (re rejunk : List Byte) (hre : 0 ∉ re) (input : List Byte)
    (hnul : 0 ∉ input) (hlines : ∀ l ∈ lines newline input, (l ++ [newline]).length ≤ 1023) (sizes : Nat → Nat) (mem : Mem) :
    Ends (fun fuel => grep buf (re ++ 0 :: rejunk) sizes fuel mem input)
      (((lines newline input).filter (keeps re)).flatMap (· ++ [newline])) := by
  have hfit : ∀ l ∈ lines newline ([] ++ input), l.length + 1 ≤ BUFSZ - 1 := by
    intro l hl
    have := hlines l hl
    rw [length_append, length_singleton] at this
    exact this
  exact grepLoop_ends rejunk hbuf hre sizes input (not_mem_nil) (by decide) hnul hfit 0 rfl []

/-- `grep b` on `ab`, `c` and an unfinished `b`, two bytes at a time. -/
theorem grep_any_split_pairs :
    Ends (fun fuel => grep 4096 (ascii 'b' :: [0]) (fun _ => 2) fuel (fun _ => 0) ("ab\nc\nb".toList.map ascii))
      ("ab\n".toList.map ascii) :=
  grep_any_split 4096 (by decide) [ascii 'b'] [] (by decide) ("ab\nc\nb".toList.map ascii) (by decide) (by decide) (fun _ => 2)
    (fun _ => 0)

end Xv6.Grep
