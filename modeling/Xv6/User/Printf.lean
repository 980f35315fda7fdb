import Mathlib.Data.BitVec
import Xv6.Lib.Numeral
import Xv6.User.Str

/-!
# `printf` of user programs (user/printf.c)

What `vprintf` writes. The arguments are the words that `va_arg` takes one after the other, each of
64 bits. A string is what is at its address before the NUL. The result is `none` if the digits of a
number do not fit their buffer.

`render` says what a format is to print, piece by piece. It differs from `vprintf` in the directive
`%l` alone, of which the code prints the low half.
-/

namespace Xv6.Printf

open Numeral BitVec

def digits : List Byte := "0123456789ABCDEF".toList.map ascii

def digit (i : Nat) : Byte := digits.getD i 0

/-- The loop of `printint`: `room` bytes are left in `buf`. -/
def digitLoop (base : BitVec 32) : Nat → BitVec 32 → List Byte → Option (List Byte)
  | 0, _, _ => none
  | room + 1, x, buf =>
    let buf := buf ++ [digit (x % base).toNat]
    let x := x / base
    if x ≠ 0 then digitLoop base room x buf else some buf

/-- `printint`. The negation wraps. -/
def printint (xx base : BitVec 32) (sgn : Bool) : Option (List Byte) := do
  let neg : Bool := sgn && xx.slt 0
  let x := if neg then -xx else xx
  let buf ← digitLoop base 16 x []
  if neg = true then
    if buf.length < 16 then return (buf ++ [ascii '-']).reverse else none
  else return buf.reverse

/-- The loop of `printptr`. -/
def ptrLoop : Nat → BitVec 64 → List Byte
  | 0, _ => []
  | n + 1, x => digit (x >>> (64 - 4)).toNat :: ptrLoop n (x <<< 4)

def printptr (x : BitVec 64) : List Byte := ascii '0' :: ascii 'x' :: ptrLoop 16 x

/-- A `va_list`: the next argument, and those after it. -/
abbrev Args := Nat → BitVec 64

def Args.rest (ap : Args) : Args := fun i => ap (i + 1)

section

variable (str : BitVec 64 → List Byte)

/-- What follows a `%`. -/
def directive (c : Byte) (ap : Args) : Option (List Byte) × Args :=
  if c = ascii 'd' then (printint ((ap 0).setWidth 32) 10 true, ap.rest)
  else if c = ascii 'l' then (printint ((ap 0).setWidth 32) 10 false, ap.rest)
  else if c = ascii 'x' then (printint ((ap 0).setWidth 32) 16 false, ap.rest)
  else if c = ascii 'p' then (some (printptr (ap 0)), ap.rest)
  else if c = ascii 's' then
    (some (if ap 0 = 0 then "(null)".toList.map ascii else str (ap 0)), ap.rest)
  else if c = ascii 'c' then (some [(ap 0).setWidth 8], ap.rest)
  else if c = ascii '%' then (some [c], ap)
  else (some [ascii '%', c], ap)

/-- `vprintf`, where the `state` is whether the last character was a `%`. -/
def vprintf : Bool → List Byte → Args → Option (List Byte)
  | _, [], _ => some []
  | false, c :: fmt, ap =>
    if c = ascii '%' then vprintf true fmt ap else (vprintf false fmt ap).map (c :: ·)
  | true, c :: fmt, ap =>
    match directive str c ap with
    | (none, _) => none
    | (some out, ap) => (vprintf false fmt ap).map (out ++ ·)

def printf (fmt : List Byte) (ap : Args) : Option (List Byte) := vprintf str false fmt ap

end

/-! ## What is to be printed -/

/-- The pieces of a format: characters, and directives. -/
inductive Piece
  | lit (c : Byte)
  | dir (c : Byte)

def pieces : List Byte → List Piece
  | [] => []
  | [c] => if c = ascii '%' then [] else [.lit c]
  | c :: d :: fmt => if c = ascii '%' then .dir d :: pieces fmt else .lit c :: pieces (d :: fmt)

/-- The decimal numeral of an integer. -/
def decimal (z : Int) : List Byte :=
  if z < 0 then ascii '-' :: numeral digit 10 z.natAbs else numeral digit 10 z.natAbs

/-- Whether a directive takes an argument. -/
def takes (c : Byte) : Bool := ("dlxpsc".toList.map ascii).contains c

/-- What the directive `%c` is to print for the argument `v`. -/
def text (str : BitVec 64 → List Byte) (c : Byte) (v : BitVec 64) : List Byte :=
  if c = ascii 'd' then decimal (v.setWidth 32).toInt
  else if c = ascii 'l' then numeral digit 10 v.toNat
  else if c = ascii 'x' then numeral digit 16 (v.setWidth 32).toNat
  else if c = ascii 'p' then ascii '0' :: ascii 'x' :: padded digit 16 16 v.toNat
  else if c = ascii 's' then (if v = 0 then "(null)".toList.map ascii else str v)
  else if c = ascii 'c' then [v.setWidth 8]
  else if c = ascii '%' then [c]
  else [ascii '%', c]

def render (str : BitVec 64 → List Byte) : List Piece → Args → List Byte
  | [], _ => []
  | .lit c :: ps, ap => c :: render str ps ap
  | .dir c :: ps, ap => text str c (ap 0) ++ render str ps (if takes c then ap.rest else ap)

/-- The arguments of `%l` fit 32 bits. -/
def Narrow : List Piece → Args → Prop
  | [], _ => True
  | .lit _ :: ps, ap => Narrow ps ap
  | .dir c :: ps, ap => (c = ascii 'l' → (ap 0).toNat < 2 ^ 32) ∧ Narrow ps (if takes c then ap.rest else ap)

/-- The value of a digit. -/
def val (c : Byte) : Nat := digits.idxOf c

/-- The integer that a decimal numeral stands for. -/
def readInt : List Byte → Int
  | [] => 0
  | c :: cs => if c = ascii '-' then -(value val 10 cs : Int) else value val 10 (c :: cs)

theorem val_digit {i : Nat} (hi : i < 16) : val (digit i) = i := by
  have h : ∀ i : Fin 16, val (digit i) = i := by decide
  exact h ⟨i, hi⟩

/-! ## Numbers -/

theorem digitLoop_eq {base : BitVec 32} (hbase : 1 < base.toNat) (room : Nat) (x : BitVec 32) (buf : List Byte) (hroom : 0 < room)
    (hx : x.toNat < base.toNat ^ room) :
    digitLoop base room x buf = some (buf ++ (numeral digit base.toNat x.toNat).reverse) := by
  induction room generalizing x buf with
  | zero => omega
  | succ room ih =>
    rw [digitLoop]
    rcases Nat.lt_or_ge x.toNat base.toNat with hlt | hge
    · have hzero : x / base = 0 := by
        apply BitVec.eq_of_toNat_eq
        rw [toNat_udiv, Nat.div_eq_of_lt hlt]
        rfl
      rw [if_neg (not_not.mpr hzero), numeral_of_lt hlt, toNat_umod, Nat.mod_eq_of_lt hlt]
      rfl
    · have hpos : 0 < x.toNat / base.toNat := Nat.div_pos hge (by omega)
      have hne : x / base ≠ 0 := by
        intro hzero
        have := congrArg BitVec.toNat hzero
        rw [toNat_udiv] at this
        exact hpos.ne' this
      have hroom' : 0 < room := by
        by_contra hzero
        have hr : room = 0 := by omega
        rw [hr, Nat.pow_one] at hx
        omega
      have hx' : (x / base).toNat < base.toNat ^ room := by
        rw [toNat_udiv]
        apply Nat.div_lt_of_lt_mul
        rwa [← Nat.pow_succ']
      rw [if_pos hne, ih _ _ hroom' hx', numeral_of_le hbase hge, toNat_umod, toNat_udiv, List.reverse_append,
        List.append_assoc]
      rfl

/-- A number without a sign fits the buffer. -/
theorem printint_unsigned (base : BitVec 32) (hbase : 10 ≤ base.toNat) (xx : BitVec 32) :
    printint xx base false = some (numeral digit base.toNat xx.toNat) := by
  have hlt : xx.toNat < base.toNat ^ 16 := by
    calc xx.toNat < 10 ^ 16 := by omega
      _ ≤ base.toNat ^ 16 := Nat.pow_le_pow_left hbase 16
  show (digitLoop base 16 xx []).bind (fun buf => some buf.reverse) = _
  rw [digitLoop_eq (by omega) 16 xx [] (by omega) hlt]
  simp

/-- A signed one too, with its sign, and the least one is printed right though its negation wraps.
-/
theorem printint_signed (xx : BitVec 32) : printint xx 10 true = some (decimal xx.toInt) := by
  have hten : (10 : BitVec 32).toNat = 10 := rfl
  have hcond := toInt_eq_toNat_cond xx
  have hwidth := xx.isLt
  by_cases hneg : xx.toInt < 0
  · have hslt : xx.slt 0 = true := by
      rw [slt_eq_decide]
      exact decide_eq_true hneg
    have habs : (-xx).toNat = xx.toInt.natAbs := by
      rw [toNat_neg]
      split at hcond <;> omega
    have hloop : digitLoop 10 16 (-xx) [] = some (numeral digit 10 xx.toInt.natAbs).reverse := by
      rw [digitLoop_eq (by decide) 16 (-xx) [] (by decide) (by rw [hten]; omega), hten, habs, List.nil_append]
    have hlen : (numeral digit 10 xx.toInt.natAbs).length ≤ 10 := length_numeral_le (by decide) (by decide) (by omega)
    unfold printint
    simp only [hslt, Bool.and_true, if_true, hloop, Option.bind_eq_bind, Option.bind_some, List.length_reverse]
    rw [if_pos (by omega), List.reverse_append, List.reverse_reverse, decimal, if_pos hneg]
    rfl
  · have hslt : xx.slt 0 = false := by
      rw [slt_eq_decide]
      exact decide_eq_false hneg
    have habs : xx.toNat = xx.toInt.natAbs := by
      split at hcond <;> omega
    have hunsigned := printint_unsigned 10 (by decide) xx
    rw [decimal, if_neg hneg, ← habs, ← hten, ← hunsigned]
    unfold printint
    simp only [hslt, Bool.and_false]

/-! ## Pointers -/

theorem ptrLoop_eq {n k : Nat} (hk : n + k = 16) (v : BitVec 64) : ptrLoop n (v <<< (4 * k)) = padded digit 16 n v.toNat := by
  induction n generalizing k with
  | zero => rfl
  | succ n ih =>
    have hshift : v <<< (4 * k) <<< 4 = v <<< (4 * (k + 1)) := by
      rw [← shiftLeft_add, Nat.mul_succ]
    have hdigit : ((v <<< (4 * k)) >>> (64 - 4)).toNat = v.toNat / 16 ^ n % 16 := by
      have hpow : (2 : Nat) ^ 64 = 2 ^ (4 * k) * (16 ^ n * 16) := by
        rw [← Nat.pow_succ, show 16 = 2 ^ 4 from rfl, ← Nat.pow_mul, ← Nat.pow_add]
        congr 1
        omega
      have hpow' : (2 : Nat) ^ (64 - 4) = 2 ^ (4 * k) * 16 ^ n := by
        rw [show 16 = 2 ^ 4 from rfl, ← Nat.pow_mul, ← Nat.pow_add]
        congr 1
        omega
      rw [toNat_ushiftRight, toNat_shiftLeft, Nat.shiftRight_eq_div_pow, Nat.shiftLeft_eq, hpow', hpow,
        mul_comm v.toNat, Nat.mul_mod_mul_left, Nat.mul_div_mul_left _ _ (Nat.two_pow_pos _), Nat.mod_mul_right_div_self]
    rw [ptrLoop, padded_succ, hshift, ih (by omega), hdigit]

theorem printptr_eq (v : BitVec 64) : printptr v = ascii '0' :: ascii 'x' :: padded digit 16 16 v.toNat := by
  have := ptrLoop_eq (n := 16) (k := 0) rfl v
  rw [Nat.mul_zero, shiftLeft_zero] at this
  rw [printptr, this]

/-! ## Formats -/

variable {str : BitVec 64 → List Byte}

/-- What `printint` gets of an argument: of one of `%l`, the low half. -/
def cut (c : Byte) (v : BitVec 64) : BitVec 64 := if c = ascii 'l' then (v.setWidth 32).setWidth 64 else v

/-- What is printed. -/
def printed (str : BitVec 64 → List Byte) : List Piece → Args → List Byte
  | [], _ => []
  | .lit c :: ps, ap => c :: printed str ps ap
  | .dir c :: ps, ap => text str c (cut c (ap 0)) ++ printed str ps (if takes c then ap.rest else ap)

theorem directive_eq (c : Byte) (ap : Args) :
    directive str c ap = (some (text str c (cut c (ap 0))), if takes c then ap.rest else ap) := by
  unfold directive text cut
  by_cases hd : c = ascii 'd'
  · subst hd
    simp only [if_true, printint_signed]
    rfl
  by_cases hl : c = ascii 'l'
  · have hlow : (((ap 0).setWidth 32).setWidth 64).toNat = ((ap 0).setWidth 32).toNat := by
      rw [toNat_setWidth]
      omega
    subst hl
    simp only [if_neg hd, if_true, printint_unsigned 10 (by decide), hlow]
    rfl
  simp only [if_neg hl]
  by_cases hx : c = ascii 'x'
  · subst hx
    simp only [if_neg hd, if_true, printint_unsigned 16 (by decide)]
    rfl
  by_cases hp : c = ascii 'p'
  · subst hp
    simp only [if_neg hd, if_neg hx, if_true, printptr_eq]
    rfl
  by_cases hs : c = ascii 's'
  · subst hs
    rfl
  by_cases hc : c = ascii 'c'
  · subst hc
    rfl
  have htakes : takes c = false := by
    unfold takes
    simp [hd, hl, hx, hp, hs, hc]
  simp only [if_neg hd, if_neg hx, if_neg hp, if_neg hs, if_neg hc, htakes]
  split <;> rfl

/-- No number overruns its buffer, whatever the arguments. -/
theorem vprintf_eq (fmt : List Byte) (ap : Args) : vprintf str false fmt ap = some (printed str (pieces fmt) ap) := by
  induction fmt using pieces.induct generalizing ap with
  | case1 => rfl
  | case2 => rfl
  | case3 c hc =>
    rw [vprintf, if_neg hc, pieces, if_neg hc]
    rfl
  | case4 d fmt ih =>
    rw [pieces, if_pos rfl, vprintf, if_pos rfl, vprintf, directive_eq]
    show (vprintf str false fmt _).map _ = _
    rw [ih]
    rfl
  | case5 c d fmt hc ih =>
    rw [pieces, if_neg hc, vprintf, if_neg hc, ih]
    rfl

theorem toNat_cut (v : BitVec 64) : (cut (ascii 'l') v).toNat = v.toNat % 2 ^ 32 := by
  unfold cut
  rw [if_pos rfl, toNat_setWidth, toNat_setWidth]
  omega

/-- The numeral of the low half is not longer, and it is another one unless there is nothing in the
high half. -/
theorem text_cut (str : BitVec 64 → List Byte) (c : Byte) (v : BitVec 64) :
    (text str c (cut c v)).length ≤ (text str c v).length ∧
      (text str c (cut c v) = text str c v ↔ (c = ascii 'l' → v.toNat < 2 ^ 32)) := by
  by_cases hl : c = ascii 'l'
  · subst hl
    have htext : ∀ w, text str (ascii 'l') w = numeral digit 10 w.toNat := fun w => rfl
    have hval : ∀ n, value val 10 (numeral digit 10 n) = n := value_numeral (fun i hi => val_digit (by omega)) (by decide)
    rw [htext, htext, toNat_cut]
    refine ⟨length_numeral_mono (Nat.mod_le _ _), fun h _ => ?_, fun h => by rw [Nat.mod_eq_of_lt (h rfl)]⟩
    have hmod := congrArg (value val 10) h
    rw [hval, hval] at hmod
    omega
  · rw [show cut c v = v from if_neg hl]
    exact ⟨le_rfl, fun _ h => absurd h hl, fun _ => rfl⟩

/-- The pieces are compared one by one: none of them is printed longer than it is to be. -/
theorem printed_render (ps : List Piece) (ap : Args) :
    (printed str ps ap).length ≤ (render str ps ap).length ∧ (printed str ps ap = render str ps ap ↔ Narrow ps ap) := by
  induction ps generalizing ap with
  | nil => exact ⟨le_rfl, fun _ => trivial, fun _ => rfl⟩
  | cons piece ps ih =>
    cases piece with
    | lit c =>
      obtain ⟨hle, hiff⟩ := ih ap
      refine ⟨Nat.succ_le_succ hle, ?_⟩
      rw [printed, render, List.cons.injEq, Narrow, ← hiff]
      exact and_iff_right rfl
    | dir c =>
      obtain ⟨hle, hiff⟩ := ih (if takes c then ap.rest else ap)
      obtain ⟨hle', hiff'⟩ := text_cut str c (ap 0)
      rw [printed, render, Narrow, ← hiff', ← hiff, List.length_append, List.length_append]
      refine ⟨Nat.add_le_add hle' hle, fun h => ?_, fun h => by rw [h.1, h.2]⟩
      have hlen := congrArg List.length h
      rw [List.length_append, List.length_append] at hlen
      exact List.append_inj h (by omega)

theorem readInt_decimal (z : Int) : readInt (decimal z) = z := by
  have hvalue : value val 10 (numeral digit 10 z.natAbs) = z.natAbs :=
    value_numeral (fun i hi => val_digit (by omega)) (by decide) z.natAbs
  unfold decimal
  split
  · rw [readInt, if_pos rfl, hvalue]
    omega
  · -- a numeral does not start with the sign
    cases hcs : numeral digit 10 z.natAbs with
    | nil => exact absurd hcs (numeral_ne_nil _)
    | cons c cs =>
      obtain ⟨i, hi, hc⟩ := mem_numeral (by decide) (hcs ▸ List.mem_cons_self : c ∈ numeral digit 10 z.natAbs)
      have hne : ∀ i : Fin 10, digit i ≠ ascii '-' := by decide
      rw [readInt, if_neg (hc ▸ hne ⟨i, hi⟩), ← hcs, hvalue]
      omega

/-- `vprintf` overruns the buffer for no format and no arguments, and it prints what is to be
printed if and only if the arguments of `%l` fit 32 bits. The numerals are canonical and reading
them back gives the argument. -/
theorem printf_exact (str : BitVec 64 → List Byte) (fmt : List Byte) (ap : Args) :
    (printf str fmt ap).isSome ∧ (printf str fmt ap = some (render str (pieces fmt) ap) ↔ Narrow (pieces fmt) ap) ∧
      (∀ z : Int, readInt (decimal z) = z) ∧
      (∀ b, b = 10 ∨ b = 16 → ∀ n, value val b (numeral digit b n) = n ∧ ((numeral digit b n).head? = some (ascii '0') → n = 0)) ∧
      (∀ v : BitVec 64, (padded digit 16 16 v.toNat).length = 16 ∧ value val 16 (padded digit 16 16 v.toNat) = v.toNat) := by
  unfold printf
  rw [vprintf_eq, Option.some.injEq]
  refine ⟨rfl, (printed_render _ ap).2, readInt_decimal, ?_, ?_⟩
  · intro b hb n
    have hval : ∀ i < b, val (digit i) = i := fun i hi => val_digit (by omega)
    exact ⟨value_numeral hval (by omega) n, numeral_head hval (by omega)⟩
  · intro v
    refine ⟨length_padded 16 _, ?_⟩
    rw [value_padded (fun i hi => val_digit hi) (by decide)]
    exact Nat.mod_eq_of_lt v.isLt

/-- `%l` prints the low half of its argument. -/
theorem printf_long_truncated :
    printf (fun _ => []) ("%l".toList.map ascii) (fun _ => 4294967296) = some ("0".toList.map ascii) ∧
      render (fun _ => []) (pieces ("%l".toList.map ascii)) (fun _ => 4294967296) = "4294967296".toList.map ascii := by
  decide

end Xv6.Printf
