import Mathlib.Data.List.TakeWhile
import Xv6.Lib.Prog

/-!
# The shell's tokens

`gettoken` and `peek` of `sh.c`. A pointer into the command line is what follows it there, up to the
end `es`, so that the cursor `*ps` is the rest of the line. The line has no NUL in it, and at its
end the code reads the NUL that ends it.

`tokens` cuts a line into tokens by maximal munch, and the two functions are shown to go along it.
-/

namespace Xv6.Sh

open Prog List

def whitespace : List Char := [' ', '\t', '\r', '\n', '\x0b']

def symbols : List Char := ['<', '|', '>', '&', ';', '(', ')']

/-- `strchr(whitespace, c)` -/
def white (c : Char) : Bool := whitespace.contains c

/-- What a word is made of. -/
def wordChar (c : Char) : Bool := !whitespace.contains c && !symbols.contains c

/-- The ways in which the parser gives up. -/
inductive Stop
  | leftovers (s : List Char)
  | missingFile
  | parseblock
  | missingParen
  | notWord
  | tooManyArgs
  /-- the bound on the recursion of the model is used up -/
  | fuel
  deriving DecidableEq, Repr

/-- A function with the cursor `*ps`. -/
abbrev Parser := Prog (List Char) Stop

/-- `while(s < es && strchr(whitespace, *s)) s++;` -/
def skip (s : List Char) : List Char := s.dropWhile white

/-- Whether `*s` is one of `toks`; it is not at the end of the line. -/
def startsWith (toks : List Char) : List Char → Bool
  | [] => false
  | c :: _ => toks.contains c

def peek (toks : List Char) : Parser Bool := do
  change skip
  read (startsWith toks)

/-- The part of the line from `q` up to `eq`. -/
structure Span where
  q : List Char
  eq : List Char
  deriving DecidableEq, Repr

def Span.text (sp : Span) : List Char := sp.q.take (sp.q.length - sp.eq.length)

/-- What `gettoken` returns, and what it stores in `*q` and `*eq`. -/
structure Token extends Span where
  ret : Char
  deriving DecidableEq, Repr

/-- The `switch` of `gettoken`: the code of the token at `s`, and its end. -/
def lex : List Char → Char × List Char
  | [] => ('\x00', [])
  | c :: s =>
    if ['|', '(', ')', ';', '&', '<'].contains c then (c, s)
    else if c = '>' then if s.head? = some '>' then ('+', s.tail) else ('>', s)
    else ('a', (c :: s).dropWhile wordChar)

def gettoken : Parser Token := do
  let q ← read skip
  change fun _ => skip (lex q).2
  return { ret := (lex q).1, q := q, eq := (lex q).2 }

/-! ## Maximal munch -/

inductive Tok
  | bar
  | lpar
  | rpar
  | semi
  | amp
  | lt
  | gt
  | gtgt
  | word (w : List Char)
  deriving DecidableEq, Repr

namespace Tok

/-- The symbols that are tokens whatever follows them. -/
def single (c : Char) : Option Tok :=
  if c = '|' then some bar
  else if c = '(' then some lpar
  else if c = ')' then some rpar
  else if c = ';' then some semi
  else if c = '&' then some amp
  else if c = '<' then some lt
  else none

/-- What `gettoken` returns for a token. -/
def ret : Tok → Char
  | bar => '|'
  | lpar => '('
  | rpar => ')'
  | semi => ';'
  | amp => '&'
  | lt => '<'
  | gt => '>'
  | gtgt => '+'
  | word _ => 'a'

/-- The first character of a token. -/
def first : Tok → Char
  | gtgt => '>'
  | word w => w.headD 'a'
  | t => t.ret

/-- A word is not empty, and has neither blanks nor symbols in it. -/
def Valid : Tok → Prop
  | word w => w ≠ [] ∧ ∀ c ∈ w, wordChar c = true
  | _ => True

end Tok

/-- The tokens of a line. -/
def tokens : List Char → List Tok
  | [] => []
  | c :: s =>
    if white c then tokens s
    else if c = '>' then if s.head? = some '>' then .gtgt :: tokens s.tail else .gt :: tokens s
    else match Tok.single c with
      | some t => t :: tokens s
      | none => .word (c :: s.takeWhile wordChar) :: tokens (s.dropWhile wordChar)
termination_by s => s.length
decreasing_by
  all_goals simp only [length_cons, length_tail]
  · omega
  · omega
  · omega
  · omega
  · have := (dropWhile_sublist wordChar (l := s)).length_le
    omega

theorem tokens_skip (s : List Char) : tokens (skip s) = tokens s := by
  unfold skip
  induction s with
  | nil => rfl
  | cons c s ih =>
    by_cases hc : white c = true
    · rw [dropWhile_cons_of_pos hc, ih, tokens, if_pos hc]
    · rw [dropWhile_cons_of_neg hc]

variable {s : List Char} {c : Char} {t : Tok}

theorem skip_head {s' : List Char} (h : skip s = c :: s') : white c = false := by
  have := head?_dropWhile_not white s
  unfold skip at h
  rw [h] at this
  simpa using this

/-- The end of a word is where no more of it follows. -/
structure Cut (sp : Span) (w : List Char) : Prop where
  split : sp.q = w ++ sp.eq
  inside : ∀ c ∈ w, wordChar c = true
  maximal : ∀ c s, sp.eq = c :: s → wordChar c = false

theorem Cut.text {sp : Span} {w : List Char} (h : Cut sp w) : sp.text = w := by
  unfold Span.text
  rw [h.split, length_append, Nat.add_sub_cancel, take_left]

/-- What `lex` takes from a line that does not start with a blank is its first token. -/
structure Lexed (s : List Char) (t : Tok) : Prop where
  tokens : tokens s = t :: tokens (lex s).2
  ret : (lex s).1 = t.ret
  first : s.head? = some t.first
  suffix : (lex s).2 <:+ s
  shorter : (lex s).2.length < s.length
  valid : t.Valid
  cut : ∀ w, t = .word w → Cut ⟨s, (lex s).2⟩ w

theorem lexed_single (h : Tok.single c = some t) (s : List Char) : Lexed (c :: s) t := by
  have hcases : c = '|' ∧ t = .bar ∨ c = '(' ∧ t = .lpar ∨ c = ')' ∧ t = .rpar ∨ c = ';' ∧ t = .semi ∨
      c = '&' ∧ t = .amp ∨ c = '<' ∧ t = .lt := by
    unfold Tok.single at h
    repeat' split at h
    all_goals simp_all
  have hlex : lex (c :: s) = (c, s) := by
    rcases hcases with ⟨rfl, -⟩ | ⟨rfl, -⟩ | ⟨rfl, -⟩ | ⟨rfl, -⟩ | ⟨rfl, -⟩ | ⟨rfl, -⟩ <;> rfl
  have htokens : Sh.tokens (c :: s) = t :: Sh.tokens s := by
    rw [Sh.tokens, h]
    rcases hcases with ⟨rfl, -⟩ | ⟨rfl, -⟩ | ⟨rfl, -⟩ | ⟨rfl, -⟩ | ⟨rfl, -⟩ | ⟨rfl, -⟩ <;> rfl
  constructor
  · rw [hlex, htokens]
  · rw [hlex]
    rcases hcases with ⟨rfl, rfl⟩ | ⟨rfl, rfl⟩ | ⟨rfl, rfl⟩ | ⟨rfl, rfl⟩ | ⟨rfl, rfl⟩ | ⟨rfl, rfl⟩ <;> rfl
  · rcases hcases with ⟨rfl, rfl⟩ | ⟨rfl, rfl⟩ | ⟨rfl, rfl⟩ | ⟨rfl, rfl⟩ | ⟨rfl, rfl⟩ | ⟨rfl, rfl⟩ <;> rfl
  · rw [hlex]
    exact suffix_cons c s
  · rw [hlex]
    exact Nat.lt_succ_self _
  · rcases hcases with ⟨-, rfl⟩ | ⟨-, rfl⟩ | ⟨-, rfl⟩ | ⟨-, rfl⟩ | ⟨-, rfl⟩ | ⟨-, rfl⟩ <;> trivial
  · intro w hw
    rw [hw] at hcases
    simp at hcases

theorem lexed_gt (s : List Char) : ∃ t, Lexed ('>' :: s) t := by
  have hlex : lex ('>' :: s) = if s.head? = some '>' then ('+', s.tail) else ('>', s) := rfl
  have htokens : tokens ('>' :: s) = if s.head? = some '>' then .gtgt :: tokens s.tail else .gt :: tokens s := by
    rw [tokens]
    rfl
  by_cases hs : s.head? = some '>'
  · rw [if_pos hs] at hlex htokens
    refine ⟨.gtgt, ⟨by rw [hlex, htokens], by rw [hlex]; rfl, rfl, ?_, ?_, trivial, by simp⟩⟩
    · rw [hlex]
      exact (tail_suffix s).trans (suffix_cons _ s)
    · rw [hlex]
      simp only [length_tail, length_cons]
      omega
  · rw [if_neg hs] at hlex htokens
    refine ⟨.gt, ⟨by rw [hlex, htokens], by rw [hlex]; rfl, rfl, ?_, ?_, trivial, by simp⟩⟩
    · rw [hlex]
      exact suffix_cons _ s
    · rw [hlex]
      exact Nat.lt_succ_self _

theorem single_eq_none (h : Tok.single c = none) :
    ['|', '(', ')', ';', '&', '<'].contains c = false := by
  unfold Tok.single at h
  repeat' split at h
  all_goals simp_all

theorem lexed_word (hwhite : white c = false) (hgt : c ≠ '>') (hsingle : Tok.single c = none) :
    Lexed (c :: s) (.word (c :: s.takeWhile wordChar)) := by
  have hother := single_eq_none hsingle
  have hc : wordChar c = true := by
    unfold wordChar symbols
    unfold white at hwhite
    rw [hwhite]
    simp only [contains_eq_mem, mem_cons, decide_eq_false_iff_not, not_or] at hother ⊢
    simp [hother, hgt]
  have hlex : lex (c :: s) = ('a', s.dropWhile wordChar) := by
    show (if ['|', '(', ')', ';', '&', '<'].contains c then _ else _) = _
    rw [hother, if_neg (by simp), if_neg hgt, dropWhile_cons_of_pos hc]
  constructor
  · rw [hlex, Sh.tokens, hsingle]
    simp only [hwhite, hgt, if_false, Bool.false_eq_true]
  · rw [hlex]
    rfl
  · rfl
  · rw [hlex]
    exact (dropWhile_suffix wordChar).trans (suffix_cons c s)
  · rw [hlex]
    exact Nat.lt_succ_of_le (dropWhile_sublist wordChar).length_le
  · refine ⟨cons_ne_nil _ _, fun d hd => ?_⟩
    rcases mem_cons.mp hd with rfl | hd
    · exact hc
    · exact mem_takeWhile_imp hd
  · intro w hw
    cases hw
    rw [hlex]
    refine ⟨?_, fun d hd => ?_, fun d s' hd => ?_⟩
    · exact congrArg (c :: ·) takeWhile_append_dropWhile.symm
    · rcases mem_cons.mp hd with rfl | hd
      · exact hc
      · exact mem_takeWhile_imp hd
    · have hnot := head?_dropWhile_not wordChar s
      rw [show s.dropWhile wordChar = d :: s' from hd] at hnot
      simpa using hnot

theorem exists_lexed (hwhite : white c = false) : ∃ t, Lexed (c :: s) t := by
  by_cases hgt : c = '>'
  · rw [hgt]
    exact lexed_gt s
  · cases hsingle : Tok.single c with
    | some t => exact ⟨t, lexed_single hsingle s⟩
    | none => exact ⟨_, lexed_word hwhite hgt hsingle⟩

/-! ## The two functions -/

/-- What `gettoken` says about the line `s` from which it leaves `s'`. -/
inductive Got (s : List Char) (x : Token) (s' : List Char) : Prop
  | eol (tokens : tokens s = []) (ret : x.ret = '\x00') (rest : s' = [])
  | tok (t : Tok) (tokens : tokens s = t :: Sh.tokens s') (ret : x.ret = t.ret) (valid : t.Valid)
      (suffix : s' <:+ s) (shorter : s'.length < s.length) (inside : x.q <:+ s)
      (cut : ∀ w, t = .word w → Cut x.toSpan w)

theorem gettoken_spec (s : List Char) : wp gettoken (Got s) never s := by
  have hskip : skip s <:+ s := dropWhile_suffix white
  show Got s { ret := (lex (skip s)).1, q := skip s, eq := (lex (skip s)).2 } (skip (lex (skip s)).2)
  cases hq : skip s with
  | nil =>
    refine .eol ?_ rfl rfl
    rw [← tokens_skip, hq, tokens]
  | cons c q =>
    obtain ⟨t, ht⟩ := exists_lexed (s := q) (skip_head hq)
    rw [hq] at hskip
    have hrest : skip (lex (c :: q)).2 <:+ (lex (c :: q)).2 := dropWhile_suffix white
    refine .tok t ?_ ht.ret ht.valid (hrest.trans (ht.suffix.trans hskip)) ?_ hskip ht.cut
    · rw [tokens_skip, ← tokens_skip s, hq]
      exact ht.tokens
    · have := hrest.length_le
      have := hskip.length_le
      have := ht.shorter
      omega

/-- `peek` looks at the first token. -/
theorem peek_spec (toks : List Char) (s : List Char) :
    wp (peek toks) (fun b s' => tokens s' = tokens s ∧ s' <:+ s ∧
      b = match tokens s with
        | [] => false
        | t :: _ => toks.contains t.first) never s := by
  have hskip : skip s <:+ s := dropWhile_suffix white
  refine ⟨tokens_skip s, hskip, ?_⟩
  show startsWith toks (skip s) = _
  rw [← tokens_skip]
  cases hq : skip s with
  | nil =>
    rw [tokens]
    rfl
  | cons c q =>
    obtain ⟨t, ht⟩ := exists_lexed (s := q) (skip_head hq)
    rw [ht.tokens]
    show toks.contains c = toks.contains t.first
    rw [Option.some.inj ht.first]

/-- A word starts with none of the symbols. -/
theorem Tok.Valid.first_word {w : List Char} (h : (word w).Valid) (hc : c ∈ symbols) :
    (word w).first ≠ c := by
  obtain ⟨hne, hall⟩ := h
  cases w with
  | nil => exact absurd rfl hne
  | cons d w =>
    intro e
    have hd := hall d (mem_cons_self ..)
    have : d = c := e
    rw [this] at hd
    unfold wordChar at hd
    simp [hc] at hd

/-- Every token is taken from somewhere on the line. -/
theorem exists_lexed_of_mem (ht : t ∈ tokens s) : ∃ q, q <:+ s ∧ Lexed q t := by
  induction hn : s.length using Nat.strong_induction_on generalizing s with
  | _ n ih =>
    rw [← tokens_skip] at ht
    have hskip : skip s <:+ s := dropWhile_suffix white
    cases hq : skip s with
    | nil =>
      rw [hq, tokens] at ht
      cases ht
    | cons c q =>
      obtain ⟨t', ht'⟩ := exists_lexed (s := q) (skip_head hq)
      rw [hq] at hskip ht
      rw [ht'.tokens] at ht
      rcases mem_cons.mp ht with rfl | ht
      · exact ⟨c :: q, hskip, ht'⟩
      · have hlt := ht'.shorter
        have hle := hskip.length_le
        obtain ⟨q', hsuffix, hlexed⟩ := ih _ (by omega) ht rfl
        exact ⟨q', hsuffix.trans (ht'.suffix.trans hskip), hlexed⟩

theorem valid_of_mem_tokens (ht : t ∈ tokens s) : t.Valid := by
  obtain ⟨q, -, hq⟩ := exists_lexed_of_mem ht
  exact hq.valid

end Xv6.Sh
