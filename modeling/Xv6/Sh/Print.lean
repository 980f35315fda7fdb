import Xv6.Sh.Accept

/-!
# Command lines and their trees

`parsecmd` returns a tree if and only if the grammar derives it from the tokens of the line. The
words of the tree are pointers into the line, and `nulterminate` makes each a string that ends where
its token does: it writes only where no word is.

`print` writes a tree as a command line, with parentheses only where the grammar asks for them. The
line parses to the tree again. What `runcmd` does with a tree is not modelled.
-/

namespace Xv6.Sh

open Prog List

/-! ## NUL-terminated words -/

theorem nulterminate_eq (c : Cmd Span) (buf : List Char) :
    nulterminate c buf = c.words.foldl (fun buf sp => terminate buf sp.eq) buf := by
  induction c generalizing buf with
  | exec argv => rfl
  | redir cmd file mode fd ih =>
    rw [nulterminate, ih, Cmd.words, foldl_append]
    rfl
  | pipe left right ihl ihr => rw [nulterminate, ihl, ihr, Cmd.words, foldl_append]
  | list left right ihl ihr => rw [nulterminate, ihl, ihr, Cmd.words, foldl_append]
  | back cmd ih => exact ih buf

/-- What the buffer has at an index after some ends of words have been overwritten. -/
theorem getElem?_foldl_terminate (sps : List Span) (buf : List Char) (i : Nat) :
    (sps.foldl (fun buf sp => terminate buf sp.eq) buf).length = buf.length ∧
      (sps.foldl (fun buf sp => terminate buf sp.eq) buf)[i]? =
        if i < buf.length ∧ ∃ sp ∈ sps, i = buf.length - sp.eq.length then some '\x00' else buf[i]? := by
  induction sps generalizing buf with
  | nil => simp
  | cons sp sps ih =>
    obtain ⟨hlen, hget⟩ := ih (terminate buf sp.eq)
    have hsame : (terminate buf sp.eq).length = buf.length := length_set
    rw [hsame] at hlen hget
    refine ⟨hlen, hget.trans ?_⟩
    by_cases hi : i < buf.length
    · unfold terminate
      rw [getElem?_set]
      by_cases hhead : i = buf.length - sp.eq.length
      · simp [hi, ← hhead]
      · simp [hi, hhead, Ne.symm hhead]
    · have hnone := getElem?_eq_none (Nat.le_of_not_lt hi)
      rw [if_neg (fun h => hi h.1), if_neg (fun h => hi h.1), hnone,
        getElem?_eq_none (by rw [hsame]; exact Nat.le_of_not_lt hi)]

variable {s : List Char} {tok : Tok} {ts us : List Tok} {rs : List (Redirection (List Char))}
  {ws : List (List Char)}

/-- Where a word ends there is no character of a word. -/
theorem WordOf.end_not_wordChar {sp : Span} (h : WordOf s sp) {c : Char}
    (hc : s[s.length - sp.eq.length]? = some c) : wordChar c = false := by
  obtain ⟨⟨pre, hpre⟩, w, hcut⟩ := h
  have hs : s = (pre ++ w) ++ sp.eq := by rw [← hpre, hcut.split, append_assoc]
  have hidx : s.length - sp.eq.length = (pre ++ w).length := by
    have := congrArg length hs
    rw [length_append] at this
    omega
  rw [hidx, hs, getElem?_append_right le_rfl, Nat.sub_self] at hc
  cases heq : sp.eq with
  | nil => rw [heq] at hc; cases hc
  | cons d eq =>
    rw [heq] at hc
    obtain rfl : d = c := Option.some.inj hc
    exact hcut.maximal d eq heq

/-- After `nulterminate` a word is a string. -/
theorem cstr_nulterminate (hnul : '\x00' ∉ s) {c : Cmd Span}
    (hwords : ∀ sp ∈ c.words, WordOf s sp) {sp : Span} (hsp : sp ∈ c.words) :
    cstr (nulterminate c s) sp = sp.text := by
  obtain ⟨⟨pre, hpre⟩, w, hcut⟩ := hwords sp hsp
  have hs : s = pre ++ (w ++ sp.eq) := by rw [← hpre, hcut.split]
  have hq : sp.q.length = w.length + sp.eq.length := by rw [hcut.split, length_append]
  have hlen : s.length = pre.length + (w.length + sp.eq.length) := by rw [hs, length_append, length_append]
  have hbuf := getElem?_foldl_terminate c.words s
  rw [← nulterminate_eq] at hbuf
  generalize hb : nulterminate c s = buf at hbuf
  have hkeep : (buf.drop pre.length).take w.length = w := by
    apply ext_getElem?
    intro j
    rw [getElem?_take, getElem?_drop]
    by_cases hj : j < w.length
    · have hchar : s[pre.length + j]? = some w[j] := by
        rw [hs, getElem?_append_right (Nat.le_add_right _ _), Nat.add_sub_cancel_left, getElem?_append_left hj,
          getElem?_eq_getElem hj]
      rw [if_pos hj, (hbuf _).2, if_neg, hchar, getElem?_eq_getElem hj]
      rintro ⟨-, sp', hsp', hend⟩
      rw [hend] at hchar
      have hword := hcut.inside _ (getElem_mem hj)
      rw [(hwords sp' hsp').end_not_wordChar hchar] at hword
      cases hword
    · rw [if_neg hj, getElem?_eq_none (Nat.le_of_not_lt hj)]
  have hstop : ((buf.drop pre.length).drop w.length).takeWhile (· != '\x00') = [] := by
    rw [drop_drop]
    by_cases hend : sp.eq.length = 0
    · rw [drop_eq_nil_of_le (by rw [(hbuf 0).1]; omega)]
      rfl
    · have hhead : buf[pre.length + w.length]? = some '\x00' := by
        rw [(hbuf _).2, if_pos ⟨by omega, sp, hsp, by omega⟩]
      obtain ⟨hlt, hget⟩ := List.getElem?_eq_some_iff.mp hhead
      rw [drop_eq_getElem_cons hlt, hget]
      rfl
  have hw : ∀ d ∈ w, (d != '\x00') = true := by
    intro d hd
    rw [bne_iff_ne]
    intro e
    apply hnul
    rw [hs, ← e]
    simp [hd]
  unfold cstr
  rw [(hbuf 0).1, hcut.text, show s.length - sp.q.length = pre.length by omega, ← take_append_drop w.length (buf.drop pre.length),
    hkeep, takeWhile_append_of_pos hw, hstop, append_nil]

/-! ## The parser and the grammar -/

theorem map_congr_words {W V : Type} {f g : W → V} {c : Cmd W} (h : ∀ w ∈ c.words, f w = g w) : c.map f = c.map g := by
  induction c with
  | exec argv => exact congrArg Cmd.exec (map_congr_left h)
  | redir cmd file mode fd ih =>
    simp only [Cmd.map]
    rw [ih fun w hw => h w (mem_append_left _ hw), h file (mem_append_right _ (mem_singleton_self _))]
  | pipe left right ihl ihr =>
    simp only [Cmd.map]
    rw [ihl fun w hw => h w (mem_append_left _ hw), ihr fun w hw => h w (mem_append_right _ hw)]
  | list left right ihl ihr =>
    simp only [Cmd.map]
    rw [ihl fun w hw => h w (mem_append_left _ hw), ihr fun w hw => h w (mem_append_right _ hw)]
  | back cmd ih =>
    simp only [Cmd.map]
    rw [ih h]

theorem tokens_eq_nil_of_skip (h : skip s = []) : tokens s = [] := by
  rw [← tokens_skip, h, tokens]

theorem skip_eq_nil_of_tokens (h : tokens s = []) : skip s = [] := by
  cases hq : skip s with
  | nil => rfl
  | cons c q =>
    obtain ⟨t, ht⟩ := exists_lexed (s := q) (skip_head hq)
    rw [← tokens_skip, hq, ht.tokens] at h
    cases h

/-- What `parsecmd` returns has been parsed from the whole line, and its words have been cut; or it
panics. -/
theorem parsecmd_parsed (s : List Char) :
    wp parsecmd (fun x _ => x.2 = nulterminate x.1 s ∧ ∃ s', tokens s' = [] ∧ Parsed .line s x.1 s') Panics s := by
  unfold parsecmd
  rw [wp_bind, wp_read]
  apply wp_seq ((parser_sound _).1 s le_rfl)
  intro c s₁ hc
  rw [wp_bind]
  show wp (if skip s₁ ≠ [] then _ else _) _ _ (skip s₁)
  by_cases hend : skip s₁ = []
  · rw [if_neg (not_not_intro hend)]
    exact ⟨rfl, s₁, tokens_eq_nil_of_skip hend, hc⟩
  · rw [if_pos hend]
    exact nofun

/-- The tree is derived by the tokens of the line. -/
theorem parsecmd_sound (hnul : '\x00' ∉ s) :
    wp parsecmd (fun x _ => Derives .line (tokens s) (x.1.map (cstr x.2))) Panics s := by
  apply wp_mono (parsecmd_parsed s) _ fun _ _ h => h
  rintro ⟨c, buf⟩ _ ⟨hbuf, s₁, hend, hc⟩
  obtain rfl : buf = nulterminate c s := hbuf
  obtain ⟨ts, hts, hderives⟩ := hc.derives
  rw [hts, hend, append_nil, map_congr_words fun sp hsp => cstr_nulterminate hnul hc.words hsp]
  exact hderives

theorem parsecmd_complete (hnul : '\x00' ∉ s) {t : Cmd (List Char)}
    (ht : Derives .line (tokens s) t) :
    wp parsecmd (fun x _ => x.1.map (cstr x.2) = t) never s := by
  unfold parsecmd
  rw [wp_bind, wp_read]
  have hsound := (parser_sound _).1 s le_rfl
  have hcomplete : wp (parseline (4 * s.length + 4)) (Accepted t [] s) never s :=
    parser_complete ht le_rfl (append_nil _).symm fun t us e => by cases e
  apply wp_seq (wp_mono (wp_and hcomplete hsound) (fun _ _ h => h) fun _ _ h => h.1)
  intro c s₁ hret
  obtain ⟨hc, hparsed⟩ := hret
  rw [wp_bind]
  show wp (if skip s₁ ≠ [] then _ else _) _ _ (skip s₁)
  rw [if_neg (not_not_intro (skip_eq_nil_of_tokens hc.rest))]
  show c.map (cstr (nulterminate c s)) = t
  rw [map_congr_words fun sp hsp => cstr_nulterminate hnul hparsed.words hsp, hc.tree]

theorem parse_eq_ok_iff (hnul : '\x00' ∉ s) {t : Cmd (List Char)} :
    parse s = .ok t ↔ Derives .line (tokens s) t := by
  have hsound := parsecmd_sound hnul
  unfold wp at hsound
  constructor
  · intro h
    unfold parse at h
    cases hp : parsecmd s with
    | ok x s' =>
      rw [hp] at h hsound
      obtain rfl := Except.ok.inj h
      exact hsound
    | stop e s' => rw [hp] at h; cases h
  · intro h
    obtain ⟨x, s', hp, hx⟩ := wp_returns (parsecmd_complete hnul h)
    unfold parse
    rw [hp]
    exact congrArg Except.ok hx

theorem parse_panics (hnul : '\x00' ∉ s) {e : Stop} (h : parse s = .error e) : e ≠ .fuel := by
  have hsound := parsecmd_sound hnul
  unfold wp at hsound
  unfold parse at h
  cases hp : parsecmd s with
  | ok x s' => rw [hp] at h; cases h
  | stop e' s' =>
    rw [hp] at h hsound
    obtain rfl := Except.error.inj h
    exact hsound

/-! ## Printing -/

/-- A string that is a word of a command line. -/
def IsWord (w : List Char) : Prop := w ≠ [] ∧ ∀ c ∈ w, wordChar c = true ∧ c ≠ '\x00'

/-- The trees of command lines. -/
inductive WellFormed : Cmd (List Char) → Prop
  | exec {ws : List (List Char)} (hws : ∀ w ∈ ws, IsWord w) (hmax : ws.length ≤ MAXARGS - 1) : WellFormed (.exec ws)
  | redir {t : Cmd (List Char)} {w : List Char} {tok : Tok} {mode fd : Nat} (ht : WellFormed t) (hw : IsWord w)
      (htok : redirection tok = some (mode, fd)) : WellFormed (.redir t w mode fd)
  | pipe {t u : Cmd (List Char)} (ht : WellFormed t) (hu : WellFormed u) : WellFormed (.pipe t u)
  | list {t u : Cmd (List Char)} (ht : WellFormed t) (hu : WellFormed u) : WellFormed (.list t u)
  | back {t : Cmd (List Char)} (ht : WellFormed t) : WellFormed (.back t)

/-- The token of a redirection. -/
def redirTok (mode : Nat) : Tok :=
  if mode = O_RDONLY then .lt else if mode = O_WRONLY ||| O_CREATE ||| O_TRUNC then .gt else .gtgt

theorem redirection_redirTok {mode fd : Nat} (h : redirection tok = some (mode, fd)) :
    redirection (redirTok mode) = some (mode, fd) := by
  cases tok with
  | lt => cases h; rfl
  | gt => cases h; rfl
  | gtgt => cases h; rfl
  | _ => cases h

/-- How loosely a command binds: as a command, as a pipe, as a pipe with `&`s, as a line. -/
def looseness : Cmd (List Char) → Nat
  | .exec _ => 0
  | .redir .. => 0
  | .pipe .. => 1
  | .back _ => 2
  | .list .. => 3

/-- Parentheses around what binds more loosely than its place allows. -/
def guard (n : Nat) (t : Cmd (List Char)) (ts : List Tok) : List Tok :=
  if looseness t ≤ n then ts else .lpar :: (ts ++ [.rpar])

/-- The tokens of a tree. -/
def printTokens : Cmd (List Char) → List Tok
  | .exec ws => ws.map .word
  | .redir t w mode _ => guard 0 t (printTokens t) ++ [redirTok mode, .word w]
  | .pipe t u => guard 0 t (printTokens t) ++ .bar :: guard 1 u (printTokens u)
  | .back t => guard 2 t (printTokens t) ++ [.amp]
  | .list t u => guard 2 t (printTokens t) ++ .semi :: printTokens u

def spell : Tok → List Char
  | .gtgt => ['>', '>']
  | .word w => w
  | t => [t.ret]

/-- A tree as a command line. -/
def print (t : Cmd (List Char)) : List Char := (printTokens t).flatMap fun tok => spell tok ++ [' ']

/-! What is printed is derived. -/

theorem Redirs.append {rs' : List (Redirection (List Char))} (h : Redirs ts rs)
    (h' : Redirs us rs') : Redirs (ts ++ us) (rs ++ rs') := by
  induction h with
  | nil => exact h'
  | cons ht _ ih => exact .cons ht ih

/-- A redirection at the end of words belongs to the last one, or to those before the first. -/
theorem args_append {rs' : List (Redirection (List Char))} (h : Args ts ws rs)
    (h' : Redirs us rs') : ts = [] ∧ ws = [] ∧ rs = [] ∨ Args (ts ++ us) ws (rs ++ rs') := by
  induction h with
  | nil => exact .inl ⟨rfl, rfl, rfl⟩
  | @cons w ts vs ws rs rs'' hredirs hrest ih =>
    refine .inr ?_
    rcases ih with ⟨rfl, rfl, rfl⟩ | ih
    · have hword : Args (.word w :: ((ts ++ us) ++ [])) [w] ((rs ++ rs') ++ []) := .cons (hredirs.append h') .nil
      simpa using hword
    · have hword := Args.cons (w := w) hredirs ih
      simpa using hword

theorem wrap_concat (t : Cmd (List Char)) (rs : List (Redirection (List Char))) (r : Redirection (List Char)) :
    wrap t (rs ++ [r]) = .redir (wrap t rs) r.file r.mode r.fd := by
  rw [wrap_append]
  rfl

theorem Derives.redir {t : Cmd (List Char)} (h : Derives .exec ts t) {w : List Char}
    {mode fd : Nat} (htok : redirection tok = some (mode, fd)) :
    Derives .exec (ts ++ [tok, .word w]) (.redir t w mode fd) := by
  have hlast : Redirs [tok, .word w] [⟨w, mode, fd⟩] := .cons htok .nil
  generalize hnt : Nonterminal.exec = nt at h
  cases h with
  | @block ts us t rs hline hredirs =>
    have hblock := Derives.block hline (hredirs.append hlast)
    rw [wrap_concat] at hblock
    simpa using hblock
  | @args ts us ws rs rs' hredirs hargs hmax =>
    rcases args_append hargs hlast with ⟨rfl, rfl, rfl⟩ | hargs
    · have h := Derives.args (hredirs.append hlast) .nil hmax
      rw [append_nil, append_nil, wrap_concat] at h
      simpa using h
    · have h := Derives.args hredirs hargs hmax
      rw [← append_assoc rs, wrap_concat] at h
      simpa using h
  | _ => cases hnt

/-- A tree is derived in parentheses wherever it is derived as a line. -/
theorem Derives.paren {t : Cmd (List Char)} (h : Derives .line ts t) :
    Derives .exec (.lpar :: (ts ++ [.rpar])) t :=
  .block h .nil

/-- `pipe '&'*` -/
def Backs (ts : List Tok) (t : Cmd (List Char)) : Prop :=
  ∃ n us u, Derives .pipe us u ∧ ts = us ++ replicate n .amp ∧ t = Cmd.back^[n] u

theorem Derives.toBacks {t : Cmd (List Char)} (h : Derives .pipe ts t) : Backs ts t :=
  ⟨0, ts, t, h, (append_nil _).symm, rfl⟩

theorem Backs.line {t : Cmd (List Char)} (h : Backs ts t) : Derives .line ts t := by
  obtain ⟨n, us, u, hu, rfl, rfl⟩ := h
  exact .backs n hu

theorem Backs.amp {t : Cmd (List Char)} (h : Backs ts t) : Backs (ts ++ [.amp]) (.back t) := by
  obtain ⟨n, us, u, hu, rfl, rfl⟩ := h
  refine ⟨n + 1, us, u, hu, ?_, ?_⟩
  · rw [append_assoc, replicate_succ']
  · exact (Function.iterate_succ_apply' Cmd.back n u).symm

theorem Backs.semi {t u : Cmd (List Char)} (h : Backs ts t) (hu : Derives .line us u) :
    Derives .line (ts ++ .semi :: us) (.list t u) := by
  obtain ⟨n, vs, v, hv, rfl, rfl⟩ := h
  exact .list n hv hu

theorem args_words : Args (ws.map .word) ws [] := by
  induction ws with
  | nil => exact .nil
  | cons w ws ih => exact .cons .nil ih

/-- How a printed tree is derived, by its looseness. -/
structure Printed (t : Cmd (List Char)) : Prop where
  exec : looseness t ≤ 0 → Derives .exec (printTokens t) t
  pipe : looseness t ≤ 1 → Derives .pipe (printTokens t) t
  backs : looseness t ≤ 2 → Backs (printTokens t) t
  line : Derives .line (printTokens t) t

theorem Printed.of_exec {t : Cmd (List Char)} (h : Derives .exec (printTokens t) t) : Printed t :=
  ⟨fun _ => h, fun _ => .exec h, fun _ => h.exec.toBacks, h.exec.toBacks.line⟩

variable {t : Cmd (List Char)}

theorem Printed.guard_exec (h : Printed t) : Derives .exec (guard 0 t (printTokens t)) t := by
  unfold guard
  split
  next hle => exact h.exec hle
  next => exact h.line.paren

theorem Printed.guard_pipe (h : Printed t) : Derives .pipe (guard 1 t (printTokens t)) t := by
  unfold guard
  split
  next hle => exact h.pipe hle
  next => exact .exec h.line.paren

theorem Printed.guard_backs (h : Printed t) : Backs (guard 2 t (printTokens t)) t := by
  unfold guard
  split
  next hle => exact h.backs hle
  next => exact h.line.paren.exec.toBacks

theorem WellFormed.printed (h : WellFormed t) : Printed t := by
  induction h with
  | exec _ hmax => exact .of_exec (.args .nil args_words hmax)
  | redir _ _ htok ih => exact .of_exec (ih.guard_exec.redir (redirection_redirTok htok))
  | pipe _ _ iht ihu =>
    have h := Derives.pipe iht.guard_exec ihu.guard_pipe
    exact ⟨fun hle => by simp [looseness] at hle, fun _ => h, fun _ => h.toBacks, h.toBacks.line⟩
  | list _ _ iht ihu =>
    exact ⟨fun hle => by simp [looseness] at hle, fun hle => by simp [looseness] at hle, fun hle => by simp [looseness] at hle,
      iht.guard_backs.semi ihu.line⟩
  | back _ ih =>
    have h := ih.guard_backs.amp
    exact ⟨fun hle => by simp [looseness] at hle, fun hle => by simp [looseness] at hle, fun _ => h, h.line⟩

/-! The printed line has the tokens that were printed. -/

def Spellable : Tok → Prop
  | .word w => IsWord w
  | _ => True

theorem tokens_blank (s : List Char) : tokens (' ' :: s) = tokens s := by
  rw [tokens]
  rfl

/-- A token with a blank after it is a token. -/
theorem tokens_spell (h : Spellable tok) (s : List Char) :
    tokens (spell tok ++ ' ' :: s) = tok :: tokens s := by
  cases tok with
  | word w =>
    obtain ⟨hne, hall⟩ := h
    obtain ⟨c, w, rfl⟩ := exists_cons_of_ne_nil hne
    have hc := (hall c (mem_cons_self ..)).1
    have hw : ∀ d ∈ w, wordChar d = true := fun d hd => (hall d (mem_cons_of_mem c hd)).1
    have hblank : wordChar ' ' = false := by decide
    have hwhite : white c = false := by
      unfold wordChar at hc
      unfold white
      simpa using (Bool.and_eq_true_iff.mp hc).1
    have hnot : c ∉ symbols := by
      unfold wordChar at hc
      simpa using (Bool.and_eq_true_iff.mp hc).2
    have hgt : c ≠ '>' := fun e => hnot (by rw [e]; decide)
    have hsingle : Tok.single c = none := by
      unfold symbols at hnot
      simp only [mem_cons, not_or] at hnot
      simp [Tok.single, hnot]
    show tokens (c :: (w ++ ' ' :: s)) = _
    rw [tokens, hsingle, if_neg (by rw [hwhite]; exact Bool.false_ne_true), if_neg hgt]
    simp only
    rw [takeWhile_append_of_pos hw, dropWhile_append_of_pos hw,
      takeWhile_cons_of_neg (by rw [hblank]; exact Bool.false_ne_true),
      dropWhile_cons_of_neg (by rw [hblank]; exact Bool.false_ne_true), append_nil, tokens_blank]
  | gtgt =>
    show tokens ('>' :: '>' :: ' ' :: s) = _
    rw [tokens, ← tokens_blank s]
    rfl
  | gt =>
    show tokens ('>' :: ' ' :: s) = _
    rw [tokens, ← tokens_blank s]
    rfl
  | _ =>
    rw [← tokens_blank s]
    exact (lexed_single rfl _).tokens

theorem tokens_spell_all (h : ∀ tok ∈ ts, Spellable tok) :
    tokens (ts.flatMap fun tok => spell tok ++ [' ']) = ts := by
  induction ts with
  | nil =>
    show tokens [] = []
    rw [tokens]
  | cons tok ts ih =>
    have hrest := ih fun t ht => h t (mem_cons_of_mem tok ht)
    rw [flatMap_cons, append_assoc, singleton_append, tokens_spell (h tok (mem_cons_self ..)), hrest]

theorem spellable_redirTok (mode : Nat) : Spellable (redirTok mode) := by
  unfold redirTok
  split
  · trivial
  · split <;> trivial

theorem spellable_guard {n : Nat} (h : ∀ tok ∈ ts, Spellable tok) :
    ∀ tok ∈ guard n t ts, Spellable tok := by
  unfold guard
  split
  · exact h
  · intro tok htok
    simp only [mem_cons, mem_append, not_mem_nil, or_false] at htok
    rcases htok with rfl | htok | rfl
    · trivial
    · exact h tok htok
    · trivial

theorem WellFormed.spellable (h : WellFormed t) : ∀ tok ∈ printTokens t, Spellable tok := by
  induction h with
  | exec hws _ =>
    intro tok htok
    obtain ⟨w, hw, rfl⟩ := mem_map.mp htok
    exact hws w hw
  | redir _ hw _ ih =>
    intro tok htok
    simp only [printTokens, mem_append, mem_cons, not_mem_nil, or_false] at htok
    rcases htok with htok | rfl | rfl
    · exact spellable_guard ih tok htok
    · exact spellable_redirTok _
    · exact hw
  | pipe _ _ iht ihu =>
    intro tok htok
    simp only [printTokens, mem_append, mem_cons] at htok
    rcases htok with htok | rfl | htok
    · exact spellable_guard iht tok htok
    · trivial
    · exact spellable_guard ihu tok htok
  | list _ _ iht ihu =>
    intro tok htok
    simp only [printTokens, mem_append, mem_cons] at htok
    rcases htok with htok | rfl | htok
    · exact spellable_guard iht tok htok
    · trivial
    · exact ihu tok htok
  | back _ ih =>
    intro tok htok
    simp only [printTokens, mem_append, mem_cons, not_mem_nil, or_false] at htok
    rcases htok with htok | rfl
    · exact spellable_guard ih tok htok
    · trivial

theorem nul_notMem_print (h : WellFormed t) : '\x00' ∉ print t := by
  intro hmem
  obtain ⟨tok, htok, hc⟩ := mem_flatMap.mp hmem
  have hspell := h.spellable tok htok
  cases tok with
  | word w =>
    rcases mem_append.mp hc with hc | hc
    · exact (hspell.2 _ hc).2 rfl
    · exact absurd hc (by decide)
  | _ => exact absurd hc (by decide)

/-! The trees that are derived are well formed. -/

theorem isWord_of_mem_tokens (hnul : '\x00' ∉ s) {w : List Char} (hw : .word w ∈ tokens s) :
    IsWord w := by
  obtain ⟨q, ⟨pre, hpre⟩, hq⟩ := exists_lexed_of_mem hw
  obtain ⟨hne, hall⟩ := hq.valid
  refine ⟨hne, fun c hc => ⟨hall c hc, fun e => hnul ?_⟩⟩
  have hsplit := (hq.cut w rfl).split
  rw [← hpre, ← e, show q = w ++ (lex q).2 from hsplit]
  simp [hc]

/-- All words among the tokens can be printed. -/
def AllWords (ts : List Tok) : Prop := ∀ w, .word w ∈ ts → IsWord w

theorem Redirs.wellFormed (h : Redirs ts rs) (hts : AllWords ts) {t : Cmd (List Char)}
    (ht : WellFormed t) : WellFormed (wrap t rs) := by
  induction h generalizing t with
  | nil => exact ht
  | cons htok _ ih =>
    refine ih (fun w hw => hts w ?_) (.redir ht (hts _ ?_) htok)
    · exact mem_cons_of_mem _ (mem_cons_of_mem _ hw)
    · exact mem_cons_of_mem _ (mem_cons_self ..)

theorem Args.isWord (h : Args ts ws rs) (hts : AllWords ts) : ∀ w ∈ ws, IsWord w := by
  induction h with
  | nil => exact fun w hw => by cases hw
  | cons _ _ ih =>
    intro w hw
    rcases mem_cons.mp hw with rfl | hw
    · exact hts w (mem_cons_self ..)
    · exact ih (fun v hv => hts v (mem_cons_of_mem _ (mem_append_right _ hv))) w hw

theorem Args.wellFormed (h : Args ts ws rs) (hts : AllWords ts) {t : Cmd (List Char)}
    (ht : WellFormed t) : WellFormed (wrap t rs) := by
  induction h generalizing t with
  | nil => exact ht
  | cons hredirs _ ih =>
    rw [wrap_append]
    apply ih
    · exact fun v hv => hts v (mem_cons_of_mem _ (mem_append_right _ hv))
    · exact hredirs.wellFormed (fun v hv => hts v (mem_cons_of_mem _ (mem_append_left _ hv))) ht

theorem WellFormed.iterate_back (h : WellFormed t) (n : Nat) : WellFormed (Cmd.back^[n] t) := by
  induction n generalizing t with
  | zero => exact h
  | succ n ih => exact ih (.back h)

theorem Derives.wellFormed {nt : Nonterminal} (h : Derives nt ts t) (hts : AllWords ts) :
    WellFormed t := by
  induction h with
  | block _ hredirs ih =>
    apply hredirs.wellFormed
    · exact fun w hw => hts w (by simp [hw])
    · exact ih fun w hw => hts w (by simp [hw])
  | args hredirs hargs hmax =>
    rw [wrap_append]
    apply hargs.wellFormed
    · exact fun w hw => hts w (mem_append_right _ hw)
    · apply hredirs.wellFormed
      · exact fun w hw => hts w (mem_append_left _ hw)
      · exact .exec (hargs.isWord fun w hw => hts w (mem_append_right _ hw)) hmax
  | exec _ ih => exact ih hts
  | pipe _ _ ihe ihp =>
    apply WellFormed.pipe
    · exact ihe fun w hw => hts w (mem_append_left _ hw)
    · exact ihp fun w hw => hts w (mem_append_right _ (mem_cons_of_mem _ hw))
  | backs n _ ih => exact (ih fun w hw => hts w (mem_append_left _ hw)).iterate_back n
  | list n _ _ ihp ihl =>
    apply WellFormed.list
    · exact (ihp fun w hw => hts w (by simp [hw])).iterate_back n
    · exact ihl fun w hw => hts w (by simp [hw])

/-! ## The whole of it -/

/-- The parser returns or panics on every line. It returns the tree that the grammar derives from
the tokens of the line, and it panics when there is none. A tree that it returns, printed, is parsed
to itself. -/
theorem parser_accepts_grammar (s : List Char) (hnul : '\x00' ∉ s) :
    (∀ t, parse s = .ok t ↔ Derives .line (tokens s) t) ∧
    ((¬ ∃ t, Derives .line (tokens s) t) → ∃ e, parse s = .error e ∧ e ≠ .fuel) ∧
    ∀ t, Derives .line (tokens s) t → parse (print t) = .ok t := by
  refine ⟨fun t => parse_eq_ok_iff hnul, fun hno => ?_, fun t ht => ?_⟩
  · cases hp : parse s with
    | ok t => exact absurd ⟨t, (parse_eq_ok_iff hnul).mp hp⟩ hno
    | error e => exact ⟨e, rfl, parse_panics hnul hp⟩
  · have hwf : WellFormed t := ht.wellFormed fun w hw => isWord_of_mem_tokens hnul hw
    rw [parse_eq_ok_iff (nul_notMem_print hwf)]
    unfold print
    rw [tokens_spell_all hwf.spellable]
    exact hwf.printed.line

/-- `a >b&;(c|d)<e` -/
theorem parser_accepts_grammar_list :
    Derives .line (tokens "a >b&;(c|d)<e".toList)
      (.list (.back (.redir (.exec [['a']]) ['b'] (O_WRONLY ||| O_CREATE ||| O_TRUNC) 1))
        (.redir (.pipe (.exec [['c']]) (.exec [['d']])) ['e'] O_RDONLY 0)) :=
  ((parser_accepts_grammar _ (by decide)).1 _).mp (by decide +kernel)

end Xv6.Sh
