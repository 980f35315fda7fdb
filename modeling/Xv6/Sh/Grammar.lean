import Mathlib.Logic.Function.Iterate
import Xv6.Sh.Parse

/-!
# The shell's grammar

`Derives` is the grammar of command lines, with the tree that each production builds:

    line  ::= pipe '&'* [';' line]
    pipe  ::= exec ['|' pipe]
    exec  ::= '(' line ')' redir* | redir* (word redir*)*
    redir ::= ('<' | '>' | '>>') word

What the parser returns is derived by the tokens that it has consumed, and it always returns or
panics.
-/

namespace Xv6.Sh

open Prog List

/-! ## Derivations -/

structure Redirection (W : Type) where
  file : W
  mode : Nat
  fd : Nat

/-- The mode and the descriptor that a redirection is for. -/
def redirection : Tok → Option (Nat × Nat)
  | .lt => some (O_RDONLY, 0)
  | .gt => some (O_WRONLY ||| O_CREATE ||| O_TRUNC, 1)
  | .gtgt => some (O_WRONLY ||| O_CREATE, 1)
  | _ => none

/-- Each later redirection is around the earlier ones. -/
def wrap {W : Type} (cmd : Cmd W) (rs : List (Redirection W)) : Cmd W :=
  rs.foldl (fun c r => .redir c r.file r.mode r.fd) cmd

/-- `redir*` -/
inductive Redirs : List Tok → List (Redirection (List Char)) → Prop
  | nil : Redirs [] []
  | cons {t : Tok} {w : List Char} {mode fd : Nat} {ts : List Tok} {rs : List (Redirection (List Char))}
      (ht : redirection t = some (mode, fd)) (hrest : Redirs ts rs) : Redirs (t :: .word w :: ts) (⟨w, mode, fd⟩ :: rs)

/-- `(word redir*)*` -/
inductive Args : List Tok → List (List Char) → List (Redirection (List Char)) → Prop
  | nil : Args [] [] []
  | cons {w : List Char} {ts us : List Tok} {ws : List (List Char)} {rs rs' : List (Redirection (List Char))}
      (hredirs : Redirs ts rs) (hrest : Args us ws rs') : Args (.word w :: (ts ++ us)) (w :: ws) (rs ++ rs')

inductive Nonterminal
  | line
  | pipe
  | exec
  deriving DecidableEq, Repr

/-- The trees of the grammar. -/
inductive Derives : Nonterminal → List Tok → Cmd (List Char) → Prop
  | block {ts us : List Tok} {t : Cmd (List Char)} {rs : List (Redirection (List Char))} (hline : Derives .line ts t)
      (hredirs : Redirs us rs) : Derives .exec (.lpar :: (ts ++ .rpar :: us)) (wrap t rs)
  | args {ts us : List Tok} {ws : List (List Char)} {rs rs' : List (Redirection (List Char))} (hredirs : Redirs ts rs)
      (hargs : Args us ws rs') (hmax : ws.length ≤ MAXARGS - 1) : Derives .exec (ts ++ us) (wrap (.exec ws) (rs ++ rs'))
  | exec {ts : List Tok} {t : Cmd (List Char)} (hexec : Derives .exec ts t) : Derives .pipe ts t
  | pipe {ts us : List Tok} {t u : Cmd (List Char)} (hexec : Derives .exec ts t) (hpipe : Derives .pipe us u) :
      Derives .pipe (ts ++ .bar :: us) (.pipe t u)
  | backs {ts : List Tok} {t : Cmd (List Char)} (n : Nat) (hpipe : Derives .pipe ts t) :
      Derives .line (ts ++ replicate n .amp) (Cmd.back^[n] t)
  | list {ts us : List Tok} {t u : Cmd (List Char)} (n : Nat) (hpipe : Derives .pipe ts t) (hline : Derives .line us u) :
      Derives .line (ts ++ replicate n .amp ++ .semi :: us) (.list (Cmd.back^[n] t) u)

/-! ## Trees -/

def Redirection.map {W V : Type} (f : W → V) (r : Redirection W) : Redirection V := ⟨f r.file, r.mode, r.fd⟩

section

variable {W V : Type}

theorem wrap_append (t : Cmd W) (rs rs' : List (Redirection W)) : wrap t (rs ++ rs') = wrap (wrap t rs) rs' :=
  foldl_append

theorem map_wrap (f : W → V) (t : Cmd W) (rs : List (Redirection W)) :
    (wrap t rs).map f = wrap (t.map f) (rs.map (Redirection.map f)) := by
  induction rs generalizing t with
  | nil => rfl
  | cons r rs ih => exact ih _

theorem map_back (f : W → V) (n : Nat) (t : Cmd W) : (Cmd.back^[n] t).map f = Cmd.back^[n] (t.map f) := by
  induction n generalizing t with
  | zero => rfl
  | succ n ih => exact ih _

theorem words_wrap (t : Cmd W) (rs : List (Redirection W)) :
    (wrap t rs).words = t.words ++ rs.map Redirection.file := by
  induction rs generalizing t with
  | nil => exact (append_nil _).symm
  | cons r rs ih =>
    refine (ih _).trans ?_
    simp [Cmd.words]

theorem words_back (n : Nat) (t : Cmd W) : (Cmd.back^[n] t).words = t.words := by
  induction n generalizing t with
  | zero => rfl
  | succ n ih => exact ih _

theorem addArg_wrap (w : W) (ws : List W) (rs : List (Redirection W)) :
    (wrap (.exec ws) rs).addArg w = wrap (.exec (ws ++ [w])) rs := by
  have h : ∀ t : Cmd W, (wrap t rs).addArg w = wrap (t.addArg w) rs := by
    induction rs with
    | nil => exact fun _ => rfl
    | cons r rs ih => exact fun t => ih _
  exact h _

end

/-! ## What a function of the parser has done -/

/-- A word of the line `s`. -/
def WordOf (s : List Char) (sp : Span) : Prop := sp.q <:+ s ∧ ∃ w, Cut sp w

variable {s : List Char} {E : Stop → List Char → Prop} {t : Tok} {n : Nat}

theorem WordOf.mono {s' : List Char} {sp : Span} (h : WordOf s' sp) (hs : s' <:+ s) : WordOf s sp :=
  ⟨h.1.trans hs, h.2⟩

/-- `c` is derived by the tokens from `s` up to `s'`. -/
structure Parsed (nt : Nonterminal) (s : List Char) (c : Cmd Span) (s' : List Char) : Prop where
  derives : ∃ ts, tokens s = ts ++ tokens s' ∧ Derives nt ts (c.map Span.text)
  suffix : s' <:+ s
  words : ∀ sp ∈ c.words, WordOf s sp

/-- The model has not run out of steps. -/
def Panics (e : Stop) (_ : List Char) : Prop := e ≠ .fuel

theorem peek_wp {toks : List Char} {Q : Bool → List Char → Prop}
    (hyes : ∀ t ts s', tokens s = t :: ts → t.first ∈ toks → tokens s' = t :: ts → s' <:+ s → Q true s')
    (hno : ∀ s', (∀ t ts, tokens s = t :: ts → t.first ∉ toks) → tokens s' = tokens s → s' <:+ s → Q false s') :
    wp (peek toks) Q E s := by
  apply wp_mono (peek_spec toks s)
  · intro b s' hret
    obtain ⟨htokens, hsuffix, hb⟩ := hret
    cases hs : tokens s with
    | nil =>
      rw [hs] at hb
      rw [show b = false from hb]
      exact hno s' (by rw [hs]; intro t ts e; cases e) htokens hsuffix
    | cons t ts =>
      rw [hs] at hb
      replace hb : b = toks.contains t.first := hb
      by_cases hmem : t.first ∈ toks
      · rw [hb, contains_eq_mem, decide_eq_true hmem]
        exact hyes t ts s' hs hmem (htokens.trans hs) hsuffix
      · rw [hb, contains_eq_mem, decide_eq_false hmem]
        refine hno s' ?_ htokens hsuffix
        intro t' ts' e
        rw [hs] at e
        cases e
        exact hmem
  · intro e s' h
    cases h

theorem gettoken_wp {Q : Token → List Char → Prop} (hQ : ∀ x s', Got s x s' → Q x s') :
    wp gettoken Q E s :=
  wp_mono (gettoken_spec s) hQ fun _ _ h => by cases h

theorem gettoken_tok {Q : Token → List Char → Prop} {ts : List Tok} (hs : tokens s = t :: ts)
    (hQ : ∀ x s', tokens s' = ts → x.ret = t.ret → t.Valid → s' <:+ s → s'.length < s.length →
      x.q <:+ s → (∀ w, t = .word w → Cut x.toSpan w) → Q x s') :
    wp gettoken Q E s := by
  apply gettoken_wp
  intro x s' hgot
  cases hgot with
  | eol htokens => rw [hs] at htokens; cases htokens
  | tok t' htokens hret hvalid hsuffix hshorter hinside hcut =>
    rw [hs] at htokens
    obtain ⟨rfl, rfl⟩ := cons.inj htokens
    exact hQ x s' rfl hret hvalid hsuffix hshorter hinside hcut

/-- Only a word has the code of words. -/
theorem ret_eq_a (h : t.ret = 'a') : ∃ w, t = .word w := by
  cases t with
  | word w => exact ⟨w, rfl⟩
  | _ => exact absurd h (by decide)

/-- The first character of a redirection. -/
theorem first_redir (hvalid : t.Valid) (h : t.first ∈ ['<', '>']) :
    ∃ mode fd, redirection t = some (mode, fd) := by
  cases t with
  | lt => exact ⟨_, _, rfl⟩
  | gt => exact ⟨_, _, rfl⟩
  | gtgt => exact ⟨_, _, rfl⟩
  | word w =>
    rcases mem_cons.mp h with h | h
    · exact absurd h (hvalid.first_word (by decide))
    · exact absurd (mem_singleton.mp h) (hvalid.first_word (by decide))
  | _ => exact absurd h (by decide)

/-- A symbol other than `>` is a token by itself. -/
theorem first_single {t' : Tok} (hvalid : t.Valid) {c : Char} (hc : Tok.single c = some t')
    (h : t.first ∈ [c]) : t = t' := by
  have hfirst : t.first = c := mem_singleton.mp h
  cases t with
  | word w =>
    refine absurd hfirst (hvalid.first_word ?_)
    by_contra hno
    unfold symbols at hno
    simp only [mem_cons, not_or] at hno
    simp [Tok.single, hno] at hc
  | _ =>
    rw [← hfirst] at hc
    revert hc
    simp [Tok.first, Tok.ret, Tok.single]

/-- What one round of `redirLoop` adds. -/
theorem redirLoop_choice {mode fd : Nat} (ht : redirection t = some (mode, fd)) {cmd : Cmd Span}
    {file : Span} :
    (if t.ret = '<' then redirLoop n (.redir cmd file O_RDONLY 0)
      else if t.ret = '>' then redirLoop n (.redir cmd file (O_WRONLY ||| O_CREATE ||| O_TRUNC) 1)
      else if t.ret = '+' then redirLoop n (.redir cmd file (O_WRONLY ||| O_CREATE) 1)
      else redirLoop n cmd) = redirLoop n (.redir cmd file mode fd) := by
  cases t with
  | lt => cases ht; rfl
  | gt => cases ht; rfl
  | gtgt => cases ht; rfl
  | _ => cases ht

/-! ## Redirections and words -/

/-- The redirections that `parseredirs` finds from `s` up to `s'`. -/
structure Redirected (s : List Char) (rs : List (Redirection Span)) (s' : List Char) : Prop where
  redirs : ∃ ts, tokens s = ts ++ tokens s' ∧ Redirs ts (rs.map (Redirection.map Span.text))
  suffix : s' <:+ s
  words : ∀ r ∈ rs, WordOf s r.file

theorem redirLoop_sound (cmd : Cmd Span) (hn : s.length < n) :
    wp (redirLoop n cmd) (fun c s' => ∃ rs, c = wrap cmd rs ∧ Redirected s rs s') Panics s := by
  induction n generalizing cmd s with
  | zero => omega
  | succ n ih =>
    unfold redirLoop
    rw [wp_bind]
    apply peek_wp
    · intro t ts s₁ hs hfirst hs₁ hsuf₁
      rw [if_pos rfl]
      simp only [wp_bind]
      apply gettoken_tok hs₁
      intro x s₂ hs₂ hret hvalid hsuf₂ hlt₂ _ _
      apply gettoken_wp
      intro file s₃ hgot
      have hsuf : s₂ <:+ s := hsuf₂.trans hsuf₁
      have hle := hsuf₁.length_le
      by_cases ha : file.ret = 'a'
      · rw [if_neg (not_not_intro ha)]
        obtain ⟨mode, fd, hredir⟩ := first_redir hvalid hfirst
        rw [hret, redirLoop_choice hredir]
        cases hgot with
        | eol _ hret' => rw [ha] at hret'; exact absurd hret' (by decide)
        | tok t' htokens hret' hvalid' hsuf₃ hlt₃ hinside hcut =>
          obtain ⟨w, rfl⟩ := ret_eq_a (hret'.symm.trans ha)
          apply wp_mono (ih _ (by omega))
          · intro c s' hwrapped
            obtain ⟨rs, hc, hrs⟩ := hwrapped
            obtain ⟨us, hus, hredirs⟩ := hrs.redirs
            refine ⟨⟨file.toSpan, mode, fd⟩ :: rs, hc, ⟨⟨t :: .word w :: us, ?_, ?_⟩, ?_, ?_⟩⟩
            · rw [hs, ← hs₂, htokens, hus]
              rfl
            · rw [map_cons, show Redirection.map Span.text ⟨file.toSpan, mode, fd⟩ = ⟨w, mode, fd⟩ by
                rw [Redirection.map, (hcut w rfl).text]]
              exact .cons hredir hredirs
            · exact hrs.suffix.trans (hsuf₃.trans hsuf)
            · intro r hr
              rcases mem_cons.mp hr with rfl | hr
              · exact ⟨hinside.trans hsuf, w, hcut w rfl⟩
              · exact (hrs.words r hr).mono (hsuf₃.trans hsuf)
          · exact fun _ _ h => h
      · rw [if_pos ha]
        exact fun h => by cases h
    · intro s' hno htokens hsuffix
      rw [if_neg Bool.false_ne_true]
      exact ⟨[], rfl, ⟨⟨[], htokens.symm, .nil⟩, hsuffix, fun _ h => by cases h⟩⟩

theorem parseredirs_sound (cmd : Cmd Span) (s : List Char) :
    wp (parseredirs cmd) (fun c s' => ∃ rs, c = wrap cmd rs ∧ Redirected s rs s') Panics s := by
  unfold parseredirs
  rw [wp_bind, wp_read]
  exact redirLoop_sound cmd (Nat.lt_succ_self _)

/-- The words and redirections that the loop of `parseexec` finds from `s` up to `s'`. -/
structure Argued (s : List Char) (ws : List Span) (rs : List (Redirection Span)) (s' : List Char) : Prop where
  args : ∃ ts, tokens s = ts ++ tokens s' ∧ Args ts (ws.map Span.text) (rs.map (Redirection.map Span.text))
  suffix : s' <:+ s
  words : ∀ sp ∈ ws, WordOf s sp
  files : ∀ r ∈ rs, WordOf s r.file

theorem argLoop_sound (ws₀ : List Span) (rs₀ : List (Redirection Span)) (hn : s.length < n)
    (hmax : ws₀.length ≤ MAXARGS - 1) :
    wp (argLoop n ws₀.length (wrap (.exec ws₀) rs₀))
      (fun c s' => ∃ ws rs, c = wrap (.exec (ws₀ ++ ws)) (rs₀ ++ rs) ∧ Argued s ws rs s' ∧ (ws₀ ++ ws).length ≤ MAXARGS - 1)
      Panics s := by
  induction n generalizing ws₀ rs₀ s with
  | zero => omega
  | succ n ih =>
    have hdone : ∀ s', tokens s' = tokens s → s' <:+ s →
        ∃ ws rs, wrap (.exec ws₀) rs₀ = wrap (.exec (ws₀ ++ ws)) (rs₀ ++ rs) ∧ Argued s ws rs s' ∧
          (ws₀ ++ ws).length ≤ MAXARGS - 1 := by
      intro s' htokens hsuffix
      refine ⟨[], [], by simp, ⟨⟨[], htokens.symm, .nil⟩, hsuffix, by simp, by simp⟩, by simpa using hmax⟩
    unfold argLoop
    rw [wp_bind]
    apply peek_wp
    · intro t ts s' hs _ hs' hsuf
      rw [if_pos rfl]
      exact hdone s' (hs'.trans hs.symm) hsuf
    · intro s₁ _ hs₁ hsuf₁
      have hle := hsuf₁.length_le
      rw [if_neg Bool.false_ne_true, wp_bind]
      apply gettoken_wp
      intro x s₂ hgot
      cases hgot with
      | eol htokens hret hrest =>
        rw [if_pos hret]
        refine hdone s₂ ?_ ?_
        · rw [hrest, ← hs₁, htokens, tokens]
        · rw [hrest]
          exact nil_suffix
      | tok t htokens hret hvalid hsuf₂ hlt₂ hinside hcut =>
        have hnul : x.ret ≠ '\x00' := by
          rw [hret]
          cases t <;> simp [Tok.ret]
        rw [if_neg hnul]
        by_cases ha : x.ret = 'a'
        · rw [if_neg (not_not_intro ha)]
          by_cases hargs : ws₀.length + 1 ≥ MAXARGS
          · rw [if_pos hargs]
            exact fun h => by cases h
          · obtain ⟨w, rfl⟩ := ret_eq_a (hret.symm.trans ha)
            have hsuf : s₂ <:+ s := hsuf₂.trans hsuf₁
            rw [if_neg hargs, wp_bind, addArg_wrap]
            apply wp_mono (parseredirs_sound _ s₂)
            · rintro c s₃ ⟨rs, rfl, hrs⟩
              have hle₃ := hrs.suffix.length_le
              have hlen : (ws₀ ++ [x.toSpan]).length = ws₀.length + 1 := length_append
              rw [← wrap_append, ← hlen]
              apply wp_mono (ih _ _ (by omega) (by omega))
              · rintro c s' ⟨ws, rs', rfl, harg, hlen⟩
                obtain ⟨us, hus, hredirs⟩ := hrs.redirs
                obtain ⟨vs, hvs, hargs'⟩ := harg.args
                refine ⟨x.toSpan :: ws, rs ++ rs', by simp, ⟨⟨.word w :: (us ++ vs), ?_, ?_⟩, ?_, ?_, ?_⟩, by simpa using hlen⟩
                · rw [← hs₁, htokens, hus, hvs]
                  simp
                · rw [map_cons, (hcut w rfl).text, map_append]
                  exact .cons hredirs hargs'
                · exact harg.suffix.trans (hrs.suffix.trans hsuf)
                · intro sp hsp
                  rcases mem_cons.mp hsp with rfl | hsp
                  · exact ⟨hinside.trans hsuf₁, w, hcut w rfl⟩
                  · exact (harg.words sp hsp).mono (hrs.suffix.trans hsuf)
                · intro r hr
                  rcases mem_append.mp hr with hr | hr
                  · exact (hrs.words r hr).mono hsuf
                  · exact (harg.files r hr).mono (hrs.suffix.trans hsuf)
              · exact fun _ _ h => h
            · exact fun _ _ h => h
        · rw [if_pos ha]
          exact fun h => by cases h

theorem parseargs_sound (s : List Char) : wp parseargs (Parsed .exec s) Panics s := by
  unfold parseargs
  apply wp_seq (parseredirs_sound _ s)
  rintro c s₁ ⟨rs, rfl, hrs⟩
  rw [wp_bind, wp_read]
  apply wp_mono (argLoop_sound [] rs (s := s₁) (Nat.lt_succ_self _) (Nat.zero_le _))
  · rintro c s' ⟨ws, rs', rfl, harg, hlen⟩
    obtain ⟨us, hus, hredirs⟩ := hrs.redirs
    obtain ⟨vs, hvs, hargs⟩ := harg.args
    refine ⟨⟨us ++ vs, ?_, ?_⟩, harg.suffix.trans hrs.suffix, ?_⟩
    · rw [hus, hvs, append_assoc]
    · rw [map_wrap, map_append]
      exact .args hredirs hargs (by simpa using hlen)
    · intro sp hsp
      rw [words_wrap] at hsp
      rcases mem_append.mp hsp with hsp | hsp
      · exact (harg.words sp hsp).mono hrs.suffix
      · obtain ⟨r, hr, rfl⟩ := mem_map.mp hsp
        rcases mem_append.mp hr with hr | hr
        · exact hrs.words r hr
        · exact (harg.files r hr).mono hrs.suffix
  · exact fun _ _ h => h

/-! ## Lines and pipes -/

/-- The `&`s that the loop of `parseline` finds. -/
theorem backLoop_sound (cmd : Cmd Span) (hn : s.length < n) :
    wp (backLoop n cmd)
      (fun c s' => ∃ k, c = Cmd.back^[k] cmd ∧ tokens s = replicate k .amp ++ tokens s' ∧ s' <:+ s) Panics s := by
  induction n generalizing cmd s with
  | zero => omega
  | succ n ih =>
    unfold backLoop
    rw [wp_bind]
    apply peek_wp
    · intro t ts s₁ hs hfirst hs₁ hsuf₁
      rw [if_pos rfl, wp_bind]
      apply gettoken_tok hs₁
      intro x s₂ hs₂ _ hvalid hsuf₂ hlt₂ _ _
      have hle := hsuf₁.length_le
      have ht : t = .amp := first_single hvalid rfl hfirst
      apply wp_mono (ih _ (by omega))
      · rintro c s' ⟨k, rfl, htokens, hsuf⟩
        refine ⟨k + 1, rfl, ?_, hsuf.trans (hsuf₂.trans hsuf₁)⟩
        rw [hs, ← hs₂, htokens, ht]
        rfl
      · exact fun _ _ h => h
    · intro s' _ htokens hsuffix
      rw [if_neg Bool.false_ne_true]
      exact ⟨0, rfl, htokens.symm, hsuffix⟩

/-- `parseline` if the functions that it calls are right. -/
theorem parseline_sound (hpipe : ∀ s : List Char, 4 * s.length + 3 ≤ n → wp (parsepipe n) (Parsed .pipe s) Panics s)
    (hline : ∀ s : List Char, 4 * s.length + 4 ≤ n → wp (parseline n) (Parsed .line s) Panics s)
    (hn : 4 * s.length + 4 ≤ n + 1) : wp (parseline (n + 1)) (Parsed .line s) Panics s := by
  unfold parseline
  apply wp_seq (hpipe s (by omega))
  intro c s₁ hc
  obtain ⟨ts, hts, hderives⟩ := hc.derives
  have hle₁ := hc.suffix.length_le
  rw [wp_bind, wp_read]
  apply wp_seq (backLoop_sound c (s := s₁) (Nat.lt_succ_self _))
  rintro _ s₂ ⟨k, rfl, hks, hsuf₂⟩
  have hle₂ := hsuf₂.length_le
  rw [wp_bind]
  apply peek_wp
  · intro t us s₃ hs hfirst hs₃ hsuf₃
    rw [if_pos rfl, wp_bind]
    apply gettoken_tok hs₃
    intro x s₄ hs₄ _ hvalid hsuf₄ hlt₄ _ _
    have ht : t = .semi := first_single hvalid rfl hfirst
    have hle₃ := hsuf₃.length_le
    have hsuf : s₄ <:+ s := hsuf₄.trans (hsuf₃.trans (hsuf₂.trans hc.suffix))
    apply wp_seq (hline s₄ (by omega))
    intro d s' hd
    obtain ⟨vs, hvs, hderives'⟩ := hd.derives
    refine ⟨⟨ts ++ replicate k .amp ++ .semi :: vs, ?_, ?_⟩, hd.suffix.trans hsuf, ?_⟩
    · rw [hts, hks, hs, ← hs₄, hvs, ht]
      simp
    · rw [Cmd.map, map_back]
      exact .list k hderives hderives'
    · intro sp hsp
      rcases mem_append.mp hsp with hsp | hsp
      · rw [words_back] at hsp
        exact hc.words sp hsp
      · exact (hd.words sp hsp).mono hsuf
  · intro s₃ _ htokens hsuf₃
    rw [if_neg Bool.false_ne_true]
    refine ⟨⟨ts ++ replicate k .amp, ?_, ?_⟩, hsuf₃.trans (hsuf₂.trans hc.suffix), ?_⟩
    · rw [hts, hks, htokens, append_assoc]
    · rw [map_back]
      exact .backs k hderives
    · intro sp hsp
      rw [words_back] at hsp
      exact hc.words sp hsp

theorem parsepipe_sound (hexec : ∀ s : List Char, 4 * s.length + 2 ≤ n → wp (parseexec n) (Parsed .exec s) Panics s)
    (hpipe : ∀ s : List Char, 4 * s.length + 3 ≤ n → wp (parsepipe n) (Parsed .pipe s) Panics s)
    (hn : 4 * s.length + 3 ≤ n + 1) : wp (parsepipe (n + 1)) (Parsed .pipe s) Panics s := by
  unfold parsepipe
  apply wp_seq (hexec s (by omega))
  intro c s₁ hc
  obtain ⟨ts, hts, hderives⟩ := hc.derives
  have hle₁ := hc.suffix.length_le
  rw [wp_bind]
  apply peek_wp
  · intro t us s₂ hs hfirst hs₂ hsuf₂
    rw [if_pos rfl, wp_bind]
    apply gettoken_tok hs₂
    intro x s₃ hs₃ _ hvalid hsuf₃ hlt₃ _ _
    have ht : t = .bar := first_single hvalid rfl hfirst
    have hle₂ := hsuf₂.length_le
    have hsuf : s₃ <:+ s := hsuf₃.trans (hsuf₂.trans hc.suffix)
    apply wp_seq (hpipe s₃ (by omega))
    intro d s' hd
    obtain ⟨vs, hvs, hderives'⟩ := hd.derives
    refine ⟨⟨ts ++ .bar :: vs, ?_, .pipe hderives hderives'⟩, hd.suffix.trans hsuf, ?_⟩
    · rw [hts, hs, ← hs₃, hvs, ht]
      simp
    · intro sp hsp
      rcases mem_append.mp hsp with hsp | hsp
      · exact hc.words sp hsp
      · exact (hd.words sp hsp).mono hsuf
  · intro s₂ _ htokens hsuf₂
    rw [if_neg Bool.false_ne_true]
    exact ⟨⟨ts, by rw [hts, htokens], .exec hderives⟩, hsuf₂.trans hc.suffix, hc.words⟩

/-- Blanks before a phrase are not part of it. -/
theorem Parsed.of_tokens {nt : Nonterminal} {s₁ : List Char} {c : Cmd Span} {s' : List Char}
    (h : Parsed nt s₁ c s') (htokens : tokens s₁ = tokens s) (hsuffix : s₁ <:+ s) :
    Parsed nt s c s' := by
  obtain ⟨ts, hts, hderives⟩ := h.derives
  exact ⟨⟨ts, htokens.symm.trans hts, hderives⟩, h.suffix.trans hsuffix, fun sp hsp => (h.words sp hsp).mono hsuffix⟩

theorem parseexec_sound (hblock : ∀ s : List Char, 4 * s.length + 1 ≤ n → wp (parseblock n) (Parsed .exec s) Panics s)
    (hn : 4 * s.length + 2 ≤ n + 1) : wp (parseexec (n + 1)) (Parsed .exec s) Panics s := by
  unfold parseexec
  rw [wp_bind]
  apply peek_wp
  · intro t ts s₁ hs _ hs₁ hsuf₁
    have hle := hsuf₁.length_le
    rw [if_pos rfl]
    apply wp_mono (hblock s₁ (by omega))
    · exact fun c s' h => h.of_tokens (hs₁.trans hs.symm) hsuf₁
    · exact fun _ _ h => h
  · intro s₁ _ hs₁ hsuf₁
    rw [if_neg Bool.false_ne_true]
    apply wp_mono (parseargs_sound s₁)
    · exact fun c s' h => h.of_tokens hs₁ hsuf₁
    · exact fun _ _ h => h

theorem parseblock_sound (hline : ∀ s : List Char, 4 * s.length + 4 ≤ n → wp (parseline n) (Parsed .line s) Panics s)
    (hn : 4 * s.length + 1 ≤ n + 1) : wp (parseblock (n + 1)) (Parsed .exec s) Panics s := by
  unfold parseblock
  rw [wp_bind]
  apply peek_wp
  · intro t ts s₁ hs hfirst hs₁ hsuf₁
    rw [if_pos rfl, wp_bind]
    apply gettoken_tok hs₁
    intro x s₂ hs₂ _ hvalid hsuf₂ hlt₂ _ _
    have ht : t = .lpar := first_single hvalid rfl hfirst
    have hle₁ := hsuf₁.length_le
    apply wp_seq (hline s₂ (by omega))
    intro c s₃ hc
    obtain ⟨us, hus, hderives⟩ := hc.derives
    rw [wp_bind]
    apply peek_wp
    · intro t' vs s₄ hs' hfirst' hs₄ hsuf₄
      rw [if_pos rfl, wp_bind]
      apply gettoken_tok hs₄
      intro y s₅ hs₅ _ hvalid' hsuf₅ _ _ _
      have ht' : t' = .rpar := first_single hvalid' rfl hfirst'
      have hsuf₃ : s₃ <:+ s := hc.suffix.trans (hsuf₂.trans hsuf₁)
      have hsuf : s₅ <:+ s := hsuf₅.trans (hsuf₄.trans hsuf₃)
      apply wp_mono (parseredirs_sound c s₅)
      · rintro _ s' ⟨rs, rfl, hrs⟩
        obtain ⟨ws, hws, hredirs⟩ := hrs.redirs
        refine ⟨⟨.lpar :: (us ++ .rpar :: ws), ?_, ?_⟩, hrs.suffix.trans hsuf, ?_⟩
        · rw [hs, ← hs₂, hus, hs', ← hs₅, hws, ht, ht']
          simp
        · rw [map_wrap]
          exact .block hderives hredirs
        · intro sp hsp
          rw [words_wrap] at hsp
          rcases mem_append.mp hsp with hsp | hsp
          · exact (hc.words sp hsp).mono (hsuf₂.trans hsuf₁)
          · obtain ⟨r, hr, rfl⟩ := mem_map.mp hsp
            exact (hrs.words r hr).mono hsuf
      · exact fun _ _ h => h
    · intro s₄ _ _ _
      rw [if_neg Bool.false_ne_true]
      exact fun h => by cases h
  · intro s₁ _ _ _
    rw [if_neg Bool.false_ne_true]
    exact fun h => by cases h

/-- Four calls lead from `parseline` back to it, with a parenthesis consumed. -/
theorem parser_sound (n : Nat) :
    (∀ s : List Char, 4 * s.length + 4 ≤ n → wp (parseline n) (Parsed .line s) Panics s) ∧
    (∀ s : List Char, 4 * s.length + 3 ≤ n → wp (parsepipe n) (Parsed .pipe s) Panics s) ∧
    (∀ s : List Char, 4 * s.length + 2 ≤ n → wp (parseexec n) (Parsed .exec s) Panics s) ∧
    ∀ s : List Char, 4 * s.length + 1 ≤ n → wp (parseblock n) (Parsed .exec s) Panics s := by
  induction n with
  | zero => exact ⟨fun s h => by omega, fun s h => by omega, fun s h => by omega, fun s h => by omega⟩
  | succ n ih =>
    obtain ⟨hline, hpipe, hexec, hblock⟩ := ih
    exact ⟨fun s => parseline_sound hpipe hline, fun s => parsepipe_sound hexec hpipe, fun s => parseexec_sound hblock,
      fun s => parseblock_sound hline⟩

end Xv6.Sh
