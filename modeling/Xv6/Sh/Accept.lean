import Xv6.Sh.Grammar

/-!
# The parser accepts the grammar

What a nonterminal derives is parsed by its function, if what comes after it on the line is a token
by which the function knows that it is at the end. Each function decides by one token what to do.
-/

namespace Xv6.Sh

open Prog List

/-- What may come after a phrase. -/
def follow : Nonterminal → List Tok
  | .line => [.rpar]
  | .pipe => [.rpar, .amp, .semi]
  | .exec => [.rpar, .amp, .semi, .bar]

/-- The line ends, or goes on with one of `toks`. -/
def Ends (toks ts : List Tok) : Prop := ∀ t us, ts = t :: us → t ∈ toks

variable {rest toks ts us : List Tok} {t : Tok} {cs s : List Char}
  {rs : List (Redirection (List Char))} {n : Nat} {ws : List (List Char)}

theorem Ends.mono {toks' : List Tok} (h : Ends toks ts) (hsub : ∀ t ∈ toks, t ∈ toks') :
    Ends toks' ts :=
  fun t us e => hsub t (h t us e)

theorem ends_cons (h : t ∈ toks) : Ends toks (t :: ts) := by
  intro t' us e
  cases e
  exact h

/-- `peek` when the first token is known. -/
theorem peek_yes {toks : List Char} {E : Stop → List Char → Prop} {Q : Bool → List Char → Prop}
    (hs : tokens s = t :: ts) (hfirst : t.first ∈ toks)
    (hQ : ∀ s', tokens s' = t :: ts → s' <:+ s → Q true s') : wp (peek toks) Q E s := by
  apply peek_wp
  · intro t' ts' s' e _ hs' hsuf
    rw [hs] at e
    cases e
    exact hQ s' hs' hsuf
  · intro s' hno _ _
    exact absurd hfirst (hno t ts hs)

theorem peek_no {toks : List Char} {E : Stop → List Char → Prop} {Q : Bool → List Char → Prop}
    (hfirst : ∀ t ts, tokens s = t :: ts → t.first ∉ toks)
    (hQ : ∀ s', tokens s' = tokens s → s' <:+ s → Q false s') : wp (peek toks) Q E s := by
  apply peek_wp
  · intro t ts s' hs h _ _
    exact absurd h (hfirst t ts hs)
  · intro s' _ hs' hsuf
    exact hQ s' hs' hsuf

/-- None of the tokens that end a phrase starts with one of `cs`. -/
theorem Ends.first_not_mem (h : Ends toks ts) (hcs : ∀ t ∈ toks, t.first ∉ cs) (t : Tok)
    (us : List Tok) (e : ts = t :: us) : t.first ∉ cs := hcs t (h t us e)

theorem first_of_redirection {mode fd : Nat} (h : redirection t = some (mode, fd)) :
    t.first ∈ ['<', '>'] := by
  cases t with
  | lt => decide
  | gt => decide
  | gtgt => decide
  | _ => cases h

/-- A word is none of the symbols by which the parser decides. -/
theorem Tok.Valid.not_mem {w : List Char} (h : (word w).Valid) (hcs : cs ⊆ symbols) :
    (word w).first ∉ cs := fun hmem => h.first_word (hcs hmem) rfl

theorem word_not_mem {w : List Char} (hs : tokens s = .word w :: ts) (hcs : cs ⊆ symbols) :
    (Tok.word w).first ∉ cs := by
  have hvalid : (Tok.word w).Valid := valid_of_mem_tokens (by rw [hs]; exact mem_cons_self ..)
  exact hvalid.not_mem hcs

/-! ## Redirections and words -/

/-- After redirections comes no other. -/
def NoRedir (ts : List Tok) : Prop := ∀ t us, ts = t :: us → t.first ∉ ['<', '>']

/-- The tree `t` has been read off the front of `s`, before `rest`. -/
structure Accepted (t : Cmd (List Char)) (rest : List Tok) (s : List Char) (c : Cmd Span) (s' : List Char) : Prop where
  tree : c.map Span.text = t
  rest : tokens s' = rest
  suffix : s' <:+ s

theorem Accepted.mono {t : Cmd (List Char)} {s₁ : List Char} {c : Cmd Span} {s' : List Char}
    (h : Accepted t rest s₁ c s') (hs : s₁ <:+ s) :
    Accepted t rest s c s' := ⟨h.tree, h.rest, h.suffix.trans hs⟩

theorem map_addArg {W V : Type} (f : W → V) (w : W) (c : Cmd W) : (c.addArg w).map f = (c.map f).addArg (f w) := by
  induction c with
  | exec argv => simp [Cmd.addArg, Cmd.map]
  | redir cmd file mode fd ih => simp [Cmd.addArg, Cmd.map, ih]
  | pipe => rfl
  | list => rfl
  | back => rfl

theorem redirLoop_complete (hredirs : Redirs ts rs) (cmd : Cmd Span) (hn : s.length < n)
    (hs : tokens s = ts ++ rest) (hrest : NoRedir rest) :
    wp (redirLoop n cmd) (Accepted (wrap (cmd.map Span.text) rs) rest s) never s := by
  induction hredirs generalizing n cmd s with
  | nil =>
    obtain ⟨n, rfl⟩ := Nat.exists_eq_add_one_of_ne_zero (show n ≠ 0 by omega)
    unfold redirLoop
    rw [wp_bind]
    apply peek_no
    · rw [hs]
      exact hrest
    · intro s' hs' hsuf
      rw [if_neg Bool.false_ne_true]
      exact ⟨rfl, hs'.trans hs, hsuf⟩
  | cons ht _ ih =>
    obtain ⟨n, rfl⟩ := Nat.exists_eq_add_one_of_ne_zero (show n ≠ 0 by omega)
    unfold redirLoop
    rw [wp_bind]
    apply peek_yes hs (first_of_redirection ht)
    intro s₁ hs₁ hsuf₁
    rw [if_pos rfl]
    simp only [wp_bind]
    apply gettoken_tok hs₁
    intro x s₂ hs₂ hret _ hsuf₂ hlt₂ _ _
    apply gettoken_tok hs₂
    intro file s₃ hs₃ hret' _ hsuf₃ hlt₃ _ hcut
    have hle := hsuf₁.length_le
    have ha : file.ret = 'a' := hret'
    rw [if_neg (not_not_intro ha), hret, redirLoop_choice ht]
    apply wp_mono (ih (.redir cmd file.toSpan _ _) (by omega) hs₃)
    · intro c s' hc
      rw [Cmd.map, (hcut _ rfl).text] at hc
      exact hc.mono (hsuf₃.trans (hsuf₂.trans hsuf₁))
    · exact fun _ _ h => h

theorem parseredirs_complete (hredirs : Redirs ts rs) (cmd : Cmd Span)
    (hs : tokens s = ts ++ rest) (hrest : NoRedir rest) :
    wp (parseredirs cmd) (Accepted (wrap (cmd.map Span.text) rs) rest s) never s := by
  unfold parseredirs
  rw [wp_bind, wp_read]
  exact redirLoop_complete hredirs cmd (Nat.lt_succ_self _) hs hrest

theorem Ends.noRedir (h : Ends (follow .exec) rest) : NoRedir rest :=
  h.first_not_mem (by decide)

/-- Before the next word there is no redirection. -/
theorem Args.noRedir (h : Args ts ws rs) (hs : tokens s = us ++ (ts ++ rest))
    (hrest : Ends (follow .exec) rest) : NoRedir (ts ++ rest) := by
  cases h with
  | nil => exact hrest.noRedir
  | @cons w =>
    intro t vs e
    cases e
    have hvalid : (Tok.word w).Valid := valid_of_mem_tokens (by rw [hs]; simp)
    exact hvalid.not_mem (by decide)

theorem argLoop_complete (hargs : Args ts ws rs) {ret : Cmd Span} {ws₀ : List (List Char)}
    {rs₀ : List (Redirection (List Char))} (hret : ret.map Span.text = wrap (.exec ws₀) rs₀)
    (hmax : (ws₀ ++ ws).length ≤ MAXARGS - 1) (hn : s.length < n) (hs : tokens s = ts ++ rest)
    (hrest : Ends (follow .exec) rest) :
    wp (argLoop n ws₀.length ret) (Accepted (wrap (.exec (ws₀ ++ ws)) (rs₀ ++ rs)) rest s) never s := by
  induction hargs generalizing n ret ws₀ rs₀ s with
  | nil =>
    obtain ⟨n, rfl⟩ := Nat.exists_eq_add_one_of_ne_zero (show n ≠ 0 by omega)
    unfold argLoop
    rw [append_nil, append_nil, wp_bind]
    cases hr : rest with
    | nil =>
      rw [hr] at hs
      apply peek_no
      · rw [hs]
        intro t ts e
        cases e
      · intro s₁ hs₁ hsuf₁
        rw [if_neg Bool.false_ne_true, wp_bind]
        apply gettoken_wp
        intro x s₂ hgot
        cases hgot with
        | eol _ hret' hrest' =>
          rw [if_pos hret', hrest']
          exact ⟨hret, by rw [tokens], nil_suffix⟩
        | tok t htokens => rw [hs₁, hs] at htokens; cases htokens
    | cons t us =>
      rw [hr] at hs hrest
      have hmem : t.first ∈ ['|', ')', '&', ';'] := by
        have hfollow := hrest t us rfl
        simp only [follow, mem_cons, not_mem_nil, or_false] at hfollow
        rcases hfollow with rfl | rfl | rfl | rfl <;> decide
      apply peek_yes hs hmem
      intro s' hs' hsuf
      rw [if_pos rfl]
      exact ⟨hret, hs', hsuf⟩
  | @cons w ts us ws rs rs' hredirs hrest' ih =>
    obtain ⟨n, rfl⟩ := Nat.exists_eq_add_one_of_ne_zero (show n ≠ 0 by omega)
    rw [length_append, length_cons] at hmax
    unfold argLoop
    rw [wp_bind]
    apply peek_no
    · intro t vs e
      have hs' := hs
      rw [e] at hs'
      cases hs'
      exact word_not_mem e (by decide)
    · intro s₁ hs₁ hsuf₁
      have hle := hsuf₁.length_le
      rw [if_neg Bool.false_ne_true, wp_bind]
      apply gettoken_tok (hs₁.trans hs)
      intro x s₂ hs₂ hx _ hsuf₂ hlt₂ _ hcut
      have ha : x.ret = 'a' := hx
      have hs₂' : tokens s₂ = ts ++ (us ++ rest) := hs₂.trans (append_assoc ..)
      have hroom : ¬ ws₀.length + 1 ≥ MAXARGS := by
        unfold MAXARGS at hmax ⊢
        omega
      rw [if_neg (by rw [ha]; decide), if_neg (not_not_intro ha), if_neg hroom]
      apply wp_seq (parseredirs_complete hredirs _ hs₂' (hrest'.noRedir hs₂' hrest))
      intro c s₃ hc
      have hle₃ := hc.suffix.length_le
      have htree : c.map Span.text = wrap (.exec (ws₀ ++ [w])) (rs₀ ++ rs) := by
        rw [hc.tree, map_addArg, hret, (hcut w rfl).text, addArg_wrap, wrap_append]
      have hlen : (ws₀ ++ [w]).length = ws₀.length + 1 := length_append
      rw [← hlen]
      apply wp_mono (ih htree (by simp only [length_append, length_singleton]; omega) (by omega) hc.rest)
      · intro d s' hd
        rw [append_assoc, append_assoc] at hd
        exact hd.mono (hc.suffix.trans (hsuf₂.trans hsuf₁))
      · exact fun _ _ h => h

theorem parseargs_complete {rs' : List (Redirection (List Char))} (hredirs : Redirs ts rs)
    (hargs : Args us ws rs') (hmax : ws.length ≤ MAXARGS - 1) (hs : tokens s = ts ++ (us ++ rest))
    (hrest : Ends (follow .exec) rest) :
    wp parseargs (Accepted (wrap (.exec ws) (rs ++ rs')) rest s) never s := by
  unfold parseargs
  apply wp_seq (parseredirs_complete hredirs _ hs (hargs.noRedir hs hrest))
  intro c s₁ hc
  have htree : c.map Span.text = wrap (.exec []) rs := hc.tree
  rw [wp_bind, wp_read]
  apply wp_mono (argLoop_complete hargs htree hmax (Nat.lt_succ_self _) hc.rest hrest)
  · exact fun d s' hd => hd.mono hc.suffix
  · exact fun _ _ h => h

/-! ## Lines and pipes -/

theorem backLoop_complete (k : Nat) (cmd : Cmd Span) (hn : s.length < n)
    (hs : tokens s = replicate k .amp ++ rest) (hrest : Ends [.rpar, .semi] rest) :
    wp (backLoop n cmd) (Accepted (Cmd.back^[k] (cmd.map Span.text)) rest s) never s := by
  induction k generalizing n cmd s with
  | zero =>
    obtain ⟨n, rfl⟩ := Nat.exists_eq_add_one_of_ne_zero (show n ≠ 0 by omega)
    unfold backLoop
    rw [wp_bind]
    apply peek_no
    · rw [hs]
      exact hrest.first_not_mem (by decide)
    · intro s' hs' hsuf
      rw [if_neg Bool.false_ne_true]
      exact ⟨rfl, hs'.trans hs, hsuf⟩
  | succ k ih =>
    obtain ⟨n, rfl⟩ := Nat.exists_eq_add_one_of_ne_zero (show n ≠ 0 by omega)
    unfold backLoop
    rw [wp_bind]
    apply peek_yes (t := .amp) hs (by decide)
    intro s₁ hs₁ hsuf₁
    rw [if_pos rfl, wp_bind]
    apply gettoken_tok hs₁
    intro x s₂ hs₂ _ _ hsuf₂ hlt₂ _ _
    have hle := hsuf₁.length_le
    apply wp_mono (ih (.back cmd) (by omega) hs₂)
    · exact fun c s' hc => hc.mono (hsuf₂.trans hsuf₁)
    · exact fun _ _ h => h

/-- The function for a nonterminal. -/
def parserOf : Nonterminal → Nat → Parser (Cmd Span)
  | .line => parseline
  | .pipe => parsepipe
  | .exec => parseexec

/-- The bound on the recursion that is enough for a line. -/
def enough (s : List Char) : Nonterminal → Nat
  | .line => 4 * s.length + 4
  | .pipe => 4 * s.length + 3
  | .exec => 4 * s.length + 2

/-- A phrase that starts with a parenthesis is a block. -/
theorem args_no_paren {rs' : List (Redirection (List Char))} (hredirs : Redirs ts rs)
    (hargs : Args us ws rs') (hs : tokens s = ts ++ (us ++ rest))
    (hrest : Ends (follow .exec) rest) (t : Tok) (vs : List Tok) (e : tokens s = t :: vs) :
    t.first ∉ ['('] := by
  rw [hs] at e
  cases hredirs with
  | nil =>
    cases hargs with
    | nil => exact hrest.first_not_mem (by decide) t vs e
    | cons =>
      cases e
      exact word_not_mem hs (by decide)
  | cons ht =>
    cases e
    intro h
    have := first_of_redirection ht
    rw [mem_singleton.mp h] at this
    revert this
    decide

theorem parseline_complete {t : Cmd (List Char)} {k : Nat} {after : List Tok}
    (hpipe : ∀ rest, tokens s = ts ++ rest → Ends (follow .pipe) rest → wp (parsepipe n) (Accepted t rest s) never s)
    (hs : tokens s = ts ++ (replicate k .amp ++ after)) (hafter : Ends [.rpar, .semi] after)
    {Q : Cmd Span → List Char → Prop}
    (hQ : ∀ c s₁, Accepted (Cmd.back^[k] t) after s c s₁ → wp
      (do let semi ← peek [';'] if semi = true then let _ ← gettoken let right ← parseline n return .list c right else return c) Q never s₁) :
    wp (parseline (n + 1)) Q never s := by
  unfold parseline
  have hends : Ends (follow .pipe) (replicate k .amp ++ after) := by
    cases k with
    | zero => exact hafter.mono (by decide)
    | succ k => exact ends_cons (by decide)
  apply wp_seq (hpipe _ hs hends)
  intro c s₁ hc
  rw [wp_bind, wp_read]
  apply wp_seq (backLoop_complete k c (Nat.lt_succ_self _) hc.rest hafter)
  intro d s₂ hd
  rw [hc.tree] at hd
  exact hQ d s₂ (hd.mono hc.suffix)

/-- What the grammar derives, the parser returns. -/
theorem parser_complete {nt : Nonterminal} {t : Cmd (List Char)} (h : Derives nt ts t)
    (hn : enough s nt ≤ n) (hs : tokens s = ts ++ rest) (hrest : Ends (follow nt) rest) :
    wp (parserOf nt n) (Accepted t rest s) never s := by
  induction h generalizing n s rest with
  | @block ts us t rs hline hredirs ih =>
    simp only [enough] at hn
    obtain ⟨n, rfl⟩ := Nat.exists_eq_add_of_le' (show 2 ≤ n by omega)
    simp only [parserOf]
    unfold parseexec
    rw [wp_bind]
    apply peek_yes (t := .lpar) hs (by decide)
    intro s₁ hs₁ hsuf₁
    rw [if_pos rfl]
    unfold parseblock
    rw [wp_bind]
    apply peek_yes hs₁ (by decide)
    intro s₂ hs₂ hsuf₂
    rw [if_pos rfl, wp_bind]
    apply gettoken_tok hs₂
    intro x s₃ hs₃ _ _ hsuf₃ hlt₃ _ _
    have hle₁ := hsuf₁.length_le
    have hle₂ := hsuf₂.length_le
    have hs₃' : tokens s₃ = ts ++ (.rpar :: (us ++ rest)) := by
      rw [hs₃]
      exact (append_assoc ..)
    apply wp_seq (ih (n := n) (by simp only [enough]; omega) hs₃' (ends_cons (by decide)))
    intro c s₄ hc
    rw [wp_bind]
    apply peek_yes hc.rest (by decide)
    intro s₅ hs₅ hsuf₅
    rw [if_pos rfl, wp_bind]
    apply gettoken_tok hs₅
    intro y s₆ hs₆ _ _ hsuf₆ _ _ _
    apply wp_mono (parseredirs_complete hredirs c hs₆ hrest.noRedir)
    · intro d s' hd
      rw [hc.tree] at hd
      exact hd.mono (hsuf₆.trans (hsuf₅.trans (hc.suffix.trans (hsuf₃.trans (hsuf₂.trans hsuf₁)))))
    · exact fun _ _ h => h
  | args hredirs hargs hmax =>
    simp only [enough] at hn
    obtain ⟨n, rfl⟩ := Nat.exists_eq_add_one_of_ne_zero (show n ≠ 0 by omega)
    rw [append_assoc] at hs
    simp only [parserOf]
    unfold parseexec
    rw [wp_bind]
    apply peek_no (args_no_paren hredirs hargs hs hrest)
    intro s₁ hs₁ hsuf₁
    rw [if_neg Bool.false_ne_true]
    apply wp_mono (parseargs_complete hredirs hargs hmax (hs₁.trans hs) hrest)
    · exact fun c s' hc => hc.mono hsuf₁
    · exact fun _ _ h => h
  | exec hexec ih =>
    simp only [enough] at hn
    obtain ⟨n, rfl⟩ := Nat.exists_eq_add_one_of_ne_zero (show n ≠ 0 by omega)
    simp only [parserOf]
    unfold parsepipe
    apply wp_seq (ih (n := n) (by simp only [enough]; omega) hs (hrest.mono (by decide)))
    intro c s₁ hc
    rw [wp_bind]
    apply peek_no
    · rw [hc.rest]
      exact hrest.first_not_mem (by decide)
    · intro s' hs' hsuf
      rw [if_neg Bool.false_ne_true]
      exact ⟨hc.tree, hs'.trans hc.rest, hsuf.trans hc.suffix⟩
  | @pipe ts us t u hexec hpipe ihe ihp =>
    simp only [enough] at hn
    obtain ⟨n, rfl⟩ := Nat.exists_eq_add_one_of_ne_zero (show n ≠ 0 by omega)
    have hs' : tokens s = ts ++ (.bar :: (us ++ rest)) := by
      rw [hs, append_assoc]
      rfl
    simp only [parserOf]
    unfold parsepipe
    apply wp_seq (ihe (n := n) (by simp only [enough]; omega) hs' (ends_cons (by decide)))
    intro c s₁ hc
    have hle₁ := hc.suffix.length_le
    rw [wp_bind]
    apply peek_yes hc.rest (by decide)
    intro s₂ hs₂ hsuf₂
    rw [if_pos rfl, wp_bind]
    apply gettoken_tok hs₂
    intro x s₃ hs₃ _ _ hsuf₃ hlt₃ _ _
    have hle₂ := hsuf₂.length_le
    apply wp_seq (ihp (n := n) (by simp only [enough]; omega) hs₃ hrest)
    intro d s' hd
    refine ⟨?_, hd.rest, hd.suffix.trans (hsuf₃.trans (hsuf₂.trans hc.suffix))⟩
    rw [Cmd.map, hc.tree, hd.tree]
  | @backs ts t k hpipe ih =>
    simp only [enough] at hn
    obtain ⟨n, rfl⟩ := Nat.exists_eq_add_one_of_ne_zero (show n ≠ 0 by omega)
    rw [append_assoc] at hs
    apply parseline_complete (fun rest h hr => ih (by simp only [enough]; omega) h hr) hs (hrest.mono (by decide))
    intro c s₁ hc
    rw [wp_bind]
    apply peek_no
    · rw [hc.rest]
      exact hrest.first_not_mem (by decide)
    · intro s' hs' hsuf
      rw [if_neg Bool.false_ne_true]
      exact ⟨hc.tree, hs'.trans hc.rest, hsuf.trans hc.suffix⟩
  | @list ts us t u k hpipe hline ihp ihl =>
    simp only [enough] at hn
    obtain ⟨n, rfl⟩ := Nat.exists_eq_add_one_of_ne_zero (show n ≠ 0 by omega)
    have hs' : tokens s = ts ++ (replicate k .amp ++ .semi :: (us ++ rest)) := by
      rw [hs]
      simp
    apply parseline_complete (fun rest h hr => ihp (by simp only [enough]; omega) h hr) hs' (ends_cons (by decide))
    intro c s₁ hc
    have hle₁ := hc.suffix.length_le
    rw [wp_bind]
    apply peek_yes hc.rest (by decide)
    intro s₂ hs₂ hsuf₂
    rw [if_pos rfl, wp_bind]
    apply gettoken_tok hs₂
    intro x s₃ hs₃ _ _ hsuf₃ hlt₃ _ _
    have hle₂ := hsuf₂.length_le
    apply wp_seq (ihl (n := n) (by simp only [enough]; omega) hs₃ hrest)
    intro d s' hd
    refine ⟨?_, hd.rest, hd.suffix.trans (hsuf₃.trans (hsuf₂.trans hc.suffix))⟩
    rw [Cmd.map, hc.tree, hd.tree]

end Xv6.Sh
