import Xv6.Sh.Print

/-!
# The words of a parsed line

A word of a tree is a token of the line, and after `parsecmd` it is a string of its own in the
buffer of the line. The terminators stand where words end: on blanks, on symbols, or after the line.
-/

namespace Xv6.Sh

open Prog List

/-! The words of a tree are among the tokens that derive it. -/

theorem Redirs.mem_tokens {ts : List Tok} {rs : List (Redirection (List Char))} (h : Redirs ts rs) :
    ∀ w ∈ rs.map Redirection.file, .word w ∈ ts := by
  induction h with
  | nil => exact fun w hw => by cases hw
  | cons _ _ ih =>
    intro w hw
    rcases mem_cons.mp hw with rfl | hw
    · exact mem_cons_of_mem _ (mem_cons_self ..)
    · exact mem_cons_of_mem _ (mem_cons_of_mem _ (ih w hw))

theorem Args.mem_tokens {ts : List Tok} {ws : List (List Char)} {rs : List (Redirection (List Char))} (h : Args ts ws rs) :
    ∀ w ∈ ws ++ rs.map Redirection.file, .word w ∈ ts := by
  induction h with
  | nil => exact fun w hw => by cases hw
  | @cons v ts us ws rs rs' hredirs _ ih =>
    intro w hw
    rw [map_append, cons_append, mem_cons, mem_append, mem_append] at hw
    rcases hw with rfl | hw | hw | hw
    · exact mem_cons_self ..
    · exact mem_cons_of_mem _ (mem_append_right _ (ih w (mem_append_left _ hw)))
    · exact mem_cons_of_mem _ (mem_append_left _ (hredirs.mem_tokens w hw))
    · exact mem_cons_of_mem _ (mem_append_right _ (ih w (mem_append_right _ hw)))

theorem Derives.mem_tokens {nt : Nonterminal} {ts : List Tok} {t : Cmd (List Char)} (h : Derives nt ts t) :
    ∀ w ∈ t.words, .word w ∈ ts := by
  induction h with
  | block _ hredirs ih =>
    intro w hw
    rw [words_wrap, mem_append] at hw
    rcases hw with hw | hw
    · exact mem_cons_of_mem _ (mem_append_left _ (ih w hw))
    · exact mem_cons_of_mem _ (mem_append_right _ (mem_cons_of_mem _ (hredirs.mem_tokens w hw)))
  | args hredirs hargs _ =>
    intro w hw
    rw [words_wrap, map_append, mem_append, mem_append] at hw
    rcases hw with hw | hw | hw
    · exact mem_append_right _ (hargs.mem_tokens w (mem_append_left _ hw))
    · exact mem_append_left _ (hredirs.mem_tokens w hw)
    · exact mem_append_right _ (hargs.mem_tokens w (mem_append_right _ hw))
  | exec _ ih => exact ih
  | pipe _ _ ihe ihp =>
    intro w hw
    rcases mem_append.mp hw with hw | hw
    · exact mem_append_left _ (ihe w hw)
    · exact mem_append_right _ (mem_cons_of_mem _ (ihp w hw))
  | backs n _ ih =>
    intro w hw
    rw [words_back] at hw
    exact mem_append_left _ (ih w hw)
  | list n _ _ ihp ihl =>
    intro w hw
    rcases mem_append.mp hw with hw | hw
    · rw [words_back] at hw
      exact mem_append_left _ (mem_append_left _ (ihp w hw))
    · exact mem_append_right _ (mem_cons_of_mem _ (ihl w hw))

theorem words_map {W V : Type} (f : W → V) (c : Cmd W) : (c.map f).words = c.words.map f := by
  induction c with
  | exec argv => rfl
  | redir cmd file mode fd ih =>
    rw [Cmd.map, Cmd.words, ih, Cmd.words, map_append]
    rfl
  | pipe left right ihl ihr => rw [Cmd.map, Cmd.words, ihl, ihr, Cmd.words, map_append]
  | list left right ihl ihr => rw [Cmd.map, Cmd.words, ihl, ihr, Cmd.words, map_append]
  | back cmd ih => exact ih

/-- The token `sp` of the line, and what the buffer has there. -/
structure Terminated (line buf : List Char) (sp : Span) : Prop where
  token : .word sp.text ∈ tokens line
  place : ∃ pre, line = pre ++ sp.q ∧ sp.q = sp.text ++ sp.eq
  ends : ∀ c s, sp.eq = c :: s → wordChar c = false
  string : cstr buf sp = sp.text

/-- Each word of a tree that `parsecmd` returns is, as a string in the buffer, the token that was
recognised there. Nothing in the buffer is changed but the character after a word. -/
theorem nulterminate_cuts_words (line : List Char) (hnul : '\x00' ∉ line) (cmd : Cmd Span) (buf rest : List Char)
    (h : parsecmd line = .ok (cmd, buf) rest) :
    (∀ sp ∈ cmd.words, Terminated line buf sp) ∧
      buf.length = line.length ∧
      ∀ i, buf[i]? = (line)[i]? ∨ buf[i]? = some '\x00' ∧ ∃ sp ∈ cmd.words, i = line.length - sp.eq.length := by
  have hparsed := parsecmd_parsed line
  unfold wp at hparsed
  rw [h] at hparsed
  obtain ⟨hbuf, s', hend, hc⟩ := hparsed
  obtain rfl : buf = nulterminate cmd line := hbuf
  have hget := getElem?_foldl_terminate cmd.words line
  rw [← nulterminate_eq] at hget
  refine ⟨fun sp hsp => ?_, (hget 0).1, fun i => ?_⟩
  · obtain ⟨ts, hts, hderives⟩ := hc.derives
    rw [hend, append_nil] at hts
    obtain ⟨⟨pre, hpre⟩, w, hcut⟩ := hc.words sp hsp
    constructor
    · rw [hts]
      apply hderives.mem_tokens
      rw [words_map]
      exact mem_map_of_mem hsp
    · exact ⟨pre, hpre.symm, by rw [hcut.text]; exact hcut.split⟩
    · exact hcut.maximal
    · exact cstr_nulterminate hnul hc.words hsp
  · rw [(hget i).2]
    split
    · rename_i hi
      exact .inr ⟨rfl, hi.2⟩
    · exact .inl rfl

/-- `(a>b;c)|d&` -/
theorem nulterminate_cuts_words_block :
    ∃ cmd buf rest, parsecmd "(a>b;c)|d&".toList = .ok (cmd, buf) rest ∧ buf = "(a\x00b\x00c\x00|d\x00".toList ∧
      cmd.words.length = 4 ∧ ∀ sp ∈ cmd.words, Terminated "(a>b;c)|d&".toList buf sp := by
  have hok : (parsecmd "(a>b;c)|d&".toList).okWith
      (fun x _ => x.2 == "(a\x00b\x00c\x00|d\x00".toList && x.1.words.length == 4) = true := by decide +kernel
  obtain ⟨⟨cmd, buf⟩, rest, h, hx⟩ := Res.exists_of_okWith hok
  obtain ⟨hbuf, hlen⟩ := Bool.and_eq_true_iff.mp hx
  exact ⟨cmd, buf, rest, h, beq_iff_eq.mp hbuf, beq_iff_eq.mp hlen, (nulterminate_cuts_words _ (by decide) cmd buf rest h).1⟩

end Xv6.Sh
