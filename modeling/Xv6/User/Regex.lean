import Mathlib.Computability.Language
import Xv6.User.Str

/-!
# The matcher of `grep` and `find` (user/grep.c, user/find.c)

`match`, `matchhere` and `matchstar`. The pattern and the text are pointers: what their objects hold
from there on, up to and past the NUL. To read past the end of an object is `none`.

A pattern is a list of items, each a character or the repetition of one, and may ask for the end of
the text. `lang` is the language of the items. The matcher finds a word of it in the text whenever
there is one.
-/

namespace Xv6.Regex

open List

/-! ## The code -/

/-- `do { if(here(text)) return 1; } while(more(*text++)); return 0;` -/
def scan (more : Byte → Bool) (here : List Byte → Option Bool) : List Byte → Option Bool
  | [] => (here []).bind fun found => if found then some true else none
  | t :: text => (here (t :: text)).bind fun found =>
    if found then some true else if more t then scan more here text else some false

/-- Whether the loop of `matchstar` goes on. -/
def repeats (c t : Byte) : Bool := t != 0 && (t == c || c == ascii '.')

/-- `matchstar`, where `here` is `matchhere` of the rest of the pattern. -/
def matchstar (c : Byte) (here : List Byte → Option Bool) (text : List Byte) : Option Bool := scan (repeats c) here text

/-- `if(*text!='\0' && (c=='.' || c==*text)) return next(text+1); return 0;` -/
def step (c : Byte) (next : List Byte → Option Bool) : List Byte → Option Bool
  | [] => none
  | t :: text => if t ≠ 0 ∧ (c = ascii '.' ∨ c = t) then next text else some false

def matchhere : List Byte → List Byte → Option Bool
  | [], _ => none
  | [c], _ => if c = 0 then some true else none
  | c :: d :: re, text =>
    if c = 0 then some true
    else if d = ascii '*' then matchstar c (matchhere re) text
    else if c = ascii '$' ∧ d = 0 then text.head?.map (· == 0)
    else step c (matchhere (d :: re)) text

/-- `match` -/
def matchText (re text : List Byte) : Option Bool :=
  match re with
  | [] => none
  | c :: re' => if c = ascii '^' then matchhere re' text else scan (· != 0) (matchhere re) text

/-! ## Patterns -/

inductive Item
  | one (c : Byte)
  | star (c : Byte)

/-- The items of a pattern, and whether it asks for the end of the text. -/
def items : List Byte → List Item × Bool
  | [] => ([], false)
  | [c] => if c = ascii '$' then ([], true) else ([.one c], false)
  | c :: d :: re =>
    if d = ascii '*' then (.star c :: (items re).1, (items re).2)
    else (.one c :: (items (d :: re)).1, (items (d :: re)).2)

/-- What one character of a pattern stands for. -/
def charLang (c : Byte) : Language Byte := {w | ∃ b, w = [b] ∧ (c = ascii '.' ∨ c = b)}

open scoped Computability in
def Item.lang : Item → Language Byte
  | .one c => charLang c
  | .star c => (charLang c)∗

def lang (is : List Item) : Language Byte := (is.map Item.lang).prod

/-- The text starts with a word of the pattern. -/
def MatchesHere (re text : List Byte) : Prop :=
  ∃ w post, text = w ++ post ∧ w ∈ lang (items re).1 ∧ ((items re).2 = true → post = [])

/-- The text contains a word of the pattern; it starts with it if the pattern starts with `^`. -/
def Matches (re text : List Byte) : Prop :=
  if re.head? = some (ascii '^') then MatchesHere re.tail text
  else ∃ pre rest, text = pre ++ rest ∧ MatchesHere re rest

theorem lang_cons (i : Item) (is : List Item) : lang (i :: is) = i.lang * lang is := by
  unfold lang
  rw [map_cons, prod_cons]

theorem mem_lang_nil {w : List Byte} : w ∈ lang [] ↔ w = [] := Language.mem_one w

variable {c : Byte}

open scoped Computability in
theorem mem_charLang_star {w : List Byte} : w ∈ (charLang c)∗ ↔ ∀ b ∈ w, c = ascii '.' ∨ c = b := by
  rw [Language.mem_kstar]
  constructor
  · rintro ⟨ws, rfl, hws⟩ b hb
    obtain ⟨v, hv, hbv⟩ := mem_flatten.mp hb
    obtain ⟨b', rfl, hfits⟩ := hws v hv
    rwa [mem_singleton.mp hbv]
  · intro hw
    refine ⟨w.map fun b => [b], ?_, ?_⟩
    · induction w with
      | nil => rfl
      | cons b w ih => rw [map_cons, flatten_cons, ← ih fun b hb => hw b (mem_cons_of_mem _ hb)]; rfl
    · intro v hv
      obtain ⟨b, hb, rfl⟩ := mem_map.mp hv
      exact ⟨b, rfl, hw b hb⟩

/-! ## The matcher -/

section

variable {junk : List Byte}

/-- `f` tells of every text whether `P` holds of it. -/
def Decides (junk : List Byte) (f : List Byte → Option Bool) (P : List Byte → Prop) : Prop :=
  ∀ text, 0 ∉ text → ∃ found, f (text ++ 0 :: junk) = some found ∧ (found = true ↔ P text)

variable {P : List Byte → Prop} {more : Byte → Bool} {re : List Byte}

theorem Decides.congr {f : List Byte → Option Bool} {Q : List Byte → Prop} (h : Decides junk f P)
    (hPQ : ∀ text, 0 ∉ text → (P text ↔ Q text)) : Decides junk f Q := by
  intro text htext
  obtain ⟨found, hf, hfound⟩ := h text htext
  exact ⟨found, hf, hfound.trans (hPQ text htext)⟩

/-- From some place on `P` holds, and the loop gets there. -/
def Reaches (more : Byte → Bool) (P : List Byte → Prop) (text : List Byte) : Prop :=
  ∃ pre rest, text = pre ++ rest ∧ (∀ t ∈ pre, more t = true) ∧ P rest

theorem reaches_nil : Reaches more P [] ↔ P [] := by
  constructor
  · rintro ⟨pre, rest, heq, -, hP⟩
    obtain ⟨rfl, rfl⟩ := append_eq_nil_iff.mp heq.symm
    exact hP
  · exact fun hP => ⟨[], [], rfl, fun t ht => absurd ht not_mem_nil, hP⟩

/-- The place is here, or behind the next character. -/
theorem reaches_cons {t : Byte} {text : List Byte} :
    Reaches more P (t :: text) ↔ P (t :: text) ∨ more t = true ∧ Reaches more P text := by
  constructor
  · rintro ⟨pre, rest, heq, hpre, hP⟩
    cases pre with
    | nil =>
      left
      rw [heq]
      exact hP
    | cons t' pre =>
      obtain ⟨rfl, rfl⟩ := cons.inj heq
      right
      exact ⟨hpre t (mem_cons_self ..), pre, rest, rfl, fun u hu => hpre u (mem_cons_of_mem _ hu), hP⟩
  · rintro (hP | ⟨hmore, pre, rest, rfl, hpre, hP⟩)
    · exact ⟨[], t :: text, rfl, fun t ht => absurd ht not_mem_nil, hP⟩
    · refine ⟨t :: pre, rest, rfl, ?_, hP⟩
      intro u hu
      rcases mem_cons.mp hu with rfl | hu
      · exact hmore
      · exact hpre u hu

theorem scan_cons {here : List Byte → Option Bool} {t : Byte} {text : List Byte} {found : Bool}
    (h : here (t :: text) = some found) :
    scan more here (t :: text) = if found then some true else if more t then scan more here text else some false := by
  rw [scan, h]
  rfl

/-- The loop looks at every place that it can get to. -/
theorem scan_decides {here : List Byte → Option Bool} (h : Decides junk here P)
    (hnul : more 0 = false) : Decides junk (scan more here) (Reaches more P) := by
  intro text htext
  induction text with
  | nil =>
    obtain ⟨found, hf, hfound⟩ := h [] htext
    rw [nil_append] at hf ⊢
    rw [scan_cons hf, hnul]
    refine ⟨found, ?_, hfound.trans reaches_nil.symm⟩
    cases found <;> rfl
  | cons t text ih =>
    obtain ⟨found, hf, hfound⟩ := h (t :: text) htext
    obtain ⟨later, hlater, hiff⟩ := ih fun hmem => htext (mem_cons_of_mem _ hmem)
    rw [cons_append] at hf ⊢
    rw [scan_cons hf, hlater]
    refine ⟨found || (more t && later), ?_, ?_⟩
    · cases found <;> cases more t <;> rfl
    · rw [reaches_cons, Bool.or_eq_true, Bool.and_eq_true, hfound, hiff]

/-! What the pattern asks for, one item at a time. -/

theorem matchesHere_nil (text : List Byte) : MatchesHere [] text :=
  ⟨[], text, rfl, mem_lang_nil.mpr rfl, nofun⟩

/-- `$` -/
theorem matchesHere_end (text : List Byte) : MatchesHere [ascii '$'] text ↔ text = [] := by
  have hitems : items [ascii '$'] = ([], true) := rfl
  unfold MatchesHere
  rw [hitems]
  constructor
  · rintro ⟨w, post, rfl, hw, hpost⟩
    rw [mem_lang_nil.mp hw, hpost rfl]
    rfl
  · rintro rfl
    exact ⟨[], [], rfl, mem_lang_nil.mpr rfl, fun _ => rfl⟩

theorem matchesHere_one (hitems : items (c :: re) = (.one c :: (items re).1, (items re).2))
    (text : List Byte) :
    MatchesHere (c :: re) text ↔ ∃ t rest, text = t :: rest ∧ (c = ascii '.' ∨ c = t) ∧ MatchesHere re rest := by
  unfold MatchesHere
  rw [hitems]
  constructor
  · rintro ⟨w, post, rfl, hw, hpost⟩
    rw [lang_cons, Language.mem_mul] at hw
    obtain ⟨u, ⟨b, rfl, hb⟩, v, hv, rfl⟩ := hw
    exact ⟨b, v ++ post, rfl, hb, v, post, rfl, hv, hpost⟩
  · rintro ⟨t, rest, rfl, ht, v, post, rfl, hv, hpost⟩
    refine ⟨t :: v, post, rfl, ?_, hpost⟩
    rw [lang_cons, Language.mem_mul]
    exact ⟨[t], ⟨t, rfl, ht⟩, v, hv, rfl⟩

theorem matchesHere_star (text : List Byte) (htext : 0 ∉ text) :
    MatchesHere (c :: ascii '*' :: re) text ↔ Reaches (repeats c) (MatchesHere re) text := by
  have hrepeats : ∀ t ∈ text, repeats c t = true ↔ (c = ascii '.' ∨ c = t) := by
    intro t ht
    have hne : t ≠ 0 := fun e => htext (e ▸ ht)
    unfold repeats
    simp only [Bool.and_eq_true, Bool.or_eq_true, bne_iff_ne, beq_iff_eq]
    constructor
    · rintro ⟨-, rfl | h⟩
      · exact .inr rfl
      · exact .inl h
    · rintro (h | rfl)
      · exact ⟨hne, .inr h⟩
      · exact ⟨hne, .inl rfl⟩
  have hitems : items (c :: ascii '*' :: re) = (.star c :: (items re).1, (items re).2) := by
    rw [items, if_pos rfl]
  unfold MatchesHere Reaches
  rw [hitems]
  constructor
  · rintro ⟨w, post, rfl, hw, hpost⟩
    rw [lang_cons, Language.mem_mul] at hw
    obtain ⟨u, hu, v, hv, rfl⟩ := hw
    refine ⟨u, v ++ post, append_assoc .., ?_, v, post, rfl, hv, hpost⟩
    intro t ht
    apply (hrepeats t (by simp [ht])).mpr
    exact mem_charLang_star.mp hu t ht
  · rintro ⟨u, rest, rfl, hu, v, post, rfl, hv, hpost⟩
    refine ⟨u ++ v, post, (append_assoc ..).symm, ?_, hpost⟩
    rw [lang_cons, Language.mem_mul]
    refine ⟨u, ?_, v, hv, rfl⟩
    apply mem_charLang_star.mpr
    intro t ht
    exact (hrepeats t (by simp [ht])).mp (hu t ht)

theorem matchhere_nul (rejunk text : List Byte) : matchhere (0 :: rejunk) text = some true := by
  cases rejunk <;> rfl

/-- The last test of `matchhere`. -/
theorem matchhere_one {d : Byte} (hc : c ≠ 0) (hstar : d ≠ ascii '*')
    (hend : ¬(c = ascii '$' ∧ d = 0)) (h : Decides junk (matchhere (d :: re)) P) :
    Decides junk (matchhere (c :: d :: re)) fun text => ∃ t rest, text = t :: rest ∧ (c = ascii '.' ∨ c = t) ∧ P rest := by
  intro text htext
  rw [matchhere, if_neg hc, if_neg hstar, if_neg hend]
  cases text with
  | nil => exact ⟨false, rfl, by simp⟩
  | cons t text =>
    have ht : t ≠ 0 := fun e => htext (e ▸ mem_cons_self ..)
    obtain ⟨found, hf, hfound⟩ := h text fun hmem => htext (mem_cons_of_mem _ hmem)
    by_cases hfits : c = ascii '.' ∨ c = t
    · refine ⟨found, ?_, ?_⟩
      · rw [cons_append, step, if_pos ⟨ht, hfits⟩, hf]
      · rw [hfound]
        constructor
        · exact fun hP => ⟨t, text, rfl, hfits, hP⟩
        · rintro ⟨t', rest, heq, -, hP⟩
          obtain ⟨rfl, rfl⟩ := cons.inj heq
          exact hP
    · refine ⟨false, if_neg fun hand => hfits hand.2, ?_⟩
      constructor
      · exact nofun
      · rintro ⟨t', rest, heq, hfits', -⟩
        obtain ⟨rfl, rfl⟩ := cons.inj heq
        exact absurd hfits' hfits

/-- `matchhere` on a pattern without its NUL. -/
theorem matchhere_decides (hre : 0 ∉ re) (rejunk : List Byte) :
    Decides junk (matchhere (re ++ 0 :: rejunk)) (MatchesHere re) := by
  have hstar : (0 : Byte) ≠ ascii '*' := by decide
  induction re using items.induct with
  | case1 => exact fun text _ => ⟨true, matchhere_nul rejunk _, iff_of_true rfl (matchesHere_nil text)⟩
  | case2 =>
    intro text htext
    have hdollar : ascii '$' ≠ 0 := by decide
    show ∃ found, matchhere (ascii '$' :: 0 :: rejunk) (text ++ 0 :: junk) = some found ∧ _
    rw [matchhere, if_neg hdollar, if_neg hstar, if_pos ⟨rfl, rfl⟩, matchesHere_end]
    cases text with
    | nil => exact ⟨true, rfl, iff_of_true rfl rfl⟩
    | cons t text =>
      have ht : (t == 0) = false := beq_false_of_ne fun e => htext (e ▸ mem_cons_self ..)
      refine ⟨false, ?_, by simp⟩
      show some (t == 0) = some false
      rw [ht]
  | case3 c hdollar =>
    have hc : c ≠ 0 := fun e => hre (e ▸ mem_cons_self ..)
    have hnil : Decides junk (matchhere (0 :: rejunk)) (MatchesHere []) :=
      fun text _ => ⟨true, matchhere_nul rejunk _, iff_of_true rfl (matchesHere_nil text)⟩
    apply (matchhere_one hc hstar (fun h => hdollar h.1) hnil).congr
    intro text _
    rw [matchesHere_one]
    exact if_neg hdollar
  | case4 c re ih =>
    have hc : c ≠ 0 := fun e => hre (e ▸ mem_cons_self ..)
    have hrest := ih fun hmem => hre (mem_cons_of_mem _ (mem_cons_of_mem _ hmem))
    have hscan : Decides junk (scan (repeats c) (matchhere (re ++ 0 :: rejunk))) (Reaches (repeats c) (MatchesHere re)) :=
      scan_decides hrest rfl
    intro text htext
    obtain ⟨found, hf, hfound⟩ := hscan text htext
    refine ⟨found, ?_, hfound.trans (matchesHere_star text htext).symm⟩
    show matchhere (c :: ascii '*' :: (re ++ 0 :: rejunk)) _ = _
    rw [matchhere, if_neg hc, if_pos rfl, matchstar, hf]
  | case5 c d re hd ih =>
    have hc : c ≠ 0 := fun e => hre (e ▸ mem_cons_self ..)
    have hd0 : d ≠ 0 := fun e => hre (e ▸ mem_cons_of_mem _ (mem_cons_self ..))
    have hrest := ih fun hmem => hre (mem_cons_of_mem _ hmem)
    apply (matchhere_one hc hd (fun h => hd0 h.2) hrest).congr
    intro text _
    rw [matchesHere_one]
    rw [items, if_neg hd]

/-- And so for `match`. -/
theorem matchText_decides (hre : 0 ∉ re) (rejunk : List Byte) :
    Decides junk (matchText (re ++ 0 :: rejunk)) (Matches re) := by
  have hsearch : re.head? ≠ some (ascii '^') → Decides junk (scan (· != 0) (matchhere (re ++ 0 :: rejunk))) (Matches re) := by
    intro hhead
    have hscan : Decides junk (scan (· != 0) (matchhere (re ++ 0 :: rejunk))) (Reaches (· != 0) (MatchesHere re)) :=
      scan_decides (matchhere_decides hre rejunk) rfl
    apply hscan.congr
    intro text htext
    unfold Matches Reaches
    rw [if_neg hhead]
    constructor
    · rintro ⟨pre, rest, rfl, -, h⟩
      exact ⟨pre, rest, rfl, h⟩
    · rintro ⟨pre, rest, rfl, h⟩
      refine ⟨pre, rest, rfl, fun t ht => ?_, h⟩
      exact bne_iff_ne.mpr fun e => htext (mem_append_left _ (e ▸ ht))
  intro text htext
  cases re with
  | nil =>
    obtain ⟨found, hf, hfound⟩ := hsearch (by simp) text htext
    refine ⟨found, ?_, hfound⟩
    rw [nil_append] at hf ⊢
    rw [matchText, if_neg (by decide), hf]
  | cons c re =>
    rw [cons_append] at hsearch ⊢
    rw [matchText]
    by_cases hc : c = ascii '^'
    · rw [if_pos hc]
      unfold Matches
      rw [if_pos (by rw [hc]; rfl)]
      exact matchhere_decides (fun hmem => hre (mem_cons_of_mem c hmem)) rejunk text htext
    · rw [if_neg hc]
      exact hsearch (fun h => hc (Option.some.inj h)) text htext

end

/-- The matcher ends on every pattern and text, and finds a match if and only if there is one. -/
theorem match_iff (re text rejunk junk : List Byte) (hre : 0 ∉ re) (htext : 0 ∉ text) :
    ∃ found, matchText (re ++ 0 :: rejunk) (text ++ 0 :: junk) = some found ∧ (found = true ↔ Matches re text) :=
  matchText_decides hre rejunk text htext

/-- `c*at$` in `the cat`. -/
theorem match_iff_cat : Matches ("c*at$".toList.map ascii) ("the cat".toList.map ascii) := by
  obtain ⟨found, hf, hfound⟩ := match_iff ("c*at$".toList.map ascii) ("the cat".toList.map ascii) [] [] (by decide) (by decide)
  apply hfound.mp
  have hrun : matchText ("c*at$".toList.map ascii ++ [0]) ("the cat".toList.map ascii ++ [0]) = some true := by decide
  rw [hrun] at hf
  exact (Option.some.inj hf).symm

end Xv6.Regex
