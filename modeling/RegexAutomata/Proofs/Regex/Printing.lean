/-
# Printed expressions

When the tokens of an expression are printed one after the other, every class comes out as the group of
its symbols, and every range among them as a class of its own.  What is printed has more parentheses and
brackets than the expression, but the grammar derives it with the same tree
(`Regex.Derives.exists_printed`), so it is parsed into the same postfix form.

A token can be read off from the beginning of what is printed, whatever comes behind it: a literal is none
of the characters of the operators, and a range begins with a bracket, which is none of them either.  So
tokens that are printed alike are the same (`Token.eq_of_text_eq`).

The main result, `Regex.printing_keeps_expression`, says both of whatever is parsed.
-/
import RegexAutomata.Proofs.Symbols

namespace RegexAutomata
namespace Regex

variable {a : Symbol} {symbols : List Symbol} {cs : List Char} {t : Pattern} {level : Level}

/-! ### What is printed is derived -/

/-- A class that consists of one range. -/
def ClassBody.ofRange {lo hi : Char} (h : (Symbol.range lo hi).Written) : ClassBody where
  chars := [lo, '-', hi]
  chars_ne_nil := by simp
  inClass := by
    intro p hp
    obtain ⟨hlo, hhi, hle⟩ := h
    simp only [places, List.mem_cons, List.not_mem_nil, or_false] at hp
    rcases hp with rfl | rfl | rfl
    · exact Or.inl hlo
    · exact Or.inr ⟨rfl, lo, hi, rfl, rfl, hlo, hhi, hle⟩
    · exact Or.inl hhi

lemma ClassBody.expr_ofRange {lo hi : Char} (h : (Symbol.range lo hi).Written) :
    (ofRange h).expr = .symbol (.range lo hi) := by
  have hsymbols : (ofRange h).symbols = [.range lo hi] := by
    have hlo : lo ≠ '-' := ne_of_isLiteral h.1 rfl
    have hhi : hi ≠ '-' := ne_of_isLiteral h.2.1 rfl
    simp [symbols, ofRange, places, Place.symbol?, hlo, hhi]
  simp [expr, hsymbols]

/-- A symbol that can be written is derived from its spelling. -/
lemma exists_derives_spelling (h : a.Written) :
    ∃ t, Derives .atom a.spelling t ∧ t.expr = .symbol a := by
  cases a with
  | literal c => exact ⟨_, .literal h, rfl⟩
  | range lo hi => exact ⟨_, .oneOf (.ofRange h), ClassBody.expr_ofRange h⟩

/-- Further symbols are derived behind bars. -/
lemma exists_derives_alternatives (hsymbols : ∀ s ∈ symbols, s.Written)
    (h : Derives .alternation cs t) :
    ∃ u, Derives .alternation (cs ++ symbols.flatMap fun s => '|' :: s.spelling) u ∧
      u.expr = symbols.foldl (fun e s => .alternate e (.symbol s)) t.expr := by
  induction symbols generalizing cs t with
  | nil => exact ⟨t, by simpa using h, rfl⟩
  | cons s symbols ih =>
    obtain ⟨hs, hsymbols⟩ := List.forall_mem_cons.mp hsymbols
    obtain ⟨u, hu, hexpr⟩ := exists_derives_spelling hs
    obtain ⟨v, hv, hexpr'⟩ := ih hsymbols (.alternate h (.single (.once hu)))
    refine ⟨v, by simpa using hv, ?_⟩
    rw [hexpr', Pattern.expr, hexpr, List.foldl_cons]

/-- The group of a class is derived from what is printed for it. -/
lemma exists_derives_groupOf (body : ClassBody) :
    ∃ u, Derives .atom ((groupOf body.symbols).flatMap Token.spelling) u ∧ u.expr = body.expr := by
  obtain ⟨a, symbols, h⟩ := List.exists_cons_of_ne_nil body.symbols_ne_nil
  obtain ⟨ha, hsymbols⟩ := List.forall_mem_cons.mp (h ▸ fun s hs => body.written hs)
  obtain ⟨t, ht, hexpr⟩ := exists_derives_spelling ha
  obtain ⟨u, hu, hexpr'⟩ := exists_derives_alternatives hsymbols (.whole (.single (.once ht)))
  refine ⟨u, ?_, ?_⟩
  · have hprinted : (groupOf body.symbols).flatMap Token.spelling =
        '(' :: ((a.spelling ++ symbols.flatMap fun s => '|' :: s.spelling) ++ [')']) := by
      rw [h, groupOf_cons]
      simp [Token.spelling, List.flatMap_assoc]
    rw [hprinted]
    exact .group hu
  · simp [ClassBody.expr, h, hexpr', hexpr]

/-- The tokens of a derived text, printed one after the other, are derived on the same level with the
same tree. -/
lemma Derives.exists_printed (h : Derives level cs t) :
    ∃ ts u, ReadsAs cs ts ∧ Derives level (ts.flatMap Token.spelling) u ∧ u.expr = t.expr := by
  induction h with
  | literal hc => exact ⟨_, _, readsAs_literal hc, .literal hc, rfl⟩
  | oneOf body =>
    obtain ⟨u, hu, hexpr⟩ := exists_derives_groupOf body
    exact ⟨_, u, readsAs_class body, hu, hexpr⟩
  | group _ ih =>
    obtain ⟨ts, u, hread, hu, hexpr⟩ := ih
    have hopen : ReadsAs ['('] [.lparen] := readsAs_char (by decide) fun _ => rfl
    have hclose : ReadsAs [')'] [.rparen] := readsAs_char (by decide) fun _ => rfl
    refine ⟨_, u, hopen.append (hread.append hclose), ?_, hexpr⟩
    simpa [Token.spelling] using Derives.group hu
  | once _ ih =>
    obtain ⟨ts, u, hread, hu, hexpr⟩ := ih
    exact ⟨ts, u, hread, .once hu, hexpr⟩
  | single _ ih =>
    obtain ⟨ts, u, hread, hu, hexpr⟩ := ih
    exact ⟨ts, u, hread, .single hu, hexpr⟩
  | whole _ ih =>
    obtain ⟨ts, u, hread, hu, hexpr⟩ := ih
    exact ⟨ts, u, hread, .whole hu, hexpr⟩
  | star _ ih =>
    obtain ⟨ts, u, hread, hu, hexpr⟩ := ih
    have hstar : ReadsAs ['*'] [.star] := readsAs_char (by decide) fun _ => rfl
    refine ⟨_, .star u, hread.append hstar, ?_, congrArg Expr.star hexpr⟩
    simpa [Token.spelling] using Derives.star hu
  | plus _ ih =>
    obtain ⟨ts, u, hread, hu, hexpr⟩ := ih
    have hplus : ReadsAs ['+'] [.plus] := readsAs_char (by decide) fun _ => rfl
    refine ⟨_, .plus u, hread.append hplus, ?_, congrArg Expr.plus hexpr⟩
    simpa [Token.spelling] using Derives.plus hu
  | concat _ _ ih ih' =>
    obtain ⟨ts, u, hread, hu, hexpr⟩ := ih
    obtain ⟨ts', u', hread', hu', hexpr'⟩ := ih'
    refine ⟨_, .concat u u', hread.append hread', ?_, congrArg₂ Expr.concat hexpr hexpr'⟩
    simpa using Derives.concat hu hu'
  | alternate _ _ ih ih' =>
    obtain ⟨ts, u, hread, hu, hexpr⟩ := ih
    obtain ⟨ts', u', hread', hu', hexpr'⟩ := ih'
    have hbar : ReadsAs ['|'] [.alternate] := readsAs_char (by decide) fun _ => rfl
    refine ⟨_, .alternate u u', hread.append (hbar.append hread'), ?_,
      congrArg₂ Expr.alternate hexpr hexpr'⟩
    simpa [Token.spelling] using Derives.alternate hu hu'

end Regex

/-! ### Printed tokens can be told apart -/

namespace Token

variable {t : Token} {ts us : List Token}

/-- The symbol of a token, if it is one, can be written. -/
def Written (t : Token) : Prop := ∀ a, t = symbol a → a.Written

/-- The token that is printed as one character. -/
def ofMark (c : Char) : Token :=
  if c = '*' then star
  else if c = '+' then plus
  else if c = '#' then concat
  else if c = '|' then alternate
  else if c = '(' then lparen
  else if c = ')' then rparen
  else symbol (.literal c)

/-- The first token of what is printed. -/
def first? : List Char → Option Token
  | [] => none
  | c :: rest =>
    -- behind the bracket come the two ends of a range, with a dash between them
    if c = '[' then some (symbol (.range (rest.getD 0 c) (rest.getD 2 c)))
    else some (ofMark c)

/-- Whatever is printed behind it, the first token can be read off. -/
lemma first?_spelling_append (ht : t.Written) (xs : List Char) :
    first? (t.spelling ++ xs) = some t := by
  cases t with
  | star | plus | concat | alternate | lparen | rparen => rfl
  | symbol a =>
    have ha := ht a rfl
    cases a with
    | range lo hi => rfl
    | literal c =>
      -- a literal is none of the other characters
      have hne : ∀ d, isLiteral d = false → c ≠ d := fun d hd => Regex.ne_of_isLiteral ha hd
      rw [spelling, Symbol.spelling, List.singleton_append, first?, if_neg (hne '[' rfl), ofMark,
        if_neg (hne '*' rfl), if_neg (hne '+' rfl), if_neg (hne '#' rfl), if_neg (hne '|' rfl),
        if_neg (hne '(' rfl), if_neg (hne ')' rfl)]

/-- Tokens that are printed alike are the same. -/
lemma eq_of_text_eq (hts : ∀ t ∈ ts, t.Written) (hus : ∀ t ∈ us, t.Written)
    (h : text ts = text us) : ts = us := by
  replace h : ts.flatMap spelling = us.flatMap spelling := String.ofList_injective h
  induction ts generalizing us with
  | nil =>
    cases us with
    | nil => rfl
    | cons u us =>
      have hfirst := first?_spelling_append (hus u List.mem_cons_self) (us.flatMap spelling)
      rw [← List.flatMap_cons, ← h] at hfirst
      exact absurd hfirst (by simp [first?])
  | cons t ts ih =>
    obtain ⟨ht, hts⟩ := List.forall_mem_cons.mp hts
    have hfirst := first?_spelling_append ht (ts.flatMap spelling)
    rw [← List.flatMap_cons, h] at hfirst
    cases us with
    | nil => exact absurd hfirst (by simp [first?])
    | cons u us =>
      obtain ⟨hu, hus'⟩ := List.forall_mem_cons.mp hus
      rw [List.flatMap_cons, first?_spelling_append hu, Option.some.injEq] at hfirst
      rw [List.flatMap_cons, List.flatMap_cons, hfirst] at h
      rw [hfirst, ih hts hus' (List.append_cancel_left h)]

end Token

namespace Regex

variable {text : String} {p : Postfix}

/-- What is parsed can be written. -/
lemma written_of_parse (h : parse text = .ok p) : ∀ t ∈ p.tokens, t.Written := by
  obtain ⟨t, ht⟩ := derivable_of_parse h
  have hp := h.symm.trans ht.parse_eq
  rw [Except.ok.injEq] at hp
  rintro _ hmem a rfl
  rw [hp] at hmem
  exact ht.written hmem

/-- The tokens of an expression, printed with a group for every class, are an expression that has the
same postfix form and for which the same automata are built.  Expressions whose postfix forms are printed
alike have the same postfix form. -/
theorem printing_keeps_expression (h : parse text = .ok p) :
    (∃ ts, tokens text.toList = .ok ts ∧ parse (Token.text ts) = .ok p ∧
      ∃ c, compile text = .ok c ∧
        compile (Token.text ts) = .ok { c with source := Token.text ts }) ∧
      ∀ text' p', parse text' = .ok p' → p.text = p'.text → p.tokens = p'.tokens := by
  refine ⟨?_, fun text' p' h' htext =>
    Token.eq_of_text_eq (written_of_parse h) (written_of_parse h') htext⟩
  obtain ⟨t, ht⟩ := derivable_of_parse h
  obtain ⟨ts, u, hread, hu, hexpr⟩ := ht.exists_printed
  have hprinted : parse (Token.text ts) = .ok p := by
    have hu' : Derives .alternation (Token.text ts).toList u := by
      rwa [Token.text, String.toList_ofList]
    rw [hu'.parse_eq, hexpr, ← ht.parse_eq, h]
  have hcompile : ∀ {text}, parse text = .ok p → compile text = .ok
      ⟨text, p, (Enfa.ofPostfix p).cacheClosures, (Enfa.ofPostfix p).cacheClosures.determinize,
        (Enfa.ofPostfix p).cacheClosures.determinize.minimization⟩ := by
    intro text h
    rw [compile, h]
    rfl
  exact ⟨ts, hread.tokens_eq, hprinted, _, hcompile h, hcompile hprinted⟩

/-- Two classes become groups, and the ranges in them classes of their own. -/
theorem printing_keeps_expression_of_ranges :
    ∃ p, parse "[a-cx]*(y|[0-9])" = .ok p ∧ p.text = "[a-c]x|*y[0-9]|#" ∧
      parse "([a-c]|x)*(y|([0-9]))" = .ok p ∧
      ∀ p', parse "((([a-c])|x))*[y0-9]" = .ok p' → p.text = p'.text → p.tokens = p'.tokens := by
  refine exists_eq_ok_and (p := fun p => p.text = "[a-c]x|*y[0-9]|#") (by decide +kernel) ?_
  rintro p h htext
  obtain ⟨⟨ts, htokens, hparse, -⟩, hinj⟩ := printing_keeps_expression h
  have hprinted : ((tokens "[a-cx]*(y|[0-9])".toList).toOption.any fun ts =>
      Token.text ts = "([a-c]|x)*(y|([0-9]))") = true := by decide +kernel
  rw [htokens] at hprinted
  have htext' : Token.text ts = "([a-c]|x)*(y|([0-9]))" := by
    simpa [Except.toOption] using hprinted
  exact ⟨htext, htext' ▸ hparse, hinj _⟩

end Regex

end RegexAutomata
