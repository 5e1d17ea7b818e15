/-
# The tokens of derived texts

A derived text is read into tokens, and with concatenation made explicit these are an infix notation of
its tree.  So every derived text is parsed, into the postorder of its tree (`Derives.parse_eq`).
-/
import RegexAutomata.Proofs.Regex.Grammar
import RegexAutomata.Proofs.Regex.Infix
import RegexAutomata.Regex.Parse

namespace RegexAutomata

/-! ### Explicit concatenation -/

namespace Token

variable {t u : Token} {ts xs ys : List Token}

/-- Between two lists of tokens a concatenation is inserted if the first ends and the second begins an
operand. -/
lemma juxtapose_append (hx : xs.getLast? = some t) (hy : ys.head? = some u) :
    juxtapose (xs ++ ys) =
      juxtapose xs ++ if t.endsOperand && u.beginsOperand then concat :: juxtapose ys
        else juxtapose ys := by
  induction xs with
  | nil => exact absurd hx (by simp)
  | cons x xs ih =>
    cases xs with
    | nil =>
      obtain rfl : x = t := Option.some.inj hx
      obtain ⟨ys, rfl⟩ : ∃ ys', ys = u :: ys' := by
        cases ys with
        | nil => exact absurd hy (by simp)
        | cons y ys => exact ⟨ys, by rw [Option.some.inj hy]⟩
      cases h : x.endsOperand && u.beginsOperand <;> simp [juxtapose, h]
    | cons x' xs =>
      rw [List.getLast?_cons_cons] at hx
      have ih := ih hx
      rw [List.cons_append] at ih
      rw [List.cons_append, List.cons_append, juxtapose, juxtapose, ih]
      split <;> rfl

lemma juxtapose_append_of_ends (hx : xs.getLast? = some t) (hy : ys.head? = some u)
    (ht : t.endsOperand = true) (hu : u.beginsOperand = true) :
    juxtapose (xs ++ ys) = juxtapose xs ++ concat :: juxtapose ys := by
  rw [juxtapose_append hx hy, ht, hu]
  rfl

lemma juxtapose_append_of_not_ends (hx : xs.getLast? = some t) (hy : ys.head? = some u)
    (h : t.endsOperand = false ∨ u.beginsOperand = false) :
    juxtapose (xs ++ ys) = juxtapose xs ++ juxtapose ys := by
  rw [juxtapose_append hx hy]
  rcases h with h | h <;> simp [h]

lemma juxtapose_cons_of_not_ends (h : t.endsOperand = false ∨ u.beginsOperand = false) :
    juxtapose (t :: u :: ys) = t :: juxtapose (u :: ys) :=
  juxtapose_append_of_not_ends (List.getLast?_singleton) rfl h

/-- Parentheses around tokens do not touch them. -/
lemma juxtapose_parens (h : ts ≠ []) :
    juxtapose (lparen :: (ts ++ [rparen])) = lparen :: (juxtapose ts ++ [rparen]) := by
  have hhead : (ts ++ [rparen]).head? = some (ts.head h) := by
    rw [List.head?_append, List.head?_eq_some_head h]
    rfl
  have hlast : ts.getLast? = some (ts.getLast h) := List.getLast?_eq_some_getLast h
  rw [← List.singleton_append, juxtapose_append_of_not_ends rfl hhead (Or.inl rfl),
    juxtapose_append_of_not_ends hlast rfl (Or.inr rfl)]
  rfl

end Token

namespace Regex

/-! ### The group of a class -/

variable {a : Symbol} {symbols : List Symbol} {ts : List Token} {e : Expr}

lemma groupOf_cons :
    groupOf (a :: symbols) =
      .lparen :: (.symbol a :: symbols.flatMap (fun s => [.alternate, .symbol s]) ++ [.rparen]) := by
  have h : ((a :: symbols).map Token.symbol).intersperse .alternate =
      .symbol a :: symbols.flatMap fun s => [.alternate, .symbol s] := by
    induction symbols generalizing a with
    | nil => rfl
    | cons s symbols ih =>
      have ih := @ih s
      rw [List.map_cons] at ih
      rw [List.map_cons, List.map_cons, List.intersperse_cons_cons, ih]
      rfl
  rw [groupOf, h]

lemma infix_flatMap_alternate (h : Infix 1 ts e) :
    Infix 1 (ts ++ symbols.flatMap fun s => [.alternate, .symbol s])
      (symbols.foldl (fun e s => .alternate e (.symbol s)) e) := by
  induction symbols generalizing ts e with
  | nil => simpa using h
  | cons s symbols ih =>
    have h' := ih (.alternate h (.sequence (.symbol s)))
    simpa using h'

/-- The group of a class is an infix notation of the tree of the class. -/
lemma infix_groupOf (body : ClassBody) : Infix 3 (groupOf body.symbols) body.expr := by
  obtain ⟨a, symbols, h⟩ := List.exists_cons_of_ne_nil body.symbols_ne_nil
  have hexpr : body.expr =
      symbols.foldl (fun e s => .alternate e (.symbol s)) (.symbol a) := by
    simp [ClassBody.expr, h]
  rw [h, hexpr, groupOf_cons]
  exact .group (infix_flatMap_alternate (.alternation (.sequence (.symbol a))))

/-- No two symbols of the group stand side by side. -/
lemma juxtapose_groupOf : Token.juxtapose (groupOf symbols) = groupOf symbols := by
  cases symbols with
  | nil => rfl
  | cons a symbols =>
    have h : Token.juxtapose (.symbol a ::
        (symbols.flatMap (fun s => [.alternate, .symbol s]) ++ [.rparen])) =
        .symbol a :: (symbols.flatMap (fun s => [.alternate, .symbol s]) ++ [.rparen]) := by
      induction symbols generalizing a with
      | nil => rfl
      | cons s symbols ih =>
        have ih := ih s
        simp only [List.flatMap_cons, List.cons_append, List.nil_append]
        rw [Token.juxtapose_cons_of_not_ends (Or.inr rfl),
          Token.juxtapose_cons_of_not_ends (Or.inl rfl), ih]
    rw [groupOf_cons, List.cons_append, Token.juxtapose_cons_of_not_ends (Or.inl rfl), h]

/-! ### Reading derived texts -/

/-- A text is read into tokens, wherever it begins and whatever comes after it. -/
def ReadsAs (cs : List Char) (ts : List Token) : Prop :=
  ∀ position rest, tokensFrom position (cs ++ rest) =
    (ts ++ ·) <$> tokensFrom (position + cs.length) rest

variable {c : Char} {cs ds : List Char} {us : List Token} {token : Token}

lemma ReadsAs.append (h : ReadsAs cs ts) (h' : ReadsAs ds us) : ReadsAs (cs ++ ds) (ts ++ us) := by
  intro position rest
  rw [List.append_assoc, h, h', List.length_append, Nat.add_assoc]
  cases tokensFrom (position + (cs.length + ds.length)) rest <;> simp [Functor.map, Except.map]

lemma ReadsAs.tokens_eq (h : ReadsAs cs ts) : tokens cs = .ok ts := by
  have h' := h 0 []
  rw [List.append_nil] at h'
  rw [tokens, h', tokensFrom]
  simp [Functor.map, Except.map]

lemma readsAs_char (hc : c ≠ '[') (h : ∀ position, tokenOf c position = .ok token) :
    ReadsAs [c] [token] := by
  intro position rest
  rw [List.singleton_append, tokensFrom, if_neg hc, h]
  rfl

lemma tokenOf_of_isLiteral (hc : isLiteral c = true) (position : Nat) :
    tokenOf c position = .ok (.symbol (.literal c)) := by
  have hne : ∀ d, isLiteral d = false → c ≠ d := fun d hd => ne_of_isLiteral hc hd
  rw [tokenOf, if_neg (hne '(' rfl), if_neg (hne ')' rfl),
    if_neg (hne '*' rfl), if_neg (hne '+' rfl), if_neg (hne '|' rfl),
    if_neg (hne ']' rfl), if_pos hc]

lemma readsAs_literal (hc : isLiteral c = true) : ReadsAs [c] [.symbol (.literal c)] :=
  readsAs_char (ne_of_isLiteral hc rfl) (tokenOf_of_isLiteral hc)

/-- A class goes on over all characters that are no brackets. -/
lemma splitClass?_members_append {members : List Char} (h : ∀ c ∈ members, c ≠ '[' ∧ c ≠ ']') :
    splitClass? (members ++ cs) = (splitClass? cs).map fun split => (members ++ split.1, split.2) := by
  induction members with
  | nil => simp
  | cons c members ih =>
    obtain ⟨hc, h⟩ := List.forall_mem_cons.mp h
    rw [List.cons_append, splitClass?, if_neg hc.2, if_neg hc.1, ih h, Option.map_map]
    rfl

lemma splitClass?_append {members rest : List Char} (h : ∀ c ∈ members, c ≠ '[' ∧ c ≠ ']') :
    splitClass? (members ++ ']' :: rest) = some (members, rest) := by
  rw [splitClass?_members_append h]
  show some (members ++ [], rest) = _
  rw [List.append_nil]

/-- Without a split there is no class. -/
lemma tokensFrom_of_splitClass?_eq_none (position : Nat) (h : splitClass? cs = none) :
    tokensFrom position ('[' :: cs) = .error .unbalancedBrackets := by
  rw [tokensFrom, if_pos rfl]
  split
  · rfl
  · rename_i hsplit
    exact absurd (h.symm.trans hsplit) (by simp)

/-- A class ends at its first bracket. -/
lemma tokensFrom_class {members rest : List Char} (position : Nat)
    (h : ∀ c ∈ members, c ≠ '[' ∧ c ≠ ']') :
    tokensFrom position ('[' :: (members ++ ']' :: rest)) = (do
      let symbols ← classSymbols none (position + 1) members
      if symbols.isEmpty then .error (.emptyClass position)
      else
        let tokens ← tokensFrom (position + members.length + 2) rest
        return groupOf symbols ++ tokens) := by
  have hsplit : splitClass? (members ++ ']' :: rest) = some (members, rest) := splitClass?_append h
  rw [tokensFrom, if_pos rfl]
  split
  · rename_i hnone
    exact absurd (hnone.symm.trans hsplit) (by simp)
  · rename_i members' rest' hsome
    obtain ⟨rfl, rfl⟩ := Prod.mk.inj (Option.some.inj (hsome.symm.trans hsplit))
    rfl

lemma ClassBody.not_bracket (body : ClassBody) : ∀ c ∈ body.chars, c ≠ '[' ∧ c ≠ ']' := by
  intro c hc
  rcases body.isLiteral_or_eq_dash hc with hlit | rfl
  · exact ⟨ne_of_isLiteral hlit rfl, ne_of_isLiteral hlit rfl⟩
  · exact ⟨by decide, by decide⟩

lemma readsAs_class (body : ClassBody) :
    ReadsAs ('[' :: (body.chars ++ [']'])) (groupOf body.symbols) := by
  intro position rest
  have hsymbols : classSymbols none (position + 1) body.chars = .ok body.symbols :=
    classSymbols_eq_ok_iff.mpr ⟨body.inClass, rfl⟩
  have hlength : position + ('[' :: (body.chars ++ [']'])).length =
      position + body.chars.length + 2 := by
    rw [List.length_cons, List.length_append, List.length_singleton]
    omega
  rw [hlength, List.cons_append, List.append_assoc, List.singleton_append,
    tokensFrom_class position body.not_bracket, hsymbols]
  show (if body.symbols.isEmpty = true then _ else _) = _
  rw [if_neg (by simpa using body.symbols_ne_nil)]
  rfl

/-! ### Every derived text is parsed -/

/-- The precedence of the loosest operator that may stand outside parentheses. -/
def Level.precedence : Level → Nat
  | alternation => 1
  | sequence => 2
  | repeated | atom => 3

/-- A text is read into tokens that begin and end an operand, and with explicit concatenation they are an
infix notation. -/
structure Notates (level : Level) (cs : List Char) (ts : List Token) (e : Expr) : Prop where
  readsAs : ReadsAs cs ts
  begins : ∃ t, ts.head? = some t ∧ t.beginsOperand = true
  ends : ∃ t, ts.getLast? = some t ∧ t.endsOperand = true
  isInfix : Infix level.precedence (Token.juxtapose ts) e

namespace Notates

variable {level : Level} {f : Expr}

lemma group (h : Notates .alternation cs ts e) :
    Notates .atom ('(' :: (cs ++ [')'])) (.lparen :: (ts ++ [.rparen])) e := by
  have hopen : ReadsAs ['('] [.lparen] := readsAs_char (by decide) fun _ => rfl
  have hclose : ReadsAs [')'] [.rparen] := readsAs_char (by decide) fun _ => rfl
  -- an empty group would be given no operand
  have hne : ts ≠ [] := by
    rintro rfl
    obtain ⟨t, ht, -⟩ := h.begins
    exact absurd ht (by simp)
  refine ⟨(hopen.append (h.readsAs.append hclose)), ⟨.lparen, rfl, rfl⟩, ⟨.rparen, ?_, rfl⟩, ?_⟩
  · rw [← List.cons_append, List.getLast?_concat]
  · rw [Token.juxtapose_parens hne]
    exact .group h.isInfix

lemma repetition {e' : Expr} (h : Notates .atom cs ts e) (hread : ReadsAs [c] [token])
    (hends : token.endsOperand = true) (hbegins : token.beginsOperand = false)
    (htree : Infix 3 (Token.juxtapose ts ++ [token]) e') :
    Notates .repeated (cs ++ [c]) (ts ++ [token]) e' := by
  obtain ⟨t, ht, hbegins'⟩ := h.begins
  obtain ⟨u, hu, -⟩ := h.ends
  refine ⟨h.readsAs.append hread, ⟨t, ?_, hbegins'⟩, ⟨token, List.getLast?_concat, hends⟩, ?_⟩
  · rw [List.head?_append, ht]
    rfl
  · rw [Token.juxtapose_append_of_not_ends hu rfl (Or.inr hbegins)]
    exact htree

lemma concat (h : Notates .sequence cs ts e) (h' : Notates .repeated ds us f) :
    Notates .sequence (cs ++ ds) (ts ++ us) (.concat e f) := by
  obtain ⟨t, ht, hbegins⟩ := h.begins
  obtain ⟨t', ht', hends⟩ := h.ends
  obtain ⟨u, hu, hbegins'⟩ := h'.begins
  obtain ⟨u', hu', hends'⟩ := h'.ends
  -- `t` and `u'` are the outer ends; between `t'` and `u` the concatenation is inserted
  refine ⟨h.readsAs.append h'.readsAs, ⟨t, ?_, hbegins⟩, ⟨u', ?_, hends'⟩, ?_⟩
  · rw [List.head?_append, ht]
    rfl
  · rw [List.getLast?_append, hu']
    rfl
  · rw [Token.juxtapose_append_of_ends ht' hu hends hbegins']
    exact .concat h.isInfix h'.isInfix

lemma alternate (h : Notates .alternation cs ts e) (h' : Notates .sequence ds us f) :
    Notates .alternation (cs ++ '|' :: ds) (ts ++ .alternate :: us) (.alternate e f) := by
  obtain ⟨t, ht, hbegins⟩ := h.begins
  obtain ⟨t', ht', -⟩ := h.ends
  obtain ⟨u, hu, -⟩ := h'.begins
  obtain ⟨u', hu', hends'⟩ := h'.ends
  have hbar : ReadsAs ['|'] [.alternate] := readsAs_char (by decide) fun _ => rfl
  have hjuxtapose : Token.juxtapose (.alternate :: us) = .alternate :: Token.juxtapose us :=
    Token.juxtapose_append_of_not_ends List.getLast?_singleton hu (Or.inl rfl)
  refine ⟨h.readsAs.append (hbar.append h'.readsAs), ⟨t, ?_, hbegins⟩, ⟨u', ?_, hends'⟩, ?_⟩
  · rw [List.head?_append, ht]
    rfl
  · rw [List.getLast?_append, List.getLast?_cons, hu']
    rfl
  · rw [Token.juxtapose_append_of_not_ends ht' rfl (Or.inr rfl), hjuxtapose]
    exact .alternate h.isInfix h'.isInfix

end Notates

/-- A derived text is read into a notation of its tree. -/
lemma Derives.exists_notates {level : Level} {t : Pattern} (h : Derives level cs t) :
    ∃ ts, Notates level cs ts t.expr := by
  induction h with
  | literal hc =>
    exact ⟨_, readsAs_literal hc, ⟨_, rfl, rfl⟩, ⟨_, rfl, rfl⟩, .symbol _⟩
  | oneOf body =>
    refine ⟨_, readsAs_class body, ⟨.lparen, rfl, rfl⟩, ⟨.rparen, ?_, rfl⟩, ?_⟩
    · rw [groupOf, ← List.cons_append, List.getLast?_concat]
    · rw [juxtapose_groupOf]
      exact infix_groupOf body
  | group _ ih =>
    obtain ⟨ts, h⟩ := ih
    exact ⟨_, h.group⟩
  | once _ ih =>
    obtain ⟨ts, h⟩ := ih
    exact ⟨ts, h.readsAs, h.begins, h.ends, h.isInfix⟩
  | star _ ih =>
    obtain ⟨ts, h⟩ := ih
    exact ⟨_, h.repetition (readsAs_char (by decide) fun _ => rfl) rfl rfl (.star h.isInfix)⟩
  | plus _ ih =>
    obtain ⟨ts, h⟩ := ih
    exact ⟨_, h.repetition (readsAs_char (by decide) fun _ => rfl) rfl rfl (.plus h.isInfix)⟩
  | single _ ih =>
    obtain ⟨ts, h⟩ := ih
    exact ⟨ts, h.readsAs, h.begins, h.ends, .sequence h.isInfix⟩
  | concat _ _ ih ih' =>
    obtain ⟨ts, h⟩ := ih
    obtain ⟨us, h'⟩ := ih'
    exact ⟨_, h.concat h'⟩
  | whole _ ih =>
    obtain ⟨ts, h⟩ := ih
    exact ⟨ts, h.readsAs, h.begins, h.ends, .alternation h.isInfix⟩
  | alternate _ _ ih ih' =>
    obtain ⟨ts, h⟩ := ih
    obtain ⟨us, h'⟩ := ih'
    exact ⟨_, h.alternate h'⟩

/-- A derived text is parsed into the postorder of its tree. -/
theorem Derives.parse_eq {text : String} {t : Pattern} (h : Derives .alternation text.toList t) :
    parse text = .ok (Postfix.ofExpr t.expr) := by
  obtain ⟨ts, hts⟩ := h.exists_notates
  rw [parse, h.checkPlacement, hts.readsAs.tokens_eq]
  exact hts.isInfix.ofTokens_eq

end Regex
end RegexAutomata
