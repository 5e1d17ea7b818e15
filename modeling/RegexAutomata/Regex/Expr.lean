/-
# Expressions as trees

An expression is made of symbols by concatenation, alternation and two kinds of repetition.
`Expr.Matches` says which strings it stands for: it is the meaning that the automata of an
expression have to agree with.

`Expr.postorder` lists the symbols and operators of an expression, each operator behind its
operands.  The main statements are `Postfix.postorder_expr` and `Postfix.expr_ofExpr`: every postfix
expression is the list of exactly one tree, and `Postfix.expr` finds that tree.
-/
import RegexAutomata.Regex.Postfix

namespace RegexAutomata

/-- A regular expression. -/
inductive Expr where
  /-- One character that a symbol admits. -/
  | symbol (a : Symbol)
  /-- One expression after the other. -/
  | concat (first second : Expr)
  /-- One of two expressions. -/
  | alternate (left right : Expr)
  /-- Any number of repetitions. -/
  | star (body : Expr)
  /-- At least one repetition. -/
  | plus (body : Expr)
deriving DecidableEq, Repr

namespace Expr

/-- An expression stands for a string. -/
inductive Matches : Expr → List Char → Prop
  /-- A symbol stands for each character it admits. -/
  | symbol {a : Symbol} {x : Char} (admits : a.admits x = true) : Matches (.symbol a) [x]
  /-- A concatenation stands for a string of the first followed by one of the second. -/
  | concat {e f : Expr} {u v : List Char} (first : Matches e u) (second : Matches f v) :
    Matches (.concat e f) (u ++ v)
  /-- An alternation stands for the strings of its left side. -/
  | left {e f : Expr} {u : List Char} (left : Matches e u) : Matches (.alternate e f) u
  /-- An alternation stands for the strings of its right side. -/
  | right {e f : Expr} {u : List Char} (right : Matches f u) : Matches (.alternate e f) u
  /-- There may be no repetition. -/
  | stop (e : Expr) : Matches (.star e) []
  /-- There may be one repetition more. -/
  | again {e : Expr} {u v : List Char} (once : Matches e u) (more : Matches (.star e) v) :
    Matches (.star e) (u ++ v)
  /-- There must be one repetition. -/
  | once {e : Expr} {u v : List Char} (once : Matches e u) (more : Matches (.star e) v) :
    Matches (.plus e) (u ++ v)

/-! ### Which strings an expression stands for, by its form -/

section
variable {a : Symbol} {e f : Expr} {w : List Char}

@[simp] theorem matches_symbol_iff : (symbol a).Matches w ↔ ∃ x, w = [x] ∧ a.admits x = true := by
  constructor
  · intro h
    cases h with
    | symbol admits => exact ⟨_, rfl, admits⟩
  · rintro ⟨x, rfl, admits⟩
    exact .symbol admits

@[simp] theorem matches_concat_iff :
    (concat e f).Matches w ↔ ∃ u v, w = u ++ v ∧ e.Matches u ∧ f.Matches v := by
  constructor
  · intro h
    cases h with
    | concat first second => exact ⟨_, _, rfl, first, second⟩
  · rintro ⟨u, v, rfl, first, second⟩
    exact .concat first second

@[simp] theorem matches_alternate_iff : (alternate e f).Matches w ↔ e.Matches w ∨ f.Matches w := by
  constructor
  · intro h
    cases h with
    | left left => exact Or.inl left
    | right right => exact Or.inr right
  · rintro (left | right)
    · exact .left left
    · exact .right right

/-- A repetition stands for the strings that can be cut into pieces its body stands for. -/
@[simp] theorem matches_star_iff :
    (star e).Matches w ↔ ∃ us : List (List Char), w = us.flatten ∧ ∀ u ∈ us, e.Matches u := by
  constructor
  · intro h
    generalize hs : star e = s at h
    induction h with
    | symbol | concat | left | right | once => exact absurd hs (by simp)
    | stop => exact ⟨[], rfl, by simp⟩
    | again once _ _ ih =>
      obtain ⟨us, rfl, hus⟩ := ih hs
      obtain rfl := Expr.star.inj hs
      exact ⟨_ :: us, rfl, by simpa using ⟨once, hus⟩⟩
  · rintro ⟨us, rfl, hus⟩
    induction us with
    | nil => exact .stop e
    | cons u us ih =>
      simp only [List.mem_cons, forall_eq_or_imp] at hus
      exact .again hus.1 (ih hus.2)

@[simp] theorem matches_plus_iff :
    (plus e).Matches w ↔ ∃ u v, w = u ++ v ∧ e.Matches u ∧ (star e).Matches v := by
  constructor
  · intro h
    cases h with
    | once once more => exact ⟨_, _, rfl, once, more⟩
  · rintro ⟨u, v, rfl, once, more⟩
    exact .once once more

end

/-! ### Postorder -/

/-- The symbols and operators of an expression, each operator behind its operands. -/
def postorder : Expr → List Token
  | symbol a => [.symbol a]
  | concat e f => e.postorder ++ (f.postorder ++ [.concat])
  | alternate e f => e.postorder ++ (f.postorder ++ [.alternate])
  | star e => e.postorder ++ [.star]
  | plus e => e.postorder ++ [.plus]

/-- Read one token: take its operands from the stack and put the expression they make there. -/
def readToken : List Expr → Token → Option (List Expr)
  | stack, .symbol a => some (symbol a :: stack)
  | e :: stack, .star => some (star e :: stack)
  | e :: stack, .plus => some (plus e :: stack)
  | f :: e :: stack, .concat => some (concat e f :: stack)
  | f :: e :: stack, .alternate => some (alternate e f :: stack)
  | _, _ => none

/-- Read tokens from left to right. -/
def readTokens (stack : List Expr) : List Token → Option (List Expr)
  | [] => some stack
  | token :: rest => (readToken stack token).bind (readTokens · rest)

/-- The expression with a given postorder. -/
def ofPostorder? (tokens : List Token) : Option Expr :=
  match readTokens [] tokens with
  | some [e] => some e
  | _ => none

/-- Reading the postorder of an expression puts it on the stack. -/
theorem readTokens_postorder (e : Expr) (stack : List Expr) (rest : List Token) :
    readTokens stack (e.postorder ++ rest) = readTokens (e :: stack) rest := by
  induction e generalizing stack rest with
  | symbol a => rfl
  | concat e f he hf | alternate e f he hf =>
    simp only [postorder, List.append_assoc, he, hf]
    rfl
  | star e he | plus e he =>
    simp only [postorder, List.append_assoc, he]
    rfl

/-- The postorder of an expression leaves one operand more. -/
theorem operands?_postorder (e : Expr) (count : Nat) (rest : List Token) :
    Token.operands? count (e.postorder ++ rest) = Token.operands? (count + 1) rest := by
  induction e generalizing count rest with
  | symbol a => rfl
  | concat e f he hf | alternate e f he hf =>
    simp only [postorder, List.append_assoc, he, hf]
    simp [Token.operands?]
  | star e he | plus e he =>
    simp only [postorder, List.append_assoc, he]
    simp [Token.operands?]

theorem ofPostorder?_postorder (e : Expr) : ofPostorder? e.postorder = some e := by
  have h := readTokens_postorder e [] []
  rw [List.append_nil] at h
  simp only [ofPostorder?, h, readTokens]

/-- Reading a token that has its operands succeeds, and the expressions on the stack list what has
been read. -/
theorem exists_readToken {stack : List Expr} {token : Token} {rest : List Token} {count : Nat}
    (h : Token.operands? stack.length (token :: rest) = some count) :
    ∃ stack', readToken stack token = some stack' ∧
      Token.operands? stack'.length rest = some count ∧
      stack'.reverse.flatMap postorder = stack.reverse.flatMap postorder ++ [token] := by
  match token, stack with
  | .symbol a, stack => exact ⟨_, rfl, h, by simp [postorder]⟩
  | .star, e :: stack => exact ⟨_, rfl, by simpa [Token.operands?] using h, by simp [postorder]⟩
  | .plus, e :: stack => exact ⟨_, rfl, by simpa [Token.operands?] using h, by simp [postorder]⟩
  | .concat, f :: e :: stack =>
    exact ⟨_, rfl, by simpa [Token.operands?] using h, by simp [postorder]⟩
  | .alternate, f :: e :: stack =>
    exact ⟨_, rfl, by simpa [Token.operands?] using h, by simp [postorder]⟩
  | .star, [] | .plus, [] | .concat, [] | .alternate, [] => simp [Token.operands?] at h
  | .concat, [_] | .alternate, [_] => simp [Token.operands?] at h
  | .lparen, stack | .rparen, stack => simp [Token.operands?] at h

/-- If counting operands succeeds, so does reading, and the expressions on the stack list all
tokens. -/
theorem exists_readTokens {tokens : List Token} {stack : List Expr} {count : Nat}
    (h : Token.operands? stack.length tokens = some count) :
    ∃ stack', readTokens stack tokens = some stack' ∧ stack'.length = count ∧
      stack'.reverse.flatMap postorder = stack.reverse.flatMap postorder ++ tokens := by
  induction tokens generalizing stack with
  | nil => exact ⟨stack, rfl, Option.some.inj h, by simp⟩
  | cons token rest ih =>
    obtain ⟨stack', hread, hcount, hlist⟩ := exists_readToken h
    obtain ⟨stack'', hread', hlength, hlist'⟩ := ih hcount
    refine ⟨stack'', ?_, hlength, ?_⟩
    · rw [readTokens, hread, Option.bind_some, hread']
    · rw [hlist', hlist, List.append_assoc, List.singleton_append]

end Expr

namespace Postfix

/-- A postfix expression is the postorder of a tree, and reading finds it. -/
theorem exists_ofPostorder? (p : Postfix) :
    ∃ e, Expr.ofPostorder? p.tokens = some e ∧ e.postorder = p.tokens := by
  obtain ⟨stack, hread, hlength, hlist⟩ := @Expr.exists_readTokens p.tokens [] 1 p.complete
  obtain ⟨e, rfl⟩ := List.length_eq_one_iff.mp hlength
  refine ⟨e, by simp only [Expr.ofPostorder?, hread], ?_⟩
  simpa using hlist

/-- The tree of a postfix expression. -/
def expr (p : Postfix) : Expr :=
  (Expr.ofPostorder? p.tokens).get (by
    obtain ⟨e, h, -⟩ := p.exists_ofPostorder?
    rw [h, Option.isSome_some])

/-- The postfix form of a tree. -/
def ofExpr (e : Expr) : Postfix where
  tokens := e.postorder
  complete := by
    have h := e.operands?_postorder 0 []
    rwa [List.append_nil] at h

theorem ofPostorder?_tokens (p : Postfix) : Expr.ofPostorder? p.tokens = some p.expr := by
  rw [expr, Option.some_get]

/-- The tree of a postfix expression lists its tokens. -/
@[simp] theorem postorder_expr (p : Postfix) : p.expr.postorder = p.tokens := by
  obtain ⟨e, h, he⟩ := p.exists_ofPostorder?
  rw [ofPostorder?_tokens, Option.some.injEq] at h
  rw [h, he]

/-- The tree of the postfix form of a tree is that tree. -/
@[simp] theorem expr_ofExpr (e : Expr) : (ofExpr e).expr = e := by
  have h := ofPostorder?_tokens (ofExpr e)
  rw [ofExpr, Expr.ofPostorder?_postorder, Option.some.injEq] at h
  exact h.symm

/-- No other tree lists the same tokens. -/
theorem expr_eq_iff {p : Postfix} {e : Expr} : p.expr = e ↔ e.postorder = p.tokens := by
  constructor
  · rintro rfl
    exact p.postorder_expr
  · intro h
    have h' := p.ofPostorder?_tokens
    rw [← h, Expr.ofPostorder?_postorder, Option.some.injEq] at h'
    exact h'.symm

end Postfix

end RegexAutomata
