/-
# Infix notation and postorder

`Infix level tokens e` says that tokens with explicit concatenation are an infix notation of the tree
`e` in which, outside parentheses, every operator binds at least as tightly as the level says.  Levels
are the precedences of operators.

The main statement is `Infix.shunt_eq`: moving the operators of an infix notation behind their operands
gives the postorder of its tree.
-/
import RegexAutomata.Proofs.Regex.Shunting
import RegexAutomata.Regex.Expr

namespace RegexAutomata

/-- Tokens are an infix notation of a tree.  Binary operators group to the left. -/
inductive Infix : Nat → List Token → Expr → Prop
  | symbol (a : Symbol) : Infix 3 [.symbol a] (.symbol a)
  | group {ts : List Token} {e : Expr} (inner : Infix 1 ts e) :
    Infix 3 (.lparen :: (ts ++ [.rparen])) e
  | star {ts : List Token} {e : Expr} (inner : Infix 3 ts e) : Infix 3 (ts ++ [.star]) (.star e)
  | plus {ts : List Token} {e : Expr} (inner : Infix 3 ts e) : Infix 3 (ts ++ [.plus]) (.plus e)
  | sequence {ts : List Token} {e : Expr} (h : Infix 3 ts e) : Infix 2 ts e
  | concat {ts us : List Token} {e f : Expr} (first : Infix 2 ts e) (second : Infix 3 us f) :
    Infix 2 (ts ++ .concat :: us) (.concat e f)
  | alternation {ts : List Token} {e : Expr} (h : Infix 2 ts e) : Infix 1 ts e
  | alternate {ts us : List Token} {e f : Expr} (left : Infix 1 ts e) (right : Infix 2 us f) :
    Infix 1 (ts ++ .alternate :: us) (.alternate e f)

variable {level : Nat} {ts rest pending waiting : List Token} {e : Expr} {operator : Token}

/-! ### Infix notation is moved into postorder -/

/-- Reading tokens puts a part of a list to the output and leaves the rest of it, which are operators of
a level or tighter, waiting.  This is so whenever the last operator that waited before binds looser. -/
def Token.Shunts (level : Nat) (ts post : List Token) : Prop :=
  ∀ waiting rest, (∀ t ∈ waiting.head?, t.precedence < level) →
    ∃ out pending, out ++ pending = post ∧ (∀ t ∈ pending, level ≤ t.precedence) ∧
      shunt waiting (ts ++ rest) = (out ++ ·) <$> shunt (pending ++ waiting) rest

namespace Token

lemma map_append_map_append (xs ys : List Token) (output : Option (List Token)) :
    (xs ++ ·) <$> (ys ++ ·) <$> output = (xs ++ ys ++ ·) <$> output := by
  cases output <;> simp

namespace Shunts

variable {us post post' : List Token}

lemma looser (h : Shunts (level + 1) ts post) : Shunts level ts post := by
  intro waiting rest hwaiting
  obtain ⟨out, pending, hpost, hpending, hrun⟩ :=
    h waiting rest fun t ht => Nat.lt_succ_of_lt (hwaiting t ht)
  exact ⟨out, pending, hpost, fun t ht => Nat.le_of_succ_le (hpending t ht), hrun⟩

lemma group (h : Shunts 1 ts post) : Shunts 3 (lparen :: (ts ++ [rparen])) post := by
  intro waiting rest _
  -- whatever waits outside, inside the parentheses it is hidden by the open one
  have hwaiting : ∀ t ∈ (lparen :: waiting).head?, t.precedence < 1 := by
    intro t ht
    obtain rfl := Option.mem_some_iff.mp ht
    exact Nat.one_pos
  obtain ⟨out, pending, hpost, hpending, hrun⟩ := h (lparen :: waiting) (rparen :: rest) hwaiting
  have hparen : lparen ∉ pending := fun ht => absurd (hpending _ ht) (by decide)
  have hstep : shunt waiting (lparen :: (ts ++ rparen :: rest)) =
      shunt (lparen :: waiting) (ts ++ rparen :: rest) := rfl
  refine ⟨post, [], List.append_nil _, by simp, ?_⟩
  rw [List.cons_append, List.append_assoc, List.singleton_append, hstep, hrun,
    shunt_rparen hparen, map_append_map_append, hpost, List.nil_append]

/-- An operator behind its operand. -/
lemma unary (h : Shunts level ts post) (hoperator : operator.precedence = level)
    (hlevel : 0 < level) : Shunts level (ts ++ [operator]) (post ++ [operator]) := by
  subst hoperator
  intro waiting rest hwaiting
  obtain ⟨out, pending, hpost, hpending, hrun⟩ := h waiting (operator :: rest) hwaiting
  -- the operator sends to the output what its operand has left waiting
  refine ⟨post, [operator], rfl, by simp, ?_⟩
  rw [List.append_assoc, List.singleton_append, hrun, shunt_operator hlevel hpending hwaiting,
    map_append_map_append, hpost, List.singleton_append]

/-- An operator between two operands, of which the second binds tighter. -/
lemma binary (h : Shunts level ts post) (h' : Shunts (level + 1) us post')
    (hoperator : operator.precedence = level) (hlevel : 0 < level) :
    Shunts level (ts ++ operator :: us) (post ++ (post' ++ [operator])) := by
  subst hoperator
  intro waiting rest hwaiting
  obtain ⟨out, pending, hpost, hpending, hrun⟩ := h waiting (operator :: (us ++ rest)) hwaiting
  -- after the first operand the operator itself waits, and it binds looser than the second operand
  have hwaiting' : ∀ t ∈ (operator :: waiting).head?, t.precedence < operator.precedence + 1 := by
    intro t ht
    obtain rfl := Option.mem_some_iff.mp ht
    exact Nat.lt_succ_self _
  obtain ⟨out', pending', hpost', hpending', hrun'⟩ := h' (operator :: waiting) rest hwaiting'
  -- it goes to the output behind what the second operand leaves waiting
  refine ⟨post ++ out', pending' ++ [operator], ?_, ?_, ?_⟩
  · rw [← hpost', List.append_assoc, List.append_assoc]
  · intro t ht
    rcases List.mem_append.mp ht with ht | ht
    · exact Nat.le_of_succ_le (hpending' t ht)
    · obtain rfl := List.mem_singleton.mp ht
      exact Nat.le_refl _
  · rw [List.append_assoc, List.cons_append, hrun, shunt_operator hlevel hpending hwaiting,
      map_append_map_append, hpost, hrun', map_append_map_append, List.append_assoc,
      List.singleton_append]

end Shunts

end Token

lemma Infix.shunts (h : Infix level ts e) : Token.Shunts level ts e.postorder := by
  induction h with
  | symbol a => exact fun waiting rest _ => ⟨[.symbol a], [], rfl, by simp, rfl⟩
  | group _ ih => exact ih.group
  | star _ ih => exact ih.unary rfl (Nat.succ_pos _)
  | plus _ ih => exact ih.unary rfl (Nat.succ_pos _)
  | sequence _ ih => exact ih.looser
  | concat _ _ ih ih' => exact ih.binary ih' rfl (Nat.succ_pos _)
  | alternation _ ih => exact ih.looser
  | alternate _ _ ih ih' => exact ih.binary ih' rfl (Nat.succ_pos _)

/-- The postfix form of an infix notation is the postorder of its tree. -/
theorem Infix.shunt_eq (h : Infix 1 ts e) : Token.shunt [] ts = some e.postorder := by
  obtain ⟨out, pending, hpost, hpending, hrun⟩ := h.shunts [] [] (by simp)
  have hparen : Token.lparen ∉ pending := fun ht => absurd (hpending _ ht) (by decide)
  rw [List.append_nil, List.append_nil] at hrun
  rw [hrun, Token.shunt, if_neg hparen, ← hpost]
  rfl

lemma Infix.ofTokens_eq (h : Infix 1 ts e) : Postfix.ofTokens ts = .ok (Postfix.ofExpr e) :=
  Postfix.ofTokens_eq_ok_iff.mpr h.shunt_eq

end RegexAutomata
