/-
# What becomes of any tokens

`Postfix.ofTokens` may be given any tokens, not only those of a text.  It refuses tokens whose parentheses
do not match, and else reorders them: the postfix form consists of the tokens but the parentheses
(`Token.Shunted.perm`) with the symbols in their order (`Token.Shunted.symbols_eq`).  If the tokens are an
infix notation of a tree, it is the postorder of that tree.

The main statement is `Postfix.ofTokens_refuses_or_reorders`.
-/
import RegexAutomata.Proofs.Regex.Balance
import RegexAutomata.Proofs.Regex.Infix
import RegexAutomata.Proofs.Symbols

namespace RegexAutomata
namespace Token

variable {t : Token} {ts us waiting output : List Token} {depth : Nat}

/-! ### Parentheses -/

/-- The parentheses of tokens match if they are balanced. -/
lemma closes_iff_balanced : Closes depth ts ↔ Balanced lparen rparen depth ts := by
  induction ts generalizing depth with
  | nil => exact balanced_nil.symm
  | cons t ts ih =>
    cases t with
    | lparen =>
      rw [balanced_cons_opening (by decide)]
      exact ih
    | rparen =>
      rw [balanced_cons_closing (by decide)]
      exact and_congr_right fun _ => ih
    | symbol | star | plus | concat | alternate =>
      rw [balanced_cons_of_ne (by simp) (by simp)]
      exact ih

lemma exists_shunt_waiting (h : Closes (waiting.count lparen) ts) :
    ∃ output, shunt waiting ts = some output := by
  induction ts generalizing waiting with
  | nil =>
    have hparen : lparen ∉ waiting := List.count_eq_zero.mp h
    exact ⟨waiting, if_neg hparen⟩
  | cons t ts ih =>
    have hoperator : 0 < t.precedence → Closes (waiting.count lparen) ts →
        ∃ output, shunt waiting (t :: ts) = some output := by
      intro ht hcloses
      have hout : lparen ∉ waiting.takeWhile (t.precedence ≤ precedence ·) := by
        refine lparen_not_mem fun u hu => ?_
        have hle := List.mem_takeWhile_imp hu
        exact Nat.lt_of_lt_of_le ht (of_decide_eq_true hle)
      -- no parenthesis is sent to the output, so as many are open as before
      have hcount : (t :: waiting.dropWhile (t.precedence ≤ precedence ·)).count lparen =
          waiting.count lparen := by
        have hsplit := List.takeWhile_append_dropWhile (p := (t.precedence ≤ precedence ·)) (l := waiting)
        rw [List.count_cons_of_ne (ne_lparen ht)]
        conv_rhs => rw [← hsplit]
        rw [List.count_append, List.count_eq_zero.mpr hout, Nat.zero_add]
      obtain ⟨output, hrun⟩ := ih (hcount ▸ hcloses)
      exact ⟨_, by rw [shunt_operator_eq ht, hrun]; rfl⟩
    cases t with
    | symbol a =>
      obtain ⟨output, hrun⟩ := ih h
      exact ⟨symbol a :: output, by rw [shunt, hrun]; rfl⟩
    | lparen => exact ih (by rwa [List.count_cons_self])
    | rparen =>
      obtain ⟨hpos, h⟩ := h
      obtain ⟨out, left, rfl, hout⟩ := List.eq_append_cons_of_mem (List.count_pos_iff.mp hpos)
      have hcount : (out ++ lparen :: left).count lparen = left.count lparen + 1 := by
        rw [List.count_append, List.count_eq_zero.mpr hout, Nat.zero_add, List.count_cons_self]
      rw [hcount, Nat.add_sub_cancel] at h
      obtain ⟨output, hrun⟩ := ih h
      exact ⟨out ++ output, by rw [shunt_rparen hout, hrun]; rfl⟩
    | star | plus | concat | alternate => exact hoperator (Nat.succ_pos _) h

/-- If the parentheses match, the operators can be moved. -/
lemma exists_shunt (h : Balanced lparen rparen 0 ts) : ∃ output, shunt [] ts = some output :=
  exists_shunt_waiting (closes_iff_balanced.mpr h)

/-! ### The other tokens -/

/-- The tokens but the parentheses. -/
def withoutParens (ts : List Token) : List Token := ts.filter fun t => t ≠ lparen ∧ t ≠ rparen

@[simp] lemma withoutParens_append : withoutParens (ts ++ us) = withoutParens ts ++ withoutParens us :=
  List.filter_append ts us

@[simp] lemma withoutParens_cons_lparen : withoutParens (lparen :: ts) = withoutParens ts := rfl

@[simp] lemma withoutParens_cons_rparen : withoutParens (rparen :: ts) = withoutParens ts := rfl

lemma withoutParens_cons (hlparen : t ≠ lparen) (hrparen : t ≠ rparen) :
    withoutParens (t :: ts) = t :: withoutParens ts :=
  List.filter_cons_of_pos (decide_eq_true ⟨hlparen, hrparen⟩)

lemma withoutParens_cons_of_pos (h : 0 < t.precedence) :
    withoutParens (t :: ts) = t :: withoutParens ts := by
  refine withoutParens_cons (ne_lparen h) ?_
  rintro rfl
  exact absurd h (Nat.lt_irrefl 0)

lemma withoutParens_of_pos (h : ∀ t ∈ ts, 0 < t.precedence) : withoutParens ts = ts := by
  induction ts with
  | nil => rfl
  | cons t ts ih =>
    obtain ⟨ht, hts⟩ := List.forall_mem_cons.mp h
    rw [withoutParens_cons_of_pos ht, ih hts]

/-- Operators are no symbols. -/
lemma filterMap_symbol?_of_pos (h : ∀ t ∈ ts, 0 < t.precedence) : ts.filterMap symbol? = [] := by
  refine List.filterMap_eq_nil_iff.mpr fun t ht => ?_
  cases t with
  | symbol a => exact absurd (h _ ht) (Nat.lt_irrefl 0)
  | star | plus | concat | alternate | lparen | rparen => rfl

/-- Moving operators keeps the tokens but the parentheses, each as often as it occurs. -/
lemma Shunted.perm (h : Shunted waiting ts output) :
    output.Perm (withoutParens waiting ++ withoutParens ts) := by
  induction h with
  | @done waiting hwaiting =>
    rw [withoutParens_of_pos hwaiting]
    exact .of_eq (List.append_nil waiting).symm
  | @symbol a waiting rest output _ ih =>
    rw [withoutParens_cons (by simp) (by simp)]
    exact (ih.cons (Token.symbol a)).trans List.perm_middle.symm
  | lparen _ ih => exact ih
  | @rparen out _ _ _ hout _ ih =>
    rw [withoutParens_append, withoutParens_of_pos hout, withoutParens_cons_lparen,
      withoutParens_cons_rparen, List.append_assoc]
    exact ih.append_left out
  | @operator operator out _ _ _ hoperator hout _ ih =>
    rw [withoutParens_cons_of_pos hoperator] at ih ⊢
    rw [withoutParens_append, withoutParens_of_pos hout, List.append_assoc]
    exact (ih.trans List.perm_middle.symm).append_left out

/-- Moving operators keeps the order of the symbols. -/
lemma Shunted.symbols_eq (h : Shunted waiting ts output) :
    output.filterMap symbol? = ts.filterMap symbol? := by
  induction h with
  | done hwaiting => exact filterMap_symbol?_of_pos hwaiting
  | @symbol a _ rest output _ ih =>
    show a :: output.filterMap symbol? = a :: rest.filterMap symbol?
    rw [ih]
  | lparen _ ih => exact ih
  | rparen hout _ ih =>
    rw [List.filterMap_append, filterMap_symbol?_of_pos hout, List.nil_append, ih]
    rfl
  | @operator operator _ _ _ _ hoperator hout _ ih =>
    rw [List.filterMap_append, filterMap_symbol?_of_pos hout, List.nil_append, ih]
    have hsymbol : operator.symbol? = none := by
      cases operator with
      | symbol a => exact absurd hoperator (Nat.lt_irrefl 0)
      | star | plus | concat | alternate | lparen | rparen => rfl
    rw [List.filterMap_cons_none hsymbol]

end Token

/-! ### Infix notations -/

/-- Every tree has an infix notation: parentheses around every operand. -/
lemma exists_infix (e : Expr) : ∃ ts, Infix 3 ts e := by
  induction e with
  | symbol a => exact ⟨[.symbol a], .symbol a⟩
  | concat e f he hf =>
    obtain ⟨ts, he⟩ := he
    obtain ⟨us, hf⟩ := hf
    exact ⟨_, .group (.alternation (.concat (.sequence he) hf))⟩
  | alternate e f he hf =>
    obtain ⟨ts, he⟩ := he
    obtain ⟨us, hf⟩ := hf
    exact ⟨_, .group (.alternate (.alternation (.sequence he)) (.sequence hf))⟩
  | star e he =>
    obtain ⟨ts, he⟩ := he
    exact ⟨_, .star he⟩
  | plus e he =>
    obtain ⟨ts, he⟩ := he
    exact ⟨_, .plus he⟩

namespace Postfix

variable {ts : List Token}

/-- The tokens are refused for their parentheses if and only if these do not match. -/
lemma ofTokens_eq_unbalancedParentheses_iff :
    ofTokens ts = .error .unbalancedParentheses ↔ ¬Balanced .lparen .rparen 0 ts := by
  constructor
  · intro h hbalanced
    obtain ⟨output, hrun⟩ := Token.exists_shunt hbalanced
    simp only [ofTokens, hrun] at h
    split at h <;> exact absurd h (by simp)
  · intro hbalanced
    have hrun : Token.shunt [] ts = none := by
      cases hshunt : Token.shunt [] ts with
      | none => rfl
      | some output =>
        have hcloses := (Token.shunted_of_shunt hshunt).closes
        exact absurd (Token.closes_iff_balanced.mp hcloses) hbalanced
    simp only [ofTokens, hrun]

/-- Else an operand is missing, or there is a postfix form. -/
lemma ofTokens_of_balanced (h : Balanced .lparen .rparen 0 ts) :
    ofTokens ts = .error .missingOperand ∨ ∃ p, ofTokens ts = .ok p := by
  obtain ⟨output, hrun⟩ := Token.exists_shunt h
  simp only [ofTokens, hrun]
  split
  · exact Or.inr ⟨_, rfl⟩
  · exact Or.inl rfl

/-- Reading a postfix expression leaves one tree, the only one that lists its tokens. -/
lemma exists_readTokens_eq_singleton (p : Postfix) :
    ∃ e, Expr.readTokens [] p.tokens = some [e] ∧ ∀ e' : Expr, e'.postorder = p.tokens ↔ e' = e := by
  refine ⟨p.expr, ?_, fun e' => by rw [← expr_eq_iff, eq_comm]⟩
  have h := p.expr.readTokens_postorder [] []
  rwa [List.append_nil, postorder_expr] at h

/-- Tokens are refused for their parentheses if and only if these do not match.  Else an operand is missing,
or the tokens but the parentheses are reordered with the symbols in their order, such that reading them
leaves one tree.  Every tree has infix notations, and each of them gives its postorder. -/
theorem ofTokens_refuses_or_reorders :
    (∀ ts : List Token,
      (ofTokens ts = .error .unbalancedParentheses ↔ ¬Balanced .lparen .rparen 0 ts) ∧
      (Balanced .lparen .rparen 0 ts →
        ofTokens ts = .error .missingOperand ∨ ∃ p, ofTokens ts = .ok p) ∧
      ∀ p, ofTokens ts = .ok p →
        (.lparen ∉ p.tokens ∧ .rparen ∉ p.tokens) ∧
        p.tokens.Perm (Token.withoutParens ts) ∧
        p.tokens.filterMap Token.symbol? = ts.filterMap Token.symbol? ∧
        ∃ e, Expr.readTokens [] p.tokens = some [e] ∧ ∀ e' : Expr, e'.postorder = p.tokens ↔ e' = e) ∧
    ∀ e : Expr, (∃ ts, Infix 1 ts e) ∧
      ∀ ts, Infix 1 ts e → ∃ p, ofTokens ts = .ok p ∧ p.tokens = e.postorder := by
  refine ⟨fun ts => ⟨ofTokens_eq_unbalancedParentheses_iff, ofTokens_of_balanced, fun p hp => ?_⟩,
    fun e => ⟨?_, fun ts h => ⟨ofExpr e, h.ofTokens_eq, rfl⟩⟩⟩
  · have hshunted := Token.shunted_of_shunt (ofTokens_eq_ok_iff.mp hp)
    have hperm : p.tokens.Perm (Token.withoutParens ts) := hshunted.perm
    refine ⟨⟨fun hmem => ?_, fun hmem => ?_⟩, hperm, hshunted.symbols_eq, exists_readTokens_eq_singleton p⟩
    · have hkept := (List.mem_filter.mp (hperm.mem_iff.mp hmem)).2
      exact absurd hkept (by decide)
    · have hkept := (List.mem_filter.mp (hperm.mem_iff.mp hmem)).2
      exact absurd hkept (by decide)
  · obtain ⟨ts, h⟩ := exists_infix e
    exact ⟨ts, .alternation (.sequence h)⟩

end Postfix
end RegexAutomata
