/-
# The symbols of an expression

The alphabet of the automaton of an expression lists the symbols of the expression in the order of their
first occurrence (`Enfa.alphabet_ofPostfix`).  They are made of the literals that are written in it, and a
class is only read if the ends of its ranges are in order (`Symbol.Written`).  So the ends of all ranges
in the alphabet of an automaton that is compiled are in order (`Compiled.inOrder_nfa`).
-/
import RegexAutomata.Proofs.Alphabet
import RegexAutomata.Proofs.Compiled

namespace RegexAutomata

/-! ### Symbols that can be written -/

/-- A symbol that can be written in an expression: its characters are literals, and the ends of a range
are in order. -/
def Symbol.Written : Symbol → Prop
  | literal c => isLiteral c = true
  | range lo hi => isLiteral lo = true ∧ isLiteral hi = true ∧ lo ≤ hi

lemma Symbol.Written.inOrder {a : Symbol} (h : a.Written) : a.InOrder := by
  cases a with
  | literal c => trivial
  | range lo hi => exact h.2.2

namespace Regex

variable {a : Symbol}

/-- The symbols of a class are written in it: a range around a dash, and a literal as itself. -/
lemma ClassBody.written {body : ClassBody} (ha : a ∈ body.symbols) : a.Written := by
  obtain ⟨p, hp, hsymbol⟩ := List.mem_filterMap.mp ha
  rcases body.inClass p hp with hlit | ⟨hdash, lo, hi, hlo, hhi, hlit, hlit', hle⟩
  · rw [Place.symbol?, if_neg (ne_of_isLiteral hlit rfl), Option.ite_none_left_eq_some,
      Option.some.injEq] at hsymbol
    exact hsymbol.2 ▸ hlit
  · simp only [Place.symbol?, hdash, if_true, hlo, hhi, Option.some.injEq] at hsymbol
    exact hsymbol ▸ ⟨hlit, hlit', hle⟩

/-- The tree of a class has no symbols but those of the class. -/
lemma ClassBody.mem_symbols_of_mem_postorder {body : ClassBody}
    (ha : .symbol a ∈ body.expr.postorder) : a ∈ body.symbols := by
  have hfold : ∀ (symbols : List Symbol) (e : Expr),
      .symbol a ∈ (symbols.foldl (fun e b => .alternate e (.symbol b)) e).postorder →
        .symbol a ∈ e.postorder ∨ a ∈ symbols := by
    intro symbols
    induction symbols with
    | nil => exact fun _ h => Or.inl h
    | cons b symbols ih =>
      intro e h
      rw [List.mem_cons, ← or_assoc]
      exact (ih _ h).imp_left fun h => by simpa [Expr.postorder] using h
  rcases hfold _ _ ha with hhead | htail
  · rw [Expr.postorder, List.mem_singleton, Token.symbol.injEq] at hhead
    exact hhead ▸ List.head_mem body.symbols_ne_nil
  · exact List.mem_of_mem_tail htail

/-- All symbols of a tree that is derived can be written. -/
lemma Derives.written {level : Level} {cs : List Char} {t : Pattern} (h : Derives level cs t)
    (ha : .symbol a ∈ t.expr.postorder) : a.Written := by
  induction h with
  | literal hc =>
    rw [Pattern.expr, Expr.postorder, List.mem_singleton, Token.symbol.injEq] at ha
    exact ha ▸ hc
  | oneOf body => exact ClassBody.written (ClassBody.mem_symbols_of_mem_postorder ha)
  | group _ ih | once _ ih | single _ ih | whole _ ih => exact ih ha
  | star _ ih | plus _ ih =>
    simp only [Pattern.expr, Expr.postorder, List.mem_append, List.mem_singleton, reduceCtorEq,
      or_false] at ha
    exact ih ha
  | concat _ _ ih ih' | alternate _ _ ih ih' =>
    simp only [Pattern.expr, Expr.postorder, List.mem_append, List.mem_singleton, reduceCtorEq,
      or_false] at ha
    exact ha.elim ih ih'

end Regex

/-! ### The alphabet of an expression -/

/-- The symbol of a token, if it is one. -/
def Token.symbol? : Token → Option Symbol
  | symbol a => some a
  | _ => none

lemma Token.symbol?_eq_some_iff {t : Token} {a : Symbol} : t.symbol? = some a ↔ t = symbol a := by
  cases t <;> simp [symbol?]

namespace Enfa

variable {n n' : Enfa} {stack stack' : List Fragment} {token : Token} {tokens : List Token}

/-- Reading a token adds its symbol. -/
lemma alphabet_assembleStep (h : assembleStep n stack token = some (n', stack')) :
    n'.alphabet = token.symbol?.toList.foldl Alphabet.insert n.alphabet := by
  unfold assembleStep at h
  split at h
  case h_6 => exact absurd h (by simp)
  all_goals
    obtain ⟨rfl, -⟩ := Prod.mk.inj (Option.some.inj h)
    simp [Token.symbol?]

lemma alphabet_assemble (h : assemble n stack tokens = some (n', stack')) :
    n'.alphabet = (tokens.filterMap Token.symbol?).foldl Alphabet.insert n.alphabet := by
  induction tokens generalizing n stack with
  | nil =>
    obtain ⟨rfl, -⟩ := Prod.mk.inj (Option.some.inj h)
    rfl
  | cons token rest ih =>
    rw [assemble] at h
    split at h
    · exact absurd h (by simp)
    · rename_i hstep
      rw [ih h, alphabet_assembleStep hstep, ← List.foldl_append]
      cases token <;> rfl

/-- The alphabet of the automaton of an expression lists the symbols of the expression. -/
lemma alphabet_ofPostfix (p : Postfix) :
    (ofPostfix p).alphabet = Alphabet.ofList (p.tokens.filterMap Token.symbol?) := by
  obtain ⟨n, whole, hrun⟩ := exists_assemble_eq_some p
  rw [ofPostfix, hrun]
  simp only [alphabet_addFinal, alphabet_setStart]
  exact alphabet_assemble hrun

end Enfa

namespace Compiled

variable {text : String} {c : Compiled}

lemma inOrder_nfa (h : compile text = .ok c) : c.nfa.alphabet.InOrder := by
  intro a ha
  rw [nfa_of_compile h, Enfa.alphabet_cacheClosures, Enfa.alphabet_ofPostfix, Alphabet.mem_symbols_ofList,
    List.mem_filterMap] at ha
  obtain ⟨token, htoken, hsymbol⟩ := ha
  obtain rfl := Token.symbol?_eq_some_iff.mp hsymbol
  -- the tokens are the postorder of the tree of a pattern
  obtain ⟨t, ht⟩ := Regex.derivable_of_parse (parse_of_compile h)
  have hexpression := (parse_of_compile h).symm.trans ht.parse_eq
  rw [Except.ok.injEq] at hexpression
  rw [hexpression] at htoken
  exact (ht.written htoken).inOrder

end Compiled
end RegexAutomata
