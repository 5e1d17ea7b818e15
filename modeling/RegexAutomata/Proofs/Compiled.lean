/-
# The automata of an expression accept its language

An expression that compiles is derived by the grammar, and all three automata that are built for it accept
the language of what is derived (`Compiled.accepts_iff_mem_language`).  The steps are those of the
construction: parsing gives the postorder of the derived tree, assembling an automaton that accepts what
the tree stands for, and neither determinizing nor minimizing changes what is accepted.
-/
import RegexAutomata.Compile
import RegexAutomata.Proofs.Dfa.Minimization
import RegexAutomata.Proofs.Enfa.Powerset
import RegexAutomata.Proofs.Enfa.Thompson
import RegexAutomata.Proofs.Regex.Language
import RegexAutomata.Proofs.Regex.Parsing

namespace RegexAutomata

open Regex

namespace Compiled

variable {text : String} {c : Compiled} {w : List Char}

lemma parse_of_compile (h : compile text = .ok c) : parse text = .ok c.expression := by
  obtain ⟨expression, hparse, h⟩ := bind_eq_ok_iff.mp h
  rw [hparse, ← Except.ok.inj h]

lemma nfa_of_compile (h : compile text = .ok c) :
    c.nfa = (Enfa.ofPostfix c.expression).cacheClosures := by
  obtain ⟨expression, -, h⟩ := bind_eq_ok_iff.mp h
  rw [← Except.ok.inj h]

lemma start?_nfa_of_compile (h : compile text = .ok c) :
    c.nfa.start? = some (c.expression.expr.fragment 0).entry := by
  rw [nfa_of_compile h, Enfa.start?_cacheClosures, Enfa.start?_ofPostfix]

lemma dfa_of_compile (h : compile text = .ok c) : c.dfa = c.nfa.determinize := by
  obtain ⟨expression, -, h⟩ := bind_eq_ok_iff.mp h
  rw [← Except.ok.inj h]

lemma source_of_compile (h : compile text = .ok c) : c.source = text := by
  obtain ⟨expression, -, h⟩ := bind_eq_ok_iff.mp h
  rw [← Except.ok.inj h]

lemma minimization_of_compile (h : compile text = .ok c) : c.minimization = c.dfa.minimization := by
  obtain ⟨expression, -, h⟩ := bind_eq_ok_iff.mp h
  rw [← Except.ok.inj h]

lemma minimized_of_compile (h : compile text = .ok c) : c.minimized = c.dfa.minimize := by
  rw [minimized, minimization_of_compile h, Dfa.minimize]

lemma wellFormed_nfa_of_compile (h : compile text = .ok c) : c.nfa.WellFormed := by
  rw [nfa_of_compile h]
  exact (Enfa.built_ofPostfix c.expression).wellFormed.cacheClosures

lemma dfa_accepts_eq (h : compile text = .ok c) (w : List Char) :
    c.dfa.accepts w = c.nfa.accepts w := by
  rw [dfa_of_compile h, (wellFormed_nfa_of_compile h).accepts_determinize_eq]

lemma wellFormed_dfa_of_compile (h : compile text = .ok c) : c.dfa.WellFormed := by
  rw [dfa_of_compile h]
  exact (wellFormed_nfa_of_compile h).wellFormed_determinize

lemma minimized_accepts_eq (h : compile text = .ok c) (w : List Char) :
    c.minimized.accepts w = c.nfa.accepts w := by
  rw [minimized_of_compile h, (wellFormed_dfa_of_compile h).accepts_minimize_eq, dfa_accepts_eq h]

/-- The nondeterministic automaton accepts what the tree of the expression stands for. -/
lemma nfa_accepts_iff (h : compile text = .ok c) :
    c.nfa.accepts w = true ↔ c.expression.expr.Matches w := by
  have hbuilt := Enfa.built_ofPostfix c.expression
  rw [nfa_of_compile h, hbuilt.wellFormed.accepts_cacheClosures, Enfa.ofPostfix_accepts_iff]

/-- An expression that compiles is derived by the grammar.  Its three automata accept the same strings,
those of the language that is derived. -/
theorem accepts_iff_mem_language (h : compile text = .ok c) :
    (∃ t, Derives .alternation text.toList t) ∧
      ∀ t, Derives .alternation text.toList t → ∀ w,
        c.dfa.accepts w = c.nfa.accepts w ∧ c.minimized.accepts w = c.nfa.accepts w ∧
          (c.nfa.accepts w = true ↔ w ∈ t.language) := by
  have hparse := parse_of_compile h
  refine ⟨derivable_of_parse hparse, fun t ht w => ⟨dfa_accepts_eq h w, minimized_accepts_eq h w, ?_⟩⟩
  have hexpr : c.expression.expr = t.expr := by
    rw [ht.parse_eq, Except.ok.injEq] at hparse
    rw [← hparse, Postfix.expr_ofExpr]
  rw [nfa_accepts_iff h, hexpr, ← Expr.mem_language_iff, Pattern.language_expr]

/-- Two symbols of this expression match the same characters, and a repetition is inside another. -/
theorem accepts_iff_mem_language_of_overlap :
    ∃ c, compile "(a+|[a-cb])*d" = .ok c ∧
      (∃ t, Derives .alternation "(a+|[a-cb])*d".toList t) ∧
      ∀ t, Derives .alternation "(a+|[a-cb])*d".toList t → ∀ w,
        c.dfa.accepts w = c.nfa.accepts w ∧ c.minimized.accepts w = c.nfa.accepts w ∧
          (c.nfa.accepts w = true ↔ w ∈ t.language) := by
  have hcompiles : (compile "(a+|[a-cb])*d").toOption.isSome = true := by decide +kernel
  cases h : compile "(a+|[a-cb])*d" with
  | error e =>
    rw [h] at hcompiles
    exact absurd hcompiles Bool.false_ne_true
  | ok c => exact ⟨c, rfl, accepts_iff_mem_language h⟩

end Compiled
end RegexAutomata
