/-
# The language of a tree of symbols

`Expr.language` is the usual denotation of an expression: concatenation, union and repetition are those of
`Language`.  It consists of the strings that the expression stands for (`Expr.mem_language_iff`), so what is
shown of `Expr.Matches` holds for languages.
-/
import Mathlib.Computability.Language
import Mathlib.Tactic.Lemma
import RegexAutomata.Regex.Expr

namespace RegexAutomata
namespace Expr

open Computability

/-- The language of an expression. -/
def language : Expr → Language Char
  | symbol a => {w | ∃ x, w = [x] ∧ a.admits x = true}
  | concat e f => e.language * f.language
  | alternate e f => e.language + f.language
  | star e => e.language∗
  | plus e => e.language * e.language∗

/-- A string of a product is a string of the first factor followed by one of the second. -/
lemma mem_mul_iff {L M : Language Char} {w : List Char} :
    w ∈ L * M ↔ ∃ u v, w = u ++ v ∧ u ∈ L ∧ v ∈ M := by
  rw [Language.mem_mul]
  constructor
  · rintro ⟨u, hu, v, hv, rfl⟩
    exact ⟨u, v, rfl, hu, hv⟩
  · rintro ⟨u, v, rfl, hu, hv⟩
    exact ⟨u, hu, v, hv, rfl⟩

/-- The language of an expression consists of the strings it stands for. -/
theorem mem_language_iff {e : Expr} {w : List Char} : w ∈ e.language ↔ e.Matches w := by
  induction e generalizing w with
  | symbol a =>
    rw [matches_symbol_iff]
    rfl
  | concat e f he hf => simp only [language, mem_mul_iff, he, hf, matches_concat_iff]
  | alternate e f he hf => rw [language, Language.mem_add, he, hf, matches_alternate_iff]
  | star e he => simp only [language, Language.mem_kstar, he, matches_star_iff]
  | plus e he =>
    simp only [language, mem_mul_iff, Language.mem_kstar, he, matches_plus_iff, matches_star_iff]

end Expr
end RegexAutomata
