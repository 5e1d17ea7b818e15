/-
# The language of a derived text

`Pattern.language` is the usual language of what a text says, by characters and without symbols: a class
stands for its members and for what lies between the ends of its ranges.  The main statement is
`Pattern.language_expr`: the tree of symbols of a pattern has the same language.
-/
import Mathlib.Computability.Language
import RegexAutomata.Proofs.Regex.Denotation
import RegexAutomata.Proofs.Regex.Grammar

namespace RegexAutomata
namespace Regex

open Computability

/-- A class stands for its members other than dashes, and for the characters from `lo` to `hi` for each
`lo-hi` written in it. -/
def ClassBody.Admits (body : ClassBody) (x : Char) : Prop :=
  x ∈ body.chars ∧ x ≠ '-' ∨ ∃ lo hi, [lo, '-', hi] <:+: body.chars ∧ lo ≤ x ∧ x ≤ hi

/-- The language of a pattern. -/
def Pattern.language : Pattern → Language Char
  | literal c => {[c]}
  | oneOf body => {w | ∃ x, w = [x] ∧ body.Admits x}
  | concat t u => t.language * u.language
  | alternate t u => t.language + u.language
  | star t => t.language∗
  | plus t => t.language * t.language∗

/-! ### Classes -/

namespace ClassBody

variable {body : ClassBody} {x lo hi : Char} {w : List Char}

/-- A dash contributes the range around it. -/
lemma range_mem_symbols (h : [lo, '-', hi] <:+: body.chars) : .range lo hi ∈ body.symbols := by
  obtain ⟨u, v, huv⟩ := h
  refine List.mem_filterMap.mpr ⟨⟨some lo, '-', some hi⟩, mem_places_none_iff.mpr ?_, rfl⟩
  exact ⟨u ++ [lo], hi :: v, by simp [← huv], by simp, by simp⟩

/-- The ranges of a class are written in it and have their ends in order. -/
lemma exists_range_of_dash {p : Place} (hp : p ∈ places none body.chars none) (hdash : p.char = '-') :
    ∃ lo hi, p.before = some lo ∧ p.after = some hi ∧ lo ≤ hi ∧ [lo, '-', hi] <:+: body.chars := by
  rcases body.inClass p hp with hlit | ⟨-, lo, hi, hlo, hhi, -, -, hle⟩
  · rw [hdash] at hlit
    exact absurd hlit (by decide)
  · refine ⟨lo, hi, hlo, hhi, hle, ?_⟩
    obtain ⟨u, v, hchars, hb, ha⟩ := mem_places_none_iff.mp hp
    obtain ⟨u, rfl⟩ := List.getLast?_eq_some_iff.mp (hb.symm.trans hlo)
    obtain ⟨v, rfl⟩ := List.head?_eq_some_iff.mp (ha.symm.trans hhi)
    exact ⟨u, v, by simp [hchars, hdash]⟩

/-- Some symbol of a class admits a character if the class stands for it. -/
lemma exists_admits_iff : (∃ a ∈ body.symbols, a.admits x = true) ↔ body.Admits x := by
  constructor
  · rintro ⟨a, ha, hadmits⟩
    obtain ⟨p, hp, hsymbol⟩ := List.mem_filterMap.mp ha
    -- the symbol is the range around a dash, or a literal
    by_cases hdash : p.char = '-'
    · obtain ⟨lo, hi, hlo, hhi, -, hrange⟩ := exists_range_of_dash hp hdash
      simp only [Place.symbol?, hdash, if_true, hlo, hhi, Option.some.injEq] at hsymbol
      rw [← hsymbol, Symbol.admits_range] at hadmits
      exact Or.inr ⟨lo, hi, hrange, hadmits⟩
    · rw [Place.symbol?, if_neg hdash, Option.ite_none_left_eq_some, Option.some.injEq] at hsymbol
      obtain ⟨-, rfl⟩ := hsymbol
      obtain rfl := (Symbol.admits_literal _ _).mp hadmits
      obtain ⟨u, v, hchars, -, -⟩ := mem_places_none_iff.mp hp
      exact Or.inl ⟨by rw [hchars]; exact List.mem_append_right _ List.mem_cons_self, hdash⟩
  · rintro (⟨hmem, hdash⟩ | ⟨lo, hi, hrange, hx⟩)
    · -- a member that touches a dash is an end of the range around that dash
      obtain ⟨u, v, hchars⟩ := List.append_of_mem hmem
      by_cases hu : u.getLast? = some '-'
      · obtain ⟨u, rfl⟩ := List.getLast?_eq_some_iff.mp hu
        have hp : ⟨u.getLast?, '-', some x⟩ ∈ places none body.chars none :=
          mem_places_none_iff.mpr ⟨u, x :: v, by simp [hchars], rfl, rfl⟩
        obtain ⟨lo, hi, -, hhi, hle, hrange⟩ := exists_range_of_dash hp rfl
        obtain rfl : x = hi := Option.some.inj hhi
        exact ⟨_, range_mem_symbols hrange, (Symbol.admits_range _ _ _).mpr ⟨hle, Char.le_refl x⟩⟩
      by_cases hv : v.head? = some '-'
      · obtain ⟨v, rfl⟩ := List.head?_eq_some_iff.mp hv
        have hp : ⟨some x, '-', v.head?⟩ ∈ places none body.chars none :=
          mem_places_none_iff.mpr ⟨u ++ [x], v, by simp [hchars], by simp, rfl⟩
        obtain ⟨lo, hi, hlo, -, hle, hrange⟩ := exists_range_of_dash hp rfl
        obtain rfl : x = lo := Option.some.inj hlo
        exact ⟨_, range_mem_symbols hrange, (Symbol.admits_range _ _ _).mpr ⟨Char.le_refl x, hle⟩⟩
      have hp : ⟨u.getLast?, x, v.head?⟩ ∈ places none body.chars none :=
        mem_places_none_iff.mpr ⟨u, v, hchars, rfl, rfl⟩
      refine ⟨.literal x, List.mem_filterMap.mpr ⟨_, hp, ?_⟩, (Symbol.admits_literal x x).mpr rfl⟩
      simp only [Place.symbol?, if_neg hdash, hu, hv, or_self, if_false]
    · exact ⟨_, range_mem_symbols hrange, (Symbol.admits_range lo hi x).mpr hx⟩

/-- The tree of a class stands for the single characters that some symbol admits. -/
lemma matches_expr_iff : body.expr.Matches w ↔ ∃ x, w = [x] ∧ ∃ a ∈ body.symbols, a.admits x = true := by
  have hfold : ∀ (symbols : List Symbol) (e : Expr),
      (symbols.foldl (fun e a => .alternate e (.symbol a)) e).Matches w ↔
        e.Matches w ∨ ∃ x, w = [x] ∧ ∃ a ∈ symbols, a.admits x = true := by
    intro symbols
    induction symbols with
    | nil => simp
    | cons a symbols ih =>
      intro e
      rw [List.foldl_cons, ih, Expr.matches_alternate_iff, Expr.matches_symbol_iff, or_assoc]
      simp only [List.exists_mem_cons_iff, and_or_left, exists_or]
  have hsymbols := List.cons_head_tail body.symbols_ne_nil
  rw [expr, hfold, Expr.matches_symbol_iff]
  conv_rhs => rw [← hsymbols]
  simp only [List.exists_mem_cons_iff, and_or_left, exists_or]

end ClassBody

/-- A pattern and its tree have the same language. -/
theorem Pattern.language_expr (t : Pattern) : t.expr.language = t.language := by
  induction t with
  | literal c =>
    ext w
    rw [expr, Expr.mem_language_iff, Expr.matches_symbol_iff]
    constructor
    · rintro ⟨x, rfl, hx⟩
      rw [(Symbol.admits_literal c x).mp hx]
      rfl
    · rintro rfl
      exact ⟨c, rfl, (Symbol.admits_literal c c).mpr rfl⟩
  | oneOf body =>
    ext w
    rw [expr, Expr.mem_language_iff, ClassBody.matches_expr_iff]
    show _ ↔ ∃ x, w = [x] ∧ body.Admits x
    simp only [ClassBody.exists_admits_iff]
  | concat t u ht hu => rw [expr, Expr.language, ht, hu, language]
  | alternate t u ht hu => rw [expr, Expr.language, ht, hu, language]
  | star t ht => rw [expr, Expr.language, ht, language]
  | plus t ht => rw [expr, Expr.language, ht, language]

end Regex
end RegexAutomata
