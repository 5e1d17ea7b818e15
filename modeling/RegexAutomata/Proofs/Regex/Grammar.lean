/-
# The grammar of expressions

An expression is derived on four levels.

* `alternation` – sequences with `|` between them;
* `sequence` – repeated parts side by side;
* `repeated` – an atom, with at most one of the operators `*` and `+` after it;
* `atom` – a literal, a class in brackets, or an alternation in parentheses.

The rules for `|` and for parts side by side have their left operand on their own level, so that both
group to the left.
-/
import RegexAutomata.Proofs.Regex.ClassBody

namespace RegexAutomata
namespace Regex

/-- The levels of the grammar, by how much an expression may hold. -/
inductive Level where
  | alternation
  | sequence
  | repeated
  | atom
deriving DecidableEq

/-- What an expression says, with its classes as they are written. -/
inductive Pattern where
  | literal (c : Char)
  | oneOf (body : ClassBody)
  | concat (first second : Pattern)
  | alternate (left right : Pattern)
  | star (inner : Pattern)
  | plus (inner : Pattern)

/-- The tree of symbols and operators, with an alternation for each class. -/
def Pattern.expr : Pattern → Expr
  | literal c => .symbol (.literal c)
  | oneOf body => body.expr
  | concat t u => .concat t.expr u.expr
  | alternate t u => .alternate t.expr u.expr
  | star t => .star t.expr
  | plus t => .plus t.expr

/-- A text is derived on a level. -/
inductive Derives : Level → List Char → Pattern → Prop
  | literal {c : Char} (hc : isLiteral c = true) : Derives .atom [c] (.literal c)
  | oneOf (body : ClassBody) : Derives .atom ('[' :: (body.chars ++ [']'])) (.oneOf body)
  | group {cs : List Char} {t : Pattern} (inner : Derives .alternation cs t) :
    Derives .atom ('(' :: (cs ++ [')'])) t
  | once {cs : List Char} {t : Pattern} (atom : Derives .atom cs t) : Derives .repeated cs t
  | star {cs : List Char} {t : Pattern} (atom : Derives .atom cs t) :
    Derives .repeated (cs ++ ['*']) (.star t)
  | plus {cs : List Char} {t : Pattern} (atom : Derives .atom cs t) :
    Derives .repeated (cs ++ ['+']) (.plus t)
  | single {cs : List Char} {t : Pattern} (repeated : Derives .repeated cs t) :
    Derives .sequence cs t
  | concat {cs ds : List Char} {t u : Pattern} (first : Derives .sequence cs t)
    (second : Derives .repeated ds u) : Derives .sequence (cs ++ ds) (.concat t u)
  | whole {cs : List Char} {t : Pattern} (sequence : Derives .sequence cs t) :
    Derives .alternation cs t
  | alternate {cs ds : List Char} {t u : Pattern} (left : Derives .alternation cs t)
    (right : Derives .sequence ds u) : Derives .alternation (cs ++ '|' :: ds) (.alternate t u)

/-! ### Derived texts have their operators in place -/

variable {level : Level} {cs : List Char} {t : Pattern} {before after : Option Char} {p : Place}

/-- A derived text begins with no operator and with no closing bracket. -/
lemma Derives.head? (h : Derives level cs t) :
    ∃ a, cs.head? = some a ∧ isOperator a = false ∧ isClosing a = false := by
  induction h with
  | literal hc => exact ⟨_, rfl, isOperator_of_isLiteral hc, isClosing_of_isLiteral hc⟩
  | oneOf body => exact ⟨'[', rfl, rfl, rfl⟩
  | group inner _ => exact ⟨'(', rfl, rfl, rfl⟩
  | once _ ih | single _ ih | whole _ ih => exact ih
  | star _ ih | plus _ ih | concat _ _ ih _ | alternate _ _ ih _ =>
    obtain ⟨a, ha, h⟩ := ih
    exact ⟨a, by rw [List.head?_append, ha]; rfl, h⟩

/-- A derived text ends with no `|` and with no opening bracket, and an atom ends with no operator. -/
lemma Derives.getLast? (h : Derives level cs t) :
    ∃ b, cs.getLast? = some b ∧ b ≠ '|' ∧ isOpening b = false ∧
      (level = .atom → isOperator b = false) := by
  induction h with
  | literal hc =>
    exact ⟨_, rfl, ne_of_isLiteral hc rfl, isOpening_of_isLiteral hc,
      fun _ => isOperator_of_isLiteral hc⟩
  | oneOf body =>
    refine ⟨']', ?_, by decide, rfl, fun _ => rfl⟩
    rw [← List.cons_append, List.getLast?_concat]
  | group inner _ =>
    refine ⟨')', ?_, by decide, rfl, fun _ => rfl⟩
    rw [← List.cons_append, List.getLast?_concat]
  | star _ _ => exact ⟨'*', by simp, by decide, rfl, fun h => absurd h (by decide)⟩
  | plus _ _ => exact ⟨'+', by simp, by decide, rfl, fun h => absurd h (by decide)⟩
  | once _ ih | single _ ih | whole _ ih =>
    obtain ⟨b, hb, hbar, hopening, -⟩ := ih
    exact ⟨b, hb, hbar, hopening, by simp⟩
  | concat _ _ _ ih =>
    obtain ⟨b, hb, hbar, hopening, -⟩ := ih
    exact ⟨b, by rw [List.getLast?_append, hb]; rfl, hbar, hopening, by simp⟩
  | alternate _ _ _ ih =>
    obtain ⟨b, hb, hbar, hopening, -⟩ := ih
    exact ⟨b, by rw [List.getLast?_append, List.getLast?_cons, hb]; rfl, hbar, hopening, by simp⟩

lemma ClassBody.fits (body : ClassBody) (hp : p ∈ places before ('[' :: (body.chars ++ [']'])) after) :
    p.Fits := by
  obtain ⟨u, v, h, -, -⟩ := mem_places_iff.mp hp
  have hmem : p.char ∈ '[' :: (body.chars ++ [']']) := by
    rw [h]
    exact List.mem_append_right _ List.mem_cons_self
  obtain ⟨before, c, after⟩ := p
  simp only [List.mem_cons, List.mem_append, List.not_mem_nil, or_false] at hmem
  rcases hmem with rfl | hc | rfl
  · exact Place.fits_of_isOperator rfl rfl
  · rcases body.isLiteral_or_eq_dash hc with hlit | rfl
    · exact Place.fits_of_isOperator (isBlank_of_isLiteral hlit) (isOperator_of_isLiteral hlit)
    · exact Place.fits_of_isOperator rfl rfl
  · exact Place.fits_of_isOperator rfl rfl

/-- In a derived text every character is in its place, whatever stands around the text. -/
lemma Derives.fits (h : Derives level cs t) (hp : p ∈ places before cs after) : p.Fits := by
  induction h generalizing before after with
  | literal hc =>
    obtain rfl := List.mem_singleton.mp hp
    exact Place.fits_of_isOperator (isBlank_of_isLiteral hc) (isOperator_of_isLiteral hc)
  | oneOf body => exact body.fits hp
  | group _ ih =>
    rw [places_cons, places_append, List.mem_cons, List.mem_append] at hp
    rcases hp with rfl | hp | hp
    · exact Place.fits_of_isOperator rfl rfl
    · exact ih hp
    · obtain rfl := List.mem_singleton.mp hp
      exact Place.fits_of_isOperator rfl rfl
  | once _ ih | single _ ih | whole _ ih => exact ih hp
  | star atom ih | plus atom ih =>
    obtain ⟨b, hb, -, hopening, hoperator⟩ := atom.getLast?
    rw [places_append, hb, List.mem_append] at hp
    rcases hp with hp | hp
    · exact ih hp
    · obtain rfl := List.mem_singleton.mp hp
      exact Place.fits_repetition rfl (hoperator rfl) hopening
  | concat _ _ ih ih' =>
    rw [places_append, List.mem_append] at hp
    rcases hp with hp | hp
    · exact ih hp
    · exact ih' hp
  | alternate left right ih ih' =>
    obtain ⟨b, hb, hbar, hopening, -⟩ := left.getLast?
    obtain ⟨a, ha, hoperator, hclosing⟩ := right.head?
    rw [places_append, places_cons, hb, ha, List.mem_append, List.mem_cons] at hp
    rcases hp with hp | rfl | hp
    · exact ih hp
    · exact Place.fits_alternation hbar hopening hoperator hclosing
    · exact ih' hp

/-- Derived texts pass the check of the operators. -/
lemma Derives.checkPlacement (h : Derives level cs t) : Regex.checkPlacement cs = .ok () := by
  refine checkPlacement_eq_ok_iff.mpr ⟨?_, fun p hp => h.fits hp⟩
  rintro rfl
  obtain ⟨a, ha, -⟩ := h.head?
  exact absurd ha (by simp)

end Regex
end RegexAutomata
