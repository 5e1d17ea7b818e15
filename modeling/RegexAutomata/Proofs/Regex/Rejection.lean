/-
# Why a text is refused

Reading an expression has four steps, and what is reported is the fault of the first that fails: the first
character that is out of place, the leftmost item that is at fault, parentheses that do not match, or an empty
group.  A fault that comes with a position is about the character at that position (`exists_about`).

The main statement is `compile_reports_first_fault`.
-/
import RegexAutomata.Compile
import RegexAutomata.Proofs.Regex.EmptyGroups
import RegexAutomata.Proofs.Regex.Items

namespace RegexAutomata

/-! ### Positions -/

/-- What a fault with a position says of the character there. -/
def RegexError.About (c : Char) : RegexError → Prop
  | blank _ => isBlank c = true
  | unaryOperand operator _ => c = operator ∧ Regex.isRepetition c = true
  | binaryOperands operator _ => c = operator ∧ c = '|'
  | openRange _ => c = '-'
  | emptyClass _ => c = '['
  | unknownCharacter character _ => c = character ∧ isLiteral c = false
  | _ => False

namespace Regex

variable {before after : Option Char} {cs : List Char} {p : Place} {i k position : Nat} {e : RegexError}
  {text : String}

lemma map_char_places : (places before cs after).map Place.char = cs := by
  induction cs generalizing before with
  | nil => rfl
  | cons c cs ih => rw [places_cons, List.map_cons, ih]

lemma getElem?_of_places (h : (places before cs after)[i]? = some p) : cs[i]? = some p.char := by
  have hchars : (places before cs after).map Place.char = cs := map_char_places
  have hchar : ((places before cs after).map Place.char)[i]? = some p.char := by
    rw [List.getElem?_map, h, Option.map_some]
  rwa [hchars] at hchar

lemma Place.Misplaced.about (h : p.Misplaced i e) (hk : e.position? = some k) : i = k ∧ e.About p.char := by
  cases h with
  | blank hc => exact ⟨Option.some.inj hk, hc⟩
  | leading | trailing => exact absurd hk (by simp [RegexError.position?])
  | repetition hc => exact ⟨Option.some.inj hk, rfl, hc⟩
  | alternation => exact ⟨Option.some.inj hk, rfl, rfl⟩

lemma Place.NotInClass.about (h : p.NotInClass i e) (hk : e.position? = some k) :
    i = k ∧ e.About p.char := by
  cases h with
  | unknown _ hc => exact ⟨Option.some.inj hk, rfl, hc⟩
  | openRange => exact ⟨Option.some.inj hk, rfl⟩
  | reversedRange => exact absurd hk (by simp [RegexError.position?])

lemma Offends.about (h : Offends position cs e) (hk : e.position? = some k) :
    ∃ i c, position + i = k ∧ cs[i]? = some c ∧ e.About c := by
  cases h with
  | stray | unclosed | nested => exact absurd hk (by simp [RegexError.position?])
  | unknown hliteral => exact ⟨0, _, Option.some.inj hk, rfl, rfl, hliteral⟩
  | emptyClass => exact ⟨0, '[', Option.some.inj hk, rfl, rfl⟩
  | @member members rest _ _ hfault =>
    obtain ⟨i, p, hp, hfault, -⟩ := hfault
    obtain ⟨rfl, habout⟩ := hfault.about hk
    have hmember := getElem?_of_places hp
    refine ⟨i + 1, p.char, by omega, ?_, habout⟩
    obtain ⟨hlt, -⟩ := List.getElem?_eq_some_iff.mp hmember
    rwa [List.getElem?_cons_succ, List.getElem?_append_left hlt]

/-! ### The steps of reading -/

lemma compile_eq_error_iff : compile text = .error e ↔ parse text = .error e :=
  bind_pure_eq_error_iff

lemma exists_compile (h : ∃ expression, parse text = .ok expression) : ∃ c, compile text = .ok c := by
  obtain ⟨expression, h⟩ := h
  exact ⟨_, by rw [compile, h]; rfl⟩

lemma parse_eq_error_of_checkPlacement (h : checkPlacement text.toList = .error e) :
    parse text = .error e := by
  rw [parse, h]
  rfl

lemma parse_eq_error_of_tokens (h : checkPlacement text.toList = .ok ())
    (htokens : tokens text.toList = .error e) : parse text = .error e := by
  rw [parse, h, htokens]
  rfl

lemma parse_eq_ofTokens {ts : List Token} (h : checkPlacement text.toList = .ok ())
    (htokens : tokens text.toList = .ok ts) : parse text = Postfix.ofTokens (Token.juxtapose ts) := by
  rw [parse, h, htokens]
  rfl

/-- A fault that comes with a position is about the character there. -/
lemma exists_about (h : parse text = .error e) (hk : e.position? = some k) :
    ∃ c, text.toList[k]? = some c ∧ e.About c := by
  rcases bind_eq_error_iff.mp h with hplacement | ⟨_, -, h⟩
  · rcases checkPlacement_eq_error_iff.mp hplacement with ⟨-, rfl⟩ | ⟨i, p, hp, hfault, -⟩
    · exact absurd hk (by simp [RegexError.position?])
    · obtain ⟨rfl, habout⟩ := hfault.about hk
      rw [Nat.zero_add]
      exact ⟨p.char, getElem?_of_places hp, habout⟩
  rcases bind_eq_error_iff.mp h with htokens | ⟨ts, -, h⟩
  · obtain ⟨ps, v, htext, hoffends⟩ := tokensFrom_eq_error_iff.mp htokens
    obtain ⟨i, c, rfl, hc, habout⟩ := hoffends.about hk
    refine ⟨c, ?_, habout⟩
    rw [htext, Nat.zero_add, List.getElem?_append_right (Nat.le_add_right _ i), Nat.add_sub_cancel_left, hc]
  · -- the postfix form knows no positions
    rw [Postfix.ofTokens] at h
    split at h
    · obtain rfl := Except.error.inj h
      exact absurd hk (by simp [RegexError.position?])
    split at h
    · exact absurd h (by simp)
    · obtain rfl := Except.error.inj h
      exact absurd hk (by simp [RegexError.position?])

section
variable {ts : List Token} (hplacement : checkPlacement text.toList = .ok ())
  (htokens : tokens text.toList = .ok ts)
include hplacement htokens

/-- A text that has tokens is refused for its parentheses if and only if these do not match. -/
lemma parse_eq_unbalancedParentheses_iff :
    parse text = .error .unbalancedParentheses ↔ ¬Balanced '(' ')' 0 text.toList := by
  obtain ⟨ps, htext, rfl⟩ := exists_pieces htokens
  rw [parse_eq_ofTokens hplacement htokens, Postfix.ofTokens_eq_unbalancedParentheses_iff,
    ← Token.closes_iff_balanced, Token.closes_juxtapose_iff, closes_pieces_iff_balanced, htext]

/-- If the parentheses match, a text that has tokens is parsed if and only if no group is empty. -/
lemma exists_parse_iff (hbalanced : Balanced '(' ')' 0 text.toList) :
    (∃ expression, parse text = .ok expression) ↔ ¬['(', ')'] <:+: text.toList := by
  constructor
  · rintro ⟨expression, h⟩
    obtain ⟨t, ht⟩ := derivable_of_parse h
    exact ht.no_empty_group
  · intro hgroup
    obtain ⟨ps, htext, rfl⟩ := exists_pieces htokens
    obtain ⟨hne, hfits⟩ := checkPlacement_eq_ok_iff.mp hplacement
    rw [htext] at hne hfits hbalanced hgroup
    obtain ⟨t, ht⟩ := derivable_of_pieces hne hfits hbalanced hgroup
    rw [← htext] at ht
    exact ⟨_, ht.parse_eq⟩

/-- Otherwise an operand is missing. -/
lemma parse_eq_missingOperand_iff (hbalanced : Balanced '(' ')' 0 text.toList) :
    parse text = .error .missingOperand ↔ ['(', ')'] <:+: text.toList := by
  have hparse := exists_parse_iff hplacement htokens hbalanced
  constructor
  · intro h
    by_contra hgroup
    obtain ⟨expression, hok⟩ := hparse.mpr hgroup
    exact absurd (h.symm.trans hok) (by simp)
  · intro hgroup
    have hno : ¬∃ expression, parse text = .ok expression := fun h => hparse.mp h hgroup
    have hbalanced' := mt (parse_eq_unbalancedParentheses_iff hplacement htokens).mp (not_not.mpr hbalanced)
    rw [parse_eq_ofTokens hplacement htokens] at hno hbalanced' ⊢
    rw [Postfix.ofTokens_eq_unbalancedParentheses_iff, not_not] at hbalanced'
    exact (Postfix.ofTokens_of_balanced hbalanced').resolve_right hno

end

end Regex

open Regex

/-- A text is refused for the first of its characters that is out of place, and else for its leftmost item that
is at fault.  If there is none, it is refused for its parentheses if these do not match, and else for a missing
operand if there is an empty group.  A fault that comes with a position is about the character there. -/
theorem compile_reports_first_fault (text : String) :
    (∀ e, checkPlacement text.toList = .error e ↔ text.toList = [] ∧ e = .empty ∨
      Leftmost Place.Fits Place.Misplaced 0 (places none text.toList none) e) ∧
    (checkPlacement text.toList = .error .empty ↔ text.toList = []) ∧
    (∀ e, checkPlacement text.toList = .error e → compile text = .error e) ∧
    (checkPlacement text.toList = .ok () →
      (∀ e, tokens text.toList = .error e ↔ ∃ (ps : List Piece) (v : List Char),
        text.toList = ps.flatMap Piece.text ++ v ∧ Offends (ps.flatMap Piece.text).length v e) ∧
      (∀ e, tokens text.toList = .error e → compile text = .error e) ∧
      ∀ ts, tokens text.toList = .ok ts →
        (compile text = .error .unbalancedParentheses ↔ ¬Balanced '(' ')' 0 text.toList) ∧
        (Balanced '(' ')' 0 text.toList →
          (compile text = .error .missingOperand ↔ ['(', ')'] <:+: text.toList) ∧
          (¬['(', ')'] <:+: text.toList → ∃ c, compile text = .ok c))) ∧
    ∀ e k, compile text = .error e → e.position? = some k →
      ∃ c, text.toList[k]? = some c ∧ e.About c := by
  refine ⟨fun e => checkPlacement_eq_error_iff, ?_, fun e h => ?_, fun hplacement => ⟨fun e => ?_,
    fun e htokens => ?_, fun ts htokens => ⟨?_, fun hbalanced => ⟨?_, fun hgroup => ?_⟩⟩⟩, fun e k h hk => ?_⟩
  · rw [checkPlacement_eq_error_iff, and_iff_left rfl]
    refine or_iff_left ?_
    rintro ⟨_, _, -, hfault, -⟩
    cases hfault
  · exact compile_eq_error_iff.mpr (parse_eq_error_of_checkPlacement h)
  · have htokens : tokens text.toList = .error e ↔ ∃ (ps : List Piece) (v : List Char),
        text.toList = ps.flatMap Piece.text ++ v ∧ Offends (0 + (ps.flatMap Piece.text).length) v e :=
      tokensFrom_eq_error_iff
    simpa only [Nat.zero_add] using htokens
  · exact compile_eq_error_iff.mpr (parse_eq_error_of_tokens hplacement htokens)
  · exact compile_eq_error_iff.trans (parse_eq_unbalancedParentheses_iff hplacement htokens)
  · exact compile_eq_error_iff.trans (parse_eq_missingOperand_iff hplacement htokens hbalanced)
  · exact exists_compile ((exists_parse_iff hplacement htokens hbalanced).mpr hgroup)
  · exact exists_about (compile_eq_error_iff.mp h) hk

end RegexAutomata
