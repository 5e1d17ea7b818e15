/-
# The leftmost item that is at fault

Outside classes each character is an item of its own, and a class is one item.  An item in order is a `Piece`,
and any other is at fault, so a text falls into pieces up to its end or up to an item at fault
(`exists_pieces_append`).  In the first case it has the tokens of its pieces (`exists_pieces`), and in the
second none (`tokensFrom_eq_error_iff`).

Of a class whose brackets do not match nothing else is said, and otherwise the fault of a class is that of the
leftmost character between its brackets that is out of place.
-/
import RegexAutomata.Proofs.Regex.Misplaced
import RegexAutomata.Proofs.Regex.Pieces

namespace RegexAutomata
namespace Regex

/-- The text begins with an item at fault, where its first character has a given position. -/
inductive Offends (position : Nat) : List Char → RegexError → Prop
  | stray {rest : List Char} : Offends position (']' :: rest) .unbalancedBrackets
  | unknown {c : Char} {rest : List Char} (hliteral : isLiteral c = false)
    (hc : c ∉ ['(', ')', '*', '+', '|', '[', ']']) :
    Offends position (c :: rest) (.unknownCharacter c position)
  | unclosed {members : List Char} (h : ∀ c ∈ members, c ≠ '[' ∧ c ≠ ']') :
    Offends position ('[' :: members) .unbalancedBrackets
  | nested {members rest : List Char} (h : ∀ c ∈ members, c ≠ '[' ∧ c ≠ ']') :
    Offends position ('[' :: (members ++ '[' :: rest)) .unbalancedBrackets
  | emptyClass {rest : List Char} : Offends position ('[' :: ']' :: rest) (.emptyClass position)
  | member {members rest : List Char} {e : RegexError} (h : ∀ c ∈ members, c ≠ '[' ∧ c ≠ ']')
    (hfault : Leftmost Place.InClass Place.NotInClass (position + 1) (places none members none) e) :
    Offends position ('[' :: (members ++ ']' :: rest)) e

variable {c : Char} {cs : List Char} {ts : List Token} {position : Nat} {e : RegexError}

/-- What follows an opening bracket ends, or comes to another opening bracket or to a closing one. -/
lemma exists_members (cs : List Char) : ∃ members : List Char, (∀ c ∈ members, c ≠ '[' ∧ c ≠ ']') ∧
    (cs = members ∨ (∃ rest, cs = members ++ '[' :: rest) ∨ ∃ rest, cs = members ++ ']' :: rest) := by
  induction cs with
  | nil => exact ⟨[], by simp, Or.inl rfl⟩
  | cons c cs ih =>
    by_cases hopening : c = '['
    · exact ⟨[], by simp, Or.inr (Or.inl ⟨cs, by rw [hopening]; rfl⟩)⟩
    by_cases hclosing : c = ']'
    · exact ⟨[], by simp, Or.inr (Or.inr ⟨cs, by rw [hclosing]; rfl⟩)⟩
    obtain ⟨members, hmembers, hcs⟩ := ih
    refine ⟨c :: members, List.forall_mem_cons.mpr ⟨⟨hopening, hclosing⟩, hmembers⟩, ?_⟩
    rcases hcs with rfl | ⟨rest, rfl⟩ | ⟨rest, rfl⟩
    · exact Or.inl rfl
    · exact Or.inr (Or.inl ⟨rest, rfl⟩)
    · exact Or.inr (Or.inr ⟨rest, rfl⟩)

lemma tokenOf_eq_unknown (hliteral : isLiteral c = false) (hc : c ∉ ['(', ')', '*', '+', '|', '[', ']']) :
    tokenOf c position = .error (.unknownCharacter c position) := by
  simp only [List.mem_cons, List.not_mem_nil, or_false, not_or] at hc
  simp [tokenOf, hc, hliteral]

/-- A text that begins with an item at fault is refused for it. -/
lemma Offends.tokensFrom_eq (h : Offends position cs e) : tokensFrom position cs = .error e := by
  cases h with
  | stray =>
    rw [tokensFrom, if_neg (by decide)]
    rfl
  | @unknown c rest hliteral hc =>
    have hopening : c ≠ '[' := by
      rintro rfl
      exact hc (by decide)
    rw [tokensFrom, if_neg hopening, tokenOf_eq_unknown hliteral hc]
    rfl
  | @unclosed members h =>
    have hsplit : splitClass? (members ++ []) = none := splitClass?_members_append h
    rw [List.append_nil] at hsplit
    exact tokensFrom_of_splitClass?_eq_none position hsplit
  | nested h => exact tokensFrom_of_splitClass?_eq_none position (splitClass?_members_append h)
  | @emptyClass rest =>
    have hread := @tokensFrom_class [] rest position (by simp)
    exact hread
  | member h hfault =>
    rw [tokensFrom_class position h, classSymbols_eq_error_iff.mpr hfault]
    rfl

/-! ### Falling into pieces -/

/-- An opening bracket begins a class or an item at fault. -/
lemma exists_class_or_offends (position : Nat) (cs : List Char) :
    (∃ (p : Piece) (rest : List Char), '[' :: cs = p.text ++ rest) ∨ ∃ e, Offends position ('[' :: cs) e := by
  obtain ⟨members, hmembers, rfl | ⟨rest, rfl⟩ | ⟨rest, rfl⟩⟩ := exists_members cs
  · exact Or.inr ⟨_, .unclosed hmembers⟩
  · exact Or.inr ⟨_, .nested hmembers⟩
  by_cases hne : members = []
  · subst hne
    exact Or.inr ⟨_, .emptyClass⟩
  cases hsymbols : classSymbols none (position + 1) members with
  | error e => exact Or.inr ⟨e, .member hmembers (classSymbols_eq_error_iff.mp hsymbols)⟩
  | ok symbols =>
    obtain ⟨hin, -⟩ := classSymbols_eq_ok_iff.mp hsymbols
    exact Or.inl ⟨.oneOf ⟨members, hne, hin⟩, rest, by simp [Piece.text]⟩

/-- A text begins with a piece or with an item at fault. -/
lemma exists_piece_or_offends (position : Nat) (hne : cs ≠ []) :
    (∃ (p : Piece) (rest : List Char), cs = p.text ++ rest) ∨ ∃ e, Offends position cs e := by
  obtain ⟨c, cs, rfl⟩ := List.exists_cons_of_ne_nil hne
  by_cases hmem : c ∈ ['(', ')', '*', '+', '|', '[', ']']
  · simp only [List.mem_cons, List.not_mem_nil, or_false] at hmem
    rcases hmem with rfl | rfl | rfl | rfl | rfl | rfl | rfl
    · exact Or.inl ⟨.opening, cs, rfl⟩
    · exact Or.inl ⟨.closing, cs, rfl⟩
    · exact Or.inl ⟨.star, cs, rfl⟩
    · exact Or.inl ⟨.plus, cs, rfl⟩
    · exact Or.inl ⟨.bar, cs, rfl⟩
    · exact exists_class_or_offends position cs
    · exact Or.inr ⟨_, .stray⟩
  · cases hliteral : isLiteral c with
    | true => exact Or.inl ⟨.literal c hliteral, cs, rfl⟩
    | false => exact Or.inr ⟨_, .unknown hliteral hmem⟩

/-- A text falls into pieces up to its end, or up to an item at fault. -/
lemma exists_pieces_append (position : Nat) (cs : List Char) : ∃ (ps : List Piece) (v : List Char),
    cs = ps.flatMap Piece.text ++ v ∧
      (v = [] ∨ ∃ e, Offends (position + (ps.flatMap Piece.text).length) v e) := by
  induction hlength : cs.length using Nat.strong_induction_on generalizing position cs with
  | _ n ih =>
    by_cases hne : cs = []
    · exact ⟨[], [], hne, Or.inl rfl⟩
    rcases exists_piece_or_offends position hne with ⟨p, rest, rfl⟩ | hoffends
    · have hlt : rest.length < n := by
        have hp := List.length_pos_of_ne_nil p.text_ne_nil
        rw [List.length_append] at hlength
        omega
      obtain ⟨ps, v, rfl, hv⟩ := ih rest.length hlt (position + p.text.length) rest rfl
      refine ⟨p :: ps, v, by rw [List.flatMap_cons, List.append_assoc], ?_⟩
      rwa [List.flatMap_cons, List.length_append, ← Nat.add_assoc]
    · exact ⟨[], cs, rfl, Or.inr hoffends⟩

/-- A text that has tokens falls into pieces that have these tokens. -/
lemma exists_pieces (h : tokensFrom position cs = .ok ts) :
    ∃ ps : List Piece, cs = ps.flatMap Piece.text ∧ ts = ps.flatMap Piece.tokens := by
  obtain ⟨ps, v, rfl, hv⟩ := exists_pieces_append position cs
  rw [readsAs_pieces ps position v] at h
  rcases hv with rfl | ⟨e, hv⟩
  · rw [tokensFrom] at h
    have hts : ps.flatMap Piece.tokens ++ [] = ts := Except.ok.inj h
    exact ⟨ps, List.append_nil _, by rw [← hts, List.append_nil]⟩
  · rw [hv.tokensFrom_eq] at h
    exact absurd h (by simp)

/-- A text has no tokens if pieces are followed by an item at fault. -/
lemma tokensFrom_eq_error_iff : tokensFrom position cs = .error e ↔
    ∃ (ps : List Piece) (v : List Char), cs = ps.flatMap Piece.text ++ v ∧
      Offends (position + (ps.flatMap Piece.text).length) v e := by
  constructor
  · intro h
    obtain ⟨ps, v, rfl, hv⟩ := exists_pieces_append position cs
    rw [readsAs_pieces ps position v, map_eq_error_iff] at h
    rcases hv with rfl | ⟨e', hv⟩
    · rw [tokensFrom] at h
      exact absurd h (by simp)
    · obtain rfl : e' = e := Except.error.inj (hv.tokensFrom_eq.symm.trans h)
      exact ⟨ps, v, rfl, hv⟩
  · rintro ⟨ps, v, rfl, hv⟩
    rw [readsAs_pieces ps position v, map_eq_error_iff, hv.tokensFrom_eq]

end Regex
end RegexAutomata
