/-
# Empty groups

The check of the operators and the reading of classes let an empty group `()` pass, and only when operators
are moved behind their operands is an operand found missing.  It is found missing exactly then: a derived text
holds no empty group (`Derives.no_empty_group`), and a text whose pieces are in their places and whose
parentheses match is derived unless it holds one (`derivable_of_pieces`).
-/
import RegexAutomata.Proofs.Regex.Conversion
import RegexAutomata.Proofs.Regex.Parsing

namespace RegexAutomata

/-! ### Neighbours -/

section
variable {α : Type} {a b : α} {xs ys : List α}

lemma isChain_iff_not_infix : xs.IsChain (fun x y => ¬(x = a ∧ y = b)) ↔ ¬[a, b] <:+: xs := by
  rw [List.isChain_iff_forall_rel_of_append_cons_cons]
  constructor
  · rintro h ⟨us, vs, rfl⟩
    have hsplit : us ++ [a, b] ++ vs = us ++ a :: b :: vs := by simp
    exact h hsplit ⟨rfl, rfl⟩
  · rintro h x y us vs rfl ⟨rfl, rfl⟩
    exact h ⟨us, vs, by simp⟩

/-- Neighbours in a list are neighbours in one of its parts, or stand where the parts meet. -/
lemma pair_infix_append_iff : [a, b] <:+: xs ++ ys ↔
    [a, b] <:+: xs ∨ [a, b] <:+: ys ∨ xs.getLast? = some a ∧ ys.head? = some b := by
  rw [← not_iff_not, not_or, not_or, ← isChain_iff_not_infix, ← isChain_iff_not_infix,
    ← isChain_iff_not_infix, List.isChain_append]
  refine and_congr_right fun _ => and_congr_right fun _ => ⟨?_, ?_⟩
  · rintro h ⟨ha, hb⟩
    exact h a ha b hb ⟨rfl, rfl⟩
  · rintro h x hx y hy ⟨rfl, rfl⟩
    exact h ⟨hx, hy⟩

lemma not_pair_infix_singleton {x : α} : ¬[a, b] <:+: [x] :=
  fun h => absurd h.length_le (by simp)

lemma pair_infix_cons_iff {x : α} :
    [a, b] <:+: x :: xs ↔ [a, b] <:+: xs ∨ x = a ∧ xs.head? = some b := by
  have hsplit : x :: xs = [x] ++ xs := rfl
  rw [hsplit, pair_infix_append_iff, or_iff_right not_pair_infix_singleton, List.getLast?_singleton,
    Option.some.injEq]

end

namespace Regex

variable {cs : List Char} {ps : List Piece} {depth : Nat} {level : Level} {t : Pattern}

/-! ### Parentheses of pieces -/

lemma ClassBody.not_mem_text (body : ClassBody) {d : Char} (hliteral : isLiteral d = false)
    (hd : d ∉ ['[', '-', ']']) : d ∉ '[' :: (body.chars ++ [']']) := by
  simp only [List.mem_cons, List.not_mem_nil, or_false, not_or] at hd
  rw [List.mem_cons, List.mem_append, List.mem_singleton]
  rintro (h | h | h)
  · exact hd.1 h
  · rcases body.isLiteral_or_eq_dash h with hlit | h
    · exact absurd (hlit.symm.trans hliteral) (by simp)
    · exact hd.2.1 h
  · exact hd.2.2 h

/-- The parentheses of pieces are those of their text, since a class holds none. -/
lemma closes_pieces_iff_balanced :
    Token.Closes depth (ps.flatMap Piece.tokens) ↔ Balanced '(' ')' depth (ps.flatMap Piece.text) := by
  induction ps generalizing depth with
  | nil => exact balanced_nil.symm
  | cons p ps ih =>
    rw [List.flatMap_cons, List.flatMap_cons]
    cases p with
    | literal c hc =>
      rw [Piece.text, List.singleton_append,
        balanced_cons_of_ne (ne_of_isLiteral hc rfl) (ne_of_isLiteral hc rfl)]
      exact ih
    | oneOf body =>
      obtain ⟨a, symbols, hsymbols⟩ := List.exists_cons_of_ne_nil body.symbols_ne_nil
      rw [Piece.tokens, hsymbols, Piece.closes_groupOf_append, ih, Piece.text,
        balanced_append_of_not_mem (body.not_mem_text rfl (by decide)) (body.not_mem_text rfl (by decide))]
    | star | plus | bar =>
      rw [Piece.text, List.singleton_append, balanced_cons_of_ne (by decide) (by decide)]
      exact ih
    | opening =>
      rw [Piece.text, List.singleton_append, balanced_cons_opening (by decide)]
      exact ih
    | closing =>
      rw [Piece.text, List.singleton_append, balanced_cons_closing (by decide)]
      exact and_congr_right fun _ => ih

/-! ### Derived texts -/

lemma Derives.head?_ne (h : Derives level cs t) : cs.head? ≠ some ')' := by
  obtain ⟨a, ha, -, hclosing⟩ := h.head?
  rw [ha, Ne, Option.some.injEq]
  rintro rfl
  exact absurd hclosing (by decide)

lemma Derives.getLast?_ne (h : Derives level cs t) : cs.getLast? ≠ some '(' := by
  obtain ⟨b, hb, -, hopening, -⟩ := h.getLast?
  rw [hb, Ne, Option.some.injEq]
  rintro rfl
  exact absurd hopening (by decide)

/-- No group in a derived text is empty. -/
lemma Derives.no_empty_group (h : Derives level cs t) : ¬['(', ')'] <:+: cs := by
  induction h with
  | literal => exact not_pair_infix_singleton
  | oneOf body =>
    intro h
    exact body.not_mem_text rfl (by decide) (h.subset List.mem_cons_self)
  | @group cs _ inner ih =>
    rw [pair_infix_cons_iff, pair_infix_append_iff]
    rintro ((h | h | ⟨hlast, -⟩) | ⟨-, hhead⟩)
    · exact ih h
    · exact not_pair_infix_singleton h
    · exact inner.getLast?_ne hlast
    · obtain ⟨a, ha, -⟩ := inner.head?
      rw [List.head?_append, ha, Option.some_or, ← ha] at hhead
      exact inner.head?_ne hhead
  | once _ ih | single _ ih | whole _ ih => exact ih
  | star _ ih | plus _ ih =>
    rw [pair_infix_append_iff]
    rintro (h | h | ⟨-, hhead⟩)
    · exact ih h
    · exact not_pair_infix_singleton h
    · exact absurd hhead (by decide)
  | concat first _ ih ih' =>
    rw [pair_infix_append_iff]
    rintro (h | h | ⟨hlast, -⟩)
    · exact ih h
    · exact ih' h
    · exact first.getLast?_ne hlast
  | @alternate cs ds _ _ left _ ih ih' =>
    rw [pair_infix_append_iff, pair_infix_cons_iff]
    rintro (h | (h | ⟨hbar, -⟩) | ⟨-, hhead⟩)
    · exact ih h
    · exact ih' h
    · exact absurd hbar (by decide)
    · exact absurd hhead (by simp)

/-! ### Pieces without empty groups -/

/-- If no group is empty, a piece may follow wherever the check of the operators lets it. -/
lemma Piece.isChain_joins_of_no_empty_group (h : ps.IsChain Piece.Meets)
    (hgroup : ¬['(', ')'] <:+: ps.flatMap Piece.text) : ps.IsChain Piece.Joins := by
  rw [List.isChain_iff_forall_rel_of_append_cons_cons] at h ⊢
  intro p q us vs hps
  have hmeets := h hps
  cases q with
  | literal | oneOf | opening | star | plus | bar => exact hmeets
  | closing =>
    cases p with
    | bar => exact absurd rfl hmeets
    | opening =>
      refine absurd ⟨us.flatMap Piece.text, vs.flatMap Piece.text, ?_⟩ hgroup
      rw [hps]
      simp [Piece.text]
    | literal | oneOf | star | plus | closing => exact Stage.noConfusion

/-- A balanced text without empty groups has none when parentheses are put around it. -/
lemma no_empty_group_of_balanced (hne : cs ≠ []) (hbalanced : Balanced '(' ')' 0 cs)
    (hgroup : ¬['(', ')'] <:+: cs) : ¬['(', ')'] <:+: '(' :: (cs ++ [')']) := by
  rw [pair_infix_cons_iff, pair_infix_append_iff]
  rintro ((h | h | ⟨hlast, -⟩) | ⟨-, hhead⟩)
  · exact hgroup h
  · exact not_pair_infix_singleton h
  · exact hbalanced.getLast?_ne (by decide) hlast
  · rw [List.head?_append, List.head?_eq_some_head hne, Option.some_or, ← List.head?_eq_some_head hne] at hhead
    exact hbalanced.head?_ne (by decide) hhead

/-- Pieces in their places with matching parentheses are derived unless there is an empty group. -/
lemma derivable_of_pieces (hne : ps.flatMap Piece.text ≠ [])
    (hfits : ∀ x ∈ places none (ps.flatMap Piece.text) none, x.Fits)
    (hbalanced : Balanced '(' ')' 0 (ps.flatMap Piece.text))
    (hgroup : ¬['(', ')'] <:+: ps.flatMap Piece.text) :
    Derivable .alternation (ps.flatMap Piece.text) := by
  have htext : (Piece.opening :: (ps ++ [.closing])).flatMap Piece.text =
      '(' :: (ps.flatMap Piece.text ++ [')']) := by
    simp [Piece.text]
  have hjoins := Piece.isChain_joins_of_no_empty_group (isChain_meets_of_fits hfits)
    (htext ▸ no_empty_group_of_balanced hne hbalanced hgroup)
  exact readsTo_opening.derivable hjoins (closes_pieces_iff_balanced.mpr hbalanced)

end Regex
end RegexAutomata
