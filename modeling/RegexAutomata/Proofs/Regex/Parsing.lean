/-
# The texts that are parsed

While the pieces of a text are read from left to right, every group that has been opened has been read up
to some stage: an operand has to come, or an atom has been read, or an atom with its repetition
(`ReadsTo`).  Each piece that may follow takes the text from one such state to another, so at the end the
whole text is derived.

Together with `Derives.parse_eq` this shows that the texts that are parsed are the derived ones
(`parse_eq_ok_iff`).
-/
import RegexAutomata.Proofs.Regex.Items

namespace RegexAutomata
namespace Regex

/-- A text is derived on a level. -/
def Derivable (level : Level) (cs : List Char) : Prop := ∃ t, Derives level cs t

/-- What may stand before a sequence in its group. -/
def Leads (cs : List Char) : Prop := cs = [] ∨ ∃ left, Derivable .alternation left ∧ cs = left ++ ['|']

/-- A group has been read up to a stage. -/
inductive Read : Stage → List Char → Prop
  | operand {lead : List Char} (hlead : Leads lead) : Read .operand lead
  | atom {lead atom : List Char} (hlead : Leads lead) (hatom : Derivable .atom atom) :
    Read .atom (lead ++ atom)
  | sequenceAtom {lead sequence atom : List Char} (hlead : Leads lead)
    (hsequence : Derivable .sequence sequence) (hatom : Derivable .atom atom) :
    Read .atom (lead ++ (sequence ++ atom))
  | repeated {lead sequence : List Char} (hlead : Leads lead)
    (hsequence : Derivable .sequence sequence) : Read .repeated (lead ++ sequence)

/-- A text ends with the parenthesis of a group, and a number of groups are open. -/
inductive Opened : Nat → List Char → Prop
  | none : Opened 0 []
  | group {depth : Nat} {outer cs : List Char} {stage : Stage} (outside : Opened depth outer)
    (before : Read stage cs) : Opened (depth + 1) (outer ++ (cs ++ ['(']))

/-- A number of groups are open, and the innermost of them has been read up to a stage. -/
def ReadsTo (depth : Nat) (stage : Stage) (cs : List Char) : Prop :=
  ∃ outer inner, Opened depth outer ∧ Read stage inner ∧ cs = outer ++ inner

variable {stage : Stage} {cs lead sequence atom : List Char} {c : Char} {depth : Nat} {p q : Piece}
  {ps : List Piece} {rest : List Token}

/-! ### Reading on in one group -/

lemma Leads.alternation (hlead : Leads lead) (hsequence : Derivable .sequence sequence) :
    Derivable .alternation (lead ++ sequence) := by
  obtain ⟨u, hu⟩ := hsequence
  rcases hlead with rfl | ⟨left, ⟨t, ht⟩, rfl⟩
  · exact ⟨u, .whole hu⟩
  · rw [List.append_assoc, List.singleton_append]
    exact ⟨_, .alternate ht hu⟩

/-- What has been read of a group ends with a sequence, unless an operand has to come. -/
lemma Read.exists_sequence (h : Read stage cs) (hstage : stage ≠ .operand) :
    ∃ lead sequence, Leads lead ∧ Derivable .sequence sequence ∧ cs = lead ++ sequence := by
  cases h with
  | operand => exact absurd rfl hstage
  | atom hlead hatom =>
    obtain ⟨t, ht⟩ := hatom
    exact ⟨_, _, hlead, ⟨t, .single (.once ht)⟩, rfl⟩
  | sequenceAtom hlead hsequence hatom =>
    obtain ⟨t, ht⟩ := hsequence
    obtain ⟨u, hu⟩ := hatom
    exact ⟨_, _, hlead, ⟨_, .concat ht (.once hu)⟩, rfl⟩
  | repeated hlead hsequence => exact ⟨_, _, hlead, hsequence, rfl⟩

lemma Read.alternation (h : Read stage cs) (hstage : stage ≠ .operand) :
    Derivable .alternation cs := by
  obtain ⟨lead, sequence, hlead, hsequence, rfl⟩ := h.exists_sequence hstage
  exact hlead.alternation hsequence

lemma Read.append_atom (h : Read stage cs) (hatom : Derivable .atom atom) :
    Read .atom (cs ++ atom) := by
  by_cases hstage : stage = .operand
  · subst hstage
    cases h with
    | operand hlead => exact .atom hlead hatom
  · obtain ⟨lead, sequence, hlead, hsequence, rfl⟩ := h.exists_sequence hstage
    rw [List.append_assoc]
    exact .sequenceAtom hlead hsequence hatom

/-- An atom may be repeated once. -/
lemma Read.append_repetition (h : Read .atom cs)
    (hc : ∀ atom, Derivable .atom atom → Derivable .repeated (atom ++ [c])) :
    Read .repeated (cs ++ [c]) := by
  cases h with
  | atom hlead hatom =>
    obtain ⟨t, ht⟩ := hc _ hatom
    rw [List.append_assoc]
    exact .repeated hlead ⟨t, .single ht⟩
  | sequenceAtom hlead hsequence hatom =>
    obtain ⟨t, ht⟩ := hsequence
    obtain ⟨u, hu⟩ := hc _ hatom
    rw [List.append_assoc, List.append_assoc]
    exact .repeated hlead ⟨_, .concat ht hu⟩

/-! ### Reading on from piece to piece -/

lemma ReadsTo.append_atom (h : ReadsTo depth stage cs) (hatom : Derivable .atom atom) :
    ReadsTo depth .atom (cs ++ atom) := by
  obtain ⟨outer, inner, houter, hinner, rfl⟩ := h
  exact ⟨outer, _, houter, hinner.append_atom hatom, List.append_assoc ..⟩

lemma ReadsTo.append_repetition (h : ReadsTo depth .atom cs)
    (hc : ∀ atom, Derivable .atom atom → Derivable .repeated (atom ++ [c])) :
    ReadsTo depth .repeated (cs ++ [c]) := by
  obtain ⟨outer, inner, houter, hinner, rfl⟩ := h
  exact ⟨outer, _, houter, hinner.append_repetition hc, List.append_assoc ..⟩

lemma ReadsTo.append_bar (h : ReadsTo depth stage cs) (hstage : stage ≠ .operand) :
    ReadsTo depth .operand (cs ++ ['|']) := by
  obtain ⟨outer, inner, houter, hinner, rfl⟩ := h
  have hlead : Leads (inner ++ ['|']) := Or.inr ⟨inner, hinner.alternation hstage, rfl⟩
  exact ⟨outer, _, houter, .operand hlead, List.append_assoc ..⟩

lemma ReadsTo.append_opening (h : ReadsTo depth stage cs) :
    ReadsTo (depth + 1) .operand (cs ++ ['(']) := by
  obtain ⟨outer, inner, houter, hinner, rfl⟩ := h
  refine ⟨_, [], .group houter hinner, .operand (Or.inl rfl), ?_⟩
  rw [List.append_nil, List.append_assoc]

/-- A closing parenthesis makes an atom of its group, and reading goes on in the group around it. -/
lemma ReadsTo.append_closing (h : ReadsTo (depth + 1) stage cs) (hstage : stage ≠ .operand) :
    ReadsTo depth .atom (cs ++ [')']) := by
  obtain ⟨_, inner, houter, hinner, rfl⟩ := h
  cases houter with
  | @group _ outer before _ houter hbefore =>
    obtain ⟨t, ht⟩ := hinner.alternation hstage
    refine ⟨outer, _, houter, hbefore.append_atom ⟨t, .group ht⟩, ?_⟩
    simp

/-- Reading a piece that may follow takes the text to the stage of that piece. -/
lemma ReadsTo.append_piece (h : ReadsTo depth p.stage cs) (hjoins : p.Joins q)
    (hcloses : Token.Closes depth (q.tokens ++ rest)) :
    ∃ depth', ReadsTo depth' q.stage (cs ++ q.text) ∧ Token.Closes depth' rest := by
  cases q with
  | literal c hc => exact ⟨depth, h.append_atom ⟨_, .literal hc⟩, hcloses⟩
  | oneOf body =>
    refine ⟨depth, h.append_atom ⟨_, .oneOf body⟩, ?_⟩
    obtain ⟨a, symbols, hsymbols⟩ := List.exists_cons_of_ne_nil body.symbols_ne_nil
    rw [Piece.tokens, hsymbols] at hcloses
    exact Piece.closes_groupOf_append.mp hcloses
  | star =>
    rw [show p.stage = .atom from hjoins] at h
    refine ⟨depth, h.append_repetition ?_, hcloses⟩
    rintro atom ⟨t, ht⟩
    exact ⟨_, .star ht⟩
  | plus =>
    rw [show p.stage = .atom from hjoins] at h
    refine ⟨depth, h.append_repetition ?_, hcloses⟩
    rintro atom ⟨t, ht⟩
    exact ⟨_, .plus ht⟩
  | bar => exact ⟨depth, h.append_bar hjoins, hcloses⟩
  | opening => exact ⟨depth + 1, h.append_opening, hcloses⟩
  | closing =>
    obtain ⟨hdepth, hcloses⟩ := hcloses
    obtain ⟨depth, rfl⟩ := Nat.exists_eq_succ_of_ne_zero (Nat.ne_of_gt hdepth)
    exact ⟨depth, h.append_closing hjoins, hcloses⟩

/-- Pieces that may follow one another, with matching parentheses, complete a derivation. -/
lemma ReadsTo.derivable (h : ReadsTo depth p.stage cs)
    (hjoins : (p :: (ps ++ [.closing])).IsChain Piece.Joins)
    (hcloses : Token.Closes depth (ps.flatMap Piece.tokens)) :
    Derivable .alternation (cs ++ ps.flatMap Piece.text) := by
  -- what has been read goes with the pieces: `cs` grows as `ps` becomes shorter
  induction ps generalizing depth p cs with
  | nil =>
    obtain rfl : depth = 0 := hcloses
    obtain ⟨outer, inner, houter, hinner, rfl⟩ := h
    obtain ⟨hstage, -⟩ := List.isChain_cons_cons.mp hjoins
    cases houter with
    | none =>
      rw [List.flatMap_nil, List.append_nil]
      exact hinner.alternation hstage
  | cons q ps ih =>
    obtain ⟨hpq, hjoins⟩ := List.isChain_cons_cons.mp hjoins
    rw [List.flatMap_cons] at hcloses
    obtain ⟨depth', h', hcloses'⟩ := h.append_piece hpq hcloses
    rw [List.flatMap_cons, ← List.append_assoc]
    exact ih h' hjoins hcloses'

/-! ### The whole text -/

variable {text : String} {expression : Postfix}

/-- Nothing has been read, and an operand has to come. -/
lemma readsTo_opening : ReadsTo 0 Piece.opening.stage [] := ⟨[], [], .none, .operand (Or.inl rfl), rfl⟩

/-- The pieces of a text with its operators in place are so also between parentheses. -/
lemma isChain_meets_of_fits (hfits : ∀ x ∈ places none (ps.flatMap Piece.text) none, x.Fits) :
    (.opening :: (ps ++ [.closing])).IsChain Piece.Meets := by
  have htext : (Piece.opening :: (ps ++ [.closing])).flatMap Piece.text =
      '(' :: (ps.flatMap Piece.text ++ [')']) := by
    simp [Piece.text]
  have hfits' : ∀ x ∈ places none ('(' :: (ps.flatMap Piece.text ++ [')'])) none, x.Fits := by
    intro x hx
    rw [places_cons, places_append, List.mem_cons, List.mem_append] at hx
    rcases hx with rfl | hx | hx
    · exact Place.fits_of_isOperator rfl rfl
    · exact fits_of_fits_none hfits hx
    · obtain rfl := List.mem_singleton.mp hx
      exact Place.fits_of_isOperator rfl rfl
  exact Piece.isChain_meets (htext ▸ hfits')

/-- The pieces of a text that is parsed may follow one another, also between parentheses. -/
lemma isChain_joins_of_parse (hne : ps.flatMap Piece.tokens ≠ [])
    (hfits : ∀ x ∈ places none (ps.flatMap Piece.text) none, x.Fits)
    (hweight : Token.totalWeight (Token.juxtapose (ps.flatMap Piece.tokens)) = 1) :
    (.opening :: (ps ++ [.closing])).IsChain Piece.Joins := by
  have htokens : (Piece.opening :: (ps ++ [.closing])).flatMap Piece.tokens =
      .lparen :: (ps.flatMap Piece.tokens ++ [.rparen]) := by
    simp [Piece.tokens]
  -- with parentheses around them the pieces weigh as much as pieces after `(` may
  refine Piece.isChain_joins (isChain_meets_of_fits hfits) ?_
  rw [htokens, Token.juxtapose_parens hne, Token.totalWeight_cons, Token.totalWeight_append, hweight]
  rfl

/-- A text that is parsed is derived. -/
lemma derivable_of_parse (h : parse text = .ok expression) : Derivable .alternation text.toList := by
  obtain ⟨_, hplacement, h⟩ := bind_eq_ok_iff.mp h
  obtain ⟨ts, hts, h⟩ := bind_eq_ok_iff.mp h
  obtain ⟨-, hfits⟩ := checkPlacement_eq_ok_iff.mp hplacement
  obtain ⟨ps, htext, rfl⟩ := exists_pieces hts
  rw [htext] at hfits ⊢
  have hshunted := Token.shunted_of_shunt (Postfix.ofTokens_eq_ok_iff.mp h)
  -- one operand is left in the end, and moving operators keeps the weight
  have hweight : Token.totalWeight (Token.juxtapose (ps.flatMap Piece.tokens)) = 1 := by
    have hout := Token.totalWeight_of_operands? expression.complete
    have hkept := hshunted.totalWeight_eq
    rw [Token.totalWeight_nil] at hkept
    omega
  have hne : ps.flatMap Piece.tokens ≠ [] := by
    intro hnil
    rw [hnil] at hweight
    exact absurd hweight (by decide)
  have hcloses : Token.Closes 0 (ps.flatMap Piece.tokens) :=
    Token.closes_juxtapose_iff.mp hshunted.closes
  exact readsTo_opening.derivable (isChain_joins_of_parse hne hfits hweight) hcloses

/-- A text is parsed if and only if it is derived by the grammar, and the result is the postorder of the
tree that is derived. -/
theorem parse_eq_ok_iff : parse text = .ok expression ↔
    ∃ t, Derives .alternation text.toList t ∧ expression.tokens = t.expr.postorder := by
  constructor
  · intro h
    obtain ⟨t, ht⟩ := derivable_of_parse h
    refine ⟨t, ht, ?_⟩
    rw [ht.parse_eq] at h
    rw [← Except.ok.inj h]
    rfl
  · rintro ⟨t, ht, htokens⟩
    obtain ⟨tokens, complete⟩ := expression
    obtain rfl : tokens = t.expr.postorder := htokens
    exact ht.parse_eq

end Regex
end RegexAutomata
