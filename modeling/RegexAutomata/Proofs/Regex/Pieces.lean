/-
# The pieces of a text

A text that is read into tokens falls into pieces, each of which is a class or a single character.  The check
of the operators becomes a condition on neighbouring pieces (`Piece.isChain_meets`).

The check lets an empty group pass.  But an empty group counts as an operand when concatenation is made
explicit, and gives none to the postfix form, so a text with the right number of operands has no empty
group (`Piece.isChain_joins`).
-/
import Mathlib.Data.List.Chain
import RegexAutomata.Proofs.Regex.Shunting
import RegexAutomata.Proofs.Regex.Tokens

namespace RegexAutomata
namespace Regex

/-- A class or a character outside classes. -/
inductive Piece where
  | literal (c : Char) (hc : isLiteral c = true)
  | oneOf (body : ClassBody)
  | star
  | plus
  | bar
  | opening
  | closing

/-- What has been read when a piece ends. -/
inductive Stage where
  /-- Nothing yet; an operand has to come. -/
  | operand
  /-- An atom. -/
  | atom
  /-- An atom with its repetition. -/
  | repeated
deriving DecidableEq

namespace Piece

/-- The characters of a piece. -/
def text : Piece → List Char
  | literal c _ => [c]
  | oneOf body => '[' :: (body.chars ++ [']'])
  | star => ['*']
  | plus => ['+']
  | bar => ['|']
  | opening => ['(']
  | closing => [')']

lemma text_ne_nil (p : Piece) : p.text ≠ [] := by
  cases p <;> exact List.cons_ne_nil _ _

/-- The tokens of a piece. -/
def tokens : Piece → List Token
  | literal c _ => [.symbol (.literal c)]
  | oneOf body => groupOf body.symbols
  | star => [.star]
  | plus => [.plus]
  | bar => [.alternate]
  | opening => [.lparen]
  | closing => [.rparen]

/-- What has been read at the end of a piece. -/
def stage : Piece → Stage
  | literal _ _ | oneOf _ | closing => .atom
  | star | plus => .repeated
  | bar | opening => .operand

end Piece

variable {ps : List Piece}

/-! ### Reading pieces -/

lemma Piece.readsAs (p : Piece) : ReadsAs p.text p.tokens := by
  cases p with
  | literal c hc => exact readsAs_literal hc
  | oneOf body => exact readsAs_class body
  | star | plus | bar | opening | closing => exact readsAs_char (by decide) fun _ => rfl

/-- Pieces are read one after the other. -/
lemma readsAs_pieces (ps : List Piece) : ReadsAs (ps.flatMap Piece.text) (ps.flatMap Piece.tokens) := by
  induction ps with
  | nil =>
    intro position rest
    show tokensFrom position rest = ([] ++ ·) <$> tokensFrom position rest
    cases tokensFrom position rest <;> rfl
  | cons p ps ih =>
    rw [List.flatMap_cons, List.flatMap_cons]
    exact p.readsAs.append ih

/-! ### Operators between pieces -/

/-- What the check of the operators says of a piece and the one before it. -/
def Piece.Meets (p q : Piece) : Prop :=
  match q with
  | star | plus => p.stage = .atom
  | bar => p.stage ≠ .operand
  | closing => p ≠ bar
  | literal _ _ | oneOf _ | opening => True

variable {p q : Piece} {before after : Option Char}

/-- A piece whose last character is neither an operator nor an opening bracket is an atom. -/
lemma Piece.stage_eq_atom {b : Char} (hb : p.text.getLast?.or before = some b)
    (hoperator : isOperator b = false) (hopening : isOpening b = false) : p.stage = .atom := by
  cases p with
  | literal | oneOf | closing => rfl
  | star | plus | bar =>
    obtain rfl := Option.some.inj hb
    exact absurd hoperator (by decide)
  | opening =>
    obtain rfl := Option.some.inj hb
    exact absurd hopening (by decide)

lemma Piece.stage_ne_operand {b : Char} (hb : p.text.getLast?.or before = some b) (hbar : b ≠ '|')
    (hopening : isOpening b = false) : p.stage ≠ .operand := by
  cases p with
  | literal | oneOf | closing | star | plus => exact Stage.noConfusion
  | bar =>
    obtain rfl := Option.some.inj hb
    exact absurd rfl hbar
  | opening =>
    obtain rfl := Option.some.inj hb
    exact absurd hopening (by decide)

lemma Piece.meets_of_fits
    (h : ∀ x ∈ places before (p.text ++ q.text) after, x.Fits) : p.Meets q := by
  rw [places_append] at h
  have hfirst : ∀ c, q.text = [c] → Place.Fits ⟨p.text.getLast?.or before, c, after⟩ := by
    intro c hc
    rw [hc] at h
    exact h _ (List.mem_append_right _ List.mem_cons_self)
  cases q with
  | literal | oneOf | opening => trivial
  | star | plus =>
    show p.stage = .atom
    obtain ⟨b, hb, hoperator, hopening⟩ := (hfirst _ rfl).repetition rfl
    exact stage_eq_atom hb hoperator hopening
  | bar =>
    show p.stage ≠ .operand
    obtain ⟨b, a, hb, -, hbar, hopening, -⟩ := (hfirst _ rfl).alternation rfl
    exact stage_ne_operand hb hbar hopening
  | closing =>
    show p ≠ .bar
    rintro rfl
    -- the fault is that of the `|` before the parenthesis
    have hbar : Place.Fits ⟨before, '|', some ')'⟩ :=
      h _ (List.mem_append_left _ List.mem_cons_self)
    obtain ⟨b, a, -, ha, -, -, -, hclosing⟩ := hbar.alternation rfl
    obtain rfl := Option.some.inj ha
    exact absurd hclosing (by decide)

/-- If the characters of pieces are in their places, so are the pieces. -/
lemma Piece.isChain_meets (h : ∀ x ∈ places before (ps.flatMap text) after, x.Fits) :
    ps.IsChain Meets := by
  induction ps generalizing before with
  | nil => exact .nil
  | cons p ps ih =>
    -- a piece is judged with the next one in view
    cases ps with
    | nil => exact .singleton p
    | cons q ps =>
      -- two pieces see each other, and the rest sees the last character before it
      have hrest : ∀ x ∈ places (p.text.getLast?.or before) ((q :: ps).flatMap text) after,
          x.Fits := by
        intro x hx
        rw [List.flatMap_cons, places_append] at h
        exact h x (List.mem_append_right _ hx)
      have hpair : ∀ x ∈ places before (p.text ++ q.text)
          ((ps.flatMap text).head?.or after), x.Fits := by
        intro x hx
        rw [List.flatMap_cons, List.flatMap_cons, ← List.append_assoc, places_append] at h
        exact h x (List.mem_append_left _ hx)
      exact List.isChain_cons_cons.mpr ⟨meets_of_fits hpair, ih hrest⟩

/-! ### Empty groups -/

/-- `Meets`, but without empty groups. -/
def Piece.Joins (p q : Piece) : Prop :=
  match q with
  | star | plus => p.stage = .atom
  | bar | closing => p.stage ≠ .operand
  | literal _ _ | oneOf _ | opening => True

namespace Piece

/-- Whether an operand can begin with the piece. -/
def begins : Piece → Bool
  | literal _ _ | oneOf _ | opening => true
  | star | plus | bar | closing => false

/-- What a piece adds to the number of operands. -/
def weight : Piece → Int
  | literal _ _ | oneOf _ => 1
  | bar => -1
  | star | plus | opening | closing => 0

/-- What the concatenation between two pieces adds to the number of operands. -/
def gap (p q : Piece) : Int := if p.stage ≠ .operand ∧ q.begins = true then -1 else 0

/-- How many operands may still be added after a piece. -/
def slack (p : Piece) : Int := if p.stage = .operand then 1 else 0

lemma totalWeight_flatMap_alternate (symbols : List Symbol) :
    Token.totalWeight (symbols.flatMap fun s => [.alternate, .symbol s]) = 0 := by
  induction symbols with
  | nil => rfl
  | cons s symbols ih =>
    rw [List.flatMap_cons, Token.totalWeight_append, ih]
    rfl

lemma totalWeight_tokens (p : Piece) : Token.totalWeight p.tokens = p.weight := by
  cases p with
  | literal | star | plus | bar | opening | closing => rfl
  | oneOf body =>
    -- a class gives one operand more than it has bars
    obtain ⟨a, symbols, h⟩ := List.exists_cons_of_ne_nil body.symbols_ne_nil
    rw [tokens, h, groupOf_cons]
    simp [totalWeight_flatMap_alternate, Token.weight, weight]

lemma exists_head?_tokens (p : Piece) :
    ∃ t, p.tokens.head? = some t ∧ t.beginsOperand = p.begins := by
  cases p <;> exact ⟨_, rfl, rfl⟩

lemma exists_getLast?_tokens (p : Piece) :
    ∃ t, p.tokens.getLast? = some t ∧ (t.endsOperand = true ↔ p.stage ≠ .operand) := by
  cases p with
  | oneOf body =>
    refine ⟨.rparen, ?_, by simp [Token.endsOperand, stage]⟩
    rw [tokens, groupOf, ← List.cons_append, List.getLast?_concat]
  | literal | star | plus | bar | opening | closing =>
    exact ⟨_, rfl, by simp [Token.endsOperand, stage]⟩

lemma juxtapose_tokens (p : Piece) : Token.juxtapose p.tokens = p.tokens := by
  cases p with
  | oneOf body => exact juxtapose_groupOf
  | literal | star | plus | bar | opening | closing => rfl

/-- The weight of pieces with explicit concatenation. -/
lemma totalWeight_juxtapose_cons :
    Token.totalWeight (Token.juxtapose ((p :: q :: ps).flatMap tokens)) =
      p.weight + (p.gap q + Token.totalWeight (Token.juxtapose ((q :: ps).flatMap tokens))) := by
  obtain ⟨t, ht, hends⟩ := p.exists_getLast?_tokens
  obtain ⟨u, hu, hbegins⟩ := q.exists_head?_tokens
  have hu' : ((q :: ps).flatMap tokens).head? = some u := by
    rw [List.flatMap_cons, List.head?_append, hu]
    rfl
  have hgap : p.gap q = if (t.endsOperand && u.beginsOperand) = true then -1 else 0 := by
    simp only [gap, Bool.and_eq_true, hends, hbegins]
  rw [List.flatMap_cons, Token.juxtapose_append ht hu', Token.totalWeight_append, juxtapose_tokens,
    totalWeight_tokens, hgap]
  split
  · rw [Token.totalWeight_cons, Token.weight]
  · rw [Int.zero_add]

/-- Where a piece may follow, it adds no more operands than are missing.  It adds less if it closes an
empty group. -/
lemma gap_add_le (h : p.Meets q) :
    p.gap q + q.weight + q.slack ≤ p.slack ∧
      (p.gap q + q.weight + q.slack = p.slack → p.Joins q) := by
  cases q with
  | literal | oneOf | opening =>
    refine ⟨?_, fun _ => trivial⟩
    rw [gap, slack, slack]
    cases p.stage <;> simp [weight, stage, begins]
  | star | plus =>
    have hp : p.stage = .atom := h
    refine ⟨?_, fun _ => hp⟩
    rw [gap, slack, slack, hp]
    simp [weight, stage, begins]
  | bar =>
    have hp : p.stage ≠ .operand := h
    refine ⟨?_, fun _ => hp⟩
    rw [gap, slack, slack, if_neg hp]
    simp [weight, stage, begins]
  | closing =>
    have hsum : p.gap closing + weight closing + slack closing = 0 := by
      simp [gap, weight, slack, stage, begins]
    rw [hsum, slack]
    by_cases hp : p.stage = .operand
    · -- an empty group
      rw [if_pos hp]
      exact ⟨by decide, fun heq => absurd heq (by decide)⟩
    · rw [if_neg hp]
      exact ⟨Int.le_refl 0, fun _ => hp⟩

/-- Pieces add at most one operand, counted from before the first. -/
lemma totalWeight_juxtapose_le (h : (p :: ps).IsChain Meets) :
    Token.totalWeight (Token.juxtapose ((p :: ps).flatMap tokens)) ≤ p.weight + p.slack := by
  induction ps generalizing p with
  | nil =>
    rw [List.flatMap_singleton, juxtapose_tokens, totalWeight_tokens, slack]
    split <;> omega
  | cons q ps ih =>
    obtain ⟨hpq, hchain⟩ := List.isChain_cons_cons.mp h
    have hrest := ih hchain
    have hstep := (gap_add_le hpq).1
    rw [totalWeight_juxtapose_cons]
    omega

/-- If pieces add as many operands as they may, no group among them is empty. -/
lemma isChain_joins (h : (p :: ps).IsChain Meets)
    (hweight : Token.totalWeight (Token.juxtapose ((p :: ps).flatMap tokens)) = p.weight + p.slack) :
    (p :: ps).IsChain Joins := by
  induction ps generalizing p with
  | nil => exact .singleton p
  | cons q ps ih =>
    obtain ⟨hpq, hchain⟩ := List.isChain_cons_cons.mp h
    have hrest := totalWeight_juxtapose_le hchain
    have hstep := (gap_add_le hpq).1
    rw [totalWeight_juxtapose_cons] at hweight
    -- the bounds of this step and of the rest are both reached, or the whole would weigh less
    refine List.isChain_cons_cons.mpr ⟨(gap_add_le hpq).2 (by omega), ih hchain (by omega)⟩

/-- The group of a class closes the parenthesis that it opens, and the rest of the tokens does not notice
it. -/
lemma closes_groupOf_append {a : Symbol} {symbols : List Symbol} {rest : List Token} {depth : Nat} :
    Token.Closes depth (groupOf (a :: symbols) ++ rest) ↔ Token.Closes depth rest := by
  -- inside the group there are no parentheses
  have hmembers : ∀ symbols : List Symbol, Token.Closes (depth + 1)
      (symbols.flatMap (fun s => [.alternate, .symbol s]) ++ .rparen :: rest) ↔
        Token.Closes depth rest := by
    intro symbols
    induction symbols with
    | nil =>
      show 0 < depth + 1 ∧ Token.Closes depth rest ↔ Token.Closes depth rest
      exact and_iff_right (Nat.succ_pos depth)
    | cons s symbols ih => exact ih
  rw [groupOf_cons, ← hmembers symbols]
  simp [Token.Closes]

end Piece

end Regex
end RegexAutomata
