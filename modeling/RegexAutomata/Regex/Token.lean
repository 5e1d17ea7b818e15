/-
# Tokens

The lexical units of an expression once its classes have been read: symbols, operators and
parentheses.  Concatenation has no character of its own in an expression; it is a token that
`Token.juxtapose` puts between two operands that stand side by side.
-/
import RegexAutomata.Symbol

namespace RegexAutomata

/-- A lexical unit of an expression without classes. -/
inductive Token where
  /-- A symbol. -/
  | symbol (s : Symbol)
  /-- Zero or more of the operand before it. -/
  | star
  /-- One or more of the operand before it. -/
  | plus
  /-- One operand followed by another. -/
  | concat
  /-- One operand or another. -/
  | alternate
  /-- The beginning of a group. -/
  | lparen
  /-- The end of a group. -/
  | rparen
deriving DecidableEq, Repr

namespace Token

/-- The characters that stand for a token when tokens are printed.  Concatenation is printed as
`#`, which is not a literal. -/
def spelling : Token → List Char
  | symbol s => s.spelling
  | star => ['*']
  | plus => ['+']
  | concat => ['#']
  | alternate => ['|']
  | lparen => ['(']
  | rparen => [')']

/-- The printed form of a list of tokens. -/
def text (tokens : List Token) : String := String.ofList (tokens.flatMap spelling)

/-- Whether an operand can end with the token. -/
def endsOperand : Token → Bool
  | symbol _ | star | plus | rparen => true
  | concat | alternate | lparen => false

/-- Whether an operand can begin with the token. -/
def beginsOperand : Token → Bool
  | symbol _ | lparen => true
  | star | plus | concat | alternate | rparen => false

/-- Put a concatenation between every two neighbours of which the first ends an operand and the
second begins one. -/
def juxtapose : List Token → List Token
  | t :: u :: rest =>
    if t.endsOperand && u.beginsOperand then t :: concat :: juxtapose (u :: rest)
    else t :: juxtapose (u :: rest)
  | tokens => tokens

end Token

end RegexAutomata
