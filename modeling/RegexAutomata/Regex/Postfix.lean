/-
# Postfix expressions

In a postfix expression every operator follows its operands, so parentheses are not needed.
`Token.shunt` moves each operator behind its operands: operators wait on a stack until an
operator that binds no tighter, a closing parenthesis or the end of the tokens sends them to
the output.

A list of tokens is a postfix expression if reading it from left to right never lacks an
operand and leaves exactly one.  `Postfix` keeps this as a proof, so whoever reads a postfix
expression need not fail.
-/
import RegexAutomata.Regex.Error
import RegexAutomata.Regex.Token

namespace RegexAutomata

namespace Token

/-- How tightly an operator binds.  A parenthesis on the stack gives way to no operator. -/
def precedence : Token → Nat
  | star | plus => 3
  | concat => 2
  | alternate => 1
  | symbol _ | lparen | rparen => 0

/-- Move every operator behind its operands.  The first argument holds the waiting operators and
open parentheses, the latest first; `none` means that the parentheses do not match. -/
def shunt (waiting : List Token) : List Token → Option (List Token)
  | [] => if lparen ∈ waiting then none else some waiting
  | symbol s :: rest => (symbol s :: ·) <$> shunt waiting rest
  | lparen :: rest => shunt (lparen :: waiting) rest
  | rparen :: rest =>
    if lparen ∈ waiting then
      (waiting.takeWhile (· ≠ lparen) ++ ·) <$> shunt ((waiting.dropWhile (· ≠ lparen)).tail) rest
    else none
  | operator :: rest =>
    (waiting.takeWhile (operator.precedence ≤ precedence ·) ++ ·) <$>
      shunt (operator :: waiting.dropWhile (operator.precedence ≤ precedence ·)) rest

/-- The number of operands left when tokens are read from left to right, starting with a number
of operands; `none` if a token lacks an operand or is a parenthesis. -/
def operands? (count : Nat) : List Token → Option Nat
  | [] => some count
  | symbol _ :: rest => operands? (count + 1) rest
  | star :: rest | plus :: rest => if 1 ≤ count then operands? count rest else none
  | concat :: rest | alternate :: rest => if 2 ≤ count then operands? (count - 1) rest else none
  | lparen :: _ | rparen :: _ => none

end Token

/-- A regular expression in postfix order. -/
structure Postfix where
  /-- The symbols and operators. -/
  tokens : List Token
  /-- The tokens leave one operand and lack none. -/
  complete : Token.operands? 0 tokens = some 1
deriving DecidableEq

namespace Postfix

/-- The postfix form of tokens with explicit concatenation. -/
def ofTokens (tokens : List Token) : Except RegexError Postfix :=
  match Token.shunt [] tokens with
  | none => .error .unbalancedParentheses
  | some output =>
    if h : Token.operands? 0 output = some 1 then .ok ⟨output, h⟩ else .error .missingOperand

/-- The number of tokens. -/
def length (p : Postfix) : Nat := p.tokens.length

/-- The printed form. -/
def text (p : Postfix) : String := Token.text p.tokens

end Postfix

end RegexAutomata
