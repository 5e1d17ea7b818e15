/-
# Reasons to refuse an expression

Each reason is one constructor, with the position and the characters that its message
names.  Positions count characters of the expression from zero.
-/

namespace RegexAutomata

/-- Why a text is not a regular expression. -/
inductive RegexError where
  /-- The text is empty. -/
  | empty
  /-- There is a blank character. -/
  | blank (position : Nat)
  /-- The text begins with an operator. -/
  | leadingOperator (operator : Char)
  /-- The text ends with an operator that needs an operand on its right. -/
  | trailingOperator (operator : Char)
  /-- A repetition operator does not follow an operand. -/
  | unaryOperand (operator : Char) (position : Nat)
  /-- An alternation does not stand between two operands. -/
  | binaryOperands (operator : Char) (position : Nat)
  /-- A dash in a class does not stand between two literal characters. -/
  | openRange (position : Nat)
  /-- The ends of a range are out of order. -/
  | reversedRange (lo hi : Char)
  /-- The class that begins here has no member. -/
  | emptyClass (position : Nat)
  /-- A bracket has no partner, or stands inside a class. -/
  | unbalancedBrackets
  /-- A parenthesis has no partner. -/
  | unbalancedParentheses
  /-- The character has no meaning where it stands. -/
  | unknownCharacter (character : Char) (position : Nat)
  /-- An operator or a group has nothing to work on. -/
  | missingOperand
deriving DecidableEq, Repr

namespace RegexError

/-- The parts of a message after the beginning that all messages share. -/
def reason : RegexError → List String
  | empty => ["empty regex"]
  | blank p => ["whitespace at position ", p.repr]
  | leadingOperator c => ["operator `", c.toString, "` at the beginning"]
  | trailingOperator c => ["operator `", c.toString, "` at the end"]
  | unaryOperand c p =>
    ["operator `", c.toString, "` at position ", p.repr, " has an invalid operand"]
  | binaryOperands c p =>
    ["operator `", c.toString, "` at position ", p.repr, " has invalid operands"]
  | openRange p => ["range at position ", p.repr, " needs a literal on both sides"]
  | reversedRange lo hi => ["range `", lo.toString, "-", hi.toString, "` is reversed"]
  | emptyClass p => ["empty character class at position ", p.repr]
  | unbalancedBrackets => ["brackets are not balanced"]
  | unbalancedParentheses => ["parentheses are not balanced"]
  | unknownCharacter c p => ["invalid character `", c.toString, "` at position ", p.repr]
  | missingOperand => ["an operator or group is missing its operand"]

/-- The message for a refused expression. -/
def message (e : RegexError) : String := String.join ("invalid regex: " :: e.reason)

/-- The position that a reason points at, if it points at one. -/
def position? : RegexError → Option Nat
  | blank p | unaryOperand _ p | binaryOperands _ p | openRange p | emptyClass p
  | unknownCharacter _ p => some p
  | _ => none

end RegexError

end RegexAutomata
