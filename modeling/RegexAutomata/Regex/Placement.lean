/-
# Placement of operators

The first check of an expression looks at the raw characters, before classes are read.  An
operator is judged by the characters next to it: a repetition must not begin the text and
must not follow an operator or an opening bracket or parenthesis; an alternation must not
begin or end the text, nor follow `|`, `(` or `[`, nor stand before an operator, `)` or `]`.
Blanks are refused everywhere.  The first fault from the left is reported.
-/
import RegexAutomata.Regex.Error
import RegexAutomata.Text.Blank

namespace RegexAutomata
namespace Regex

/-- Whether a character is an operator that follows its operand. -/
def isRepetition (c : Char) : Bool := c == '*' || c == '+'

/-- Whether a character is an operator. -/
def isOperator (c : Char) : Bool := isRepetition c || c == '|'

/-- Whether a character begins a group or a class. -/
def isOpening (c : Char) : Bool := c == '(' || c == '['

/-- Whether a character ends a group or a class. -/
def isClosing (c : Char) : Bool := c == ')' || c == ']'

/-- The fault of the repetition `c` at a position, given the character before it. -/
def repetitionFault (before : Option Char) (c : Char) (position : Nat) : Option RegexError :=
  match before with
  | none => some (.leadingOperator c)
  | some b => if isOperator b || isOpening b then some (.unaryOperand c position) else none

/-- The fault of an alternation `c` at a position, given the characters before and after it. -/
def alternationFault (before : Option Char) (c : Char) (after : Option Char) (position : Nat) :
    Option RegexError :=
  match before, after with
  | none, _ => some (.leadingOperator c)
  | some _, none => some (.trailingOperator c)
  | some b, some a =>
    if b == '|' || isOpening b || isOperator a || isClosing a then
      some (.binaryOperands c position)
    else none

/-- The fault of the character `c` at a position, given the characters before and after it. -/
def faultAt (before : Option Char) (c : Char) (after : Option Char) (position : Nat) :
    Option RegexError :=
  if isBlank c then some (.blank position)
  else if isRepetition c then repetitionFault before c position
  else if c == '|' then alternationFault before c after position
  else none

/-- The first fault in the characters from a position on, given the character before them. -/
def firstFault (before : Option Char) (position : Nat) : List Char → Option RegexError
  | [] => none
  | c :: rest =>
    match faultAt before c rest.head? position with
    | some fault => some fault
    | none => firstFault (some c) (position + 1) rest

/-- Refuse an empty text and a text with a misplaced operator or a blank. -/
def checkPlacement (text : List Char) : Except RegexError Unit :=
  if text.isEmpty then .error .empty
  else
    match firstFault none 0 text with
    | some fault => .error fault
    | none => .ok ()

end Regex
end RegexAutomata
