/-
# Values and their text

A JSON value, and its text with two blanks of indentation for each level.  The members of an object
are kept as they stand in the text: in order, repeated names included.
-/
import RegexAutomata.Json.Quoted

namespace RegexAutomata
namespace Json

/-- A JSON value. -/
inductive Value where
  /-- Nothing. -/
  | null
  /-- A truth value. -/
  | bool (b : Bool)
  /-- A number, by its text. -/
  | number (text : String)
  /-- A string. -/
  | string (s : String)
  /-- A list of values. -/
  | array (items : List Value)
  /-- Values with names. -/
  | object (members : List (String × Value))

namespace Value

/-- A line break, and the blanks in front of a line at a level. -/
def newline (level : Nat) : List Char := '\n' :: List.replicate (2 * level) ' '

mutual

/-- The text of a value at a level of indentation. -/
def render (level : Nat) : Value → List Char
  | null => ['n', 'u', 'l', 'l']
  | bool true => ['t', 'r', 'u', 'e']
  | bool false => ['f', 'a', 'l', 's', 'e']
  | number text => text.toList
  | string s => quote s.toList
  | array [] => ['[', ']']
  | array (item :: items) =>
    '[' :: newline (level + 1) ++ render (level + 1) item ++ renderItems (level + 1) items ++
      newline level ++ [']']
  | object [] => ['\x7b', '\x7d']
  | object (member :: members) =>
    '\x7b' :: newline (level + 1) ++ renderMember (level + 1) member ++
      renderMembers (level + 1) members ++ newline level ++ ['\x7d']

/-- The texts of further items of a list, each on a line of its own after a comma. -/
def renderItems (level : Nat) : List Value → List Char
  | [] => []
  | item :: items => ',' :: newline level ++ render level item ++ renderItems level items

/-- The texts of further members of an object, each on a line of its own after a comma. -/
def renderMembers (level : Nat) : List (String × Value) → List Char
  | [] => []
  | member :: members =>
    ',' :: newline level ++ renderMember level member ++ renderMembers level members

/-- The text of a member: its name, a colon, a blank and its value. -/
def renderMember (level : Nat) : String × Value → List Char
  | (name, value) => quote name.toList ++ ':' :: ' ' :: render level value

end

/-- The text of a value. -/
def text (v : Value) : String := String.ofList (v.render 0)

end Value

end Json
end RegexAutomata
