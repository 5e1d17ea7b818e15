/-
# Paths

A string is read along a path of moves: each of its characters by a symbol that admits it, with any
number of epsilon moves before, between and after.  `Enfa.Reads` says that there is such a path
from one state to another.
-/
import RegexAutomata.Enfa.Basic

namespace RegexAutomata
namespace Enfa

/-- There is a path from one state to another that reads a string. -/
inductive Reads (n : Enfa) : Nat → List Char → Nat → Prop
  /-- The empty path reads nothing. -/
  | refl (s : Nat) : Reads n s [] s
  /-- An epsilon move reads nothing. -/
  | epsilon {s m d : Nat} {w : List Char} (move : n.Edge s .epsilon m) (path : Reads n m w d) :
    Reads n s w d
  /-- A move with a symbol reads one character that the symbol admits. -/
  | symbol {s m d id : Nat} {a : Symbol} {x : Char} {w : List Char}
    (move : n.Edge s (.symbol id) m) (known : n.alphabet.symbol? id = some a)
    (admits : a.admits x = true) (path : Reads n m w d) : Reads n s (x :: w) d

end Enfa
end RegexAutomata
