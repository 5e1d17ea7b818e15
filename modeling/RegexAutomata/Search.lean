/-
# Search with a stack

The vertices that can be reached in a graph are found one at a time.  Those that are still to be
looked at wait on a stack.  A vertex taken from the stack is dropped if it has been found before.
Otherwise it is found now, and those of its successors that have not been found are put on the
stack, the greatest on top.  What waits already is not looked up, so a vertex can wait more than once.
-/
import RegexAutomata.Graph

namespace RegexAutomata

/-- A search of a graph that is under way. -/
structure Search where
  /-- The vertices found so far. -/
  found : StateSet
  /-- The vertices that wait, the top of the stack first. -/
  waiting : List Nat
deriving DecidableEq

namespace Search

/-- The search before its first step: the vertices to start from wait, the greatest on top. -/
def start (S : StateSet) : Search := ⟨∅, S.toList.reverse⟩

/-- Take one vertex from the stack.  A search without waiting vertices stays as it is. -/
def step (g : Graph) (c : Search) : Search :=
  match c.waiting with
  | [] => c
  | s :: rest =>
    if s ∈ c.found then ⟨c.found, rest⟩
    else
      let found := c.found.insert s
      ⟨found, ((g.successors s).toList.filter (· ∉ found)).reverse ++ rest⟩

end Search

end RegexAutomata
