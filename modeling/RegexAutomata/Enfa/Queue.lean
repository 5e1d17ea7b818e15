/-
# The search for a final state

Whether an automaton is empty is found out by a search with a queue.  It begins with the closure of the start
state.  A state that is taken from the queue is dropped if it has been visited before.  Otherwise it is
visited now.  If it is final the search is over, and the automaton is not empty.  If not, its moves on all
symbols are followed, and of the closures of their destinations those members enter the queue that have not
been visited.  When the queue has run dry the automaton is empty.
-/
import RegexAutomata.Enfa.Accept

namespace RegexAutomata
namespace Enfa

/-- A search for a final state. -/
structure Hunt where
  /-- The states visited so far. -/
  visited : StateSet
  /-- The states that wait, the first of the queue first. -/
  waiting : List Nat
  /-- Whether the automaton is empty, once that is known. -/
  verdict? : Option Bool
deriving DecidableEq

/-- The members of the closures of the destinations of a state, symbol by symbol. -/
def jumps (n : Enfa) (s : Nat) : List Nat :=
  n.alphabet.ids.flatMap fun a => (n.closure (n.destinations s (.symbol a))).toList

namespace Hunt

/-- The search before its first step.  Without a start state it is over. -/
def start (n : Enfa) : Hunt :=
  match n.start? with
  | none => ⟨∅, [], some true⟩
  | some s => ⟨∅, (n.closure (StateSet.singleton s)).toList, none⟩

/-- Take one state from the queue.  A search that is over stays as it is. -/
def step (n : Enfa) (c : Hunt) : Hunt :=
  match c.verdict?, c.waiting with
  | some _, _ => c
  | none, [] => { c with verdict? := some true }
  | none, s :: rest =>
    if s ∈ c.visited then { c with waiting := rest }
    else
      let visited := c.visited.insert s
      if s ∈ n.finals then ⟨visited, rest, some false⟩
      else ⟨visited, rest ++ (n.jumps s).filter (· ∉ visited), none⟩

end Hunt

end Enfa
end RegexAutomata
