/-
# Closures under epsilon moves

The closure of a set of states holds all states that can be reached from it by epsilon moves
alone.  It is found by a search of the graph of epsilon moves, or, if the closures of the single
states have been kept, as the union of the closures of the members.
-/
import RegexAutomata.Enfa.Basic

namespace RegexAutomata
namespace Enfa

/-- Compute the closures of all states and keep them. -/
def cacheClosures (n : Enfa) : Enfa :=
  match n.closures? with
  | some _ => n
  | none =>
    { n with
      closures? := some <| (Array.range n.numStates).map fun s =>
        n.epsilon.reach (StateSet.singleton s) }

/-- The states that can be reached from a set of states by epsilon moves.  A member that is not
a state of the automaton has no moves. -/
def closure (n : Enfa) (S : StateSet) : StateSet :=
  match n.closures? with
  | none => n.epsilon.reach S
  | some closures =>
    StateSet.unions (S.toList.map fun s => (closures[s]?).getD (StateSet.singleton s))

/-- The states that can be reached from a set of states by one move with a label and then any
number of epsilon moves. -/
def move (n : Enfa) (S : StateSet) (l : Label) : StateSet :=
  n.closure (StateSet.unions (S.toList.map (n.destinations · l)))

end Enfa
end RegexAutomata
