/-
# Acceptance and emptiness

A string is accepted if its characters can be read one after the other, starting in the closure
of the start state and ending in a set that holds a final state.  One character may be read by
several symbols at once.

An automaton is empty if no final state can be reached from the start state by moves of any
kind.
-/
import RegexAutomata.Enfa.Closure

namespace RegexAutomata
namespace Enfa

/-- The states that can be reached from a set of states by reading one character. -/
def read (n : Enfa) (S : StateSet) (x : Char) : StateSet :=
  StateSet.unions ((n.alphabet.matching x).map fun id => n.move S (.symbol id))

/-- Whether the automaton accepts a string. -/
def accepts (n : Enfa) (w : List Char) : Bool :=
  match n.start? with
  | none => false
  | some s => (w.foldl n.read (n.closure (StateSet.singleton s))).intersects n.finals

/-- The graph of all moves, without their labels. -/
def graph (n : Enfa) : Graph :=
  Graph.ofSuccessors (List.range n.numStates) fun s =>
    StateSet.unions (n.labels.map (n.destinations s))

/-- Whether no final state can be reached from the start state. -/
def isEmpty (n : Enfa) : Bool :=
  match n.start? with
  | none => true
  | some s => !(n.graph.reach (StateSet.singleton s)).intersects n.finals

end Enfa
end RegexAutomata
