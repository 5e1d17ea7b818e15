/-
# Nondeterministic automata with epsilon moves

An automaton has states `0, 1, …, numStates - 1`, at most one start state, a set of final
states, and two kinds of moves: those labelled with a symbol of its alphabet, and epsilon
moves, which read nothing.  The epsilon moves form a graph, so that following them is
reachability.

An automaton is built step by step from the empty one.  Naming a state that does not exist yet
creates it and all states below it, and a symbol enters the alphabet with the first move that
carries it.  The closures of single states may be kept with the automaton once they have been
computed; every operation that adds a state or a move drops them.
-/
import RegexAutomata.Alphabet
import RegexAutomata.Graph
import RegexAutomata.Table

namespace RegexAutomata

/-- A nondeterministic automaton with epsilon moves. -/
structure Enfa where
  /-- The number of states. -/
  numStates : Nat
  /-- The start state, if one has been set. -/
  start? : Option Nat
  /-- The final states. -/
  finals : StateSet
  /-- The symbols of the moves. -/
  alphabet : Alphabet
  /-- The moves that carry a symbol. -/
  moves : Table StateSet
  /-- The epsilon moves. -/
  epsilon : Graph
  /-- For each state what can be reached from it by epsilon moves, if that has been computed. -/
  closures? : Option (Array StateSet)

namespace Enfa

/-! ### Building an automaton -/

/-- The automaton without states. -/
def empty : Enfa where
  numStates := 0
  start? := none
  finals := ∅
  alphabet := .empty
  moves := .empty
  epsilon := .empty
  closures? := none

instance : Inhabited Enfa := ⟨empty⟩

/-- Add one state.  Its number is the old number of states. -/
def addState (n : Enfa) : Enfa :=
  { n with numStates := n.numStates + 1, closures? := none }

/-- Create a state and all states below it, as far as they do not exist. -/
def ensureState (n : Enfa) (s : Nat) : Enfa :=
  if s < n.numStates then n else { n with numStates := s + 1, closures? := none }

/-- Add a move that carries a symbol. -/
def addTransition (n : Enfa) (s : Nat) (a : Symbol) (d : Nat) : Enfa :=
  let n := (n.ensureState s).ensureState d
  { n with
    alphabet := n.alphabet.insert a
    moves := n.moves.addEdge s (n.alphabet.idOf a) d
    closures? := none }

/-- Add an epsilon move. -/
def addEpsilon (n : Enfa) (s d : Nat) : Enfa :=
  let n := (n.ensureState s).ensureState d
  { n with epsilon := n.epsilon.addEdge s d, closures? := none }

/-- Make a state the start state. -/
def setStart (n : Enfa) (s : Nat) : Enfa := { n.ensureState s with start? := some s }

/-- Make a state final. -/
def addFinal (n : Enfa) (s : Nat) : Enfa :=
  let n := n.ensureState s
  { n with finals := n.finals.insert s }

/-! ### Moves -/

/-- The destinations of the moves from a state with a label. -/
def destinations (n : Enfa) (s : Nat) : Label → StateSet
  | .symbol id => n.moves.destinations s id
  | .epsilon => n.epsilon.successors s

/-- All labels that moves may carry: the symbols in the order of the alphabet, then epsilon. -/
def labels (n : Enfa) : List Label := n.alphabet.ids.map Label.symbol ++ [.epsilon]

/-- The moves of each state: for each label that occurs, the destinations. -/
def transitionMap (n : Enfa) : List (Nat × List (Label × StateSet)) :=
  (List.range n.numStates).map fun s =>
    (s, n.labels.filterMap fun l =>
      let ds := n.destinations s l
      if ds.isEmpty then none else some (l, ds))

/-- All moves as source, label and destination: by source, then by label, then by
destination. -/
def transitions (n : Enfa) : List (Nat × Label × Nat) :=
  n.transitionMap.flatMap fun row =>
    row.2.flatMap fun entry => entry.2.toList.map fun d => (row.1, entry.1, d)

/-- What is drawn of an automaton: its states, and its moves as source, destination and text of the label. -/
def drawing (n : Enfa) : List Nat × List (Nat × Nat × String) :=
  (List.range n.numStates, n.transitions.map fun e => (e.1, e.2.2, n.alphabet.label e.2.1))

/-- There is a move with a label from one state to another. -/
def Edge (n : Enfa) (s : Nat) (l : Label) (d : Nat) : Prop := d ∈ n.destinations s l

end Enfa

end RegexAutomata
