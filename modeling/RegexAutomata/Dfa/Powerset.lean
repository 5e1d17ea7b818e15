/-
# The powerset construction

The deterministic automaton of a nondeterministic one has sets of states as its states.  It
begins with the closure of the start state and discovers one set after another: the sets are
taken up in the order of their discovery, and from each of them the moves on all symbols, in
the order of the alphabet, may lead to new sets.  A set is numbered when it is discovered.

The empty set, if it is discovered, is the dead state: every move from it leads to it again.
A set is final if it holds a final state.
-/
import RegexAutomata.Dfa.Basic
import RegexAutomata.Enfa.Closure
import RegexAutomata.Numbering

namespace RegexAutomata
namespace Enfa

/-- The sets to which the moves from a set lead, for each symbol in turn. -/
def images (n : Enfa) (S : StateSet) : List StateSet :=
  n.alphabet.ids.map fun a => n.move S (.symbol a)

/-- Take up the discovered sets from the one with number `i` on, at most as many as the first
argument says, and number the sets to which their moves lead. -/
def explore (n : Enfa) : Nat → Nat → Numbering StateSet → Numbering StateSet
  | 0, _, known => known
  | steps + 1, i, known =>
    match known.value? i with
    | none => known
    | some S => explore n steps (i + 1) ((n.images S).foldl .insert known)

/-- All sets that can be discovered from the closure of a state, in the order of their discovery.
There are no more sets than there are sets of states, which bounds the search. -/
def subsets (n : Enfa) (s : Nat) : Numbering StateSet :=
  n.explore (Nat.pow 2 n.numStates) 0 (.ofList [n.closure (StateSet.singleton s)])

/-- The deterministic automaton whose states are numbered sets of states. -/
def ofSubsets (n : Enfa) (sets : Numbering StateSet) : Dfa where
  numStates := sets.size
  start? := some 0
  finals := StateSet.ofList <| (List.range sets.size).filter fun i =>
    (sets.value? i).any (·.intersects n.finals)
  dead? := sets.number? ∅
  alphabet := n.alphabet
  table := Table.tabulate (List.range sets.size) n.alphabet.ids fun i a =>
    sets.numberOf (n.move ((sets.value? i).getD ∅) (.symbol a))
  mapping? := some sets.toList
  labels := Array.range sets.size

/-- The deterministic automaton that accepts the same strings.  Without a start state it has no
states. -/
def determinize (n : Enfa) : Dfa :=
  match n.start? with
  | none => Dfa.ofAlphabet n.alphabet
  | some s =>
    let n := n.cacheClosures
    n.ofSubsets (n.subsets s)

end Enfa
end RegexAutomata
