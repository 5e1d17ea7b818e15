/-
# Minimization

The minimized automaton has the classes of the refinement as its states.  The moves of a class
are those of its least member, whose label the class keeps.  Where a move leads to no class, the
minimized automaton has its own dead state, numbered behind all classes; it has one only if it is
needed.
-/
import RegexAutomata.Dfa.Partition

namespace RegexAutomata
namespace Dfa

/-- The least member of a class, by the number of the class. -/
def representative? (classes : List StateSet) (i : Nat) : Option Nat :=
  (classes[i]?).bind StateSet.min?

/-- The automaton that has classes of states as its states. -/
def quotient (d : Dfa) (classes : List StateSet) : Dfa :=
  let index := classIndex classes
  let size := classes.length
  let ids := d.alphabet.ids
  let target? (i a : Nat) : Option Nat :=
    ((representative? classes i).bind (d.step · a)).bind (index[·]?)
  let startClass? : Option Nat := d.start?.bind (index[·]?)
  let needsDead : Bool :=
    startClass?.isNone || (List.range size).any fun i => ids.any fun a => (target? i a).isNone
  let states := List.range (if needsDead then size + 1 else size)
  { numStates := states.length
    start? := some (startClass?.getD size)
    finals := StateSet.ofList <| (List.range size).filter fun i =>
      (classes.getD i ∅).intersects d.finals
    dead? := if needsDead then some size else none
    alphabet := d.alphabet
    table := Table.tabulate states ids fun i a => (target? i a).getD size
    mapping? := d.mapping?.map fun mapping =>
      states.map fun i => StateSet.unions ((classes.getD i ∅).toList.map (mapping.getD · ∅))
    labels := (states.map fun i =>
      match representative? classes i with
      | some s => (d.labels[s]?).getD s
      | none => i).toArray }

/-- What minimizing an automaton yields. -/
structure Minimization where
  /-- The number of classes after each round of refinement; there is no round if the automaton
  has no states or no start state. -/
  classCounts : List Nat
  /-- The minimized automaton. -/
  result : Dfa

/-- Minimize an automaton, and count the classes.  Without states or a start state the result has
no states. -/
def minimization (d : Dfa) : Minimization :=
  if d.numStates = 0 ∨ d.start? = none then ⟨[], ofAlphabet d.alphabet⟩
  else
    let refined := d.refinement
    ⟨refined.1, d.quotient refined.2⟩

/-- The minimized automaton. -/
def minimize (d : Dfa) : Dfa := d.minimization.result

/-- Whether the members of classes are states of the automaton, so that each state can be given the
number of its class. -/
def canIndex (d : Dfa) (classes : List StateSet) : Bool :=
  classes.all fun C => C.toList.all (· < d.numStates)

/-- The minimized automaton, unless the states to be divided into classes are not all states of the
automaton.  Without states or a start state there are no classes. -/
def minimize? (d : Dfa) : Option Dfa :=
  if d.numStates = 0 ∨ d.start? = none ∨ d.canIndex d.initialClasses = true then some d.minimize
  else none

end Dfa
end RegexAutomata
