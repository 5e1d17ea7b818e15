/-
# Minimization move by move

The minimized automaton is built with the operations on automata.  A state is added for each class and the
start state is set.  Then the states of the automaton are visited in order.  A final state makes its class
final, and the first state of a class that is visited sets the moves of the class.  The dead state is created
when it is needed for the first time: for the start state, or for a move that leads to no class.

Arrays are accessed as in `Dfa.minimizeChecked`.
-/
import RegexAutomata.Dfa.Checked

namespace RegexAutomata
namespace Dfa

/-- A minimized automaton that is being built. -/
structure Emitting where
  /-- The minimized automaton so far. -/
  result : Dfa
  /-- For each class whether its moves have been set. -/
  emitted : Array Bool

/-- Add a state for a class, with the label of its least member. -/
def addClass (d m : Dfa) (C : StateSet) : Except MinimizeFault Dfa :=
  match C.min? with
  | some s => do
    let label ← fetch d.labels s
    return m.addState.setLabel m.numStates label
  | none => return m.addState

/-- The class of the start state becomes the start state, and the dead state if it has no class. -/
def startInClass (d : Dfa) (table : Array (Option Nat)) (m : Dfa) : Except MinimizeFault Dfa :=
  match d.start? with
  | some s => do
    let i? ← fetch table s
    return m.startIn i?
  | none => return m

/-- The move of a class on a symbol leads to the class to which the state moves. -/
def emitMove (d : Dfa) (table : Array (Option Nat)) (s i : Nat) (m : Dfa) (a : Nat) :
    Except MinimizeFault Dfa := do
  let j? ← d.targetClass table s a
  return m.connect i a j?

/-- Visit a state.  A final state makes its class final, and the first state of a class that is visited
sets the moves of the class. -/
def visitStepwise (d : Dfa) (table : Array (Option Nat)) (e : Emitting) (s : Nat) :
    Except MinimizeFault Emitting := do
  match ← fetch table s with
  | none => return e
  | some i =>
    let m := if s ∈ d.finals then e.result.addFinal i else e.result
    if ← fetch e.emitted i then return { e with result := m }
    else
      let m ← d.alphabet.ids.foldlM (d.emitMove table s i) m
      let emitted ← alter e.emitted i fun _ => true
      return ⟨m, emitted⟩

/-- The automaton that has classes of states as its states, built move by move. -/
def quotientStepwise (d : Dfa) (classes : List StateSet) : Except MinimizeFault Dfa := do
  let table ← d.classTable classes
  let m ← classes.foldlM d.addClass (ofAlphabet d.alphabet)
  let m ← d.startInClass table m
  let e ← (List.range d.numStates).foldlM (d.visitStepwise table)
    ⟨m, Array.replicate classes.length false⟩
  match ← d.classMapping classes e.result.numStates with
  | some mapping => return e.result.setMapping mapping
  | none => return e.result

/-- The minimized automaton, built move by move, unless an access is out of bounds. -/
def minimizeStepwise (d : Dfa) : Except MinimizeFault Dfa :=
  if d.numStates = 0 ∨ d.start? = none then .ok (ofAlphabet d.alphabet)
  else do
    let classes ← d.refineUntilSame (d.live.size + 1) d.initialClasses
    d.quotientStepwise classes

end Dfa
end RegexAutomata
