/-
# The powerset construction with a worklist

The deterministic automaton is built move by move.  Sets of states that are not empty get a state when they
come up for the first time; they are registered with it, and wait until they are taken up in turn.  Taking up
a set connects its state on each symbol with the state of the image.  The empty set is not registered: a move
that leads to it leads to the dead state, which is created when the first such move is found.
-/
import RegexAutomata.Dfa.Powerset

namespace RegexAutomata
namespace Enfa

/-- A powerset construction that is under way. -/
structure Construction where
  /-- The deterministic automaton so far. -/
  result : Dfa
  /-- The sets that have a state, in order, each with its state. -/
  registry : List (StateSet × Nat)
  /-- The sets that have not been taken up, each with its state. -/
  waiting : List (StateSet × Nat)

namespace Construction

/-- The state of a set, if it has been registered. -/
def state? (c : Construction) (S : StateSet) : Option Nat :=
  (c.registry.find? (·.1 = S)).map Prod.snd

/-- Add a state for a set, which is final if a member of the set is. -/
def register (c : Construction) (finals S : StateSet) : Construction where
  result :=
    let d := c.result.addState
    if S.intersects finals then d.addFinal c.result.numStates else d
  registry := c.registry ++ [(S, c.result.numStates)]
  waiting := c.waiting ++ [(S, c.result.numStates)]

/-- Set a move.  If none is given, it leads to the dead state. -/
def connect (c : Construction) (s a : Nat) (t? : Option Nat) : Construction :=
  { c with result := c.result.connect s a t? }

/-- The registered sets, each at the place of its state. -/
def mapping (c : Construction) : List StateSet :=
  c.registry.foldl (fun sets entry => sets.set entry.2 entry.1)
    (List.replicate c.result.numStates ∅)

end Construction

/-- Connect a state on a symbol with the state of the image of its set. -/
def follow (n : Enfa) (S : StateSet) (s : Nat) (c : Construction) (a : Nat) : Construction :=
  let next := n.move S (.symbol a)
  if next.isEmpty then c.connect s a none
  else
    match c.state? next with
    | some t => c.connect s a (some t)
    | none => (c.register n.finals next).connect s a (some c.result.numStates)

/-- Take up the first set that waits, if there is one. -/
def takeUp (n : Enfa) (c : Construction) : Construction :=
  match c.waiting with
  | [] => c
  | (S, s) :: rest => n.alphabet.ids.foldl (n.follow S s) { c with waiting := rest }

/-- The construction before its first step: only the closure of the start state has a state. -/
def construction (n : Enfa) (s : Nat) : Construction :=
  let nothing : Construction := ⟨.ofAlphabet n.alphabet, [], []⟩
  let c := nothing.register n.finals (n.closure (StateSet.singleton s))
  { c with result := c.result.setStart nothing.result.numStates }

/-- The construction after a number of steps. -/
def constructionAfter (n : Enfa) (s : Nat) : Nat → Construction
  | 0 => n.construction s
  | k + 1 => n.takeUp (n.constructionAfter s k)

/-- The deterministic automaton that accepts the same strings, built move by move. -/
def determinizeStepwise (n : Enfa) : Dfa :=
  match n.start? with
  | none => Dfa.ofAlphabet n.alphabet
  | some s =>
    let c := n.constructionAfter s (Nat.pow 2 n.numStates)
    c.result.setMapping c.mapping

end Enfa
end RegexAutomata
