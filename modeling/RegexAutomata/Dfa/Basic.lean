/-
# Deterministic automata

A deterministic automaton has states `0, 1, …, numStates - 1`, at most one start state, a set of
final states and at most one move from each state on each symbol id.  It may have a *dead state*,
which takes over for missing moves: it is created with a move to itself on every symbol, and
gets one on every symbol that is added later.

States and symbol ids are not created on demand.  A move, a final state or the start state may be
given before the states and symbols they name exist; they count from the moment those do.

Each state has a *label*, a number that its name is made of.  The label is the number of the state
itself, unless the state stands for one of another automaton and keeps its label.
-/
import RegexAutomata.Alphabet
import RegexAutomata.Graph
import RegexAutomata.StateName
import RegexAutomata.Table

namespace RegexAutomata

/-- A deterministic automaton, possibly with moves missing. -/
@[ext]
structure Dfa where
  /-- The number of states, the dead state included. -/
  numStates : Nat
  /-- The start state, if one has been set. -/
  start? : Option Nat
  /-- The final states. -/
  finals : StateSet
  /-- The dead state, if there is one. -/
  dead? : Option Nat
  /-- The symbols of the moves. -/
  alphabet : Alphabet
  /-- The destination of each move, by source and symbol id. -/
  table : Table Nat
  /-- For each state the states of a nondeterministic automaton that it stands for, if known. -/
  mapping? : Option (List StateSet)
  /-- The label of each state. -/
  labels : Array Nat

namespace Dfa

/-! ### Building an automaton -/

/-- The automaton over an alphabet that has no states. -/
def ofAlphabet (alphabet : Alphabet) : Dfa where
  numStates := 0
  start? := none
  finals := ∅
  dead? := none
  alphabet := alphabet
  table := .empty
  mapping? := none
  labels := #[]

/-- The automaton without states and symbols. -/
def empty : Dfa := ofAlphabet .empty

instance : Inhabited Dfa := ⟨empty⟩

/-- Add one state.  Its number is the old number of states, and so is its label. -/
def addState (d : Dfa) : Dfa :=
  { d with numStates := d.numStates + 1, labels := d.labels.push d.numStates }

/-- Let a state move to itself on each of some symbol ids. -/
def loop (table : Table Nat) (s : Nat) (ids : List Nat) : Table Nat :=
  ids.foldl (fun t a => t.set s a s) table

/-- Create the dead state, unless there is one. -/
def ensureDead (d : Dfa) : Dfa :=
  match d.dead? with
  | some _ => d
  | none =>
    { d.addState with
      dead? := some d.numStates
      table := loop d.table d.numStates d.alphabet.ids }

/-- The number that the dead state has, or would get from `ensureDead`. -/
def deadState (d : Dfa) : Nat := d.dead?.getD d.numStates

/-- Add a symbol to the alphabet, unless it is there.  The dead state moves to itself on it. -/
def addSymbol (d : Dfa) (a : Symbol) : Dfa :=
  { d with
    alphabet := d.alphabet.insert a
    table :=
      match d.dead? with
      | some dead => d.table.set dead (d.alphabet.idOf a) dead
      | none => d.table }

/-- Make a state the start state. -/
def setStart (d : Dfa) (s : Nat) : Dfa := { d with start? := some s }

/-- Make a state final. -/
def addFinal (d : Dfa) (s : Nat) : Dfa := { d with finals := d.finals.insert s }

/-- Set the destination of a state on a symbol id. -/
def addTransition (d : Dfa) (s a t : Nat) : Dfa := { d with table := d.table.set s a t }

/-- Give a state another label. -/
def setLabel (d : Dfa) (s label : Nat) : Dfa :=
  { d with labels := d.labels.setIfInBounds s label }

/-- Set the destination of a state on a symbol id.  If none is given it is the dead state, which is created
unless there is one. -/
def connect (d : Dfa) (s a : Nat) : Option Nat → Dfa
  | some t => d.addTransition s a t
  | none => d.ensureDead.addTransition s a d.deadState

/-- Make a state the start state.  If none is given it is the dead state, which is created unless there is
one. -/
def startIn (d : Dfa) : Option Nat → Dfa
  | some s => d.setStart s
  | none => d.ensureDead.setStart d.deadState

/-- Record the states of a nondeterministic automaton that each state stands for. -/
def setMapping (d : Dfa) (mapping : List StateSet) : Dfa := { d with mapping? := some mapping }

/-! ### Reading off an automaton -/

/-- The destination of a state on a symbol id. -/
def step (d : Dfa) (s a : Nat) : Option Nat := d.table.get? s a

/-- The name of a state: `PHI` for the dead state, and `S` with the label for any other. -/
def stateName (d : Dfa) (s : Nat) : String :=
  if d.dead? = some s then deadName else nameOfLabel ((d.labels[s]?).getD s)

/-- Whether every state has a move on every symbol. -/
def isTotal (d : Dfa) : Bool :=
  (List.range d.numStates).all fun s => d.alphabet.ids.all fun a => (d.step s a).isSome

/-- All moves between states on symbols as source, symbol id and destination: by source, then by
symbol id. -/
def transitions (d : Dfa) : List (Nat × Nat × Nat) :=
  (List.range d.numStates).flatMap fun s =>
    d.alphabet.ids.filterMap fun a => (d.step s a).map fun t => (s, a, t)

/-- What is drawn of an automaton: its states, and its moves as source, destination and text of the symbol. -/
def drawing (d : Dfa) : List Nat × List (Nat × Nat × String) :=
  (List.range d.numStates,
    d.transitions.map fun e => (e.1, e.2.2, d.alphabet.label (.symbol e.2.1)))

end Dfa

end RegexAutomata
