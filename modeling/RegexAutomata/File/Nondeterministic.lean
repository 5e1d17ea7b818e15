/-
# Files of nondeterministic automata

An automaton is written with a record for each state, in order; the name of a state is made of its
number.  Labels stand in the order of the alphabet, epsilon last.

When a file is read, the states are numbered in the order of the records, whatever their names.  The
records are read in order, and in each record the labels in order: a label must be epsilon or that
of a symbol, and then each destination must have a record.  Whether the start state has one is
checked last.  A symbol enters the alphabet with its first move, so a label without destinations
adds none.
-/
import RegexAutomata.Enfa.Basic
import RegexAutomata.File.Text
import RegexAutomata.StateName

namespace RegexAutomata
namespace Enfa

/-! ### Writing -/

/-- The content of the file of an automaton.  Without a start state its name is empty. -/
def toFile (n : Enfa) : EnfaFile where
  start := (n.start?.map nameOfLabel).getD ""
  states := NameMap.ofList <| n.transitionMap.map fun row =>
    (nameOfLabel row.1,
      { isFinal := decide (row.1 ∈ n.finals)
        transitions := NameMap.ofList <| row.2.map fun entry =>
          (n.alphabet.label entry.1, entry.2.toList.map nameOfLabel) })

/-! ### Reading -/

/-- The number of the state with a given name. -/
def stateOfName (names : List String) (name : String) : Except FileError Nat :=
  match names.idxOf? name with
  | some s => .ok s
  | none => .error (.unknownState name)

/-- The symbol of a label, or nothing if the label is that of epsilon. -/
def symbolOfLabel (label : String) : Except FileError (Option Symbol) :=
  if label = epsilonLabel then .ok none
  else
    match Symbol.ofLabel? label with
    | some a => .ok (some a)
    | none => .error (.badSymbol label)

/-- Add the moves from a state under one label. -/
def addMoves (names : List String) (s : Nat) (n : Enfa) (entry : String × List String) :
    Except FileError Enfa := do
  let symbol? ← symbolOfLabel entry.1
  entry.2.foldlM (fun n name => do
    let d ← stateOfName names name
    match symbol? with
    | some a => return n.addTransition s a d
    | none => return n.addEpsilon s d) n

/-- Add what the record of a state says. -/
def addRecord (names : List String) (n : Enfa) (entry : String × StateRecord (List String)) :
    Except FileError Enfa := do
  let s ← stateOfName names entry.1
  let n := if entry.2.isFinal then n.addFinal s else n
  entry.2.transitions.entries.foldlM (addMoves names s) n

/-- The automaton with a given number of states and no moves. -/
def ofStates (count : Nat) : Enfa := { empty with numStates := count }

/-- The automaton that a file describes. -/
def ofFile (f : EnfaFile) : Except FileError Enfa := do
  let names := f.states.names
  let n ← f.states.entries.foldlM (addRecord names) (ofStates f.states.size)
  match names.idxOf? f.start with
  | some s => return n.setStart s
  | none => .error (.missingStart f.start)

end Enfa
end RegexAutomata
