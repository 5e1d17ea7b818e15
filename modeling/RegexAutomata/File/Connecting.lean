/-
# Reading a deterministic automaton move by move

The automaton is built with the operations on automata.  The symbols are added label by label, and then the
states record by record.  Next the records are gone through once more and their moves are set one after the
other, and last the start state.  Names are looked up in a map that is filled when the states are added.  The
dead state is created when its name is met for the first time.
-/
import RegexAutomata.File.Deterministic

namespace RegexAutomata
namespace Dfa

/-- Add the symbol of a label. -/
def addLabel (d : Dfa) (label : String) : Except FileError Dfa :=
  match Symbol.ofLabel? label with
  | some a => return d.addSymbol a
  | none => .error (.badSymbol label)

/-- Add a state with a label, and put it under its name. -/
def addNamed (built : Dfa × NameMap Nat) (entry : String × Nat) : Dfa × NameMap Nat :=
  (built.1.addState.setLabel built.1.numStates entry.2, built.2.insert entry.1 built.1.numStates)

/-- The state under a name. -/
def lookUp (states : NameMap Nat) (name : String) : Except FileError Nat :=
  match states.get? name with
  | some s => .ok s
  | none => .error (.unknownState name)

/-- The state that a destination names, or none if it names the dead state. -/
def resolve (states : NameMap Nat) (name : String) : Except FileError (Option Nat) :=
  if name = deadName then return none else some <$> lookUp states name

/-- The state to which a record moves under a label, or none if it is the dead state. -/
def moveOf (states : NameMap Nat) (record : String × StateRecord String) (label : String) :
    Except FileError (Option Nat) :=
  match record.2.transitions.get? label with
  | none => .error (.missingTransition record.1 label)
  | some name => resolve states name

/-- Connect a state on a symbol as its record says. -/
def connectOn (states : NameMap Nat) (record : String × StateRecord String) (s : Nat) (d : Dfa)
    (a : Nat) : Except FileError Dfa := do
  let t? ← moveOf states record (d.alphabet.label (.symbol a))
  return d.connect s a t?

/-- Connect a state on all symbols.  It is final if its record says so. -/
def connectRecord (states : NameMap Nat) (d : Dfa) (record : String × StateRecord String) :
    Except FileError Dfa := do
  let s ← lookUp states record.1
  let d := if record.2.isFinal then d.addFinal s else d
  d.alphabet.ids.foldlM (connectOn states record s) d

/-- Set the start state by its name. -/
def startNamed (states : NameMap Nat) (name : String) (d : Dfa) : Except FileError Dfa :=
  match resolve states name with
  | .ok start? => return d.startIn start?
  | .error _ => .error (.missingStart name)

/-- The automaton that a file describes, built move by move. -/
def ofFileStepwise (f : DfaFile) : Except FileError Dfa := do
  let names := f.records.map Prod.fst
  let d ← (f.records.flatMap fun entry => entry.2.transitions.names).foldlM addLabel empty
  let (d, states) := (names.zip (labelsOfNames names)).foldl addNamed (d, .empty)
  let d ← f.records.foldlM (connectRecord states) d
  startNamed states f.start d

end Dfa
end RegexAutomata
