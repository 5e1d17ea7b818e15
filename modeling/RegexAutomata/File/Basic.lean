/-
# Automaton files

A file describes an automaton by names: the name of its start state, and under the name of each
state a record.  A record says whether the state is final and gives, under each label, the
destinations of its moves: a list of names for a nondeterministic automaton, one name for a
deterministic one.

The names and labels of a file may be any texts.  Whether they make sense is the question of
`FileError`.
-/
import RegexAutomata.File.NameMap

namespace RegexAutomata

/-- What a file says about one state. -/
structure StateRecord (α : Type) where
  /-- Whether the state is final. -/
  isFinal : Bool
  /-- The destinations under each label. -/
  transitions : NameMap α

/-- The content of a file. -/
structure AutomatonFile (α : Type) where
  /-- The name of the start state. -/
  start : String
  /-- The records of the states. -/
  states : NameMap (StateRecord α)

/-- The content of a file of a nondeterministic automaton. -/
abbrev EnfaFile := AutomatonFile (List String)

/-- The content of a file of a deterministic automaton. -/
abbrev DfaFile := AutomatonFile String

/-- Why a file describes no automaton. -/
inductive FileError where
  /-- The start state has no record. -/
  | missingStart (name : String)
  /-- A destination has no record. -/
  | unknownState (name : String)
  /-- A label stands for no symbol. -/
  | badSymbol (label : String)
  /-- A state of a deterministic automaton has no move under a label. -/
  | missingTransition (state label : String)
deriving DecidableEq, Repr

/-- The parts of a message. -/
def FileError.parts : FileError → List String
  | missingStart name => ["automaton file has no start state `", name, "`"]
  | unknownState name => ["automaton file references unknown state `", name, "`"]
  | badSymbol label => ["automaton file has an invalid transition label `", label, "`"]
  | missingTransition state label =>
    ["state `", state, "` is missing a transition on `", label, "`"]

/-- The message for a file that describes no automaton. -/
def FileError.message (e : FileError) : String := String.join e.parts

end RegexAutomata
