/-
# Automata as texts

An automaton is written as the text of its file.  A text is read back in two steps, either of which
may fail: the text must have the shape of a file, and the file must describe an automaton.
-/
import RegexAutomata.File.Deterministic
import RegexAutomata.File.Nondeterministic

namespace RegexAutomata

/-- Why a text describes no automaton. -/
inductive ReadError where
  /-- The text is not that of a file. -/
  | text (fault : Json.Fault)
  /-- The file describes no automaton. -/
  | content (error : FileError)
deriving DecidableEq, Repr

/-- The text of a nondeterministic automaton. -/
def Enfa.text (n : Enfa) : String := n.toFile.text

/-- The nondeterministic automaton that a text describes. -/
def Enfa.ofText (text : String) : Except ReadError Enfa :=
  match AutomatonFile.ofText text with
  | .error fault => .error (.text fault)
  | .ok file => (ofFile file).mapError .content

/-- The text of a deterministic automaton. -/
def Dfa.text (d : Dfa) : String := d.toFile.text

/-- The deterministic automaton that a text describes. -/
def Dfa.ofText (text : String) : Except ReadError Dfa :=
  match AutomatonFile.ofText text with
  | .error fault => .error (.text fault)
  | .ok file => (ofFile file).mapError .content

end RegexAutomata
