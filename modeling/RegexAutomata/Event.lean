/-
# The log of a compilation

What happens on the way from an expression to its minimized automaton is a list of events.  An
event has a level and a message.
-/
import RegexAutomata.Dfa.Minimal
import RegexAutomata.Regex.Postfix

namespace RegexAutomata

/-- A text between quotation marks, with a backslash before each quotation mark and each backslash
in it. -/
def quoted (text : String) : String :=
  String.ofList <|
    '\x22' :: (text.toList.flatMap fun c =>
      if c = '\x22' ∨ c = '\\' then ['\\', c] else [c]) ++ ['\x22']

/-- How much detail an event is part of. -/
inductive Level where
  /-- Summaries. -/
  | debug
  /-- Single steps. -/
  | trace
deriving DecidableEq, Repr

/-- The word for a level. -/
def Level.text : Level → String
  | debug => "DEBUG"
  | trace => "TRACE"

/-- A thing that happens while an expression is compiled. -/
inductive Event where
  /-- An expression has been read. -/
  | parsed (source : String) (expression : Postfix)
  /-- The nondeterministic automaton has been built. -/
  | assembled (states symbols : Nat)
  /-- A state of the deterministic automaton has been discovered. -/
  | discovered (state : Nat) (set : StateSet)
  /-- The deterministic automaton is complete. -/
  | determinized (before after : Nat)
  /-- A round of refinement has ended. -/
  | refined (round classes : Nat)
  /-- The deterministic automaton has been minimized. -/
  | minimized (before after rounds : Nat)
  /-- All automata of an expression are complete. -/
  | compiled (source : String) (nfa dfa minimal : Nat)
deriving DecidableEq

namespace Event

/-- The level of an event. -/
def level : Event → Level
  | discovered .. | refined .. => .trace
  | _ => .debug

/-- The parts of a message. -/
def parts : Event → List String
  | parsed source expression =>
    ["parsed ", quoted source, " into postfix ", expression.text, " (", expression.length.repr,
      " tokens)"]
  | assembled states symbols =>
    ["thompson construction: ", states.repr, " states, ", symbols.repr, " symbols"]
  | discovered state set => ["discovered DFA state ", state.repr, " = ", set.text]
  | determinized before after =>
    ["subset construction: ", before.repr, " NFA states -> ", after.repr, " DFA states"]
  | refined round classes => ["refinement round ", round.repr, ": ", classes.repr, " classes"]
  | minimized before after rounds =>
    ["minimized ", before.repr, " states into ", after.repr, " after ", rounds.repr, " rounds"]
  | compiled source nfa dfa minimal =>
    ["compiled ", quoted source, ": nfa=", nfa.repr, " dfa=", dfa.repr, " minimized=", minimal.repr]

/-- The message of an event. -/
def message (e : Event) : String := String.join e.parts

end Event

/-- The events of a powerset construction: each state but the first and the dead one is reported
with its set, in order, and then the sizes. -/
def Dfa.powersetEvents (d : Dfa) (before : Nat) : List Event :=
  (((d.mapping?.getD []).zipIdx.drop 1).filter (!·.1.isEmpty)).map
      (fun entry => .discovered entry.2 entry.1) ++
    [.determinized before d.numStates]

/-- The events of a minimization: each round, numbered from one, and then the sizes.  If there was
no round, nothing is reported. -/
def Dfa.Minimization.events (m : Dfa.Minimization) (before : Nat) : List Event :=
  if m.classCounts.isEmpty then []
  else
    (m.classCounts.zipIdx 1).map (fun entry => .refined entry.2 entry.1) ++
      [.minimized before m.result.numStates m.classCounts.length]

end RegexAutomata
