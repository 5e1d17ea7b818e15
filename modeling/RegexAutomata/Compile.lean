/-
# Compiling regular expressions

An expression is read, made into a nondeterministic automaton, determinized and minimized.  Only
reading can fail.  The log is determined by what has been built, and an expression that is refused
leaves none.
-/
import RegexAutomata.Dfa.Powerset
import RegexAutomata.Enfa.Thompson
import RegexAutomata.Event
import RegexAutomata.Regex.Parse

namespace RegexAutomata

/-- Everything that is built for an expression. -/
structure Compiled where
  /-- The expression. -/
  source : String
  /-- Its postfix form. -/
  expression : Postfix
  /-- The nondeterministic automaton, with its closures. -/
  nfa : Enfa
  /-- The deterministic automaton. -/
  dfa : Dfa
  /-- The minimized automaton and how it was found. -/
  minimization : Dfa.Minimization

namespace Compiled

/-- The minimized automaton. -/
def minimized (c : Compiled) : Dfa := c.minimization.result

/-- What happened, in order. -/
def events (c : Compiled) : List Event :=
  [.parsed c.source c.expression, .assembled c.nfa.numStates c.nfa.alphabet.size] ++
    c.dfa.powersetEvents c.nfa.numStates ++
    c.minimization.events c.dfa.numStates ++
    [.compiled c.source c.nfa.numStates c.dfa.numStates c.minimized.numStates]

end Compiled

/-- Build all automata of an expression, or give the reason why it is refused. -/
def compile (text : String) : Except RegexError Compiled := do
  let expression ← Regex.parse text
  let nfa := (Enfa.ofPostfix expression).cacheClosures
  let dfa := nfa.determinize
  return ⟨text, expression, nfa, dfa, dfa.minimization⟩

end RegexAutomata
