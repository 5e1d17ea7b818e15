/-
# Compilation with its log

The stages of a compilation report what they do at the place where they do it: a set of states is reported
when it gets its number, and a round of refinement when its classes have been counted.  Here each stage is run
together with its log.  Without the log the stages are those that `compile` goes through.
-/
import RegexAutomata.Compile

namespace RegexAutomata

/-- A value, and what has been reported on the way to it. -/
@[ext]
structure Logged (α : Type) where
  /-- The value. -/
  value : α
  /-- The reports in order. -/
  events : List Event

namespace Logged

instance : Monad Logged where
  pure a := ⟨a, []⟩
  bind x f := ⟨(f x.value).value, x.events ++ (f x.value).events⟩

variable {α β : Type}

@[simp] theorem value_pure (a : α) : (pure a : Logged α).value = a := rfl

@[simp] theorem events_pure (a : α) : (pure a : Logged α).events = [] := rfl

@[simp] theorem value_bind (x : Logged α) (f : α → Logged β) :
    (x >>= f).value = (f x.value).value := rfl

@[simp] theorem events_bind (x : Logged α) (f : α → Logged β) :
    (x >>= f).events = x.events ++ (f x.value).events := rfl

end Logged

/-- Report an event. -/
def report (e : Event) : Logged Unit := ⟨(), [e]⟩

/-! ### Reading and assembling -/

/-- The postfix form of an expression is reported; that there is none is not. -/
def Regex.parseLogged (text : String) : Logged (Except RegexError Postfix) :=
  match parse text with
  | .error e => return .error e
  | .ok p => do
    report (.parsed text p)
    return .ok p

/-- The automaton of an expression is reported by its sizes. -/
def Enfa.ofPostfixLogged (p : Postfix) : Logged Enfa := do
  let n := ofPostfix p
  report (.assembled n.numStates n.alphabet.size)
  return n

/-! ### Determinizing -/

namespace Enfa

/-- Give a set a number, unless it has one.  A new set is reported, but the empty set is not. -/
def discover (known : Numbering StateSet) (S : StateSet) : Logged (Numbering StateSet) :=
  if (known.number? S).isSome then return known
  else if S.isEmpty then return known.insert S
  else do
    report (.discovered known.size S)
    return known.insert S

/-- Take up the discovered sets from the one with number `i` on, at most as many as the first argument says,
and give numbers to the sets to which their moves lead. -/
def exploreLogged (n : Enfa) : Nat → Nat → Numbering StateSet → Logged (Numbering StateSet)
  | 0, _, known => return known
  | steps + 1, i, known =>
    match known.value? i with
    | none => return known
    | some S => do
      let known ← (n.images S).foldlM discover known
      exploreLogged n steps (i + 1) known

/-- The first set has its number from the beginning and is not reported. -/
def subsetsLogged (n : Enfa) (s : Nat) : Logged (Numbering StateSet) :=
  n.exploreLogged (Nat.pow 2 n.numStates) 0 (.ofList [n.closure (StateSet.singleton s)])

/-- The sizes of both automata are reported in the end.  Without a start state nothing is. -/
def determinizeLogged (n : Enfa) : Logged Dfa :=
  match n.start? with
  | none => return Dfa.ofAlphabet n.alphabet
  | some s => do
    let n := n.cacheClosures
    let sets ← n.subsetsLogged s
    let d := n.ofSubsets sets
    report (.determinized n.numStates d.numStates)
    return d

end Enfa

/-! ### Minimizing -/

namespace Dfa

/-- Refine classes until nothing changes, at most as often as the first argument says, and report the number of
classes after each round.  The result is the number of rounds, those before included, and the classes. -/
def refineLogged (d : Dfa) : Nat → Nat → List StateSet → Logged (Nat × List StateSet)
  | 0, rounds, classes => return (rounds, classes)
  | fuel + 1, rounds, classes => do
    let refined := d.refine classes
    report (.refined (rounds + 1) refined.length)
    if samePartition classes refined then return (rounds + 1, classes)
    else refineLogged d fuel (rounds + 1) refined

/-- The sizes of both automata and the number of rounds are reported in the end.  Without states or a start
state nothing is. -/
def minimizeLogged (d : Dfa) : Logged Dfa :=
  if d.numStates = 0 ∨ d.start? = none then return ofAlphabet d.alphabet
  else do
    let refined ← d.refineLogged (d.live.size + 1) 0 d.initialClasses
    let m := d.quotient refined.2
    report (.minimized d.numStates m.numStates refined.1)
    return m

end Dfa

/-! ### Compiling -/

/-- The automata of an expression. -/
structure Automata where
  /-- The nondeterministic automaton, with its closures. -/
  nfa : Enfa
  /-- The deterministic automaton. -/
  dfa : Dfa
  /-- The minimized automaton. -/
  minimized : Dfa

/-- The automata that have been built. -/
def Compiled.automata (c : Compiled) : Automata := ⟨c.nfa, c.dfa, c.minimized⟩

/-- Build all automata of an expression, or give the reason why it is refused. -/
def compileLogged (text : String) : Logged (Except RegexError Automata) := do
  match ← Regex.parseLogged text with
  | .error e => return .error e
  | .ok p => do
    let n ← Enfa.ofPostfixLogged p
    let n := n.cacheClosures
    let d ← n.determinizeLogged
    let m ← d.minimizeLogged
    report (.compiled text n.numStates d.numStates m.numStates)
    return .ok ⟨n, d, m⟩

end RegexAutomata
