/-
# Files of deterministic automata

An automaton is written with a record for each state but the dead one, which only occurs as a
destination.  If two states have one name, there is one record, at the place of the first and with
the content of the last.

When a file is read, a record under the name of the dead state is ignored.  The labels of all
records are read first, in order, and make up the alphabet.  Then each record must have a
destination for every symbol, and each destination must have a record or be the dead state; last,
the same is asked of the start state.  The dead state is numbered behind all others and is there
only if it is named.

A state keeps the label that its name is made of.  The other states get the least labels that no
name in the file is made of, in order, so names stay different.
-/
import RegexAutomata.Dfa.Basic
import RegexAutomata.File.Text

namespace RegexAutomata

/-- The records of a file, without the one under the name of the dead state. -/
def AutomatonFile.records {α : Type} (f : AutomatonFile α) : List (String × StateRecord α) :=
  f.states.entries.filter (·.1 ≠ deadName)

namespace Dfa

/-! ### Writing -/

/-- The record of a state: the moves on symbols of the alphabet. -/
def recordOf (d : Dfa) (s : Nat) : StateRecord String where
  isFinal := decide (s ∈ d.finals)
  transitions := NameMap.ofList <| d.alphabet.ids.filterMap fun a =>
    (d.step s a).map fun t => (d.alphabet.label (.symbol a), d.stateName t)

/-- The content of the file of an automaton.  Without a start state its name is empty. -/
def toFile (d : Dfa) : DfaFile where
  start := (d.start?.map d.stateName).getD ""
  states := NameMap.ofList <|
    ((List.range d.numStates).filter fun s => d.dead? ≠ some s).map fun s =>
      (d.stateName s, d.recordOf s)

/-! ### Reading -/

/-- The symbols of the labels of all records, in order. -/
def symbolsOfLabels (records : List (String × StateRecord String)) :
    Except FileError (List Symbol) :=
  (records.flatMap fun entry => entry.2.transitions.names).mapM fun label =>
    match Symbol.ofLabel? label with
    | some a => .ok a
    | none => .error (.badSymbol label)

/-- Give each state its own label, or the next of the free ones. -/
def assignLabels : List (Option Nat) → List Nat → List Nat
  | [], _ => []
  | some label :: own, free => label :: assignLabels own free
  | none :: own, free => free.headD 0 :: assignLabels own free.tail

/-- The labels of the states with given names.  Among as many numbers as there are names there are
enough free ones. -/
def labelsOfNames (names : List String) : List Nat :=
  let own := names.map labelOfName?
  assignLabels own ((List.range names.length).filter fun label => some label ∉ own)

/-- The number of the state that a destination names: the dead state is numbered behind the states
with records. -/
def targetOfName (names : List String) (name : String) : Except FileError Nat :=
  if name = deadName then .ok names.length
  else
    match names.idxOf? name with
    | some s => .ok s
    | none => .error (.unknownState name)

/-- The destinations of a state on each symbol in turn. -/
def rowOfRecord (names : List String) (alphabet : Alphabet)
    (entry : String × StateRecord String) : Except FileError (List Nat) :=
  alphabet.symbols.mapM fun a =>
    match entry.2.transitions.get? a.label with
    | none => .error (.missingTransition entry.1 a.label)
    | some name => targetOfName names name

/-- The automaton with given rows of destinations, one for each state.  The number of rows stands for
the dead state, which is there only if the start or some destination needs it. -/
def ofRows (alphabet : Alphabet) (rows : List (List Nat)) (start : Nat) (isFinal : List Bool)
    (labels : List Nat) : Dfa :=
  let dead := rows.length
  let needsDead := start = dead ∨ rows.any (·.contains dead) = true
  let states := List.range (if needsDead then dead + 1 else dead)
  { numStates := states.length
    start? := some start
    finals := StateSet.ofList <| (List.range dead).filter fun s => (isFinal[s]?).getD false
    dead? := if needsDead then some dead else none
    alphabet := alphabet
    table := Table.tabulate states alphabet.ids fun s a => ((rows[s]?).bind (·[a]?)).getD dead
    mapping? := none
    labels := (labels ++ if needsDead then [dead] else []).toArray }

/-- The automaton that a file describes. -/
def ofFile (f : DfaFile) : Except FileError Dfa := do
  let names := f.records.map Prod.fst
  let alphabet := Alphabet.ofList (← symbolsOfLabels f.records)
  let rows ← f.records.mapM (rowOfRecord names alphabet)
  let start ←
    match targetOfName names f.start with
    | .ok s => .ok s
    | .error _ => .error (.missingStart f.start)
  return ofRows alphabet rows start (f.records.map (·.2.isFinal)) (labelsOfNames names)

end Dfa
end RegexAutomata
