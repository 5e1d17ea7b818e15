/-
# Partition refinement by scanning

In a round of refinement the members of a class are scanned in order.  A state joins the first group of its
class whose least member moves, on each symbol, to the same class as the state, and if there is none it
begins a group of its own.  The groups of all classes stand in one list that grows at its end, so a state
must be kept from joining a group of a class before its own.

The loop of refinement goes from round to round until one changes nothing.  It has no bound of its own:
`Dfa.loopAfter` is where it stands after a number of rounds, and once it has stopped it stays as it is.
-/
import RegexAutomata.Dfa.Checked

namespace RegexAutomata

/-- Let a state join the first group whose least member agrees with it, or else begin a group behind all
others. -/
def joinGroup (agrees : Nat → Nat → Bool) : List StateSet → Nat → List StateSet
  | [], s => [StateSet.singleton s]
  | C :: groups, s =>
    if C.min?.any (agrees · s) then C.insert s :: groups else C :: joinGroup agrees groups s

/-- Put the groups of a class behind the groups that are there.  A class of one state is its own group. -/
def scanClass (agrees : Nat → Nat → Bool) (refined : List StateSet) (C : StateSet) : List StateSet :=
  if C.size = 1 then refined ++ [C]
  else
    C.toList.foldl (fun groups s =>
      groups.take refined.length ++ joinGroup agrees (groups.drop refined.length) s) refined

namespace Dfa

/-- The class of the destination of a state on a symbol id, by the table of classes.  There is none if there
is no move, or if the destination is in no class. -/
def destinationClass (d : Dfa) (table : Array (Option Nat)) (s a : Nat) : Option Nat :=
  (d.step s a).bind fun t => (table[t]?).join

/-- Whether two states move to the same class on each symbol. -/
def agree (d : Dfa) (table : Array (Option Nat)) (s t : Nat) : Bool :=
  d.alphabet.ids.all fun a => d.destinationClass table s a == d.destinationClass table t a

/-- A round of refinement: scan the classes one after the other. -/
def refineScanning (d : Dfa) (classes : List StateSet) : Except MinimizeFault (List StateSet) := do
  let table ← d.classTable classes
  return classes.foldl (scanClass (d.agree table)) []

/-- Where the loop of refinement stands. -/
structure Loop where
  /-- The classes. -/
  classes : List StateSet
  /-- The number of rounds so far. -/
  rounds : Nat
  /-- Whether a round has changed nothing. -/
  stopped : Bool
deriving DecidableEq

/-- One more round, unless the loop has stopped. -/
def advance (d : Dfa) (l : Loop) : Except MinimizeFault Loop :=
  if l.stopped then return l
  else do
    let refined ← d.refineScanning l.classes
    if samePartition l.classes refined then return ⟨l.classes, l.rounds + 1, true⟩
    else return ⟨refined, l.rounds + 1, false⟩

/-- Where the loop stands when it has been gone through a number of times. -/
def loopAfter (d : Dfa) : Nat → Except MinimizeFault Loop
  | 0 => return ⟨d.initialClasses, 0, false⟩
  | n + 1 => do d.advance (← d.loopAfter n)

end Dfa
end RegexAutomata
