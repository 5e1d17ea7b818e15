/-
# Minimization with checked accesses

Minimization keeps what it knows in arrays: the class of each state, the label of each state, the moves
that have been emitted for each class, the states that each class stands for.  But a move, a final state or
the start state may name a number that is no state, and then an array may be accessed at an index that is
not below its size.

Here every access is made where it comes up, and minimization fails with the first that is out of bounds.
Only in refinement a destination that is no state is looked up with care, and counts as one without a
class.  Where no access is out of bounds the result is that of `Dfa.minimize`.
-/
import RegexAutomata.Dfa.Minimal

namespace RegexAutomata

/-- Why minimization fails. -/
inductive MinimizeFault where
  /-- An array of some size is accessed at an index that is not below the size. -/
  | outOfBounds (size index : Nat)
  /-- Refinement has not come to an end in the rounds it was given. -/
  | unfinished
deriving DecidableEq, Repr

/-! ### Accesses -/

section

variable {α : Type}

/-- The entry of an array at an index. -/
def fetch (xs : Array α) (i : Nat) : Except MinimizeFault α :=
  match xs[i]? with
  | some x => .ok x
  | none => .error (.outOfBounds xs.size i)

/-- Change the entry of an array at an index. -/
def alter (xs : Array α) (i : Nat) (change : α → α) : Except MinimizeFault (Array α) := do
  let x ← fetch xs i
  return xs.setIfInBounds i (change x)

/-- Change entries of an array, one after the other. -/
def alterAll (xs : Array α) (changes : List (Nat × (α → α))) : Except MinimizeFault (Array α) :=
  changes.foldlM (fun xs change => alter xs change.1 change.2) xs

end

/-- The members of classes, each with the number of its class. -/
def members (classes : List StateSet) : List (Nat × Nat) :=
  classes.zipIdx.flatMap fun entry => entry.1.toList.map fun s => (s, entry.2)

namespace Dfa

/-! ### Refinement -/

/-- For each state the number of its class, if it has one. -/
def classTable (d : Dfa) (classes : List StateSet) : Except MinimizeFault (Array (Option Nat)) :=
  alterAll (Array.replicate d.numStates none)
    ((members classes).map fun member => (member.1, fun _ => some member.2))

/-- Divide each class by the classes to which the moves of its members lead. -/
def refineChecked (d : Dfa) (classes : List StateSet) : Except MinimizeFault (List StateSet) := do
  let table ← d.classTable classes
  return classes.flatMap <| StateSet.splitBy fun s =>
    d.alphabet.ids.map fun a => (d.step s a).bind fun t => (table[t]?).join

/-- Refine classes until a round changes nothing. -/
def refineUntilSame (d : Dfa) : Nat → List StateSet → Except MinimizeFault (List StateSet)
  | 0, _ => .error .unfinished
  | rounds + 1, classes => do
    let refined ← d.refineChecked classes
    if samePartition classes refined then return classes
    else refineUntilSame d rounds refined

/-! ### Emission -/

/-- What is known of the classes when some of the states have been visited. -/
structure Emission where
  /-- For each class the classes to which its moves lead, once the moves have been emitted. -/
  rows : Array (Option (List (Option Nat)))
  /-- The classes in which a final state has been found. -/
  finals : StateSet

/-- The class to which the moves of a class on a symbol lead, if they lead to one. -/
def Emission.target? (e : Emission) (i a : Nat) : Option Nat :=
  ((e.rows[i]?).join.bind (·[a]?)).join

/-- The class of the destination of a state on a symbol, if it has one. -/
def targetClass (d : Dfa) (table : Array (Option Nat)) (s a : Nat) :
    Except MinimizeFault (Option Nat) :=
  match d.step s a with
  | some t => fetch table t
  | none => .ok none

/-- Visit a state.  A final state makes its class final, and the first state of a class that is visited
emits the moves of the class. -/
def visit (d : Dfa) (table : Array (Option Nat)) (e : Emission) (s : Nat) :
    Except MinimizeFault Emission := do
  match ← fetch table s with
  | none => return e
  | some i =>
    let finals := if s ∈ d.finals then e.finals.insert i else e.finals
    match ← fetch e.rows i with
    | some _ => return { e with finals := finals }
    | none =>
      let row ← d.alphabet.ids.mapM (d.targetClass table s)
      let rows ← alter e.rows i fun _ => some row
      return ⟨rows, finals⟩

/-- Visit all states in order. -/
def emit (d : Dfa) (table : Array (Option Nat)) (count : Nat) : Except MinimizeFault Emission :=
  (List.range d.numStates).foldlM (d.visit table) ⟨Array.replicate count none, ∅⟩

/-! ### The minimized automaton -/

/-- The label of a class is that of its least member. -/
def classLabel (d : Dfa) (classes : List StateSet) (i : Nat) : Except MinimizeFault Nat :=
  match representative? classes i with
  | some s => fetch d.labels s
  | none => .ok i

/-- The class of the start state, if it has one. -/
def startClass (d : Dfa) (table : Array (Option Nat)) : Except MinimizeFault (Option Nat) :=
  match d.start? with
  | some s => fetch table s
  | none => .ok none

/-- For each of a number of states, the first of which are the classes, what the members of the class
stand for. -/
def classMapping (d : Dfa) (classes : List StateSet) (count : Nat) :
    Except MinimizeFault (Option (List StateSet)) :=
  match d.mapping? with
  | some mapping => do
    let sets ← alterAll (Array.replicate count ∅)
      ((members classes).map fun member => (member.2, (·.union (mapping.getD member.1 ∅))))
    return some sets.toList
  | none => .ok none

/-- The automaton that has classes of states as its states. -/
def quotientChecked (d : Dfa) (classes : List StateSet) : Except MinimizeFault Dfa := do
  let size := classes.length
  let table ← d.classTable classes
  let labels ← (List.range size).mapM (d.classLabel classes)
  let startClass? ← d.startClass table
  let emission ← d.emit table size
  let needsDead : Bool := startClass?.isNone ||
    (List.range size).any fun i => d.alphabet.ids.any fun a => (emission.target? i a).isNone
  let numStates := if needsDead then size + 1 else size
  let mapping? ← d.classMapping classes numStates
  return {
    numStates := numStates
    start? := some (startClass?.getD size)
    finals := emission.finals
    dead? := if needsDead then some size else none
    alphabet := d.alphabet
    table := Table.tabulate (List.range numStates) d.alphabet.ids fun i a =>
      (emission.target? i a).getD size
    mapping? := mapping?
    labels := (labels ++ if needsDead then [size] else []).toArray }

/-- The minimized automaton, unless an access is out of bounds.  Without states or a start state no
array is accessed, and the result has no states. -/
def minimizeChecked (d : Dfa) : Except MinimizeFault Dfa :=
  if d.numStates = 0 ∨ d.start? = none then .ok (ofAlphabet d.alphabet)
  else do
    let classes ← d.refineUntilSame (d.live.size + 1) d.initialClasses
    d.quotientChecked classes

end Dfa
end RegexAutomata
