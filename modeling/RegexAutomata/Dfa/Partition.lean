/-
# Partition refinement

States that no word can tell apart form classes.  The classes are found from above: the
reachable states, the dead state left out, are first divided into final and other states, and
then each class is divided again and again by the classes to which the moves of its members
lead.  A missing move and a move to the dead state count alike: they lead to no class.

Classes are listed.  A class is replaced by its parts at its place in the list, and the parts are
ordered by their least members.
-/
import RegexAutomata.Dfa.Run

namespace RegexAutomata

/-- Divide a list of pairs by their first components, in the order of their first appearance, and
keep the second components. -/
def groupByKey {κ α : Type} [DecidableEq κ] : List (κ × α) → List (List α)
  | [] => []
  | (k, a) :: rest =>
    (a :: (rest.filter (·.1 = k)).map Prod.snd) :: groupByKey (rest.filter (·.1 ≠ k))
termination_by pairs => pairs.length
decreasing_by
  rw [List.length_unattach]
  exact Nat.lt_succ_of_le (Nat.le_trans (List.length_filter_le _ _) (by simp))

/-- Divide a set by the values of a function, in the order of the least members. -/
def StateSet.splitBy {κ : Type} [DecidableEq κ] (key : Nat → κ) (S : StateSet) : List StateSet :=
  (groupByKey (S.toList.map fun s => (key s, s))).map StateSet.ofList

namespace Dfa

/-- For each member of a class the number of its class. -/
def classIndex (classes : List StateSet) : Std.TreeMap Nat Nat :=
  classes.zipIdx.foldl
    (fun index entry => entry.1.toList.foldl (fun index s => index.insert s entry.2) index) ∅

/-- The classes to which the moves of a state lead, for each symbol in turn. -/
def signature (d : Dfa) (index : Std.TreeMap Nat Nat) (s : Nat) : List (Option Nat) :=
  d.alphabet.ids.map fun a => (d.step s a).bind (index[·]?)

/-- Divide each class by the classes to which the moves of its members lead. -/
def refine (d : Dfa) (classes : List StateSet) : List StateSet :=
  let index := classIndex classes
  classes.flatMap (StateSet.splitBy (d.signature index))

/-- Whether two lists of classes hold the same classes, in any order. -/
def samePartition (P Q : List StateSet) : Bool :=
  P.length == Q.length && P.all (· ∈ Q)

/-- Refine classes until nothing changes, at most as often as the first argument says.  The result
is the number of classes after each round, and the classes. -/
def refineRounds (d : Dfa) : Nat → List StateSet → List Nat × List StateSet
  | 0, classes => ([], classes)
  | rounds + 1, classes =>
    let refined := d.refine classes
    if samePartition classes refined then ([refined.length], classes)
    else
      let result := refineRounds d rounds refined
      (refined.length :: result.1, result.2)

/-- The reachable states, the dead state left out. -/
def live (d : Dfa) : StateSet :=
  match d.dead? with
  | some dead => d.reachable.erase dead
  | none => d.reachable

/-- The classes before the first round: the live states that are not final, and those that are. -/
def initialClasses (d : Dfa) : List StateSet :=
  let live := d.live
  [live.diff d.finals, live.inter d.finals].filter (!·.isEmpty)

/-- The number of classes after each round of refinement, and the classes in the end.  Each round
but the last makes more classes, so there are no more rounds than live states, or one. -/
def refinement (d : Dfa) : List Nat × List StateSet :=
  d.refineRounds (d.live.size + 1) d.initialClasses

end Dfa

end RegexAutomata
