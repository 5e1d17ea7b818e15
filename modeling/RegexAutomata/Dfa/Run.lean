/-
# Runs, acceptance and emptiness

An automaton reads a word of symbol ids by following one move after another; it gets stuck where
a move is missing.  It reads a string character by character: a character is read by every symbol
that admits it, so reading leads from a set of states to a set of states.  The dead state is taken
out of each set, since nothing is accepted from it.
-/
import RegexAutomata.Dfa.Basic

namespace RegexAutomata
namespace Dfa

/-! ### Words of symbol ids -/

/-- The state reached from a state by a word of symbol ids, if no move is missing. -/
def walk (d : Dfa) (s : Nat) (u : List Nat) : Option Nat := u.foldlM d.step s

/-- The state reached from the start state by a word of symbol ids. -/
def run (d : Dfa) (u : List Nat) : Option Nat := d.start?.bind (d.walk · u)

@[simp] theorem walk_nil (d : Dfa) (s : Nat) : d.walk s [] = some s := rfl

@[simp] theorem walk_cons (d : Dfa) (s a : Nat) (u : List Nat) :
    d.walk s (a :: u) = (d.step s a).bind (d.walk · u) := rfl

theorem walk_append (d : Dfa) (s : Nat) (u v : List Nat) :
    d.walk s (u ++ v) = (d.walk s u).bind (d.walk · v) := by
  induction u generalizing s with
  | nil => rfl
  | cons a u ih => simp only [List.cons_append, walk_cons, ih, Option.bind_assoc]

/-- A word with one symbol id more leads one step further. -/
theorem run_append_singleton (d : Dfa) (u : List Nat) (a : Nat) :
    d.run (u ++ [a]) = (d.run u).bind (d.step · a) := by
  simp only [run, walk_append, walk_cons, walk_nil, Option.bind_assoc, Option.bind_fun_some]

/-! ### Strings -/

/-- The states reached from a set of states by reading one character, the dead state left out. -/
def read (d : Dfa) (S : StateSet) (x : Char) : StateSet :=
  let ids := d.alphabet.matching x
  let next := StateSet.ofList (S.toList.flatMap fun s => ids.filterMap (d.step s))
  match d.dead? with
  | some dead => next.erase dead
  | none => next

theorem mem_read {d : Dfa} {S : StateSet} {x : Char} {t : Nat} :
    t ∈ d.read S x ↔
      (∃ s ∈ S, ∃ a ∈ d.alphabet.matching x, d.step s a = some t) ∧ d.dead? ≠ some t := by
  have hnext : t ∈ StateSet.ofList (S.toList.flatMap fun s =>
      (d.alphabet.matching x).filterMap (d.step s)) ↔
      ∃ s ∈ S, ∃ a ∈ d.alphabet.matching x, d.step s a = some t := by
    simp [StateSet.mem_toList]
  unfold read
  cases d.dead? with
  | none => simpa using hnext
  | some dead =>
    simp only [StateSet.mem_erase, hnext, ne_eq, Option.some.injEq]
    rw [eq_comm (a := t)]

/-- Whether the automaton accepts a string. -/
def accepts (d : Dfa) (w : List Char) : Bool :=
  match d.start? with
  | none => false
  | some s => (w.foldl d.read (StateSet.singleton s)).intersects d.finals

/-! ### Reachability -/

/-- The graph of the moves on symbols of the alphabet. -/
def graph (d : Dfa) : Graph :=
  Graph.ofSuccessors d.table.states fun s => StateSet.ofList (d.alphabet.ids.filterMap (d.step s))

/-- The states that can be reached from the start state on symbols of the alphabet. -/
def reachable (d : Dfa) : StateSet :=
  match d.start? with
  | none => ∅
  | some s => d.graph.reach (StateSet.singleton s)

/-- Whether no final state can be reached from the start state. -/
def isEmpty (d : Dfa) : Bool := !d.reachable.intersects d.finals

end Dfa
end RegexAutomata
