/-
# Closures

`Enfa.closure` has two ways to the same set.  If no closures are kept it searches the epsilon moves,
and if they are kept it puts those of the members together.  A closure that is kept was
computed for the epsilon moves the automaton has, since every operation that could change them drops
what is kept.  A member that is no state has no moves, and stands for itself in either way.

The main result is `Enfa.Built.closure_exact`: the closure holds exactly what can be reached by
epsilon moves, whether closures are kept or not, and the search with a stack finds it and ends.
-/
import RegexAutomata.Proofs.Enfa.Powerset
import RegexAutomata.Proofs.Search

namespace RegexAutomata
namespace Enfa

open Relation (ReflTransGen)

variable {n : Enfa}

lemma reaches_epsilon_iff {s d : Nat} :
    n.epsilon.Reaches s d ↔ ReflTransGen (n.Edge · .epsilon ·) s d :=
  Graph.reaches_iff_reflTransGen

/-- The closures that are kept do not matter for what the closure is. -/
lemma WellFormed.closure_eq_reach (h : n.WellFormed) (S : StateSet) :
    n.closure S = n.epsilon.reach S := by
  ext x
  rw [h.mem_closure, Graph.mem_reach]

/-- The closure of a set holds exactly the states that can be reached from it by epsilon moves, in
whatever order the automaton has been built and its closures have been computed.  Computing or
dropping the closures that are kept does not change it.  The search with a stack comes to its end
after as many steps as the set has members and the automaton epsilon moves, with the same set. -/
theorem Built.closure_exact (h : n.Built) (S : StateSet) :
    (∀ x, x ∈ n.closure S ↔ ∃ s ∈ S, ReflTransGen (n.Edge · .epsilon ·) s x) ∧
      n.cacheClosures.closure S = n.closure S ∧
      { n with closures? := none }.closure S = n.closure S ∧
      (Search.step n.epsilon)^[S.size + n.epsilon.edges.length] (.start S) = ⟨n.closure S, []⟩ := by
  have hn := h.wellFormed
  refine ⟨fun x => ?_, by rw [hn.closure_cacheClosures], ?_, ?_⟩
  · simp only [hn.mem_closure, reaches_epsilon_iff]
  · rw [hn.closure_eq_reach]
    rfl
  · rw [Search.iterate_step_start, hn.closure_eq_reach]

/-- Closures are kept, dropped when a cycle of epsilon moves is closed, and kept again.  The set has a
member that is no state. -/
theorem Built.closure_exact_of_cycle :
    ∃ n : Enfa, n.Built ∧ n.closures?.isSome = true ∧
      n.Edge 0 .epsilon 1 ∧ n.Edge 1 .epsilon 2 ∧ n.Edge 2 .epsilon 0 ∧
      (n.closure (.ofList [2, 9])).toList = [0, 1, 2, 9] ∧
      (Search.step n.epsilon)^[5] (.start (.ofList [2, 9])) =
        ⟨n.closure (.ofList [2, 9]), []⟩ := by
  have hbuilt := Built.empty |>.addEpsilon 0 1 |>.addEpsilon 1 2 |>.cacheClosures
    |>.addEpsilon 2 0 |>.addState |>.cacheClosures
  refine ⟨_, hbuilt, by decide +kernel, by simp, by simp, by simp, by decide +kernel, ?_⟩
  exact (hbuilt.closure_exact (.ofList [2, 9])).2.2.2

end Enfa
end RegexAutomata
