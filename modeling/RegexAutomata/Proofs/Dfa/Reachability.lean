/-
# Reachable states

The states that the search from the start state finds are those to which some word of symbol ids
leads (`Dfa.mem_reachable`).  An automaton is *well formed* if all of them exist and its dead state
absorbs; moves may be missing.
-/
import Mathlib.Data.List.Induction
import RegexAutomata.Dfa.Partition
import RegexAutomata.Proofs.Dfa.Words

namespace RegexAutomata
namespace Dfa

variable {d : Dfa}

lemma mem_successors_graph {s t : Nat} :
    t ∈ d.graph.successors s ↔ ∃ a ∈ d.alphabet.ids, d.step s a = some t := by
  rw [graph, Graph.successors_ofSuccessors]
  split
  · simp
  · rename_i hs
    simp only [StateSet.not_mem_empty, false_iff, not_exists, not_and]
    exact fun a _ hstep => hs (Table.mem_states_of_get? hstep)

lemma reaches_graph_iff {s t : Nat} :
    d.graph.Reaches s t ↔ ∃ u, (∀ a ∈ u, a ∈ d.alphabet.ids) ∧ d.walk s u = some t := by
  constructor
  · intro h
    induction h with
    | refl => exact ⟨[], by simp, rfl⟩
    | tail _ edge ih =>
      obtain ⟨u, hu, hw⟩ := ih
      obtain ⟨a, ha, hstep⟩ := mem_successors_graph.mp edge
      refine ⟨u ++ [a], ?_, ?_⟩
      · exact List.forall_mem_append.mpr ⟨hu, List.forall_mem_singleton.mpr ha⟩
      · rw [walk_append, hw, Option.bind_some, walk_cons, hstep, Option.bind_some, walk_nil]
  · rintro ⟨u, hu, hw⟩
    -- the walk is read from its beginning, so the path is extended in front
    induction u generalizing s with
    | nil =>
      rw [walk_nil, Option.some.injEq] at hw
      exact hw ▸ .refl s
    | cons a u ih =>
      rw [walk_cons] at hw
      obtain ⟨m, hm, hw⟩ := Option.bind_eq_some_iff.mp hw
      have hedge := mem_successors_graph.mpr ⟨a, hu a (by simp), hm⟩
      exact .head hedge (ih (fun b hb => hu b (List.mem_cons_of_mem a hb)) hw)

/-- A state is reachable exactly if some word of symbol ids leads to it. -/
lemma mem_reachable {s : Nat} :
    s ∈ d.reachable ↔ ∃ u, (∀ a ∈ u, a ∈ d.alphabet.ids) ∧ d.run u = some s := by
  simp only [reachable, run]
  cases d.start? with
  | none => simp
  | some start =>
    rw [Graph.mem_reach]
    simp only [StateSet.mem_singleton, exists_eq_left, reaches_graph_iff, Option.bind_some]

/-- The live states are the reachable ones but the dead state. -/
lemma mem_live {s : Nat} :
    s ∈ d.live ↔ (∃ u, (∀ a ∈ u, a ∈ d.alphabet.ids) ∧ d.run u = some s) ∧ d.dead? ≠ some s := by
  rw [← mem_reachable, live]
  cases d.dead? with
  | none => simp
  | some dead =>
    rw [StateSet.mem_erase, ne_eq, ne_eq, Option.some.injEq, eq_comm (a := s)]

/-- From a live state words lead to live states and to the dead state. -/
lemma mem_live_of_walk {s t : Nat} {u : List Nat} (hs : s ∈ d.live)
    (hu : ∀ a ∈ u, a ∈ d.alphabet.ids) (hwalk : d.walk s u = some t) (ht : d.dead? ≠ some t) :
    t ∈ d.live := by
  obtain ⟨⟨w, hw, hrun⟩, -⟩ := mem_live.mp hs
  obtain ⟨start, hstart, hwalk'⟩ := Option.bind_eq_some_iff.mp hrun
  refine mem_live.mpr ⟨⟨w ++ u, List.forall_mem_append.mpr ⟨hw, hu⟩, ?_⟩, ht⟩
  rw [run, hstart, Option.bind_some, walk_append, hwalk', Option.bind_some, hwalk]

/-- Every state to which a word of symbol ids leads exists, and the dead state absorbs. -/
structure WellFormed (d : Dfa) : Prop extends d.DeadAbsorbs where
  run_lt : ∀ u, (∀ a ∈ u, a ∈ d.alphabet.ids) → ∀ s, d.run u = some s → s < d.numStates

lemma WellFormed.lt_of_mem_live (h : d.WellFormed) {s : Nat} (hs : s ∈ d.live) :
    s < d.numStates := by
  obtain ⟨⟨u, hu, hrun⟩, -⟩ := mem_live.mp hs
  exact h.run_lt u hu s hrun

/-- Well-formedness can be read off the search for the reachable states. -/
lemma wellFormed_iff :
    d.WellFormed ↔ d.DeadAbsorbs ∧ ∀ s ∈ d.reachable, s < d.numStates := by
  constructor
  · intro h
    refine ⟨h.toDeadAbsorbs, ?_⟩
    intro s hs
    obtain ⟨u, hu, hrun⟩ := mem_reachable.mp hs
    exact h.run_lt u hu s hrun
  · rintro ⟨habsorbs, hlt⟩
    refine ⟨habsorbs, ?_⟩
    intro u hu s hrun
    exact hlt s (mem_reachable.mpr ⟨u, hu, hrun⟩)

instance (d : Dfa) : Decidable d.WellFormed :=
  decidable_of_iff (d.DeadAbsorbs ∧ ∀ s ∈ d.reachable.toList, s < d.numStates) wellFormed_iff.symm

end Dfa
end RegexAutomata
