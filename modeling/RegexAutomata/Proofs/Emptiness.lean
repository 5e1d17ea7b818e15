/-
# Emptiness

An automaton is empty if the search from its start state finds no final state.  What the search finds is
what words of symbol ids lead to, so emptiness is a matter of the words that are accepted
(`Dfa.isEmpty_iff`, `Enfa.WellFormed.isEmpty_iff`), and neither determinizing nor minimizing changes it.

A word of symbols whose ranges are in order is spelled by some string.  Then an automaton is empty exactly
if it accepts no string (`Enfa.isEmpty_agrees_with_acceptance`).  A reversed range makes a difference: a
move with it can be followed by the search, but no character is read along it.
-/
import RegexAutomata.Enfa.Accept
import RegexAutomata.Proofs.Alphabet
import RegexAutomata.Proofs.Dfa.Minimization
import RegexAutomata.Proofs.Enfa.Trim

namespace RegexAutomata

open Relation

/-- A word of symbols that all admit some character is spelled by some string. -/
lemma Alphabet.InOrder.exists_spells {A : Alphabet} (h : A.InOrder) {u : List Nat}
    (hu : ∀ a ∈ u, a ∈ A.ids) : ∃ w, A.Spells u w := by
  induction u with
  | nil => exact ⟨[], spells_nil_right.mpr rfl⟩
  | cons a u ih =>
    obtain ⟨ha, hu⟩ := List.forall_mem_cons.mp hu
    obtain ⟨w, hw⟩ := ih hu
    have hlt : a < A.symbols.length := mem_ids.mp ha
    obtain ⟨x, hx⟩ := Symbol.exists_admits_iff.mpr (h A.symbols[a] (List.getElem_mem hlt))
    have hmatch : a ∈ A.matching x :=
      mem_matching.mpr ⟨_, List.getElem?_eq_getElem hlt, hx⟩
    exact ⟨x :: w, spells_cons_right.mpr ⟨a, u, hmatch, hw, rfl⟩⟩

/-! ### Deterministic automata -/

namespace Dfa

variable {d : Dfa}

/-- An automaton is empty exactly if it accepts no word of symbol ids. -/
lemma isEmpty_iff :
    d.isEmpty = true ↔ ∀ u, (∀ a ∈ u, a ∈ d.alphabet.ids) → ¬d.AcceptsWord u := by
  rw [isEmpty, Bool.not_eq_true', ← Bool.not_eq_true, StateSet.intersects_iff]
  simp only [mem_reachable]
  constructor
  · rintro h u hu ⟨s, hrun, hfinal⟩
    exact h ⟨s, ⟨u, hu, hrun⟩, hfinal⟩
  · rintro h ⟨s, ⟨u, hu, hrun⟩, hfinal⟩
    exact h u hu ⟨s, hrun, hfinal⟩

lemma WellFormed.isEmpty_minimize_eq (h : d.WellFormed) : d.minimize.isEmpty = d.isEmpty := by
  rw [Bool.eq_iff_iff, isEmpty_iff, isEmpty_iff, alphabet_minimize]
  exact forall₂_congr fun u hu => not_congr (h.acceptsWord_minimize_iff hu)

/-- If all ranges are in order, an automaton is empty exactly if it accepts no string. -/
lemma DeadAbsorbs.isEmpty_iff_accepts (h : d.DeadAbsorbs) (horder : d.alphabet.InOrder) :
    d.isEmpty = true ↔ ∀ w, d.accepts w = false := by
  simp only [isEmpty_iff, ← Bool.not_eq_true, h.accepts_iff]
  constructor
  · rintro hempty w ⟨u, hu, haccepts⟩
    exact hempty u hu.mem_ids haccepts
  · intro hnone u hu haccepts
    obtain ⟨w, hw⟩ := horder.exists_spells hu
    exact hnone w ⟨u, hw, haccepts⟩

end Dfa

/-! ### Nondeterministic automata -/

namespace Enfa

variable {n : Enfa} {S : StateSet} {s t : Nat}

/-- The search follows the moves with any label. -/
lemma WellFormed.reaches_graph_iff (h : n.WellFormed) :
    n.graph.Reaches s t ↔ ReflTransGen n.Moves s t := by
  have hsucc : ∀ x y, y ∈ n.graph.successors x ↔ n.Moves x y := by
    intro x y
    rw [graph, Graph.successors_ofSuccessors]
    constructor
    · intro hy
      split at hy
      · obtain ⟨l, -, hedge⟩ := StateSet.mem_unions_map.mp hy
        exact ⟨l, hedge⟩
      · exact absurd hy StateSet.not_mem_empty
    · rintro ⟨l, hedge⟩
      rw [if_pos (List.mem_range.mpr (h.edge_lt x l y hedge).1), StateSet.mem_unions_map]
      refine ⟨l, ?_, hedge⟩
      cases l with
      | epsilon => simp [labels]
      | symbol a => simpa [labels] using h.symbol_lt x a y hedge
  constructor
  · intro hr
    induction hr with
    | refl => exact .refl
    | tail _ edge ih => exact ih.tail ((hsucc _ _).mp edge)
  · intro hr
    induction hr with
    | refl => exact .refl s
    | tail _ hmove ih => exact .tail ih ((hsucc _ _).mpr hmove)

lemma moves_of_reaches (hr : n.epsilon.Reaches s t) : ReflTransGen n.Moves s t := by
  induction hr with
  | refl => exact .refl
  | tail _ edge ih => exact ih.tail ⟨.epsilon, edge⟩

/-- What a word leads to from a set can be reached by moves from a member of the set. -/
lemma WellFormed.moves_of_mem_sweep (h : n.WellFormed) {u : List Nat} (ht : t ∈ n.sweep S u) :
    ∃ s ∈ S, ReflTransGen n.Moves s t := by
  induction u generalizing S with
  | nil => exact ⟨t, ht, .refl⟩
  | cons a u ih =>
    obtain ⟨m, hm, hmoves⟩ := ih ht
    obtain ⟨s, hs, m', hedge, hr⟩ := h.mem_move.mp hm
    exact ⟨s, hs, .head ⟨_, hedge⟩ ((moves_of_reaches hr).trans hmoves)⟩

/-- An automaton is empty exactly if its moves lead from the start state to no final state. -/
lemma WellFormed.isEmpty_iff_moves (h : n.WellFormed) (hs : n.start? = some s) :
    n.isEmpty = true ↔ ∀ x, ReflTransGen n.Moves s x → x ∉ n.finals := by
  rw [isEmpty, hs]
  simp only [Bool.not_eq_true', ← Bool.not_eq_true, StateSet.intersects_iff, Graph.mem_reach,
    StateSet.mem_singleton, exists_eq_left, h.reaches_graph_iff, not_exists, not_and]

/-- An automaton is empty exactly if no word of symbol ids leads to a final state. -/
lemma WellFormed.isEmpty_iff (h : n.WellFormed) (hs : n.start? = some s) :
    n.isEmpty = true ↔ ∀ u, (∀ a ∈ u, a ∈ n.alphabet.ids) →
      ¬∃ x ∈ n.sweep (n.closure (StateSet.singleton s)) u, x ∈ n.finals := by
  rw [h.isEmpty_iff_moves hs]
  constructor
  · rintro hnone u - ⟨x, hx, hfinal⟩
    obtain ⟨m, hm, hmoves⟩ := h.moves_of_mem_sweep hx
    obtain ⟨s', hs', hr⟩ := h.mem_closure.mp hm
    obtain rfl := StateSet.mem_singleton.mp hs'
    exact hnone x ((moves_of_reaches hr).trans hmoves) hfinal
  · intro hnone x hmoves hfinal
    have hstart : s ∈ n.closure (StateSet.singleton s) :=
      h.mem_closure.mpr ⟨s, StateSet.mem_singleton.mpr rfl, .refl s⟩
    obtain ⟨u, hu, hx⟩ := h.exists_sweep h.closed_closure hstart hmoves
    exact hnone u hu ⟨x, hx, hfinal⟩

lemma isEmpty_cacheClosures (n : Enfa) : n.cacheClosures.isEmpty = n.isEmpty := by
  rw [cacheClosures_eq]
  rfl

@[simp] lemma alphabet_determinize (n : Enfa) : n.determinize.alphabet = n.alphabet := by
  cases hs : n.start? with
  | none => rw [determinize_eq_ofAlphabet hs, Dfa.ofAlphabet]
  | some s => rw [determinize_eq_ofSubsets hs, ofSubsets, alphabet_cacheClosures]

lemma WellFormed.isEmpty_determinize_eq (h : n.WellFormed) :
    n.determinize.isEmpty = n.isEmpty := by
  cases hs : n.start? with
  | none =>
    rw [determinize_eq_ofAlphabet hs, isEmpty, hs]
    rfl
  | some s =>
    have hn := h.cacheClosures
    have hs' : n.cacheClosures.start? = some s := by rw [start?_cacheClosures, hs]
    rw [← isEmpty_cacheClosures, determinize_eq_ofSubsets hs, Bool.eq_iff_iff, Dfa.isEmpty_iff,
      hn.isEmpty_iff hs']
    exact forall₂_congr fun u hu => not_congr (acceptsWord_ofSubsets_iff hn (hn.start_lt s hs') hu)

/-- A nondeterministic automaton, the deterministic one and the minimized one are all empty or none of
them is.  If all ranges are in order they are empty exactly if no string is accepted, by the first or
by either of the others. -/
theorem isEmpty_agrees_with_acceptance (h : n.Built) :
    n.determinize.minimize? = some n.determinize.minimize ∧
      n.determinize.isEmpty = n.isEmpty ∧ n.determinize.minimize.isEmpty = n.isEmpty ∧
      (n.alphabet.InOrder →
        (n.isEmpty = true ↔ ∀ w, n.accepts w = false) ∧
        (n.isEmpty = true ↔ ∀ w, n.determinize.accepts w = false) ∧
        (n.isEmpty = true ↔ ∀ w, n.determinize.minimize.accepts w = false)) := by
  have hn := h.wellFormed
  have hd := hn.wellFormed_determinize
  refine ⟨hd.minimize?_eq, hn.isEmpty_determinize_eq, ?_, ?_⟩
  · rw [hd.isEmpty_minimize_eq, hn.isEmpty_determinize_eq]
  · intro horder
    have hdfa : n.isEmpty = true ↔ ∀ w, n.determinize.accepts w = false := by
      rw [← hn.isEmpty_determinize_eq]
      exact hd.toDeadAbsorbs.isEmpty_iff_accepts (by rwa [alphabet_determinize])
    refine ⟨?_, hdfa, ?_⟩
    · simp only [hdfa, hn.accepts_determinize_eq]
    · simp only [hdfa, hd.accepts_minimize_eq]

/-- The final state of this automaton can only be reached along a cycle of epsilon moves and a range. -/
theorem isEmpty_agrees_with_acceptance_of_cycle :
    ∃ n : Enfa, n.Built ∧ n.alphabet.InOrder ∧ n.Edge 1 .epsilon 0 ∧ n.isEmpty = false ∧
      n.determinize.isEmpty = n.isEmpty ∧ n.determinize.minimize.isEmpty = n.isEmpty ∧
      (n.isEmpty = true ↔ ∀ w, n.accepts w = false) := by
  have hbuilt := Built.empty
    |>.addEpsilon 0 1 |>.addEpsilon 1 0 |>.addTransition 1 (.range 'a' 'c') 2 |>.setStart 0
    |>.addFinal 2 |>.addFinal 3
  obtain ⟨-, hdfa, hmin, haccepts⟩ := isEmpty_agrees_with_acceptance hbuilt
  exact ⟨_, hbuilt, by decide +kernel, by simp, by decide +kernel, hdfa, hmin,
    (haccepts (by decide +kernel)).1⟩

end Enfa
end RegexAutomata
