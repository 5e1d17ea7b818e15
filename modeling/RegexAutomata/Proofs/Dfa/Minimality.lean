/-
# Minimized automata are minimal

If a final state can be reached from every live state of a well-formed automaton, then every state of
the minimized automaton can be reached and any two of its states are apart, its dead state included
(`Dfa.WellFormed.exists_run_minimize`, `Dfa.WellFormed.apart_minimize`).

No total automaton that accepts the same words then has fewer states (`Dfa.numStates_le_of_apart`): the
words that lead to different states of the one lead to different states of the other.
-/
import Mathlib.Data.Finset.Card
import Mathlib.Data.Finset.Range
import RegexAutomata.Proofs.Dfa.Distinction
import RegexAutomata.Proofs.Dfa.Minimization

namespace RegexAutomata
namespace Dfa

variable {d : Dfa} {P : List StateSet}

/-! ### The states of a quotient -/

/-- A class is reached by the words that lead to its members, and the dead state by a word that leads
on from a class to no class. -/
lemma exists_run_quotient (h : d.Stable P d.live) (hd : d.DeadAbsorbs) {i : Nat}
    (hi : i < (d.quotient P).numStates) :
    ∃ u, (∀ a ∈ u, a ∈ d.alphabet.ids) ∧ (d.quotient P).run u = some i := by
  have hclass : ∀ j < P.length,
      ∃ u, (∀ a ∈ u, a ∈ d.alphabet.ids) ∧ (d.quotient P).run u = some j := by
    intro j hj
    have hC : P[j]? = some P[j] := List.getElem?_eq_getElem hj
    obtain ⟨x, hx⟩ := h.divides.exists_mem P[j] (List.getElem_mem hj)
    have hlive : x ∈ d.live := h.divides.mem_of_mem (List.getElem_mem hj) hx
    obtain ⟨⟨u, hu, hrun⟩, -⟩ := mem_live.mp hlive
    refine ⟨u, hu, ?_⟩
    rw [(run_quotient h hd hu).1, hrun, classOf_of_mem h.divides hC hx]
  rcases lt_numStates_quotient.mp hi with hlt | ⟨rfl, hdead⟩
  · exact hclass i hlt
  · rcases dead?_quotient.mp hdead with hstart | ⟨j, hj, a, ha, hnone⟩
    · refine ⟨[], by simp, ?_⟩
      rw [run, start?_quotient, Option.bind_some, walk_nil, classOf, hstart, Option.getD_none]
    · obtain ⟨u, hu, hrun⟩ := hclass j hj
      refine ⟨u ++ [a], List.forall_mem_append.mpr ⟨hu, List.forall_mem_singleton.mpr ha⟩, ?_⟩
      rw [run_append_singleton, hrun, Option.bind_some,
        step_quotient (lt_numStates_quotient.mpr (Or.inl hj)) ha, hnone, Option.getD_none]

/-- From a class is accepted what is accepted from its members. -/
lemma acceptsFrom_quotient_iff (h : d.Stable P d.live) (hd : d.DeadAbsorbs) {i x : Nat}
    {C : StateSet} (hC : P[i]? = some C) (hx : x ∈ C) {u : List Nat}
    (hu : ∀ a ∈ u, a ∈ d.alphabet.ids) :
    (d.quotient P).AcceptsFrom i u ↔ d.AcceptsFrom x u := by
  obtain ⟨⟨w, hw, hrun⟩, -⟩ :=
    mem_live.mp (h.divides.mem_of_mem (List.mem_of_getElem? hC) hx)
  have hrun' : (d.quotient P).run w = some i := by
    rw [(run_quotient h hd hw).1, hrun, classOf_of_mem h.divides hC hx]
  rw [← acceptsWord_append_iff hrun', ← acceptsWord_append_iff hrun]
  exact acceptsWord_quotient_iff h hd (List.forall_mem_append.mpr ⟨hw, hu⟩)

/-- A class is apart from the dead state. -/
lemma apart_quotient_dead (h : d.Stable P d.live) (hd : d.DeadAbsorbs) (htrim : d.Trim) {i : Nat}
    (hi : i < P.length) (hdead : (d.quotient P).dead? = some P.length) :
    (d.quotient P).Apart i P.length := by
  have hC : P[i]? = some P[i] := List.getElem?_eq_getElem hi
  obtain ⟨x, hx⟩ := h.divides.exists_mem P[i] (List.getElem_mem hi)
  obtain ⟨u, hu, haccepts⟩ :=
    htrim x (h.divides.mem_of_mem (List.getElem_mem hi) hx)
  refine ⟨u, hu, fun hiff => ?_⟩
  exact deadAbsorbs_quotient.not_acceptsFrom hdead hu
    (hiff.mp ((acceptsFrom_quotient_iff h hd hC hx hu).mpr haccepts))

/-- Two classes are apart if their members are. -/
lemma apart_quotient (h : d.Stable P d.live) (hd : d.DeadAbsorbs) (htrim : d.Trim)
    (hsep : d.Separates P) {i j : Nat} (hi : i < (d.quotient P).numStates)
    (hj : j < (d.quotient P).numStates) (hij : i ≠ j) : (d.quotient P).Apart i j := by
  rcases lt_numStates_quotient.mp hi with hi | ⟨rfl, hdead⟩
  · rcases lt_numStates_quotient.mp hj with hj | ⟨rfl, hdead⟩
    · have hC : P[i]? = some P[i] := List.getElem?_eq_getElem hi
      have hD : P[j]? = some P[j] := List.getElem?_eq_getElem hj
      obtain ⟨x, hx⟩ := h.divides.exists_mem P[i] (List.getElem_mem hi)
      obtain ⟨y, hy⟩ := h.divides.exists_mem P[j] (List.getElem_mem hj)
      obtain ⟨u, hu, hne⟩ := hsep.apart hC hD hij hx hy
      refine ⟨u, hu, ?_⟩
      rwa [acceptsFrom_quotient_iff h hd hC hx hu, acceptsFrom_quotient_iff h hd hD hy hu]
    · exact apart_quotient_dead h hd htrim hi hdead
  · rcases lt_numStates_quotient.mp hj with hj | ⟨rfl, -⟩
    · exact (apart_quotient_dead h hd htrim hj hdead).symm
    · exact absurd rfl hij

/-! ### The states of the minimized automaton -/

lemma WellFormed.exists_run_minimize (h : d.WellFormed) {i : Nat} (hi : i < d.minimize.numStates) :
    ∃ u, (∀ a ∈ u, a ∈ d.minimize.alphabet.ids) ∧ d.minimize.run u = some i := by
  rw [alphabet_minimize]
  by_cases hd : d.numStates = 0 ∨ d.start? = none
  · rw [minimize_eq_ofAlphabet hd] at hi
    exact absurd hi (Nat.not_lt_zero i)
  · rw [minimize_eq_quotient hd] at hi ⊢
    exact exists_run_quotient (stable_refinement d) h.toDeadAbsorbs hi

lemma WellFormed.apart_minimize (h : d.WellFormed) (htrim : d.Trim) {i j : Nat}
    (hi : i < d.minimize.numStates) (hj : j < d.minimize.numStates) (hij : i ≠ j) :
    d.minimize.Apart i j := by
  by_cases hd : d.numStates = 0 ∨ d.start? = none
  · rw [minimize_eq_ofAlphabet hd] at hi
    exact absurd hi (Nat.not_lt_zero i)
  · rw [minimize_eq_quotient hd] at hi hj ⊢
    exact apart_quotient (stable_refinement d) h.toDeadAbsorbs htrim
      (separates_refinement htrim h.toDeadAbsorbs) hi hj hij

/-! ### Counting states -/

/-- The automaton has a start state, and each of its states moves to a state on each symbol. -/
structure Total (d : Dfa) : Prop where
  exists_start : ∃ s < d.numStates, d.start? = some s
  exists_step : ∀ s < d.numStates, ∀ a ∈ d.alphabet.ids, ∃ t < d.numStates, d.step s a = some t

/-- The run of a word in a total automaton ends in a state. -/
lemma Total.exists_run (h : d.Total) {u : List Nat} (hu : ∀ a ∈ u, a ∈ d.alphabet.ids) :
    ∃ s < d.numStates, d.run u = some s := by
  obtain ⟨start, hlt, hstart⟩ := h.exists_start
  obtain ⟨s, hs, hwalk⟩ := exists_walk_of_exists_step h.exists_step hlt hu
  exact ⟨s, hs, by rw [run, hstart, Option.bind_some, hwalk]⟩

/-- If all states of an automaton can be reached and any two are apart, a total automaton that accepts
the same words has at least as many states. -/
lemma numStates_le_of_apart {m e : Dfa}
    (hreach : ∀ i < m.numStates, ∃ u, (∀ a ∈ u, a ∈ m.alphabet.ids) ∧ m.run u = some i)
    (hapart : ∀ i < m.numStates, ∀ j < m.numStates, i ≠ j → m.Apart i j)
    (halphabet : e.alphabet = m.alphabet) (he : e.Total)
    (hsame : ∀ u, (∀ a ∈ u, a ∈ m.alphabet.ids) → (e.AcceptsWord u ↔ m.AcceptsWord u)) :
    m.numStates ≤ e.numStates := by
  have hmeet : ∀ i < m.numStates, ∃ k < e.numStates, ∃ u, (∀ a ∈ u, a ∈ m.alphabet.ids) ∧
      m.run u = some i ∧ e.run u = some k := by
    intro i hi
    obtain ⟨u, hu, hrun⟩ := hreach i hi
    obtain ⟨k, hk, hrun'⟩ := he.exists_run (halphabet ▸ hu)
    exact ⟨k, hk, u, hu, hrun, hrun'⟩
  choose! f hf hmeet using hmeet
  have hinj : ∀ i < m.numStates, ∀ j < m.numStates, f i = f j → i = j := by
    intro i hi j hj hij
    by_contra hne
    obtain ⟨u, hu, hrun, hrun'⟩ := hmeet i hi
    obtain ⟨v, hv, hrunv, hrunv'⟩ := hmeet j hj
    obtain ⟨w, hw, hdiffer⟩ := hapart i hi j hj hne
    have hu' := hsame (u ++ w) (List.forall_mem_append.mpr ⟨hu, hw⟩)
    have hv' := hsame (v ++ w) (List.forall_mem_append.mpr ⟨hv, hw⟩)
    rw [acceptsWord_append_iff hrun', acceptsWord_append_iff hrun] at hu'
    rw [acceptsWord_append_iff hrunv', acceptsWord_append_iff hrunv] at hv'
    -- after `u` and after `v` the total automaton is in one state
    exact hdiffer (hu'.symm.trans (hij ▸ hv'))
  have hcard := Finset.card_le_card_of_injOn (s := Finset.range m.numStates)
    (t := Finset.range e.numStates) f
    (fun i hi => Finset.mem_coe.mpr (Finset.mem_range.mpr (hf i (Finset.mem_range.mp hi))))
    (fun i hi j hj hij => hinj i (by simpa using hi) j (by simpa using hj) hij)
  simpa using hcard

end Dfa
end RegexAutomata
