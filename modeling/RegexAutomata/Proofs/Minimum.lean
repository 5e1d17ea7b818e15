/-
# The minimized automaton of an expression is the minimum one

The automaton that is assembled for an expression is coaccessible, so the deterministic one is trim and
its minimized automaton is minimal among all total automata that accept the same words
(`Compiled.minimized_is_minimum`).  Refinement never compares the dead state with the classes: without
trimness a class from which nothing is accepted would stay beside the dead state.
-/
import RegexAutomata.Proofs.Compiled
import RegexAutomata.Proofs.Dfa.Minimality
import RegexAutomata.Proofs.Enfa.Trim
import RegexAutomata.Proofs.Produced

namespace RegexAutomata

/-- No total automaton over the same alphabet that accepts the same words of symbol ids has fewer
states.  Every state can be reached and any two states are apart; the dead state is one of them. -/
structure Dfa.Minimum (d : Dfa) : Prop where
  numStates_le : ∀ e : Dfa, e.alphabet = d.alphabet → e.Total →
    (∀ u, (∀ a ∈ u, a ∈ d.alphabet.ids) → (e.AcceptsWord u ↔ d.AcceptsWord u)) →
    d.numStates ≤ e.numStates
  exists_run : ∀ i < d.numStates, ∃ u, (∀ a ∈ u, a ∈ d.alphabet.ids) ∧ d.run u = some i
  apart : ∀ i < d.numStates, ∀ j < d.numStates, i ≠ j → d.Apart i j
  dead_lt : ∀ i, d.dead? = some i → i < d.numStates

lemma Dfa.WellFormed.minimum_minimize {d : Dfa} (h : d.WellFormed) (htrim : d.Trim) :
    d.minimize.Minimum where
  numStates_le := fun _ halphabet he hsame =>
    numStates_le_of_apart (fun _ hi => h.exists_run_minimize hi)
      (fun _ hi _ hj hij => h.apart_minimize htrim hi hj hij) halphabet he hsame
  exists_run := fun _ hi => h.exists_run_minimize hi
  apart := fun _ hi _ hj hij => h.apart_minimize htrim hi hj hij
  dead_lt := (complete_minimize d).dead_lt

namespace Compiled

variable {text : String} {c : Compiled}

lemma trim_dfa_of_compile (h : compile text = .ok c) : c.dfa.Trim := by
  have hnfa : c.nfa.Coaccessible := by
    rw [nfa_of_compile h]
    exact (Enfa.coaccessible_ofPostfix c.expression).cacheClosures
  rw [dfa_of_compile h]
  exact (wellFormed_nfa_of_compile h).trim_determinize hnfa

/-- The minimized automaton of an expression is the minimum one. -/
theorem minimized_is_minimum (h : compile text = .ok c) : c.minimized.Minimum := by
  rw [minimized_of_compile h]
  exact (wellFormed_dfa_of_compile h).minimum_minimize (trim_dfa_of_compile h)

/-- The alternatives of this expression have a common ending: their states are joined, and a dead state
stays. -/
theorem minimized_is_minimum_of_common_ending :
    ∃ c, compile "ab|cb" = .ok c ∧ c.minimized.Minimum ∧
      c.dfa.numStates = 6 ∧ c.minimized.numStates = 4 ∧ c.minimized.dead? = some 3 := by
  exact exists_eq_ok_and (by decide +kernel) fun c h hsizes => ⟨minimized_is_minimum h, hsizes⟩

end Compiled
end RegexAutomata
