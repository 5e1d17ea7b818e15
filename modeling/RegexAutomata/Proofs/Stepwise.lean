/-
# The automata of an expression, built move by move

A nondeterministic automaton is determinized with the worklist, and what comes of it is minimized move by move.
The states of the result are those of the automaton that `compile` gives, and it has the same moves, labels and
mapping; only its table may be laid out in another way (`Compiled.exists_minimizeStepwise`).
-/
import RegexAutomata.Proofs.Compiled
import RegexAutomata.Proofs.Dfa.Emitting
import RegexAutomata.Proofs.Enfa.Worklist

namespace RegexAutomata

lemma Dfa.Alike.allocated {d e : Dfa} (h : d.Alike e) (he : e.Allocated) : d.Allocated :=
  he.congr h.numStates_eq h.dead?_eq h.labels_eq

/-- Determinizing and minimizing move by move does not fail, and each step gives an automaton that is alike. -/
lemma Enfa.WellFormed.exists_minimizeStepwise {n : Enfa} (h : n.WellFormed) :
    n.determinizeStepwise.Alike n.determinize ∧
      ∃ m, n.determinizeStepwise.minimizeStepwise = .ok m ∧ m.Alike n.determinize.minimize := by
  have halike := determinizeStepwise_alike h
  have hallocated := (Dfa.wellNamed_determinize n).allocated
  have hchecked : n.determinize.minimizeChecked = .ok n.determinize.minimize := by
    have hsome := hallocated.minimize?_eq_toOption
    rw [h.wellFormed_determinize.minimize?_eq] at hsome
    cases hd : n.determinize.minimizeChecked with
    | error fault => exact absurd hsome (by simp [hd, Except.toOption])
    | ok m =>
      rw [hd] at hsome
      rw [Option.some.inj hsome]
  have hstepwise := (halike.allocated hallocated).minimizeStepwise_alike
  rw [halike.minimizeChecked_eq, hchecked] at hstepwise
  exact ⟨halike, hstepwise⟩

/-- The automata that `compile` gives can be built move by move. -/
lemma Compiled.exists_minimizeStepwise {text : String} {c : Compiled} (h : compile text = .ok c) :
    c.nfa.determinizeStepwise.Alike c.dfa ∧
      ∃ m, c.nfa.determinizeStepwise.minimizeStepwise = .ok m ∧ m.Alike c.minimized := by
  rw [minimized_of_compile h, dfa_of_compile h]
  exact (wellFormed_nfa_of_compile h).exists_minimizeStepwise

end RegexAutomata
