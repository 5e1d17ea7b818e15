/-
# The deterministic automata that are produced

Deterministic automata come from three sources: a nondeterministic automaton is determinized, an
automaton is minimized, or a text is read.  Each of them makes room for the dead state in a way of its
own, and all of them give complete automata (`Dfa.Produced.complete_and_absorbing`).
-/
import RegexAutomata.Proofs.Dfa.Minimization
import RegexAutomata.Proofs.Enfa.Powerset
import RegexAutomata.Proofs.File.Records

namespace RegexAutomata
namespace Dfa

/-- The automata that come from determinizing, from minimizing and from reading a text. -/
inductive Produced : Dfa → Prop
  | determinized {n : Enfa} (h : n.Built) : Produced n.determinize
  | minimized {d m : Dfa} (h : d.minimize? = some m) : Produced m
  | read {text : String} {d : Dfa} (h : ofText text = .ok d) : Produced d

lemma Produced.complete {d : Dfa} (h : d.Produced) : d.Complete := by
  cases h with
  | determinized h => exact h.wellFormed.complete_determinize
  | @minimized d' m h => exact minimize_of_minimize? h ▸ complete_minimize d'
  | read h => exact complete_ofText h

/-- An automaton that is produced is complete: it is total, all that it names exists, and its dead
state is not final and moves to itself.  So a run that has come to the dead state stays there whatever
follows, no extension of its word is accepted, and minimizing the automaton succeeds. -/
theorem Produced.complete_and_absorbing {d : Dfa} (h : d.Produced) :
    d.Complete ∧ d.isTotal = true ∧
      (∀ s u, d.dead? = some s → d.run u = some s → ∀ v,
        ((∀ a ∈ v, a ∈ d.alphabet.ids) → d.run (u ++ v) = some s) ∧ ¬d.AcceptsWord (u ++ v)) ∧
      d.minimize? = some d.minimize := by
  have hcomplete := h.complete
  refine ⟨hcomplete, hcomplete.isTotal_eq, ?_, hcomplete.wellFormed.minimize?_eq⟩
  intro s u hs hrun v
  exact ⟨hcomplete.run_append_of_dead hs hrun, hcomplete.not_acceptsWord_of_dead hs hrun v⟩

/-- The start state of this text is the dead state, which its record claims to be final. -/
theorem Produced.complete_and_absorbing_of_dead_start :
    ∃ d, ofText ("\x7b\"startingState\": \"PHI\", \"PHI\": \x7b\"isTerminatingState\": true\x7d, " ++
        "\"S1\": \x7b\"isTerminatingState\": true, \"a\": \"PHI\"\x7d\x7d") = .ok d ∧
      d.run [] = some 1 ∧ d.Complete ∧ d.isTotal = true ∧ (∀ v, ¬d.AcceptsWord ([] ++ v)) ∧
      d.minimize? = some d.minimize := by
  refine exists_eq_ok_and (p := fun d => d.dead? = some 1 ∧ d.run [] = some 1) (by decide +kernel) ?_
  rintro d h ⟨hdead, hrun⟩
  obtain ⟨hcomplete, htotal, habsorbs, hminimize⟩ := Produced.complete_and_absorbing (.read h)
  exact ⟨hrun, hcomplete, htotal, fun v => (habsorbs 1 [] hdead hrun v).2, hminimize⟩

end Dfa
end RegexAutomata
