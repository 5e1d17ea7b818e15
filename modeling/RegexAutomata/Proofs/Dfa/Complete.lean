/-
# Complete automata

An automaton is *complete* if each of its states has a move on each symbol, everything it names
exists, and its dead state, which is not final, has all its moves to itself.  A run of a complete
automaton never gets stuck, and it never leaves the dead state (`Dfa.Complete.run_append_of_dead`).
-/
import RegexAutomata.Proofs.Dfa.Reachability

namespace RegexAutomata
namespace Dfa

/-- Each state has a move on each symbol and there are no other moves, the start state, the final
states and all destinations exist, and the dead state is not final and moves to itself.  Only an
automaton without states has no start state. -/
structure Complete (d : Dfa) : Prop where
  exists_start : 0 < d.numStates → ∃ s, d.start? = some s
  start_lt : ∀ s, d.start? = some s → s < d.numStates
  final_lt : ∀ s ∈ d.finals, s < d.numStates
  exists_step : ∀ s < d.numStates, ∀ a ∈ d.alphabet.ids, ∃ t, d.step s a = some t
  step_lt : ∀ s a t, d.step s a = some t → s < d.numStates ∧ a ∈ d.alphabet.ids ∧ t < d.numStates
  dead_lt : ∀ s, d.dead? = some s → s < d.numStates
  dead_not_final : ∀ s, d.dead? = some s → s ∉ d.finals
  dead_step : ∀ s, d.dead? = some s → ∀ a ∈ d.alphabet.ids, d.step s a = some s

variable {d : Dfa} {s : Nat} {u : List Nat}

/-- If every state has a move to a state on every symbol, a walk that begins in a state ends in one. -/
lemma exists_walk_of_exists_step
    (hstep : ∀ s < d.numStates, ∀ a ∈ d.alphabet.ids, ∃ t < d.numStates, d.step s a = some t)
    (hs : s < d.numStates) (hu : ∀ a ∈ u, a ∈ d.alphabet.ids) :
    ∃ t < d.numStates, d.walk s u = some t := by
  induction u generalizing s with
  | nil => exact ⟨s, hs, rfl⟩
  | cons a u ih =>
    obtain ⟨ha, hu⟩ := List.forall_mem_cons.mp hu
    obtain ⟨m, hm, hstep'⟩ := hstep s hs a ha
    rw [walk_cons, hstep', Option.bind_some]
    exact ih hm hu

namespace Complete

lemma deadAbsorbs (h : d.Complete) : d.DeadAbsorbs := by
  refine ⟨h.dead_not_final, ?_⟩
  intro s hs a ha t ht
  rw [h.dead_step s hs a ha, Option.some.injEq] at ht
  exact ht.symm

lemma isTotal_eq (h : d.Complete) : d.isTotal = true := by
  simp only [isTotal, List.all_eq_true, List.mem_range]
  intro s hs a ha
  obtain ⟨t, ht⟩ := h.exists_step s hs a ha
  rw [ht, Option.isSome_some]

/-- A walk that begins in a state ends in a state. -/
lemma exists_walk (h : d.Complete) (hs : s < d.numStates) (hu : ∀ a ∈ u, a ∈ d.alphabet.ids) :
    ∃ t < d.numStates, d.walk s u = some t := by
  refine exists_walk_of_exists_step ?_ hs hu
  intro s hs a ha
  obtain ⟨t, ht⟩ := h.exists_step s hs a ha
  exact ⟨t, (h.step_lt s a t ht).2.2, ht⟩

lemma wellFormed (h : d.Complete) : d.WellFormed := by
  refine ⟨h.deadAbsorbs, ?_⟩
  intro u hu s hrun
  obtain ⟨start, hstart, hwalk⟩ := Option.bind_eq_some_iff.mp hrun
  obtain ⟨t, ht, hwalk'⟩ := h.exists_walk (h.start_lt start hstart) hu
  rw [hwalk, Option.some.injEq] at hwalk'
  exact hwalk' ▸ ht

/-- A word leads from the dead state to itself or, over other ids, nowhere. -/
lemma walk_dead (h : d.Complete) (hs : d.dead? = some s) {t : Nat} (hw : d.walk s u = some t) :
    t = s := by
  induction u with
  | nil => exact (Option.some.inj hw).symm
  | cons a u ih =>
    rw [walk_cons] at hw
    obtain ⟨m, hm, hw⟩ := Option.bind_eq_some_iff.mp hw
    rw [h.dead_step s hs a (h.step_lt s a m hm).2.1, Option.some.injEq] at hm
    exact ih (hm ▸ hw)

/-- A run that has come to the dead state stays there. -/
lemma run_append_of_dead (h : d.Complete) (hs : d.dead? = some s) (hrun : d.run u = some s)
    {v : List Nat} (hv : ∀ a ∈ v, a ∈ d.alphabet.ids) : d.run (u ++ v) = some s := by
  obtain ⟨start, hstart, hwalk⟩ := Option.bind_eq_some_iff.mp hrun
  obtain ⟨t, -, ht⟩ := h.exists_walk (h.dead_lt s hs) hv
  rw [run, hstart, Option.bind_some, walk_append, hwalk, Option.bind_some, ht, h.walk_dead hs ht]

/-- No word that leads to the dead state can be extended to one that is accepted. -/
lemma not_acceptsWord_of_dead (h : d.Complete) (hs : d.dead? = some s) (hrun : d.run u = some s)
    (v : List Nat) : ¬d.AcceptsWord (u ++ v) := by
  rintro ⟨t, ht, hfinal⟩
  obtain ⟨start, hstart, hwalk⟩ := Option.bind_eq_some_iff.mp hrun
  rw [run, hstart, Option.bind_some, walk_append, hwalk, Option.bind_some] at ht
  exact h.dead_not_final s hs (h.walk_dead hs ht ▸ hfinal)

end Complete

lemma complete_ofAlphabet (A : Alphabet) : (ofAlphabet A).Complete := by
  refine ⟨?_, ?_, ?_, ?_, ?_, ?_, ?_, ?_⟩ <;> simp [ofAlphabet, step]

end Dfa
end RegexAutomata
