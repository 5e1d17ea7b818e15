/-
# When minimization fails

The operations put no bound on the states that are named: a move, a final state or the start state may be
any number.  What they keep is that every state has a label and that the dead state exists
(`Dfa.Operated.allocated`).  That is enough to tell when minimization accesses an array out of bounds:
exactly if a number that is no state can be reached from the start state
(`Dfa.Operated.minimizeChecked_fails_iff`).

Such a number is not the dead state, so it is a member of one of the classes with which refinement begins,
and the table of classes cannot be made.  Otherwise all members of all classes are states, in every round,
and so are the ends of their moves.
-/
import RegexAutomata.Proofs.Dfa.Emission
import RegexAutomata.Proofs.Names

namespace RegexAutomata
namespace Dfa

variable {d e : Dfa} {mayGrow : Dfa → Prop}

/-! ### What the operations keep -/

/-- Every state has a label, and the dead state is a state. -/
structure Allocated (d : Dfa) : Prop where
  size_labels : d.labels.size = d.numStates
  dead_lt : ∀ s, d.dead? = some s → s < d.numStates

namespace Allocated

lemma congr (h : d.Allocated) (hnum : e.numStates = d.numStates) (hdead : e.dead? = d.dead?)
    (hlabels : e.labels = d.labels) : e.Allocated where
  size_labels := by rw [hlabels, hnum, h.size_labels]
  dead_lt := by
    rw [hdead, hnum]
    exact h.dead_lt

lemma addState (h : d.Allocated) : d.addState.Allocated where
  size_labels := by rw [Dfa.addState, Array.size_push, h.size_labels]
  dead_lt := fun s hs => Nat.lt_succ_of_lt (h.dead_lt s hs)

lemma ensureDead (h : d.Allocated) : d.ensureDead.Allocated := by
  rw [Dfa.ensureDead]
  split
  · exact h
  · exact ⟨h.addState.size_labels, fun s hs => Option.some.inj hs ▸ Nat.lt_succ_self d.numStates⟩

end Allocated

lemma WellNamed.allocated (h : d.WellNamed) : d.Allocated := ⟨h.size_labels, h.dead_lt⟩

lemma allocated_minimize (d : Dfa) : d.minimize.Allocated := by
  by_cases hd : d.numStates = 0 ∨ d.start? = none
  · rw [minimize_eq_ofAlphabet hd]
    exact (wellNamed_ofAlphabet d.alphabet).allocated
  · rw [minimize_eq_quotient hd]
    exact ⟨size_labels_quotient, (complete_quotient (stable_refinement d).divides).dead_lt⟩

/-- Whatever the operations, every state has a label and the dead state exists. -/
lemma Operated.allocated (h : d.Operated mayGrow) : d.Allocated := by
  induction h with
  | ofAlphabet A => exact (wellNamed_ofAlphabet A).allocated
  | determinize _ => exact (wellNamed_determinize _).allocated
  | read h => exact (wellNamed_ofText h).allocated
  | addState _ _ ih => exact ih.addState
  | ensureDead _ ih => exact ih.ensureDead
  | addSymbol _ a ih => exact ih.congr rfl rfl rfl
  | addTransition _ s a t ih => exact ih.congr rfl rfl rfl
  | addFinal _ s ih => exact ih.congr rfl rfl rfl
  | setStart _ s ih => exact ih.congr rfl rfl rfl
  | setMapping _ mapping ih => exact ih.congr rfl rfl rfl
  | minimize _ hm _ => exact minimize_of_minimize? hm ▸ allocated_minimize _

/-- An automaton that is made from the content of a file can be read from a text, its own, even if the
file cannot be written. -/
lemma Operated.ofFile {f : DfaFile} (h : Dfa.ofFile f = .ok d) : d.Operated mayGrow := by
  obtain ⟨p, -, rfl⟩ := exists_listing_of_ofFile h
  exact .read (ofText_eq_ok_iff.mpr ⟨_, ofText_text_eq_toFile p.dfa, p.ofFile_toFile⟩)

/-! ### Reaching what is no state -/

/-- Some word of symbol ids leads from the start state to a number that is no state. -/
def LeadsOutside (d : Dfa) : Prop :=
  ∃ u s, (∀ a ∈ u, a ∈ d.alphabet.ids) ∧ d.run u = some s ∧ d.numStates ≤ s

lemma leadsOutside_iff : d.LeadsOutside ↔ ∃ s ∈ d.reachable, d.numStates ≤ s := by
  simp only [LeadsOutside, mem_reachable]
  constructor
  · rintro ⟨u, s, hu, hrun, hle⟩
    exact ⟨s, ⟨u, hu, hrun⟩, hle⟩
  · rintro ⟨s, ⟨u, hu, hrun⟩, hle⟩
    exact ⟨u, s, hu, hrun, hle⟩

instance (d : Dfa) : Decidable d.LeadsOutside :=
  decidable_of_iff (∃ s ∈ d.reachable.toList, d.numStates ≤ s) leadsOutside_iff.symm

/-- A number that is no state is not the dead state, so it is live if it can be reached. -/
lemma Allocated.leadsOutside_iff_live (h : d.Allocated) :
    d.LeadsOutside ↔ ∃ s ∈ d.live, d.numStates ≤ s := by
  simp only [LeadsOutside, mem_live]
  constructor
  · rintro ⟨u, s, hu, hrun, hle⟩
    exact ⟨s, ⟨⟨u, hu, hrun⟩, fun hdead => absurd (h.dead_lt s hdead) (Nat.not_lt.mpr hle)⟩, hle⟩
  · rintro ⟨s, ⟨⟨u, hu, hrun⟩, -⟩, hle⟩
    exact ⟨u, s, hu, hrun, hle⟩

lemma lt_of_not_leadsOutside (h : ¬d.LeadsOutside) {s : Nat} (hs : s ∈ d.reachable) :
    s < d.numStates :=
  Nat.lt_of_not_le fun hle => h (leadsOutside_iff.mpr ⟨s, hs, hle⟩)

/-! ### Failure and success -/

lemma minimizeChecked_eq_ofAlphabet (hd : d.numStates = 0 ∨ d.start? = none) :
    d.minimizeChecked = .ok (ofAlphabet d.alphabet) := by
  rw [minimizeChecked, if_pos hd]

/-- The first table of classes cannot be made. -/
lemma Allocated.minimizeChecked_eq_error (h : d.Allocated)
    (hd : ¬(d.numStates = 0 ∨ d.start? = none)) (hout : d.LeadsOutside) :
    ∃ s ∈ d.live, d.numStates ≤ s ∧ d.minimizeChecked = .error (.outOfBounds d.numStates s) := by
  obtain ⟨s, hs, hle, herror⟩ :=
    refineUntilSame_eq_error divides_initialClasses (h.leadsOutside_iff_live.mp hout)
  refine ⟨s, hs, hle, ?_⟩
  rw [minimizeChecked, if_neg hd, herror, error_bind]

section

variable (hin : ¬d.LeadsOutside)

include hin

lemma lt_of_mem_live {s : Nat} (hs : s ∈ d.live) : s < d.numStates :=
  lt_of_not_leadsOutside hin (mem_reachable.mpr (mem_live.mp hs).1)

lemma lt_of_start? {s : Nat} (hs : d.start? = some s) : s < d.numStates :=
  lt_of_not_leadsOutside hin (mem_reachable.mpr ⟨[], by simp, by rw [run, hs]; rfl⟩)

lemma lt_of_step {s a t : Nat} (hs : s ∈ d.live) (ha : a ∈ d.alphabet.ids) (hstep : d.step s a = some t) :
    t < d.numStates := by
  obtain ⟨⟨u, hu, hrun⟩, -⟩ := mem_live.mp hs
  refine lt_of_not_leadsOutside hin (mem_reachable.mpr ⟨u ++ [a], ?_, ?_⟩)
  · exact List.forall_mem_append.mpr ⟨hu, List.forall_mem_singleton.mpr ha⟩
  · rw [run_append_singleton, hrun, Option.bind_some, hstep]

/-- All rounds find all classes. -/
lemma refineUntilSame_eq_refinement :
    d.refineUntilSame (d.live.size + 1) d.initialClasses = .ok d.refinement.2 :=
  refineUntilSame_eq divides_initialClasses (fun _ => lt_of_mem_live hin) (by omega)

end

/-- When the rounds have come to an end, the quotient is made. -/
lemma Allocated.minimizeChecked_eq_ok (h : d.Allocated) (hd : ¬(d.numStates = 0 ∨ d.start? = none))
    (hin : ¬d.LeadsOutside) : d.minimizeChecked = .ok d.minimize := by
  have hquotient := quotientChecked_eq (stable_refinement d).divides (fun _ => lt_of_mem_live hin)
    (fun _ hs _ ha _ => lt_of_step hin hs ha) (fun _ => lt_of_start? hin) h.size_labels
  rw [minimizeChecked, if_neg hd, refineUntilSame_eq_refinement hin, ok_bind, minimize_eq_quotient hd]
  exact hquotient

/-- Minimization either fails at a number that can be reached and is no state, or gives the minimized
automaton. -/
lemma Allocated.minimizeChecked_cases (h : d.Allocated) :
    (0 < d.numStates ∧ (∃ start, d.start? = some start) ∧ d.LeadsOutside) ∧
      (∃ s ∈ d.live, d.numStates ≤ s ∧ d.minimizeChecked = .error (.outOfBounds d.numStates s)) ∨
    ¬(0 < d.numStates ∧ (∃ start, d.start? = some start) ∧ d.LeadsOutside) ∧
      d.minimizeChecked = .ok d.minimize := by
  by_cases hd : d.numStates = 0 ∨ d.start? = none
  · refine Or.inr ⟨?_, by rw [minimizeChecked_eq_ofAlphabet hd, minimize_eq_ofAlphabet hd]⟩
    rintro ⟨hpos, ⟨start, hstart⟩, -⟩
    rcases hd with hzero | hnone
    · omega
    · exact absurd (hstart.symm.trans hnone) (by simp)
  · obtain ⟨hpos, hstart⟩ := not_or.mp hd
    by_cases hout : d.LeadsOutside
    · exact Or.inl ⟨⟨Nat.pos_of_ne_zero hpos, Option.ne_none_iff_exists'.mp hstart, hout⟩,
        h.minimizeChecked_eq_error hd hout⟩
    · exact Or.inr ⟨fun hcond => hout hcond.2.2, h.minimizeChecked_eq_ok hd hout⟩

/-- The condition under which minimization is known to give a result is the one under which it does. -/
lemma Allocated.minimize?_eq_toOption (h : d.Allocated) : d.minimize? = d.minimizeChecked.toOption := by
  rcases h.minimizeChecked_cases with ⟨⟨hpos, ⟨start, hstart⟩, -⟩, s, hs, hle, herror⟩ | ⟨hcond, hok⟩
  · rw [herror, minimize?, if_neg]
    · rfl
    · rw [canIndex_initialClasses_iff]
      rintro (hzero | hnone | hlive)
      · omega
      · exact absurd (hstart.symm.trans hnone) (by simp)
      · exact absurd (hlive s hs) (Nat.not_lt.mpr hle)
  · rw [hok, minimize?, if_pos]
    · rfl
    · rw [canIndex_initialClasses_iff, ← or_assoc, or_iff_not_imp_left, not_or]
      rintro ⟨hpos, hstart⟩ s hs
      refine Nat.lt_of_not_le fun hle => hcond ⟨Nat.pos_of_ne_zero hpos,
        Option.ne_none_iff_exists'.mp hstart, h.leadsOutside_iff_live.mpr ⟨s, hs, hle⟩⟩

/-- Whatever operations an automaton has gone through, minimizing it accesses an array out of bounds
exactly if it has states and a start state, and a word of symbol ids leads from the start state, through
the dead state or not, to a number that is no state.  The index is then such a number.  In all other cases
minimization returns; without states or a start state the result has no states. -/
theorem Operated.minimizeChecked_fails_iff (h : d.Operated mayGrow) :
    ((∃ fault, d.minimizeChecked = .error fault) ↔
      0 < d.numStates ∧ (∃ start, d.start? = some start) ∧ d.LeadsOutside) ∧
    (∀ fault, d.minimizeChecked = .error fault → ∃ u s, fault = .outOfBounds d.numStates s ∧
      d.numStates ≤ s ∧ (∀ a ∈ u, a ∈ d.alphabet.ids) ∧ d.run u = some s) ∧
    ((¬∃ fault, d.minimizeChecked = .error fault) → d.minimizeChecked = .ok d.minimize) ∧
    (d.numStates = 0 ∨ d.start? = none → d.minimizeChecked = .ok (Dfa.ofAlphabet d.alphabet)) ∧
    d.minimize? = d.minimizeChecked.toOption := by
  refine ⟨?_, ?_, ?_, minimizeChecked_eq_ofAlphabet, h.allocated.minimize?_eq_toOption⟩
  all_goals rcases h.allocated.minimizeChecked_cases with ⟨hcond, s, hs, hle, herror⟩ | ⟨hcond, hok⟩
  · exact iff_of_true ⟨_, herror⟩ hcond
  · exact iff_of_false (by simp [hok]) hcond
  · intro fault hfault
    obtain ⟨⟨u, hu, hrun⟩, -⟩ := mem_live.mp hs
    exact ⟨u, s, Except.error.inj (hfault.symm.trans herror), hle, hu, hrun⟩
  · intro fault hfault
    exact absurd (hfault.symm.trans hok) (by simp)
  · exact fun hno => absurd ⟨_, herror⟩ hno
  · exact fun _ => hok

/-- The first automaton comes from a file that cannot be written, since its only state is named after the
member for the start state, and its dead state has got a move to a number that is no state.  In the second
such a number is final and has moves, but none leads to it. -/
theorem Operated.minimizeChecked_fails_iff_of_dead :
    (∃ d : Dfa, (d.addTransition 1 0 7).Operated (fun _ => True) ∧ d.dead? = some 1 ∧ d.numStates = 2 ∧
      ∃ s, (d.addTransition 1 0 7).minimizeChecked = .error (.outOfBounds d.numStates s)) ∧
    ∃ d : Dfa, d.Operated (fun _ => True) ∧ 7 ∈ d.finals ∧ d.step 7 0 = some 9 ∧ d.numStates = 1 ∧
      d.minimizeChecked = .ok d.minimize := by
  constructor
  · have hfile : ∃ d, Dfa.ofFile ⟨startKey, .ofList [(startKey, ⟨false, .ofList [("a", deadName)]⟩)]⟩ =
        .ok d ∧ d.dead? = some 1 ∧ d.numStates = 2 ∧ d.start? = some 0 ∧
          (d.addTransition 1 0 7).LeadsOutside :=
      exists_eq_ok_and (p := fun d => d.dead? = some 1 ∧ d.numStates = 2 ∧ d.start? = some 0 ∧
        (d.addTransition 1 0 7).LeadsOutside) (by decide +kernel) fun _ _ hd => hd
    obtain ⟨d, hd, hdead, hnum, hstart, hout⟩ := hfile
    have hoperated := (@Operated.ofFile _ (fun _ => True) _ hd).addTransition 1 0 7
    refine ⟨d, hoperated, hdead, hnum, ?_⟩
    obtain ⟨hiff, hfault, -⟩ := Operated.minimizeChecked_fails_iff hoperated
    obtain ⟨fault, herror⟩ := hiff.mpr ⟨by rw [Dfa.addTransition, hnum]; decide, ⟨0, hstart⟩, hout⟩
    obtain ⟨-, s, rfl, -⟩ := hfault fault herror
    exact ⟨s, herror⟩
  · have hoperated := @Operated.ofAlphabet (fun _ => True) (Alphabet.empty.insert (.literal 'a'))
      |>.addState trivial |>.setStart 0 |>.addFinal 7 |>.addTransition 7 0 9
    refine ⟨_, hoperated, by decide +kernel, by decide +kernel, rfl, ?_⟩
    obtain ⟨hiff, -, hok, -⟩ := Operated.minimizeChecked_fails_iff hoperated
    refine hok fun hfails => ?_
    exact absurd (hiff.mp hfails).2.2 (by decide +kernel)

end Dfa
end RegexAutomata
