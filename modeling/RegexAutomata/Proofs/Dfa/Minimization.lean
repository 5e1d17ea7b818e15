/-
# Minimization preserves what is accepted

The quotient of an automaton by stable classes of its live states follows the automaton: the run of a
word in the quotient ends in the class of the state in which the run of the word in the automaton
ends, and in the dead state of the quotient if that run gets stuck or ends in the dead state
(`Dfa.run_quotient`).  The moves of a class are emitted from its least member only; since the classes
are stable, those of any other member would be the same.
-/
import RegexAutomata.Dfa.Minimal
import RegexAutomata.Proofs.Dfa.Complete
import RegexAutomata.Proofs.Dfa.Rounds

namespace RegexAutomata
namespace Dfa

variable {d : Dfa} {P : List StateSet} {S : StateSet}

/-- The state of the quotient that stands for the end of a run: the number of its class, and the
number behind all classes if the run got stuck or its end is in no class. -/
def classOf (P : List StateSet) (s? : Option Nat) : Nat :=
  (s?.bind ((classIndex P)[·]?)).getD P.length

/-- The class to which the moves of a class on a symbol lead, if they lead to one. -/
def moveClass? (d : Dfa) (P : List StateSet) (i a : Nat) : Option Nat :=
  ((representative? P i).bind (d.step · a)).bind ((classIndex P)[·]?)

lemma classOf_of_mem (h : Divides P S) {i s : Nat} {C : StateSet} (hC : P[i]? = some C)
    (hs : s ∈ C) : classOf P (some s) = i := by
  have hindex : (classIndex P)[s]? = some i := (getElem?_classIndex h.disjoint).mpr ⟨C, hC, hs⟩
  rw [classOf, Option.bind_some, hindex, Option.getD_some]

lemma classOf_of_not_mem (h : Divides P S) {s? : Option Nat} (hs : ∀ s, s? = some s → s ∉ S) :
    classOf P s? = P.length := by
  cases s? with
  | none => rfl
  | some s =>
    rw [classOf, Option.bind_some, (getElem?_classIndex_eq_none h).mpr (hs s rfl), Option.getD_none]

/-- Every class has a least member, which represents it. -/
lemma exists_representative (h : Divides P S) {i : Nat} {C : StateSet} (hC : P[i]? = some C) :
    ∃ r ∈ C, representative? P i = some r := by
  obtain ⟨x, hx⟩ := h.exists_mem C (List.mem_of_getElem? hC)
  obtain ⟨r, hr, hmin⟩ := StateSet.exists_min? hx
  refine ⟨r, hr, ?_⟩
  rw [representative?, hC, Option.bind_some, hmin]

/-- The moves of a class are those of any of its members. -/
lemma Stable.moveClass?_eq (h : d.Stable P S) {i s a : Nat} {C : StateSet} (hC : P[i]? = some C)
    (hs : s ∈ C) (ha : a ∈ d.alphabet.ids) :
    d.moveClass? P i a = (d.step s a).bind ((classIndex P)[·]?) := by
  obtain ⟨r, hr, hrep⟩ := exists_representative h.divides hC
  have hsig := h.signature_eq C (List.mem_of_getElem? hC) r hr s hs
  rw [signature, signature, List.map_inj_left] at hsig
  rw [moveClass?, hrep, Option.bind_some, hsig a ha]

/-! ### The dead state of the quotient -/

/-- The quotient has a dead state, behind all classes, exactly if its start state or some move needs
it. -/
lemma dead?_quotient : (d.quotient P).dead? = some P.length ↔
    d.start?.bind ((classIndex P)[·]?) = none ∨
      ∃ i < P.length, ∃ a ∈ d.alphabet.ids, d.moveClass? P i a = none := by
  simp only [quotient, moveClass?, Option.ite_none_right_eq_some, and_true, Bool.or_eq_true,
    List.any_eq_true, Option.isNone_iff_eq_none, List.mem_range]

lemma eq_of_dead?_quotient {i : Nat} (h : (d.quotient P).dead? = some i) : i = P.length := by
  simp only [quotient] at h
  split at h
  · exact (Option.some.inj h).symm
  · exact absurd h (by simp)

lemma lt_numStates_quotient {i : Nat} : i < (d.quotient P).numStates ↔
    i < P.length ∨ i = P.length ∧ (d.quotient P).dead? = some P.length := by
  simp only [quotient, List.length_range]
  split
  · simp only [and_true]
    omega
  · simp

/-- The moves of the quotient; where a move leads to no class, it leads to the dead state. -/
lemma step_quotient {i a : Nat} (hi : i < (d.quotient P).numStates) (ha : a ∈ d.alphabet.ids) :
    (d.quotient P).step i a = some ((d.moveClass? P i a).getD P.length) := by
  simp only [quotient, List.length_range] at hi
  simp only [quotient, step, Table.get?_tabulate, List.mem_range]
  rw [if_pos ⟨hi, ha⟩]
  rfl

lemma representative?_length (P : List StateSet) : representative? P P.length = none := by
  rw [representative?, List.getElem?_eq_none (Nat.le_refl _), Option.bind_none]

lemma moveClass?_length {a : Nat} : d.moveClass? P P.length a = none := by
  rw [moveClass?, representative?_length, Option.bind_none, Option.bind_none]

lemma lt_of_moveClass? (h : Divides P S) {i a j : Nat} (hj : d.moveClass? P i a = some j) :
    j < P.length := by
  obtain ⟨s, -, hs⟩ := Option.bind_eq_some_iff.mp hj
  exact lt_length_of_classIndex h.disjoint hs

/-- The destinations of the quotient are states of it. -/
lemma getD_moveClass?_lt (h : Divides P S) {i a : Nat} (hi : i < (d.quotient P).numStates)
    (ha : a ∈ d.alphabet.ids) : (d.moveClass? P i a).getD P.length < (d.quotient P).numStates := by
  rw [lt_numStates_quotient] at hi ⊢
  cases hm : d.moveClass? P i a with
  | none =>
    refine Or.inr ⟨rfl, ?_⟩
    rcases hi with hlt | ⟨-, hdead⟩
    · exact dead?_quotient.mpr (Or.inr ⟨i, hlt, a, ha, hm⟩)
    · exact hdead
  | some j =>
    exact Or.inl (lt_of_moveClass? h hm)

/-- The start state of a quotient is the class of the start state, and its dead state if that is in no
class. -/
lemma start?_quotient : (d.quotient P).start? = some (classOf P d.start?) := rfl

lemma classOf_start?_lt (h : Divides P S) :
    classOf P d.start? < (d.quotient P).numStates := by
  rw [lt_numStates_quotient]
  cases hc : d.start?.bind ((classIndex P)[·]?) with
  | none => exact Or.inr ⟨by rw [classOf, hc, Option.getD_none], dead?_quotient.mpr (Or.inl hc)⟩
  | some i =>
    obtain ⟨s, -, hs⟩ := Option.bind_eq_some_iff.mp hc
    rw [classOf, hc, Option.getD_some]
    exact Or.inl (lt_length_of_classIndex h.disjoint hs)

lemma mem_finals_quotient {i : Nat} :
    i ∈ (d.quotient P).finals ↔ ∃ C, P[i]? = some C ∧ ∃ s ∈ C, s ∈ d.finals := by
  simp only [quotient, StateSet.mem_ofList, List.mem_filter, List.mem_range, StateSet.intersects_iff]
  constructor
  · rintro ⟨hi, s, hs, hf⟩
    rw [List.getD_eq_getElem?_getD, List.getElem?_eq_getElem hi, Option.getD_some] at hs
    exact ⟨P[i], List.getElem?_eq_getElem hi, s, hs, hf⟩
  · rintro ⟨C, hC, s, hs, hf⟩
    refine ⟨(List.getElem?_eq_some_iff.mp hC).1, s, ?_, hf⟩
    rwa [List.getD_eq_getElem?_getD, hC, Option.getD_some]

/-- The dead state of a quotient absorbs, whatever the classes. -/
lemma deadAbsorbs_quotient : (d.quotient P).DeadAbsorbs := by
  refine ⟨?_, ?_⟩
  · intro i hi hf
    obtain ⟨C, hC, -⟩ := mem_finals_quotient.mp hf
    -- there is no class behind all classes
    rw [eq_of_dead?_quotient hi, List.getElem?_eq_none (Nat.le_refl _)] at hC
    exact absurd hC (by simp)
  · intro i hi a ha t ht
    have hlen := eq_of_dead?_quotient hi
    subst hlen
    rw [step_quotient (lt_numStates_quotient.mpr (Or.inr ⟨rfl, hi⟩)) ha, moveClass?_length,
      Option.getD_none, Option.some.injEq] at ht
    exact ht.symm

lemma mem_of_step_quotient {i a t : Nat} (h : (d.quotient P).step i a = some t) :
    i < (d.quotient P).numStates ∧ a ∈ d.alphabet.ids := by
  obtain ⟨⟨hi, ha⟩, -⟩ := Table.get?_tabulate_eq_some_iff.mp h
  exact ⟨by simpa only [quotient, List.length_range, List.mem_range] using hi, ha⟩

/-- The quotient by any division is complete. -/
lemma complete_quotient (h : Divides P S) : (d.quotient P).Complete where
  exists_start := fun _ => ⟨_, start?_quotient⟩
  start_lt := by
    intro s hs
    rw [start?_quotient, Option.some.injEq] at hs
    exact hs ▸ classOf_start?_lt h
  final_lt := by
    intro i hi
    obtain ⟨C, hC, -⟩ := mem_finals_quotient.mp hi
    exact lt_numStates_quotient.mpr (Or.inl (List.getElem?_eq_some_iff.mp hC).1)
  exists_step := fun i hi a ha => ⟨_, step_quotient hi ha⟩
  step_lt := by
    intro i a t ht
    obtain ⟨hi, ha⟩ := mem_of_step_quotient ht
    rw [step_quotient hi ha, Option.some.injEq] at ht
    exact ⟨hi, ha, ht ▸ getD_moveClass?_lt h hi ha⟩
  dead_lt := by
    intro i hi
    obtain rfl := eq_of_dead?_quotient hi
    exact lt_numStates_quotient.mpr (Or.inr ⟨rfl, hi⟩)
  dead_not_final := deadAbsorbs_quotient.not_mem_finals
  dead_step := by
    intro i hi a ha
    obtain rfl := eq_of_dead?_quotient hi
    rw [step_quotient (lt_numStates_quotient.mpr (Or.inr ⟨rfl, hi⟩)) ha, moveClass?_length,
      Option.getD_none]

/-! ### The quotient follows the automaton -/

/-- One step: where the moves of a class lead, and the dead state if they lead to none. -/
lemma Stable.step_classOf (h : d.Stable P d.live) (hd : d.DeadAbsorbs) {u : List Nat} {a : Nat}
    (hu : ∀ b ∈ u, b ∈ d.alphabet.ids) (ha : a ∈ d.alphabet.ids)
    (hlt : classOf P (d.run u) < (d.quotient P).numStates) :
    (d.quotient P).step (classOf P (d.run u)) a = some (classOf P (d.run (u ++ [a]))) := by
  rw [step_quotient hlt ha, run_append_singleton]
  by_cases hlive : ∃ s, d.run u = some s ∧ s ∈ d.live
  · obtain ⟨s, hrun, hs⟩ := hlive
    obtain ⟨C, hC, hsC⟩ := (h.divides.mem_iff s).mp hs
    obtain ⟨i, hi⟩ := List.mem_iff_getElem?.mp hC
    rw [hrun, classOf_of_mem h.divides hi hsC, h.moveClass?_eq hi hsC ha]
    rfl
  · -- the run got stuck, or it has come to the dead state and stays there
    have hstuck : ∀ s, d.run u = some s → d.dead? = some s := by
      intro s hrun
      by_contra hne
      exact hlive ⟨s, hrun, mem_live.mpr ⟨⟨u, hu, hrun⟩, hne⟩⟩
    have hnext : ∀ t, (d.run u).bind (d.step · a) = some t → t ∉ d.live := by
      intro t ht htlive
      obtain ⟨s, hrun, hstep⟩ := Option.bind_eq_some_iff.mp ht
      have hts := hd.step_eq s (hstuck s hrun) a ha t hstep
      exact (mem_live.mp htlive).2 (hts ▸ hstuck s hrun)
    rw [classOf_of_not_mem h.divides fun s hrun hs => hlive ⟨s, hrun, hs⟩, moveClass?_length,
      classOf_of_not_mem h.divides hnext, Option.getD_none]

/-- The run of a word in the quotient ends in the class in which the run of the word ends. -/
lemma run_quotient (h : d.Stable P d.live) (hd : d.DeadAbsorbs) {u : List Nat}
    (hu : ∀ a ∈ u, a ∈ d.alphabet.ids) :
    (d.quotient P).run u = some (classOf P (d.run u)) ∧
      classOf P (d.run u) < (d.quotient P).numStates := by
  induction u using List.reverseRecOn with
  | nil =>
    have hstart : d.run [] = d.start? := by
      cases hs : d.start? <;> simp [run, hs]
    rw [hstart]
    refine ⟨?_, classOf_start?_lt h.divides⟩
    rw [run, start?_quotient, Option.bind_some, walk_nil]
  | append_singleton u a ih =>
    obtain ⟨hu, ha⟩ := List.forall_mem_append.mp hu
    rw [List.forall_mem_singleton] at ha
    obtain ⟨hrun, hlt⟩ := ih hu
    have hstep := h.step_classOf hd hu ha hlt
    refine ⟨by rw [run_append_singleton, hrun, Option.bind_some, hstep], ?_⟩
    rw [step_quotient hlt ha, Option.some.injEq] at hstep
    exact hstep ▸ getD_moveClass?_lt h.divides hlt ha

/-- A class is final in the quotient exactly if the members of it are. -/
lemma classOf_mem_finals_iff (h : d.Stable P d.live) (hd : d.DeadAbsorbs) {u : List Nat}
    (hu : ∀ a ∈ u, a ∈ d.alphabet.ids) :
    classOf P (d.run u) ∈ (d.quotient P).finals ↔ ∃ s, d.run u = some s ∧ s ∈ d.finals := by
  rw [mem_finals_quotient]
  constructor
  · rintro ⟨C, hC, s, hs, hf⟩
    by_cases hlive : ∃ t, d.run u = some t ∧ t ∈ d.live
    · obtain ⟨t, hrun, ht⟩ := hlive
      obtain ⟨D, hD, htD⟩ := (h.divides.mem_iff t).mp ht
      obtain ⟨i, hi⟩ := List.mem_iff_getElem?.mp hD
      rw [hrun, classOf_of_mem h.divides hi htD, hi, Option.some.injEq] at hC
      subst hC
      exact ⟨t, hrun, (h.final_iff D hD s hs t htD).mp hf⟩
    · rw [classOf_of_not_mem h.divides fun t ht hmem => hlive ⟨t, ht, hmem⟩,
        List.getElem?_eq_none (Nat.le_refl _)] at hC
      exact absurd hC (by simp)
  · rintro ⟨s, hrun, hf⟩
    have hs : s ∈ d.live :=
      mem_live.mpr ⟨⟨u, hu, hrun⟩, fun hdead => hd.not_mem_finals s hdead hf⟩
    obtain ⟨C, hC, hsC⟩ := (h.divides.mem_iff s).mp hs
    obtain ⟨i, hi⟩ := List.mem_iff_getElem?.mp hC
    exact ⟨C, by rw [hrun, classOf_of_mem h.divides hi hsC, hi], s, hsC, hf⟩

/-- The quotient accepts the same words of symbol ids. -/
lemma acceptsWord_quotient_iff (h : d.Stable P d.live) (hd : d.DeadAbsorbs) {u : List Nat}
    (hu : ∀ a ∈ u, a ∈ d.alphabet.ids) : (d.quotient P).AcceptsWord u ↔ d.AcceptsWord u := by
  rw [AcceptsWord, AcceptsWord, (run_quotient h hd hu).1]
  simp only [Option.some.injEq, exists_eq_left']
  exact classOf_mem_finals_iff h hd hu

/-! ### The minimized automaton -/

lemma minimize_eq_ofAlphabet (h : d.numStates = 0 ∨ d.start? = none) :
    d.minimize = ofAlphabet d.alphabet := by
  rw [minimize, minimization, if_pos h]

lemma minimize_eq_quotient (h : ¬(d.numStates = 0 ∨ d.start? = none)) :
    d.minimize = d.quotient d.refinement.2 := by
  rw [minimize, minimization, if_neg h]

@[simp] lemma alphabet_minimize (d : Dfa) : d.minimize.alphabet = d.alphabet := by
  by_cases h : d.numStates = 0 ∨ d.start? = none
  · rw [minimize_eq_ofAlphabet h]
    rfl
  · rw [minimize_eq_quotient h]
    rfl

lemma complete_minimize (d : Dfa) : d.minimize.Complete := by
  by_cases h : d.numStates = 0 ∨ d.start? = none
  · rw [minimize_eq_ofAlphabet h]
    exact complete_ofAlphabet d.alphabet
  · rw [minimize_eq_quotient h]
    exact complete_quotient (stable_refinement d).divides

lemma minimize_of_minimize? {m : Dfa} (h : d.minimize? = some m) : m = d.minimize := by
  rw [minimize?] at h
  split at h
  · exact (Option.some.inj h).symm
  · exact absurd h (by simp)

lemma deadAbsorbs_minimize (d : Dfa) : d.minimize.DeadAbsorbs := (complete_minimize d).deadAbsorbs

/-- Without states there is no run: a well-formed automaton has at least its start state. -/
lemma WellFormed.run_eq_none (h : d.WellFormed) (hd : d.numStates = 0 ∨ d.start? = none)
    (u : List Nat) : d.run u = none := by
  have hstart : d.start? = none := by
    rcases hd with hzero | hnone
    · cases hs : d.start? with
      | none => rfl
      | some s =>
        have hlt := h.run_lt [] (by simp) s (by simp [run, hs])
        omega
    · exact hnone
  rw [run, hstart, Option.bind_none]

lemma canIndex_initialClasses_iff :
    d.canIndex d.initialClasses = true ↔ ∀ s ∈ d.live, s < d.numStates := by
  simp only [canIndex, List.all_eq_true, decide_eq_true_eq, StateSet.mem_toList,
    divides_initialClasses.mem_iff]
  constructor
  · rintro h s ⟨C, hC, hs⟩
    exact h C hC s hs
  · intro h C hC s hs
    exact h s ⟨C, hC, hs⟩

/-- Minimization finds all states that it divides into classes. -/
lemma WellFormed.minimize?_eq (h : d.WellFormed) : d.minimize? = some d.minimize := by
  have hindex := canIndex_initialClasses_iff.mpr fun _ hs => h.lt_of_mem_live hs
  rw [minimize?, if_pos (Or.inr (Or.inr hindex))]

/-- The minimized automaton accepts the same words of symbol ids. -/
lemma WellFormed.acceptsWord_minimize_iff (h : d.WellFormed) {u : List Nat}
    (hu : ∀ a ∈ u, a ∈ d.alphabet.ids) : d.minimize.AcceptsWord u ↔ d.AcceptsWord u := by
  by_cases hd : d.numStates = 0 ∨ d.start? = none
  · have hmin : d.minimize.run u = none := by
      rw [minimize_eq_ofAlphabet hd]
      rfl
    rw [AcceptsWord, AcceptsWord, hmin, h.run_eq_none hd u]
    simp
  · rw [minimize_eq_quotient hd]
    exact acceptsWord_quotient_iff (stable_refinement d) h.toDeadAbsorbs hu

/-- The minimized automaton accepts the same strings. -/
lemma WellFormed.accepts_minimize_eq (h : d.WellFormed) (w : List Char) :
    d.minimize.accepts w = d.accepts w := by
  rw [Bool.eq_iff_iff, (deadAbsorbs_minimize d).accepts_iff, h.toDeadAbsorbs.accepts_iff,
    alphabet_minimize]
  constructor
  · rintro ⟨u, hu, haccepts⟩
    exact ⟨u, hu, (h.acceptsWord_minimize_iff hu.mem_ids).mp haccepts⟩
  · rintro ⟨u, hu, haccepts⟩
    exact ⟨u, hu, (h.acceptsWord_minimize_iff hu.mem_ids).mpr haccepts⟩

/-- Minimization of a well-formed automaton, moves missing or not, succeeds and preserves what is
accepted, strings as well as words of symbol ids. -/
theorem minimize_preserves_acceptance (h : d.WellFormed) :
    d.minimize? = some d.minimize ∧
      (∀ w, d.minimize.accepts w = d.accepts w) ∧
      ∀ u, (∀ a ∈ u, a ∈ d.alphabet.ids) →
        ((∃ s, d.minimize.run u = some s ∧ s ∈ d.minimize.finals) ↔
          ∃ s, d.run u = some s ∧ s ∈ d.finals) := by
  refine ⟨h.minimize?_eq, h.accepts_minimize_eq, ?_⟩
  intro u hu
  show d.minimize.AcceptsWord u ↔ d.AcceptsWord u
  exact h.acceptsWord_minimize_iff hu

/-- An automaton with a dead state, a missing move and two symbols that match `b`. -/
theorem minimize_preserves_acceptance_of_missing :
    ∃ d : Dfa, d.dead? = some 2 ∧ d.run [0, 0] = none ∧ d.WellFormed ∧
      d.accepts ['a', 'b'] = true ∧ d.minimize.accepts ['a', 'b'] = d.accepts ['a', 'b'] := by
  refine ⟨ofAlphabet ((Alphabet.empty.insert (.literal 'b')).insert (.range 'a' 'c'))
    |>.addState |>.addState |>.ensureDead |>.addTransition 0 0 1 |>.addTransition 0 1 0
    |>.addTransition 1 1 2 |>.setStart 0 |>.addFinal 1, rfl, by decide +kernel, ?_⟩
  generalize hd : addFinal _ 1 = d
  have hdead : d.dead? = some 2 := by rw [← hd]; rfl
  have hfinals : 2 ∉ d.finals := by rw [← hd]; decide +kernel
  have hloop : ∀ a ∈ d.alphabet.ids, d.step 2 a = some 2 := by rw [← hd]; decide +kernel
  have hlt : ∀ s ∈ d.reachable, s < d.numStates := by rw [← hd]; decide +kernel
  have hwf : d.WellFormed := by
    refine wellFormed_iff.mpr ⟨⟨?_, ?_⟩, hlt⟩
    · intro s hs
      obtain rfl := Option.some.inj (hdead.symm.trans hs)
      exact hfinals
    · intro s hs a ha t ht
      obtain rfl := Option.some.inj (hdead.symm.trans hs)
      exact (Option.some.inj ((hloop a ha).symm.trans ht)).symm
  have haccepts : d.accepts ['a', 'b'] = true := by rw [← hd]; decide +kernel
  exact ⟨hwf, haccepts, (minimize_preserves_acceptance hwf).2.1 _⟩

end Dfa
end RegexAutomata
