/-
# Where the states of a minimized automaton come from

A state of the minimized automaton has its name from the least of the states that are merged into it,
what is accepted from it from any of them, and what it stands for from all of them (`Dfa.Origin`).  The
names, the moves and the sets come from three passes over the classes.  They agree because a class is
represented by its least member in all of them, and its members do not differ in what is accepted.

If the automaton has been determinized before, its states stand for sets of states, and such a set tells
whether its state is final.  It holds what is reached on the words that lead to it, and this stays true
when states are merged.  The dead state stands for the empty set, since nothing is reached on a word that
leads to it.  The main result is `Enfa.Built.minimize_origins`.
-/
import RegexAutomata.Proofs.Dfa.Minimality
import RegexAutomata.Proofs.Enfa.Trim
import RegexAutomata.Proofs.Names
import RegexAutomata.Proofs.Paths

namespace RegexAutomata

/-! ### The states that are merged -/

namespace Dfa

/-- What a state of the minimized automaton has from the states that are merged into it.  The lists say
what the states of the two automata stand for, and the set which of that is final. -/
structure Origin (d : Dfa) (finals : StateSet) (before after : List StateSet) (i : Nat) : Prop where
  /-- A state is merged into this one if it is live and some word leads to both. -/
  merged_iff : ∀ p, d.representing? p = some i ↔ p ∈ d.live ∧
    ∃ u, (∀ a ∈ u, a ∈ d.alphabet.ids) ∧ d.run u = some p ∧ d.minimize.run u = some i
  /-- The least state that is merged gives the name. -/
  named : ∃ r, d.representing? r = some i ∧ (∀ p, d.representing? p = some i → r ≤ p) ∧
    d.minimize.stateName i = d.stateName r
  /-- From all states that are merged the same words are accepted. -/
  accepts_iff : ∀ p, d.representing? p = some i → ∀ u, (∀ a ∈ u, a ∈ d.alphabet.ids) →
    (d.AcceptsFrom p u ↔ d.minimize.AcceptsFrom i u)
  /-- The state stands for what they stand for, and is final if that has a final state. -/
  joined : ∃ T, after[i]? = some T ∧
    (∀ x, x ∈ T ↔ ∃ p S, d.representing? p = some i ∧ before[p]? = some S ∧ x ∈ S) ∧
    (i ∈ d.minimize.finals ↔ ∃ x ∈ T, x ∈ finals)

variable {d : Dfa} {before after : List StateSet} {finals : StateSet} {i p : Nat}

/-- The words that lead to a state lead to the one into which it is merged, so one of them
suffices to tell. -/
lemma WellFormed.representing?_eq_some_iff_run (h : d.WellFormed) : d.representing? p = some i ↔
    p ∈ d.live ∧
      ∃ u, (∀ a ∈ u, a ∈ d.alphabet.ids) ∧ d.run u = some p ∧ d.minimize.run u = some i := by
  constructor
  · intro hi
    obtain ⟨C, hC, hp⟩ := representing?_eq_some_iff.mp hi
    have hlive : p ∈ d.live :=
      (stable_refinement d).divides.mem_of_mem (List.mem_of_getElem? hC) hp
    obtain ⟨⟨u, hu, hrun⟩, -⟩ := mem_live.mp hlive
    exact ⟨hlive, u, hu, hrun, h.run_minimize_of_representing hi hu hrun⟩
  · rintro ⟨hlive, u, hu, hrun, hmin⟩
    obtain ⟨j, hj⟩ := exists_representing hlive
    rw [hj, ← h.run_minimize_of_representing hj hu hrun, hmin]

/-- The state of a class has the name of its least member. -/
lemma stateName_quotient {P : List StateSet} {S : StateSet} (hP : Divides P S)
    (hlive : ∀ x ∈ S, d.dead? ≠ some x) {C : StateSet} (hC : P[i]? = some C) :
    ∃ r ∈ C, (∀ x ∈ C, r ≤ x) ∧ (d.quotient P).stateName i = d.stateName r := by
  obtain ⟨r, hr, hrep⟩ := exists_representative hP hC
  have hlt : i < P.length := (List.getElem?_eq_some_iff.mp hC).1
  have hmin : C.min? = some r := by rwa [representative?, hC, Option.bind_some] at hrep
  have hdead : (d.quotient P).dead? ≠ some i := fun hdead =>
    Nat.ne_of_lt hlt (eq_of_dead?_quotient hdead)
  refine ⟨r, hr, (StateSet.min?_eq_some_iff.mp hmin).2, ?_⟩
  have hr' := hlive r (hP.mem_of_mem (List.mem_of_getElem? hC) hr)
  rw [stateName_of_live hdead, stateName_of_live hr', labelOf_quotient hlt hrep]

/-- What a state of a quotient stands for. -/
lemma getElem?_mapping_quotient {P : List StateSet} (hbefore : d.mapping? = some before)
    (hafter : (d.quotient P).mapping? = some after) (hi : i < (d.quotient P).numStates) :
    after[i]? = some (StateSet.unions ((P.getD i ∅).toList.map (before.getD · ∅))) := by
  rw [mapping?_quotient, hbefore, Option.map_some, Option.some.injEq] at hafter
  rw [← hafter, List.getElem?_map, List.getElem?_range hi, Option.map_some]

/-- The dead state of a quotient stands for nothing. -/
lemma getElem?_mapping_quotient_dead {P : List StateSet} {S : StateSet} (hP : Divides P S)
    (hbefore : d.mapping? = some before) (hafter : (d.quotient P).mapping? = some after)
    (hi : (d.quotient P).dead? = some i) : after[i]? = some ∅ := by
  obtain rfl := eq_of_dead?_quotient hi
  rw [getElem?_mapping_quotient hbefore hafter ((complete_quotient hP).dead_lt _ hi),
    List.getD_eq_getElem?_getD, List.getElem?_eq_none (Nat.le_refl _)]
  rfl

lemma mem_unions_mapping_iff {C : StateSet} (h : ∀ p ∈ C, ∃ S, before[p]? = some S) {x : Nat} :
    x ∈ StateSet.unions (C.toList.map (before.getD · ∅)) ↔
      ∃ p S, p ∈ C ∧ before[p]? = some S ∧ x ∈ S := by
  rw [StateSet.mem_unions_map]
  simp only [List.getD_eq_getElem?_getD, StateSet.mem_toList]
  constructor
  · rintro ⟨p, hp, hx⟩
    obtain ⟨S, hS⟩ := h p hp
    rw [hS, Option.getD_some] at hx
    exact ⟨p, S, hp, hS, hx⟩
  · rintro ⟨p, S, hp, hS, hx⟩
    exact ⟨p, hp, by rwa [hS, Option.getD_some]⟩

lemma representing?_eq_some_iff_mem {C : StateSet} (hC : d.refinement.2[i]? = some C) :
    d.representing? p = some i ↔ p ∈ C := by
  simp only [representing?_eq_some_iff, hC, Option.some.injEq, exists_eq_left']

/-- Where the states of a minimized automaton come from, if what a state stands for tells whether it is
final. -/
lemma WellFormed.origin (h : d.WellFormed) (hd : ¬(d.numStates = 0 ∨ d.start? = none))
    (hbefore : d.mapping? = some before) (hafter : d.minimize.mapping? = some after)
    (hfinal : ∀ p ∈ d.live, ∃ S, before[p]? = some S ∧ (p ∈ d.finals ↔ ∃ x ∈ S, x ∈ finals))
    (hi : i < d.minimize.numStates) (hdead : d.minimize.dead? ≠ some i) :
    d.Origin finals before after i := by
  have hstable := stable_refinement d
  have hlt : i < d.refinement.2.length := h.lt_numStates_minimize_iff.mp ⟨hi, hdead⟩
  obtain ⟨C, hC⟩ : ∃ C, d.refinement.2[i]? = some C := ⟨_, List.getElem?_eq_getElem hlt⟩
  have hset : ∀ p ∈ C, ∃ S, before[p]? = some S ∧ (p ∈ d.finals ↔ ∃ x ∈ S, x ∈ finals) :=
    fun p hp => hfinal p (hstable.divides.mem_of_mem (List.mem_of_getElem? hC) hp)
  have hmin := minimize_eq_quotient hd
  refine ⟨fun p => h.representing?_eq_some_iff_run, ?_, ?_, ?_⟩
  · simp only [representing?_eq_some_iff_mem hC, hmin]
    exact stateName_quotient hstable.divides (fun x hx => (mem_live.mp hx).2) hC
  · intro p hp u hu
    have hp : p ∈ C := (representing?_eq_some_iff_mem hC).mp hp
    rw [hmin, acceptsFrom_quotient_iff hstable h.toDeadAbsorbs hC hp hu]
  · rw [hmin] at hafter hi ⊢
    have hget : d.refinement.2.getD i ∅ = C := by
      rw [List.getD_eq_getElem?_getD, hC, Option.getD_some]
    have hT := getElem?_mapping_quotient hbefore hafter hi
    rw [hget] at hT
    have hmem := fun x => mem_unions_mapping_iff (x := x)
      fun p hp => (hset p hp).imp fun S hS => hS.1
    simp only [representing?_eq_some_iff_mem hC]
    refine ⟨_, hT, hmem, ?_⟩
    simp only [mem_finals_quotient, hC, Option.some.injEq, exists_eq_left', hmem]
    -- some member is final if and only if one of the sets that are joined has a final state
    constructor
    · rintro ⟨p, hp, hpf⟩
      obtain ⟨S, hS, hSf⟩ := hset p hp
      obtain ⟨x, hx, hxf⟩ := hSf.mp hpf
      exact ⟨x, ⟨p, S, hp, hS, hx⟩, hxf⟩
    · rintro ⟨x, ⟨p, S, hp, hS, hx⟩, hxf⟩
      obtain ⟨S', hS', hSf⟩ := hset p hp
      obtain rfl : S = S' := Option.some.inj (hS.symm.trans hS')
      exact ⟨p, hp, hSf.mpr ⟨x, hx, hxf⟩⟩

/-- If it is known what the states stand for, it is known after minimization. -/
lemma exists_mapping_minimize (hd : ¬(d.numStates = 0 ∨ d.start? = none))
    (hbefore : d.mapping? = some before) :
    ∃ after, d.minimize.mapping? = some after ∧ after.length = d.minimize.numStates := by
  rw [minimize_eq_quotient hd, mapping?_quotient, hbefore]
  exact ⟨_, rfl, by rw [List.length_map, List.length_range]⟩

end Dfa

/-! ### What is reached on a word -/

/-- The symbol id that a label carries, if it carries one. -/
def Label.id? : Label → Option Nat
  | .symbol id => some id
  | .epsilon => none

namespace Enfa

variable {n : Enfa} {S : StateSet}

/-- A path from a closed set ends in the set to which the symbol ids of its labels lead. -/
lemma WellFormed.mem_sweep_of_path (h : n.WellFormed) (hS : n.Closed S) {s x : Nat}
    {labels : List Label} (hpath : LabelPath n.Edge s labels x) (hs : s ∈ S) :
    x ∈ n.sweep S (labels.filterMap Label.id?) := by
  induction hpath generalizing S with
  | refl => exact hs
  | @cons s m x l labels first _ ih =>
    cases l with
    | epsilon => exact ih hS (hS s hs m (.tail (.refl s) first))
    | symbol a =>
      exact ih (h.closed_move (.symbol a)) (h.mem_move.mpr ⟨s, hs, m, first, .refl m⟩)

/-! ### Determinized automata -/

/-- The powerset automaton of an automaton with a start state is not empty. -/
lemma ofSubsets_ne_empty (h : n.WellFormed) {s : Nat} (hs : s < n.numStates) :
    ¬((n.ofSubsets (n.subsets s)).numStates = 0 ∨ (n.ofSubsets (n.subsets s)).start? = none) := by
  have hpos := (complete_ofSubsets h hs).start_lt 0 rfl
  rintro (hzero | hstart)
  · omega
  · exact absurd hstart (by simp [ofSubsets])

/-- A live state of the powerset automaton is final if the set it stands for has a final state. -/
lemma exists_set_of_mem_live (h : n.WellFormed) {s : Nat} (hs : s < n.numStates) {p : Nat}
    (hp : p ∈ (n.ofSubsets (n.subsets s)).live) : ∃ S, (n.subsets s).toList[p]? = some S ∧
      (p ∈ (n.ofSubsets (n.subsets s)).finals ↔ ∃ x ∈ S, x ∈ n.finals) := by
  have hlt := (complete_ofSubsets h hs).wellFormed.lt_of_mem_live hp
  obtain ⟨S, hS⟩ := Numbering.exists_value? hlt
  exact ⟨S, by rw [Numbering.getElem?_toList, hS], mem_finals_ofSubsets hS⟩

/-- The set for which a state of the minimized automaton stands holds what is reached on the words that
lead to it. -/
lemma exists_run_minimize_ofSubsets (h : n.WellFormed) {s : Nat} (hs : s < n.numStates)
    {after : List StateSet}
    (hafter : (n.ofSubsets (n.subsets s)).minimize.mapping? = some after) {u : List Nat}
    (hu : ∀ a ∈ u, a ∈ n.alphabet.ids) :
    ∃ i T, (n.ofSubsets (n.subsets s)).minimize.run u = some i ∧ after[i]? = some T ∧
      ∀ x ∈ n.sweep (n.closure (StateSet.singleton s)) u, x ∈ T := by
  have hcomplete := complete_ofSubsets h hs
  have hd := ofSubsets_ne_empty h hs
  obtain ⟨j, hrun, hj⟩ := run_ofSubsets h hs hu
  by_cases hlive : j ∈ (n.ofSubsets (n.subsets s)).live
  · obtain ⟨i, hi⟩ := Dfa.exists_representing hlive
    have hlt := Dfa.lt_length_of_classIndex (Dfa.stable_refinement _).divides.disjoint hi
    obtain ⟨hlt, hdead⟩ := hcomplete.wellFormed.lt_numStates_minimize_iff.mpr hlt
    have horigin := hcomplete.wellFormed.origin hd rfl hafter
      (fun p hp => exists_set_of_mem_live h hs hp) hlt hdead
    obtain ⟨T, hT, hmem, -⟩ := horigin.joined
    refine ⟨i, T, hcomplete.wellFormed.run_minimize_of_representing hi hu hrun, hT, fun x hx => ?_⟩
    exact (hmem x).mpr ⟨j, _, hi, by rw [Numbering.getElem?_toList, hj], hx⟩
  · -- the run ended in the dead state, so nothing is reached
    have hdead : (n.ofSubsets (n.subsets s)).dead? = some j := by
      by_contra hne
      exact hlive (Dfa.mem_live.mpr ⟨⟨u, hu, hrun⟩, hne⟩)
    have hempty := Option.some.inj (hj.symm.trans (Numbering.number?_eq_some_iff.mp hdead))
    obtain ⟨hmin, hlt⟩ := Dfa.run_quotient (Dfa.stable_refinement _) hcomplete.deadAbsorbs hu
    rw [Dfa.minimize_eq_quotient hd] at hafter ⊢
    refine ⟨_, _, hmin, Dfa.getElem?_mapping_quotient rfl hafter hlt, fun x hx => ?_⟩
    rw [hempty] at hx
    exact absurd hx StateSet.not_mem_empty

/-- Determinize an automaton with a start state and minimize the result.  Every state of the minimized
automaton but the dead one has its name, the words that are accepted from it, the states it stands for
and its being final from the states that are merged into it, and the dead state stands for no state.
Every word of symbol ids leads to a state that stands for all states that are reached on the word. -/
theorem Built.minimize_origins (h : n.Built) {s : Nat} (hs : n.start? = some s) :
    n.determinize.minimize? = some n.determinize.minimize ∧
      ∃ before after, n.determinize.mapping? = some before ∧
        before.length = n.determinize.numStates ∧
        n.determinize.minimize.mapping? = some after ∧
        after.length = n.determinize.minimize.numStates ∧
        (∀ i < n.determinize.minimize.numStates, n.determinize.minimize.dead? ≠ some i →
          n.determinize.Origin n.finals before after i) ∧
        (∀ i, n.determinize.minimize.dead? = some i → after[i]? = some ∅) ∧
        ∀ u, (∀ a ∈ u, a ∈ n.alphabet.ids) → ∃ i T, n.determinize.minimize.run u = some i ∧
          after[i]? = some T ∧
          ∀ labels x, LabelPath n.Edge s labels x → labels.filterMap Label.id? = u → x ∈ T := by
  have hn := h.wellFormed.cacheClosures
  have hlt : s < n.cacheClosures.numStates := hn.start_lt s (by rw [start?_cacheClosures, hs])
  have hwf := h.wellFormed.wellFormed_determinize
  have hd := ofSubsets_ne_empty hn hlt
  rw [determinize_eq_ofSubsets hs] at hwf ⊢
  obtain ⟨after, hafter, hlength⟩ := Dfa.exists_mapping_minimize hd rfl
  refine ⟨hwf.minimize?_eq, _, after, rfl, Numbering.length_toList _, hafter, hlength, ?_, ?_, ?_⟩
  · intro i hi hdead
    refine hwf.origin hd rfl hafter (fun p hp => ?_) hi hdead
    simpa only [finals_cacheClosures] using exists_set_of_mem_live hn hlt hp
  · intro i hi
    rw [Dfa.minimize_eq_quotient hd] at hi hafter
    exact Dfa.getElem?_mapping_quotient_dead (Dfa.stable_refinement _).divides rfl hafter hi
  · intro u hu
    obtain ⟨i, T, hrun, hT, hsub⟩ :=
      exists_run_minimize_ofSubsets hn hlt hafter (by rwa [alphabet_cacheClosures])
    refine ⟨i, T, hrun, hT, fun labels x hpath hlabels => hsub x ?_⟩
    have hedge : n.cacheClosures.Edge = n.Edge := by
      funext s l d
      exact propext edge_cacheClosures
    rw [← hedge] at hpath
    rw [← hlabels]
    refine hn.mem_sweep_of_path hn.closed_closure hpath ?_
    exact hn.mem_closure.mpr ⟨s, StateSet.mem_singleton.mpr rfl, .refl s⟩

/-- Minimization merges the sets of `1` and of `2`.  The last set comes behind the dead state and keeps its
name when its number becomes smaller. -/
theorem Built.minimize_origins_of_merged :
    ∃ n : Enfa, n.Built ∧ n.start? = some 0 ∧
      n.determinize.mapping? = some [.ofList [0], .ofList [1], .ofList [2, 3], ∅, .ofList [4]] ∧
      n.determinize.minimize.mapping? = some [.ofList [0], .ofList [1, 2, 3], .ofList [4], ∅] ∧
      n.determinize.minimize.dead? = some 3 ∧
      (List.range 4).map n.determinize.minimize.stateName = ["S0", "S1", "S4", "PHI"] ∧
      ∀ i < 3, n.determinize.Origin n.finals
        [.ofList [0], .ofList [1], .ofList [2, 3], ∅, .ofList [4]]
        [.ofList [0], .ofList [1, 2, 3], .ofList [4], ∅] i := by
  have hbuilt := Built.empty |>.addTransition 0 (.literal 'a') 1 |>.addTransition 0 (.literal 'b') 2
    |>.addEpsilon 2 3 |>.addTransition 1 (.literal 'c') 4 |>.addTransition 3 (.literal 'c') 4
    |>.setStart 0 |>.addFinal 4
  generalize hn : Enfa.addFinal _ 4 = n at hbuilt
  have hbefore : n.determinize.mapping? =
      some [.ofList [0], .ofList [1], .ofList [2, 3], ∅, .ofList [4]] := by
    subst hn
    decide +kernel
  have hafter : n.determinize.minimize.mapping? =
      some [.ofList [0], .ofList [1, 2, 3], .ofList [4], ∅] := by
    subst hn
    decide +kernel
  have hstart : n.start? = some 0 ∧ n.determinize.minimize.dead? = some 3 ∧
      (List.range 4).map n.determinize.minimize.stateName = ["S0", "S1", "S4", "PHI"] := by
    subst hn
    decide +kernel
  obtain ⟨hs, hdead, hnames⟩ := hstart
  refine ⟨n, hbuilt, hs, hbefore, hafter, hdead, hnames, ?_⟩
  obtain ⟨-, before, after, hbefore', -, hafter', hlength, horigin, -⟩ := hbuilt.minimize_origins hs
  obtain rfl := Option.some.inj (hbefore.symm.trans hbefore')
  obtain rfl := Option.some.inj (hafter.symm.trans hafter')
  intro i hi
  refine horigin i (hlength ▸ Nat.lt_succ_of_lt hi) fun hdead' => ?_
  exact Nat.ne_of_gt hi (Option.some.inj (hdead.symm.trans hdead'))

end Enfa

end RegexAutomata
