/-
# Minimizing twice

Minimizing a minimized automaton gives the same automaton, state for state
(`Dfa.minimize_minimize`).  A quotient mirrors the automaton (`Dfa.Stable.mirrors_quotient`), so refinement
of the quotient goes through the same rounds as refinement of the automaton, and its classes are always
the images of those of the automaton, in the same order.  In the end they are the single states in order,
and the quotient by these is the automaton itself (`Dfa.quotient_singletons`).
-/
import RegexAutomata.Proofs.Dfa.Images
import RegexAutomata.Proofs.Dfa.Minimization

namespace RegexAutomata

/-- Only the values of the states and symbol ids that are given enter a table. -/
lemma Table.tabulate_congr {α : Type} {states ids : List Nat} {f g : Nat → Nat → α}
    (h : ∀ s ∈ states, ∀ a ∈ ids, f s a = g s a) : tabulate states ids f = tabulate states ids g := by
  refine List.foldr_ext _ _ _ fun s hs t => List.foldr_ext _ _ _ ?_
  intro a ha t
  rw [h s hs a ha]

namespace Dfa

variable {d : Dfa} {P F : List StateSet} {S : StateSet} {x : Nat}

/-! ### Live states of a quotient -/

/-- The number of the class that a live state becomes. -/
def toClass (P : List StateSet) (x : Nat) : Nat :=
  classOf P (some x)

lemma toClass_of_mem (h : Divides P S) {C : StateSet} {i : Nat} (hi : P[i]? = some C) (hx : x ∈ C) :
    toClass P x = i :=
  classOf_of_mem h hi hx

lemma ascending_toClass (h : Divides P S) : Ascending (toClass P) P := by
  refine List.pairwise_iff_getElem.mpr ?_
  intro i j hi hj hij x hx y hy
  rwa [toClass_of_mem h (List.getElem?_eq_getElem hi) hx,
    toClass_of_mem h (List.getElem?_eq_getElem hj) hy]

lemma toClass_lt_length (h : Divides P S) (hx : x ∈ S) : toClass P x < P.length := by
  obtain ⟨C, hC, hxC⟩ := (h.mem_iff x).mp hx
  obtain ⟨i, hi⟩ := List.mem_iff_getElem?.mp hC
  rw [toClass_of_mem h hi hxC]
  exact (List.getElem?_eq_some_iff.mp hi).1

/-- The live states of a quotient are the classes of the live states. -/
lemma live_quotient (h : d.Stable F d.live) (hd : d.DeadAbsorbs) :
    (d.quotient F).live = d.live.image (toClass F) := by
  ext i
  rw [mem_live, StateSet.mem_image]
  constructor
  · rintro ⟨⟨u, hu, hrun⟩, hdead⟩
    obtain ⟨hrun', hlt⟩ := run_quotient h hd hu
    obtain rfl : classOf F (d.run u) = i := Option.some.inj (hrun'.symm.trans hrun)
    by_cases hlive : ∃ x, d.run u = some x ∧ x ∈ d.live
    · obtain ⟨x, hx, hlive⟩ := hlive
      exact ⟨x, hlive, by rw [hx, toClass]⟩
    · -- behind all classes there is only the dead state
      have hend := classOf_of_not_mem h.divides fun x hx hmem => hlive ⟨x, hx, hmem⟩
      rw [hend] at hlt hdead
      rcases lt_numStates_quotient.mp hlt with hlt | ⟨-, hdead'⟩
      · exact absurd hlt (Nat.lt_irrefl _)
      · exact absurd hdead' hdead
  · rintro ⟨x, hx, rfl⟩
    obtain ⟨⟨u, hu, hrun⟩, -⟩ := mem_live.mp hx
    refine ⟨⟨u, hu, by rw [(run_quotient h hd hu).1, hrun, toClass]⟩, ?_⟩
    intro hdead
    exact Nat.ne_of_lt (toClass_lt_length h.divides hx) (eq_of_dead?_quotient hdead)

lemma toClass_mem_finals_quotient_iff (h : d.Stable F d.live) (hx : x ∈ d.live) :
    toClass F x ∈ (d.quotient F).finals ↔ x ∈ d.finals := by
  obtain ⟨C, hC, hxC⟩ := (h.divides.mem_iff x).mp hx
  obtain ⟨i, hi⟩ := List.mem_iff_getElem?.mp hC
  rw [toClass_of_mem h.divides hi hxC, mem_finals_quotient]
  constructor
  · rintro ⟨D, hD, s, hs, hfinal⟩
    obtain rfl : C = D := Option.some.inj (hi.symm.trans hD)
    exact (h.final_iff C hC s hs x hxC).mp hfinal
  · exact fun hfinal => ⟨C, hi, x, hxC, hfinal⟩

/-! ### Refinement of a quotient -/

/-- A quotient has the moves of the automaton, from class to class. -/
lemma Stable.mirrors_quotient (h : d.Stable F d.live) (hd : d.DeadAbsorbs) :
    Mirrors (toClass F) d (d.quotient F) := by
  have hmove : ∀ x ∈ d.live, ∀ a ∈ d.alphabet.ids, (d.quotient F).step (toClass F x) a =
      some (classOf F (d.step x a)) := by
    intro x hx a ha
    obtain ⟨C, hC, hxC⟩ := (h.divides.mem_iff x).mp hx
    obtain ⟨i, hi⟩ := List.mem_iff_getElem?.mp hC
    have hlt : i < (d.quotient F).numStates :=
      lt_numStates_quotient.mpr (Or.inl (List.getElem?_eq_some_iff.mp hi).1)
    rw [toClass_of_mem h.divides hi hxC, step_quotient hlt ha, h.moveClass?_eq hi hxC ha, classOf]
  refine ⟨rfl, live_quotient h hd, fun x hx => toClass_mem_finals_quotient_iff h hx, ?_, ?_⟩
  · intro x hx a ha y _ hstep
    rw [hmove x hx a ha, hstep, toClass]
  · intro x hx a ha hnone j hj hstep
    -- the move leads to the number behind all classes, which is not live
    have hend := classOf_of_not_mem h.divides fun y hstep' hy => hnone y hy hstep'
    rw [hmove x hx a ha, hend, Option.some.injEq] at hstep
    rw [live_quotient h hd, ← hstep, StateSet.mem_image] at hj
    obtain ⟨y, hy, hlen⟩ := hj
    exact Nat.ne_of_lt (toClass_lt_length h.divides hy) hlen

/-- Refinement of the quotient ends with the images of the classes. -/
lemma refinement_quotient (hd : d.DeadAbsorbs) :
    (d.quotient d.refinement.2).refinement.2 =
      d.refinement.2.map (StateSet.image (toClass d.refinement.2)) := by
  have hstable := stable_refinement d
  have hasc := ascending_toClass hstable.divides
  obtain ⟨n, hn, hfixed⟩ := d.exists_refinement_eq_iterate
  refine (hstable.mirrors_quotient hd).refinement_image hn hfixed fun j hj => ?_
  -- what ascends along the classes in the end ascends along those after one more round
  have hlast : Ascending (toClass d.refinement.2) (d.refine^[n + 1] d.initialClasses) := by
    rwa [Function.iterate_succ_apply', ← hn, hfixed]
  have hnext := ascending_of_iterate_refine hlast (Nat.succ_le_succ hj)
  rw [Function.iterate_succ_apply'] at hnext
  exact keeps_of_ascending hnext

/-! ### The quotient by single states -/

/-- The states below a number, each a class of its own. -/
def singletons (k : Nat) : List StateSet := (List.range k).map StateSet.singleton

@[simp] lemma length_singletons (k : Nat) : (singletons k).length = k := by
  rw [singletons, List.length_map, List.length_range]

lemma getElem?_singletons_of_lt {k i : Nat} (hi : i < k) :
    (singletons k)[i]? = some (StateSet.singleton i) := by
  rw [singletons, List.getElem?_map, List.getElem?_range hi, Option.map_some]

/-- The image of a class is the state that it has become. -/
lemma map_image_toClass (h : Divides P S) :
    P.map (StateSet.image (toClass P)) = singletons P.length := by
  refine List.ext_getElem (by simp) ?_
  intro i hi hi'
  rw [List.length_map] at hi
  rw [List.getElem_map, (List.getElem?_eq_some_iff.mp (getElem?_singletons_of_lt hi)).2]
  ext j
  have hC : P[i]? = some P[i] := List.getElem?_eq_getElem hi
  rw [StateSet.mem_image, StateSet.mem_singleton]
  constructor
  · rintro ⟨x, hx, rfl⟩
    exact toClass_of_mem h hC hx
  · rintro rfl
    obtain ⟨x, hx⟩ := h.exists_mem P[j] (List.getElem_mem hi)
    exact ⟨x, hx, toClass_of_mem h hC hx⟩

lemma getD_singletons_length (k : Nat) : (singletons k).getD k ∅ = ∅ := by
  rw [List.getD_eq_getElem?_getD, List.getElem?_eq_none (by simp), Option.getD_none]

lemma disjoint_singletons (k : Nat) :
    (singletons k).Pairwise fun C D => ∀ x ∈ C, x ∉ D := by
  refine List.pairwise_map.mpr (List.Pairwise.imp ?_ List.nodup_range)
  intro i j hij x hx hx'
  exact hij ((StateSet.mem_singleton.mp hx).symm.trans (StateSet.mem_singleton.mp hx'))

lemma getElem?_classIndex_singletons {k i : Nat} (hi : i < k) :
    (classIndex (singletons k))[i]? = some i :=
  (getElem?_classIndex (disjoint_singletons k)).mpr
    ⟨_, getElem?_singletons_of_lt hi, StateSet.mem_singleton.mpr rfl⟩

lemma getElem?_classIndex_singletons_self (k : Nat) : (classIndex (singletons k))[k]? = none := by
  rw [Option.eq_none_iff_forall_ne_some]
  intro j hj
  obtain ⟨C, hC, hk⟩ := (getElem?_classIndex (disjoint_singletons k)).mp hj
  obtain ⟨i, hi, rfl⟩ := List.mem_map.mp (List.mem_of_getElem? hC)
  rw [StateSet.mem_singleton.mp hk] at hi
  exact List.not_mem_range_self hi

/-- A class has its own number, and the dead state behind all classes has none. -/
lemma bind_classIndex_singletons {k : Nat} {i? : Option Nat} (hi : ∀ i, i? = some i → i < k) :
    (classIndex (singletons k))[i?.getD k]? = i? := by
  cases i? with
  | none => exact getElem?_classIndex_singletons_self k
  | some i => exact getElem?_classIndex_singletons (hi i rfl)

lemma representative?_singletons {k i : Nat} (hi : i < k) :
    representative? (singletons k) i = some i := by
  rw [representative?, getElem?_singletons_of_lt hi]
  rfl

lemma representative?_singletons_self (k : Nat) : representative? (singletons k) k = none := by
  have hnone := representative?_length (singletons k)
  rwa [length_singletons] at hnone

lemma moveClass?_singletons (h : Divides P S) {i a : Nat} (hi : i < (d.quotient P).numStates)
    (ha : a ∈ d.alphabet.ids) :
    (d.quotient P).moveClass? (singletons P.length) i a = d.moveClass? P i a := by
  rcases lt_numStates_quotient.mp hi with hlt | ⟨rfl, -⟩
  · rw [moveClass?, representative?_singletons hlt, Option.bind_some, step_quotient hi ha,
      Option.bind_some]
    exact bind_classIndex_singletons fun j hj => lt_of_moveClass? h hj
  · rw [moveClass?_length, moveClass?, representative?_singletons_self, Option.bind_none,
      Option.bind_none]

lemma startClass?_singletons (h : Divides P S) :
    (d.quotient P).start?.bind ((classIndex (singletons P.length))[·]?) =
      d.start?.bind ((classIndex P)[·]?) := by
  rw [start?_quotient, Option.bind_some]
  refine bind_classIndex_singletons ?_
  intro i hi
  obtain ⟨s, -, hs⟩ := Option.bind_eq_some_iff.mp hi
  exact lt_length_of_classIndex h.disjoint hs

/-! ### The fields of a quotient -/

lemma numStates_quotient : (d.quotient P).numStates =
    if (d.quotient P).dead?.isSome then P.length + 1 else P.length := by
  simp only [quotient, List.length_range]
  split <;> simp

lemma table_quotient : (d.quotient P).table = Table.tabulate (List.range (d.quotient P).numStates)
    d.alphabet.ids fun i a => (d.moveClass? P i a).getD P.length := by
  simp only [quotient, List.length_range]
  rfl

lemma mapping?_quotient : (d.quotient P).mapping? = d.mapping?.map fun mapping =>
    (List.range (d.quotient P).numStates).map fun i =>
      StateSet.unions ((P.getD i ∅).toList.map (mapping.getD · ∅)) := by
  simp only [quotient, List.length_range]

lemma labels_quotient : (d.quotient P).labels =
    ((List.range (d.quotient P).numStates).map fun i =>
      (representative? P i).elim i fun s => (d.labels[s]?).getD s).toArray := by
  simp only [quotient, List.length_range]
  refine congrArg List.toArray (List.map_congr_left fun i _ => ?_)
  cases representative? P i <;> rfl

lemma size_labels_quotient : (d.quotient P).labels.size = (d.quotient P).numStates := by
  rw [labels_quotient, List.size_toArray, List.length_map, List.length_range]

lemma start?_quotient_singletons (h : Divides P S) :
    ((d.quotient P).quotient (singletons P.length)).start? = (d.quotient P).start? := by
  show some (((d.quotient P).start?.bind ((classIndex (singletons P.length))[·]?)).getD
    (singletons P.length).length) = _
  rw [startClass?_singletons h, length_singletons]
  rfl

lemma finals_quotient_singletons :
    ((d.quotient P).quotient (singletons P.length)).finals = (d.quotient P).finals := by
  ext i
  rw [mem_finals_quotient]
  constructor
  · rintro ⟨C, hC, s, hs, hfinal⟩
    have hi : i < P.length := by simpa using (List.getElem?_eq_some_iff.mp hC).1
    obtain rfl := Option.some.inj ((getElem?_singletons_of_lt hi).symm.trans hC)
    exact StateSet.mem_singleton.mp hs ▸ hfinal
  · intro hfinal
    obtain ⟨C, hC, -⟩ := mem_finals_quotient.mp hfinal
    have hi : i < P.length := (List.getElem?_eq_some_iff.mp hC).1
    exact ⟨_, getElem?_singletons_of_lt hi, i, StateSet.mem_singleton.mpr rfl, hfinal⟩

lemma dead?_quotient_singletons (h : Divides P S) :
    ((d.quotient P).quotient (singletons P.length)).dead? = (d.quotient P).dead? := by
  have hneeds : ((d.quotient P).quotient (singletons P.length)).dead? = some P.length ↔
      (d.quotient P).dead? = some P.length := by
    have hdead := dead?_quotient (d := d.quotient P) (P := singletons P.length)
    rw [length_singletons, startClass?_singletons h] at hdead
    rw [hdead, dead?_quotient]
    refine or_congr_right (exists_congr fun i => and_congr_right fun hi => ?_)
    refine exists_congr fun a => and_congr_right fun ha => ?_
    rw [moveClass?_singletons (d := d) h (lt_numStates_quotient.mpr (Or.inl hi)) ha]
  ext i
  constructor
  · intro hi
    obtain rfl : i = P.length := by simpa using eq_of_dead?_quotient hi
    exact hneeds.mp hi
  · intro hi
    obtain rfl := eq_of_dead?_quotient hi
    exact hneeds.mpr hi

lemma numStates_quotient_singletons (h : Divides P S) :
    ((d.quotient P).quotient (singletons P.length)).numStates = (d.quotient P).numStates := by
  rw [numStates_quotient, numStates_quotient (P := P), dead?_quotient_singletons h,
    length_singletons]

lemma table_quotient_singletons (h : Divides P S) :
    ((d.quotient P).quotient (singletons P.length)).table = (d.quotient P).table := by
  rw [table_quotient, table_quotient (P := P), numStates_quotient_singletons h, length_singletons]
  refine Table.tabulate_congr ?_
  intro i hi a ha
  rw [moveClass?_singletons (d := d) h (List.mem_range.mp hi) ha]

lemma mapping?_quotient_singletons (h : Divides P S) :
    ((d.quotient P).quotient (singletons P.length)).mapping? = (d.quotient P).mapping? := by
  rw [mapping?_quotient, numStates_quotient_singletons h, mapping?_quotient (P := P)]
  cases d.mapping? with
  | none => rfl
  | some mapping =>
    refine congrArg some (List.map_congr_left ?_)
    intro i hi
    rcases lt_numStates_quotient.mp (List.mem_range.mp hi) with hlt | ⟨rfl, -⟩
    · -- a single state stands for what its class stands for
      have hclass : (singletons P.length).getD i ∅ = StateSet.singleton i := by
        rw [List.getD_eq_getElem?_getD, getElem?_singletons_of_lt hlt, Option.getD_some]
      rw [hclass]
      ext x
      simp [StateSet.singleton, List.getElem?_range (List.mem_range.mp hi)]
    · have hnone : P.getD P.length ∅ = ∅ := by
        rw [List.getD_eq_getElem?_getD, List.getElem?_eq_none (Nat.le_refl _), Option.getD_none]
      rw [getD_singletons_length, hnone]
      rfl

lemma labels_quotient_singletons (h : Divides P S) :
    ((d.quotient P).quotient (singletons P.length)).labels = (d.quotient P).labels := by
  rw [labels_quotient, numStates_quotient_singletons h, labels_quotient (P := P)]
  refine congrArg List.toArray (List.map_congr_left ?_)
  intro i hi
  rcases lt_numStates_quotient.mp (List.mem_range.mp hi) with hlt | ⟨rfl, -⟩
  · rw [representative?_singletons hlt]
    simp [List.getElem?_range (List.mem_range.mp hi)]
  · rw [representative?_singletons_self, representative?_length, Option.elim_none, Option.elim_none]

/-- The quotient of a quotient by its single states is the quotient itself. -/
lemma quotient_singletons (h : Divides P S) :
    (d.quotient P).quotient (singletons P.length) = d.quotient P :=
  Dfa.ext (numStates_quotient_singletons h) (start?_quotient_singletons h)
    finals_quotient_singletons (dead?_quotient_singletons h) rfl (table_quotient_singletons h)
    (mapping?_quotient_singletons h) (labels_quotient_singletons h)

/-! ### Minimizing twice -/

lemma minimize_minimize (hd : d.DeadAbsorbs) : d.minimize.minimize = d.minimize := by
  by_cases h : d.numStates = 0 ∨ d.start? = none
  · rw [minimize_eq_ofAlphabet h]
    exact minimize_eq_ofAlphabet (Or.inl rfl)
  · have hdivides := (stable_refinement d).divides
    have hstart : ¬((d.quotient d.refinement.2).numStates = 0 ∨
        (d.quotient d.refinement.2).start? = none) := by
      have hlt := classOf_start?_lt (d := d) hdivides
      rw [start?_quotient]
      simp only [reduceCtorEq, or_false]
      omega
    rw [minimize_eq_quotient h, minimize_eq_quotient hstart, refinement_quotient hd,
      map_image_toClass hdivides]
    exact quotient_singletons hdivides

/-- Minimizing a minimized automaton gives the same automaton: the states keep their numbers, their
labels and what they stand for. -/
theorem minimize_idempotent (h : d.WellFormed) :
    d.minimize? = some d.minimize ∧ d.minimize.minimize? = some d.minimize := by
  refine ⟨h.minimize?_eq, ?_⟩
  rw [(complete_minimize d).wellFormed.minimize?_eq, minimize_minimize h.toDeadAbsorbs]

/-- The dead state of this automaton comes first, two of its states are joined, and a move is missing. -/
theorem minimize_idempotent_of_missing :
    ∃ d : Dfa, d.WellFormed ∧ d.dead? = some 0 ∧ d.step 1 1 = none ∧
      d.minimize.numStates = 3 ∧ d.minimize.dead? = some 2 ∧
      d.minimize.mapping? = some [.ofList [3], .ofList [4, 5], ∅] ∧
      d.minimize? = some d.minimize ∧ d.minimize.minimize? = some d.minimize := by
  refine ⟨ofAlphabet ((Alphabet.empty.insert (.literal 'a')).insert (.literal 'b'))
    |>.ensureDead |>.addState |>.addState |>.addState |>.addTransition 1 0 2 |>.addTransition 2 0 3
    |>.addTransition 3 0 2 |>.addTransition 2 1 0 |>.addTransition 3 1 0 |>.setStart 1
    |>.addFinal 2 |>.addFinal 3
    |>.setMapping [∅, .ofList [3], .ofList [4], .ofList [4, 5]], ?_⟩
  exact ⟨by decide +kernel, rfl, by decide +kernel, by decide +kernel, by decide +kernel,
    by decide +kernel, minimize_idempotent (by decide +kernel)⟩

end Dfa
end RegexAutomata
