/-
# The numbers of states do not matter

The states of an automaton may be renamed by a permutation (`Enfa.Renamed`).  Then closures and
moves of the images of a set of states are the images of its closure and its moves.  A set of states is
determined by its image, so the powerset constructions of both automata go in step: what one of them has
numbered after taking up some sets are the images of what the other has numbered, in the same order
(`Enfa.InStep`).

A set is discovered as a whole and looked up as a whole, so neither the order of its members nor the
numbers they have enter into the deterministic automaton.  The main result is
`Enfa.Renamed.determinize_eq`: it is the same, apart from the sets that its states stand for, and so is
the minimized one.
-/
import Mathlib.Data.Set.Function
import Mathlib.Tactic.IntervalCases
import RegexAutomata.Proofs.Dfa.Idempotence
import RegexAutomata.Proofs.Enfa.Powerset

namespace RegexAutomata

/-! ### Images of sets -/

namespace StateSet

variable {f : Nat → Nat}

lemma image_unions (Ss : List StateSet) : (unions Ss).image f = unions (Ss.map (image f)) := by
  ext i
  simp only [mem_image, mem_unions, List.mem_map]
  constructor
  · rintro ⟨x, ⟨S, hS, hx⟩, rfl⟩
    exact ⟨_, ⟨S, hS, rfl⟩, mem_image.mpr ⟨x, hx, rfl⟩⟩
  · rintro ⟨_, ⟨S, hS, rfl⟩, hi⟩
    obtain ⟨x, hx, rfl⟩ := mem_image.mp hi
    exact ⟨x, ⟨S, hS, hx⟩, rfl⟩

lemma image_singleton (x : Nat) : (singleton x).image f = singleton (f x) := by
  ext i
  simp [eq_comm]

/-- A function that keeps the members of two sets apart keeps the sets apart. -/
lemma image_injOn {s : Set Nat} (hf : Set.InjOn f s) {S T : StateSet} (hS : ∀ x ∈ S, x ∈ s)
    (hT : ∀ x ∈ T, x ∈ s) (h : S.image f = T.image f) : S = T := by
  have hsub : ∀ {S T : StateSet}, (∀ x ∈ S, x ∈ s) → (∀ x ∈ T, x ∈ s) →
      S.image f = T.image f → ∀ x ∈ S, x ∈ T := by
    intro S T hS hT h x hx
    obtain ⟨y, hy, hyx⟩ := mem_image.mp (h ▸ mem_image.mpr ⟨x, hx, rfl⟩)
    exact hf (hT y hy) (hS x hx) hyx ▸ hy
  ext x
  exact ⟨hsub hS hT h x, hsub hT hS h.symm x⟩

end StateSet

/-! ### What states stand for -/

namespace Dfa

/-- The automaton whose states stand for the images of what they stood for. -/
def renameMapping (d : Dfa) (f : Nat → Nat) : Dfa :=
  { d with mapping? := d.mapping?.map (·.map (StateSet.image f)) }

variable {d : Dfa} {f : Nat → Nat}

lemma quotient_renameMapping (P : List StateSet) :
    (d.renameMapping f).quotient P = (d.quotient P).renameMapping f := by
  refine Dfa.ext rfl rfl rfl rfl rfl rfl ?_ rfl
  have hnum : ((d.renameMapping f).quotient P).numStates = (d.quotient P).numStates := rfl
  simp only [renameMapping, mapping?_quotient] at hnum ⊢
  rw [hnum]
  cases d.mapping? with
  | none => rfl
  | some mapping =>
    have hget : ∀ s, (mapping.map (StateSet.image f)).getD s ∅ = (mapping.getD s ∅).image f := by
      intro s
      simp only [List.getD_eq_getElem?_getD, List.getElem?_map]
      cases mapping[s]? <;> rfl
    simp only [Option.map_some, List.map_map, Option.some.injEq]
    refine List.map_congr_left fun i _ => ?_
    rw [Function.comp_apply, StateSet.image_unions, List.map_map]
    exact congrArg StateSet.unions (List.map_congr_left fun s _ => hget s)

/-- Refinement does not look at what the states stand for. -/
lemma refineRounds_renameMapping (rounds : Nat) (P : List StateSet) :
    (d.renameMapping f).refineRounds rounds P = d.refineRounds rounds P := by
  induction rounds generalizing P with
  | zero => rfl
  | succ rounds ih =>
    have hrefine : (d.renameMapping f).refine P = d.refine P := rfl
    rw [refineRounds, refineRounds, hrefine, ih]

lemma minimize_renameMapping : (d.renameMapping f).minimize = d.minimize.renameMapping f := by
  by_cases h : d.numStates = 0 ∨ d.start? = none
  · rw [minimize_eq_ofAlphabet h, minimize_eq_ofAlphabet (d := d.renameMapping f) h]
    rfl
  · have hrefinement : (d.renameMapping f).refinement = d.refinement :=
      refineRounds_renameMapping _ _
    rw [minimize_eq_quotient h, minimize_eq_quotient (d := d.renameMapping f) h, hrefinement,
      quotient_renameMapping]

end Dfa

namespace Enfa

/-- One automaton is another with its states renamed by a permutation. -/
structure Renamed (f : Nat → Nat) (n n' : Enfa) : Prop where
  bijOn : Set.BijOn f (Set.Iio n.numStates) (Set.Iio n.numStates)
  numStates_eq : n'.numStates = n.numStates
  alphabet_eq : n'.alphabet = n.alphabet
  start?_eq : n'.start? = n.start?.map f
  final_iff : ∀ s < n.numStates, f s ∈ n'.finals ↔ s ∈ n.finals
  edge_iff : ∀ s < n.numStates, ∀ d < n.numStates, ∀ l, n'.Edge (f s) l (f d) ↔ n.Edge s l d

namespace Renamed

variable {f : Nat → Nat} {n n' : Enfa} {S T : StateSet}

/-! ### Closures and moves -/

/-- Every edge of a renamed state is the image of an edge. -/
lemma exists_edge (h : Renamed f n n') (hn' : n'.WellFormed) {s y : Nat} {l : Label}
    (hs : s < n.numStates) (hedge : n'.Edge (f s) l y) :
    ∃ x < n.numStates, n.Edge s l x ∧ f x = y := by
  have hy := (hn'.edge_lt _ _ _ hedge).2
  rw [h.numStates_eq] at hy
  obtain ⟨x, hx, rfl⟩ := h.bijOn.surjOn hy
  exact ⟨x, hx, (h.edge_iff s hs x hx l).mp hedge, rfl⟩

lemma reaches (h : Renamed f n n') (hn : n.WellFormed) {s x : Nat}
    (hr : n.epsilon.Reaches s x) : n'.epsilon.Reaches (f s) (f x) := by
  induction hr with
  | refl => exact .refl _
  | tail _ edge ih =>
    have hlt := hn.edge_lt _ .epsilon _ edge
    exact .tail ih ((h.edge_iff _ hlt.1 _ hlt.2 .epsilon).mpr edge)

lemma exists_reaches (h : Renamed f n n') (hn' : n'.WellFormed) {s y : Nat}
    (hs : s < n.numStates) (hr : n'.epsilon.Reaches (f s) y) :
    ∃ x < n.numStates, n.epsilon.Reaches s x ∧ f x = y := by
  induction hr with
  | refl => exact ⟨s, hs, .refl s, rfl⟩
  | tail _ edge ih =>
    obtain ⟨m, hm, hr, rfl⟩ := ih
    obtain ⟨x, hx, hedge, rfl⟩ := h.exists_edge hn' (l := .epsilon) hm edge
    exact ⟨x, hx, .tail hr hedge, rfl⟩

/-- The closure of the image of a set of states is the image of its closure. -/
lemma closure_image (h : Renamed f n n') (hn : n.WellFormed) (hn' : n'.WellFormed)
    (hS : ∀ s ∈ S, s < n.numStates) : n'.closure (S.image f) = (n.closure S).image f := by
  ext y
  rw [hn'.mem_closure, StateSet.mem_image]
  constructor
  · rintro ⟨_, hi, hr⟩
    obtain ⟨s, hs, rfl⟩ := StateSet.mem_image.mp hi
    obtain ⟨x, -, hr', rfl⟩ := h.exists_reaches hn' (hS s hs) hr
    exact ⟨x, hn.mem_closure.mpr ⟨s, hs, hr'⟩, rfl⟩
  · rintro ⟨x, hx, rfl⟩
    obtain ⟨s, hs, hr⟩ := hn.mem_closure.mp hx
    exact ⟨f s, StateSet.mem_image.mpr ⟨s, hs, rfl⟩, h.reaches hn hr⟩

/-- The same for what is reached by a move. -/
lemma move_image (h : Renamed f n n') (hn : n.WellFormed) (hn' : n'.WellFormed)
    (hS : ∀ s ∈ S, s < n.numStates) (l : Label) :
    n'.move (S.image f) l = (n.move S l).image f := by
  ext y
  rw [hn'.mem_move, StateSet.mem_image]
  constructor
  · rintro ⟨_, hi, m', hedge, hr⟩
    obtain ⟨s, hs, rfl⟩ := StateSet.mem_image.mp hi
    obtain ⟨m, hm, hedge', rfl⟩ := h.exists_edge hn' (hS s hs) hedge
    obtain ⟨x, -, hr', rfl⟩ := h.exists_reaches hn' hm hr
    exact ⟨x, hn.mem_move.mpr ⟨s, hs, m, hedge', hr'⟩, rfl⟩
  · rintro ⟨x, hx, rfl⟩
    obtain ⟨s, hs, m, hedge, hr⟩ := hn.mem_move.mp hx
    have hlt := hn.edge_lt s l m hedge
    exact ⟨f s, StateSet.mem_image.mpr ⟨s, hs, rfl⟩, f m,
      (h.edge_iff s hlt.1 m hlt.2 l).mpr hedge, h.reaches hn hr⟩

lemma images_image (h : Renamed f n n') (hn : n.WellFormed) (hn' : n'.WellFormed)
    (hS : ∀ s ∈ S, s < n.numStates) :
    n'.images (S.image f) = (n.images S).map (StateSet.image f) := by
  rw [images, images, h.alphabet_eq, List.map_map]
  exact List.map_congr_left fun a _ => h.move_image hn hn' hS (.symbol a)

lemma intersects_image (h : Renamed f n n') (hS : ∀ s ∈ S, s < n.numStates) :
    (S.image f).intersects n'.finals = S.intersects n.finals := by
  rw [Bool.eq_iff_iff, StateSet.intersects_iff, StateSet.intersects_iff]
  constructor
  · rintro ⟨_, hi, hfinal⟩
    obtain ⟨s, hs, rfl⟩ := StateSet.mem_image.mp hi
    exact ⟨s, hs, (h.final_iff s (hS s hs)).mp hfinal⟩
  · rintro ⟨s, hs, hfinal⟩
    exact ⟨f s, StateSet.mem_image.mpr ⟨s, hs, rfl⟩, (h.final_iff s (hS s hs)).mpr hfinal⟩

end Renamed

/-! ### Numberings in step -/

/-- Two numberings hold sets of states and their images, in the same order. -/
structure InStep (f : Nat → Nat) (n : Enfa) (known known' : Numbering StateSet) : Prop where
  lt_numStates : ∀ S ∈ known.toList, ∀ x ∈ S, x < n.numStates
  toList_eq : known'.toList = known.toList.map (StateSet.image f)

namespace InStep

variable {f : Nat → Nat} {n n' : Enfa} {known known' : Numbering StateSet} {S : StateSet}

lemma size_eq (h : InStep f n known known') : known'.size = known.size := by
  rw [← Numbering.length_toList, h.toList_eq, List.length_map, Numbering.length_toList]

lemma value?_eq (h : InStep f n known known') (i : Nat) :
    known'.value? i = (known.value? i).map (StateSet.image f) := by
  rw [← Numbering.getElem?_toList, h.toList_eq, List.getElem?_map, Numbering.getElem?_toList]

lemma lt_of_value? (h : InStep f n known known') {i : Nat} (hi : known.value? i = some S) :
    ∀ x ∈ S, x < n.numStates :=
  h.lt_numStates S (Numbering.mem_toList_iff.mpr ⟨i, hi⟩)

/-- A set of states has the number that its image has. -/
lemma number?_eq (h : InStep f n known known') (hf : Set.InjOn f (Set.Iio n.numStates))
    (hS : ∀ x ∈ S, x < n.numStates) : known'.number? (S.image f) = known.number? S := by
  ext i
  rw [Numbering.number?_eq_some_iff, Numbering.number?_eq_some_iff, h.value?_eq]
  constructor
  · intro hi
    obtain ⟨T, hT, hTS⟩ := Option.map_eq_some_iff.mp hi
    rw [hT, StateSet.image_injOn hf (h.lt_of_value? hT) hS hTS]
  · intro hi
    rw [hi, Option.map_some]

lemma numberOf_eq (h : InStep f n known known') (hf : Set.InjOn f (Set.Iio n.numStates))
    (hS : ∀ x ∈ S, x < n.numStates) : known'.numberOf (S.image f) = known.numberOf S := by
  rw [Numbering.numberOf, Numbering.numberOf, h.number?_eq hf hS, h.size_eq]

lemma insert (h : InStep f n known known') (hf : Set.InjOn f (Set.Iio n.numStates))
    (hS : ∀ x ∈ S, x < n.numStates) : InStep f n (known.insert S) (known'.insert (S.image f)) := by
  refine ⟨?_, ?_⟩
  · intro T hT
    rcases Numbering.mem_insert.mp hT with hold | rfl
    · exact h.lt_numStates T hold
    · exact hS
  · have hmem : S.image f ∈ known'.toList ↔ S ∈ known.toList := by
      rw [← Numbering.isSome_number?, h.number?_eq hf hS, Numbering.isSome_number?]
    rw [Numbering.toList_insert, Numbering.toList_insert, h.toList_eq]
    by_cases hS' : S ∈ known.toList
    · rw [if_pos hS', if_pos (h.toList_eq ▸ hmem.mpr hS')]
    · rw [if_neg hS', if_neg (h.toList_eq ▸ mt hmem.mp hS'), List.map_append, List.map_singleton]

lemma foldl_insert (h : InStep f n known known') (hf : Set.InjOn f (Set.Iio n.numStates))
    {Ss : List StateSet} (hSs : ∀ S ∈ Ss, ∀ x ∈ S, x < n.numStates) :
    InStep f n (Ss.foldl .insert known) ((Ss.map (StateSet.image f)).foldl .insert known') := by
  induction Ss generalizing known known' with
  | nil => exact h
  | cons S Ss ih =>
    obtain ⟨hS, hSs⟩ := List.forall_mem_cons.mp hSs
    exact ih (h.insert hf hS) hSs

/-- Taking up one set after the other keeps the numberings in step. -/
lemma explore (h : InStep f n known known') (hr : Renamed f n n') (hn : n.WellFormed)
    (hn' : n'.WellFormed) (steps i : Nat) :
    InStep f n (n.explore steps i known) (n'.explore steps i known') := by
  induction steps generalizing i known known' with
  | zero => exact h
  | succ steps ih =>
    rw [Enfa.explore, Enfa.explore, h.value?_eq]
    cases hS : known.value? i with
    | none => exact h
    | some S =>
      have hlt := h.lt_of_value? hS
      simp only [Option.map_some]
      rw [hr.images_image hn hn' hlt]
      refine ih (h.foldl_insert hr.bijOn.injOn ?_) (i + 1)
      intro T hT x hx
      obtain ⟨a, -, rfl⟩ := mem_images.mp hT
      exact hn.lt_of_mem_move hx

end InStep

namespace Renamed

variable {f : Nat → Nat} {n n' : Enfa} {known known' : Numbering StateSet}

/-- The searches for sets begin with the closure of a state and its image, and go in step. -/
lemma inStep_subsets (h : Renamed f n n') (hn : n.WellFormed) (hn' : n'.WellFormed) {s : Nat}
    (hs : s < n.numStates) : InStep f n (n.subsets s) (n'.subsets (f s)) := by
  have hclosure : n'.closure (StateSet.singleton (f s)) =
      (n.closure (StateSet.singleton s)).image f := by
    rw [← StateSet.image_singleton]
    refine h.closure_image hn hn' fun x hx => ?_
    rwa [StateSet.mem_singleton.mp hx]
  rw [subsets, subsets, h.numStates_eq, hclosure]
  refine InStep.explore ⟨(exploring_closure hn hs).lt_numStates, ?_⟩ h hn hn' _ 0
  rw [Numbering.toList_ofList_singleton, Numbering.toList_ofList_singleton, List.map_singleton]

/-- Numberings that are in step make the same automaton, apart from what its states stand for. -/
lemma ofSubsets_eq (h : Renamed f n n') (hn : n.WellFormed) (hn' : n'.WellFormed)
    (hstep : InStep f n known known') :
    n'.ofSubsets known' = (n.ofSubsets known).renameMapping f := by
  have hinj := h.bijOn.injOn
  have hempty : (∅ : StateSet).image f = ∅ := rfl
  refine Dfa.ext hstep.size_eq rfl ?_ ?_ h.alphabet_eq ?_ ?_ ?_
  · show StateSet.ofList (List.filter _ (List.range known'.size)) =
      StateSet.ofList (List.filter _ (List.range known.size))
    rw [hstep.size_eq]
    refine congrArg StateSet.ofList (List.filter_congr fun i _ => ?_)
    rw [hstep.value?_eq]
    cases hS : known.value? i with
    | none => rfl
    | some S => exact h.intersects_image (hstep.lt_of_value? hS)
  · show known'.number? ∅ = known.number? ∅
    rw [← hempty]
    exact hstep.number?_eq hinj (by simp)
  · show Table.tabulate (List.range known'.size) n'.alphabet.ids _ =
      Table.tabulate (List.range known.size) n.alphabet.ids _
    rw [hstep.size_eq, h.alphabet_eq]
    refine Table.tabulate_congr fun i hi a _ => ?_
    obtain ⟨S, hS⟩ := Numbering.exists_value? (List.mem_range.mp hi)
    rw [hstep.value?_eq, hS, Option.map_some, Option.getD_some, Option.getD_some,
      h.move_image hn hn' (hstep.lt_of_value? hS)]
    exact hstep.numberOf_eq hinj fun x hx => hn.lt_of_mem_move hx
  · exact congrArg some hstep.toList_eq
  · show Array.range known'.size = Array.range known.size
    rw [hstep.size_eq]

lemma cacheClosures (h : Renamed f n n') : Renamed f n.cacheClosures n'.cacheClosures where
  bijOn := by simpa using h.bijOn
  numStates_eq := by simpa using h.numStates_eq
  alphabet_eq := by simpa using h.alphabet_eq
  start?_eq := by simpa using h.start?_eq
  final_iff := by simpa using h.final_iff
  edge_iff := by simpa using h.edge_iff

/-- Renaming the states of an automaton by a permutation changes nothing in the deterministic automaton
but the sets that its states stand for, which are renamed.  The same is true of the minimized
automaton. -/
theorem determinize_eq (h : Renamed f n n') (hn : n.Built) (hn' : n'.Built) :
    n'.determinize = n.determinize.renameMapping f ∧
      n'.determinize.minimize = n.determinize.minimize.renameMapping f := by
  have hdet : n'.determinize = n.determinize.renameMapping f := by
    cases hs : n.start? with
    | none =>
      have hs' : n'.start? = none := by rw [h.start?_eq, hs, Option.map_none]
      rw [determinize_eq_ofAlphabet hs, determinize_eq_ofAlphabet hs', h.alphabet_eq]
      rfl
    | some s =>
      have hs' : n'.start? = some (f s) := by rw [h.start?_eq, hs, Option.map_some]
      have hc := hn.wellFormed.cacheClosures
      have hc' := hn'.wellFormed.cacheClosures
      have hlt : s < n.cacheClosures.numStates := hc.start_lt s (by rw [start?_cacheClosures, hs])
      rw [determinize_eq_ofSubsets hs, determinize_eq_ofSubsets hs']
      exact h.cacheClosures.ofSubsets_eq hc hc' (h.cacheClosures.inStep_subsets hc hc' hlt)
  exact ⟨hdet, by rw [hdet, Dfa.minimize_renameMapping]⟩

/-- The four states of an automaton with a cycle through an epsilon move are renamed.  Closures are
kept in one of the two automata. -/
theorem determinize_eq_of_cycle :
    ∃ (f : Nat → Nat) (n n' : Enfa), Renamed f n n' ∧ n.Built ∧ n'.Built ∧
      (List.range 4).map f = [2, 0, 3, 1] ∧ n.closures? = none ∧ n'.closures?.isSome = true ∧
      n.determinize.mapping? = some [.ofList [0], .ofList [1, 2], ∅, .ofList [0, 3]] ∧
      n'.determinize.mapping? = some [.ofList [2], .ofList [0, 3], ∅, .ofList [1, 2]] ∧
      n'.determinize = n.determinize.renameMapping f ∧
      n'.determinize.minimize = n.determinize.minimize.renameMapping f := by
  have hn := Built.empty |>.addTransition 0 (.literal 'a') 1 |>.addEpsilon 1 2
    |>.addTransition 2 (.literal 'b') 0 |>.addTransition 1 (.literal 'b') 3 |>.setStart 0
    |>.addFinal 3
  have hn' := Built.empty |>.addEpsilon 0 3 |>.addTransition 2 (.literal 'a') 0 |>.addFinal 1
    |>.addTransition 0 (.literal 'b') 1 |>.addTransition 3 (.literal 'b') 2 |>.setStart 2
    |>.cacheClosures
  refine ⟨fun s => [2, 0, 3, 1].getD s s, _, _, ?renamed, hn, hn', by decide, by decide +kernel,
    by decide +kernel, by decide +kernel, by decide +kernel, determinize_eq ?renamed hn hn'⟩
  refine ⟨⟨?_, ?_, ?_⟩, by decide +kernel, by decide +kernel, by decide +kernel, by decide +kernel,
    ?_⟩
  · show ∀ s < 4, [2, 0, 3, 1].getD s s < 4
    decide
  · show ∀ s < 4, ∀ t < 4, [2, 0, 3, 1].getD s s = [2, 0, 3, 1].getD t t → s = t
    decide
  · show ∀ t < 4, ∃ s < 4, [2, 0, 3, 1].getD s s = t
    decide
  · intro s hs d hd l
    replace hs : s < 4 := hs
    replace hd : d < 4 := hd
    have hfirst : (empty.alphabet.insert (.literal 'a')).idOf (.literal 'b') = 1 := by decide
    have hagain : ((empty.alphabet.insert (.literal 'a')).insert (.literal 'b')).idOf
      (.literal 'b') = 1 := by decide
    simp only [edge_cacheClosures, edge_setStart, edge_addFinal, edge_addTransition, edge_addEpsilon,
      not_edge_empty, alphabet_addEpsilon, alphabet_addTransition, alphabet_addFinal, hfirst, hagain]
    interval_cases s <;> interval_cases d <;> simp

end Renamed

end Enfa
end RegexAutomata
