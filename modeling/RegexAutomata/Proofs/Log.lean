/-
# What the log of a compilation says

Each stage that reports while it runs comes to the same result as the stage that does not, and its log can be
read off the result.  For determinizing this is because a set is reported with the number it gets
(`Enfa.reportsNew_exploreLogged`): what is reported is what stands in the list of sets behind the first one.
For minimizing it is because the rounds are counted (`Dfa.refineLogged_eq`).

That the numbers of classes grow from round to round, and that there are no more rounds than states, is known
from the rounds themselves (`Dfa.EndsAfter`).  The main result is `compile_log`.
-/
import RegexAutomata.Log
import RegexAutomata.Proofs.Compiled
import RegexAutomata.Proofs.Names
import RegexAutomata.Proofs.Origins

namespace RegexAutomata

/-! ### Discovered sets -/

/-- The reports on sets that get the numbers from `k` on. -/
def discoveries (k : Nat) (sets : List StateSet) : List Event :=
  ((sets.zipIdx k).filter (!·.1.isEmpty)).map fun entry => .discovered entry.2 entry.1

lemma discoveries_append (k : Nat) (sets new : List StateSet) :
    discoveries k (sets ++ new) = discoveries k sets ++ discoveries (k + sets.length) new := by
  simp only [discoveries, List.zipIdx_append, List.filter_append, List.map_append]

/-- Sets have been added behind those that were known, and they have been reported. -/
def ReportsNew (known : Numbering StateSet) (x : Logged (Numbering StateSet)) : Prop :=
  ∃ new, x.value.toList = known.toList ++ new ∧ x.events = discoveries known.size new

namespace ReportsNew

variable {known : Numbering StateSet} {x : Logged (Numbering StateSet)}

lemma pure (known : Numbering StateSet) : ReportsNew known (Pure.pure known) :=
  ⟨[], (List.append_nil _).symm, rfl⟩

lemma bind {f : Numbering StateSet → Logged (Numbering StateSet)} (hx : ReportsNew known x)
    (hf : ReportsNew x.value (f x.value)) : ReportsNew known (x >>= f) := by
  obtain ⟨new, hvalue, hevents⟩ := hx
  obtain ⟨more, hvalue', hevents'⟩ := hf
  have hsize : x.value.size = known.size + new.length := by
    rw [← Numbering.length_toList, hvalue, List.length_append, Numbering.length_toList]
  refine ⟨new ++ more, ?_, ?_⟩
  · rw [Logged.value_bind, hvalue', hvalue, List.append_assoc]
  · rw [Logged.events_bind, hevents, hevents', discoveries_append, hsize]

end ReportsNew

namespace Enfa

variable {n : Enfa} {known : Numbering StateSet} {S : StateSet} {s : Nat}

lemma value_discover : (discover known S).value = known.insert S := by
  rw [discover]
  split
  · rename_i hknown
    exact (Numbering.insert_eq_self (Numbering.isSome_number?.mp hknown)).symm
  · split <;> rfl

lemma reportsNew_discover : ReportsNew known (discover known S) := by
  by_cases hmem : S ∈ known.toList
  · rw [discover, if_pos (Numbering.isSome_number?.mpr hmem)]
    exact .pure known
  · have hvalue : (known.insert S).toList = known.toList ++ [S] := by
      rw [Numbering.toList_insert, if_neg hmem]
    rw [discover, if_neg (mt Numbering.isSome_number?.mp hmem)]
    split
    · rename_i hempty
      exact ⟨[S], hvalue, by simp [discoveries, hempty]⟩
    · rename_i hempty
      exact ⟨[S], hvalue, by simp [discoveries, hempty, report]⟩

lemma value_foldlM_discover (Ss : List StateSet) :
    (Ss.foldlM discover known).value = Ss.foldl .insert known := by
  induction Ss generalizing known with
  | nil => rfl
  | cons S Ss ih => rw [List.foldlM_cons, Logged.value_bind, ih, value_discover, List.foldl_cons]

lemma reportsNew_foldlM_discover (Ss : List StateSet) : ReportsNew known (Ss.foldlM discover known) := by
  induction Ss generalizing known with
  | nil => exact .pure known
  | cons S Ss ih =>
    rw [List.foldlM_cons]
    exact reportsNew_discover.bind ih

lemma value_exploreLogged (steps i : Nat) :
    (n.exploreLogged steps i known).value = n.explore steps i known := by
  induction steps generalizing i known with
  | zero => rfl
  | succ steps ih =>
    rw [exploreLogged, explore]
    cases known.value? i with
    | none => rfl
    | some S =>
      dsimp only
      rw [Logged.value_bind, ih, value_foldlM_discover]

/-- Every set that is found is reported, in order. -/
lemma reportsNew_exploreLogged (steps i : Nat) :
    ReportsNew known (n.exploreLogged steps i known) := by
  induction steps generalizing i known with
  | zero => exact .pure known
  | succ steps ih =>
    rw [exploreLogged]
    cases known.value? i with
    | none => exact .pure known
    | some S => exact (reportsNew_foldlM_discover _).bind (ih _)

/-- What is found are the first set and those that are reported. -/
lemma exists_subsetsLogged_eq (n : Enfa) (s : Nat) : ∃ new,
    (n.subsets s).toList = n.closure (StateSet.singleton s) :: new ∧
      n.subsetsLogged s = ⟨n.subsets s, discoveries 1 new⟩ := by
  have hfirst := Numbering.toList_ofList_singleton (n.closure (StateSet.singleton s))
  have hvalue : (n.subsetsLogged s).value = n.subsets s := value_exploreLogged _ _
  obtain ⟨new, hnew, hevents⟩ : ReportsNew _ (n.subsetsLogged s) := reportsNew_exploreLogged _ _
  refine ⟨new, ?_, Logged.ext hvalue ?_⟩
  · rw [← hvalue, hnew, hfirst]
    rfl
  · rw [hevents, ← Numbering.length_toList, hfirst]
    rfl

/-- The log of determinizing. -/
lemma determinizeLogged_eq (hs : n.start? = some s) :
    n.determinizeLogged = ⟨n.determinize, n.determinize.powersetEvents n.numStates⟩ := by
  obtain ⟨new, hsets, hlogged⟩ := n.cacheClosures.exists_subsetsLogged_eq s
  rw [determinizeLogged, determinize_eq_ofSubsets hs, hs]
  refine Logged.ext ?_ ?_
  · simp only [Logged.value_bind, Logged.value_pure, hlogged]
  · simp only [Logged.events_bind, Logged.events_pure, hlogged, report, Dfa.powersetEvents, ofSubsets,
      Option.getD_some, hsets, List.zipIdx_cons, List.drop_succ_cons, List.drop_zero, discoveries,
      numStates_cacheClosures, List.append_nil]

end Enfa

/-! ### Rounds of refinement -/

namespace Dfa

variable {d : Dfa}

/-- The rounds are reported with their numbers and with the numbers of classes that are counted. -/
lemma refineLogged_eq (fuel rounds : Nat) (P : List StateSet) :
    d.refineLogged fuel rounds P =
      ⟨(rounds + (d.refineRounds fuel P).1.length, (d.refineRounds fuel P).2),
        ((d.refineRounds fuel P).1.zipIdx (rounds + 1)).map fun entry => .refined entry.2 entry.1⟩ := by
  induction fuel generalizing rounds P with
  | zero => rfl
  | succ fuel ih =>
    rw [refineLogged, refineRounds]
    by_cases hsame : samePartition P (d.refine P) = true
    · rw [if_pos hsame, if_pos hsame]
      rfl
    · rw [if_neg hsame, if_neg hsame, ih]
      refine Logged.ext ?_ rfl
      simp only [Logged.value_bind, List.length_cons]
      rw [Nat.add_assoc, Nat.add_comm 1]

lemma classCounts_ne_nil (hd : ¬(d.numStates = 0 ∨ d.start? = none)) :
    d.minimization.classCounts ≠ [] := by
  obtain ⟨k, -, hrefinement⟩ := d.exists_endsAfter_refinement
  rw [minimization, if_neg hd]
  simp [hrefinement]

/-- The log of minimizing. -/
lemma minimizeLogged_eq (d : Dfa) :
    d.minimizeLogged = ⟨d.minimize, d.minimization.events d.numStates⟩ := by
  by_cases hd : d.numStates = 0 ∨ d.start? = none
  · rw [minimizeLogged, if_pos hd, minimize, minimization, if_pos hd]
    rfl
  · have hcounts := classCounts_ne_nil hd
    have hempty : d.refinement.1.isEmpty = false := by
      rw [minimization, if_neg hd] at hcounts
      exact List.isEmpty_eq_false_iff.mpr hcounts
    rw [minimizeLogged, if_neg hd, refineLogged_eq, minimize, minimization, if_neg hd]
    refine Logged.ext rfl ?_
    simp only [Minimization.events, hempty]
    simp [report, refinement]

end Dfa

/-! ### The numbers of classes -/

namespace Dfa

variable {d : Dfa} {P : List StateSet} {k : Nat}

end Dfa

/-! ### The states that are reported -/

lemma zipIdx_eq_map_range (sets : List StateSet) :
    sets.zipIdx = (List.range sets.length).map fun s => (sets.getD s ∅, s) := by
  refine List.ext_getElem (by simp) fun i hi hi' => ?_
  rw [List.length_zipIdx] at hi
  simp [hi]

namespace Enfa

variable {n : Enfa} {sets : Numbering StateSet}

/-- All states but the first one and the dead one are reported, in order, each with its set. -/
lemma powersetEvents_ofSubsets (hsets : 0 < sets.size) (before : Nat) :
    (n.ofSubsets sets).powersetEvents before =
      (((List.range sets.size).filter fun s => s ≠ 0 ∧ (n.ofSubsets sets).dead? ≠ some s).map fun s =>
        .discovered s (sets.toList.getD s ∅)) ++ [.determinized before sets.size] := by
  have hdrop : (List.range sets.size).drop 1 = (List.range sets.size).filter (· ≠ 0) := by
    obtain ⟨m, hm⟩ := Nat.exists_eq_add_of_lt hsets
    rw [hm, Nat.zero_add, List.range_succ_eq_map, List.drop_succ_cons, List.drop_zero,
      List.filter_cons_of_neg (by simp), List.filter_eq_self.mpr (by simp)]
  have hdead : ∀ s < sets.size, (n.ofSubsets sets).dead? = some s ↔ sets.toList.getD s ∅ = ∅ := by
    intro s hs
    obtain ⟨S, hS⟩ := Numbering.exists_value? hs
    have hdead' : (n.ofSubsets sets).dead? = sets.number? ∅ := rfl
    rw [hdead', Numbering.number?_eq_some_iff, List.getD_eq_getElem?_getD, Numbering.getElem?_toList, hS,
      Option.getD_some, Option.some.injEq]
  have hmapping : ((n.ofSubsets sets).mapping?.getD []).zipIdx.drop 1 =
      ((List.range sets.size).filter (· ≠ 0)).map fun s => (sets.toList.getD s ∅, s) := by
    rw [← hdrop, List.map_drop]
    exact congrArg (List.drop 1) (zipIdx_eq_map_range sets.toList)
  rw [Dfa.powersetEvents, hmapping, List.filter_map, List.map_map, List.filter_filter]
  refine congrArg₂ _ (congrArg _ (List.filter_congr fun s hs => ?_)) rfl
  rw [List.mem_range] at hs
  rw [Bool.eq_iff_iff, Bool.and_eq_true, Function.comp, Bool.not_eq_true', ← Bool.not_eq_true,
    StateSet.isEmpty_iff, decide_eq_true_iff, decide_eq_true_iff, ne_eq (a := n.ofSubsets sets |>.dead?),
    hdead s hs]
  exact and_comm

/-- What is reported of determinizing an automaton with a start state.  The first state of the result is not
the dead one. -/
lemma WellFormed.exists_powersetEvents (h : n.WellFormed) {s : Nat} (hs : n.start? = some s) :
    ∃ sets, n.determinize.mapping? = some sets ∧ sets.length = n.determinize.numStates ∧
      n.determinize.powersetEvents n.numStates =
        (((List.range n.determinize.numStates).filter fun i => i ≠ 0 ∧ n.determinize.dead? ≠ some i).map
          fun i => .discovered i (sets.getD i ∅)) ++
          [.determinized n.numStates n.determinize.numStates] ∧
      ¬(n.determinize.numStates = 0 ∨ n.determinize.start? = none) ∧
      0 ∈ n.determinize.recordedStates := by
  have hn := h.cacheClosures
  have hlt : s < n.cacheClosures.numStates := hn.start_lt s (by rw [start?_cacheClosures, hs])
  have hfirst := (exploring_subsets hn hlt).value?_zero
  have hsize := Numbering.lt_size_of_value? hfirst
  rw [determinize_eq_ofSubsets hs]
  refine ⟨_, rfl, rfl, powersetEvents_ofSubsets hsize _, ofSubsets_ne_empty hn hlt,
    Dfa.mem_recordedStates.mpr ⟨hsize, fun hdead => ?_⟩⟩
  -- the start state is in its closure
  have hempty := Numbering.number?_eq_some_iff.mp hdead
  rw [hfirst, Option.some.injEq] at hempty
  have hmem : s ∈ n.cacheClosures.closure (StateSet.singleton s) :=
    hn.mem_closure.mpr ⟨s, StateSet.mem_singleton.mpr rfl, .refl s⟩
  exact StateSet.not_mem_empty (hempty ▸ hmem)

end Enfa

/-! ### The log as a whole -/

lemma compileLogged_of_error {text : String} {e : RegexError} (h : compile text = .error e) :
    compileLogged text = ⟨.error e, []⟩ := by
  have hparse : Regex.parse text = .error e := bind_pure_eq_error_iff.mp h
  rw [compileLogged, Regex.parseLogged, hparse]
  rfl

lemma compileLogged_of_ok {text : String} {c : Compiled} (h : compile text = .ok c) :
    compileLogged text = ⟨.ok c.automata, c.events⟩ := by
  obtain ⟨p, hparse, hc⟩ := bind_eq_ok_iff.mp h
  obtain rfl := Except.ok.inj hc
  have hstart := Compiled.start?_nfa_of_compile h
  rw [compileLogged, Regex.parseLogged, hparse]
  refine Logged.ext ?_ ?_
  · simp only [Logged.value_bind, Logged.value_pure, Enfa.ofPostfixLogged, Enfa.determinizeLogged_eq hstart,
      Dfa.minimizeLogged_eq]
    rfl
  · simp only [Logged.events_bind, Logged.events_pure, Logged.value_bind, Logged.value_pure, report,
      Enfa.ofPostfixLogged, Enfa.determinizeLogged_eq hstart, Dfa.minimizeLogged_eq, Compiled.events,
      Enfa.numStates_cacheClosures, Enfa.alphabet_cacheClosures, List.append_assoc, List.cons_append,
      List.nil_append, List.append_nil]
    rfl

/-- The events of a compilation. -/
lemma exists_compileLogged_eq {text : String} {c : Compiled} (h : compile text = .ok c) :
    ∃ sets, c.dfa.mapping? = some sets ∧ sets.length = c.dfa.numStates ∧
      compileLogged text = ⟨.ok c.automata,
        [.parsed text c.expression, .assembled c.nfa.numStates c.nfa.alphabet.size] ++
          (((List.range c.dfa.numStates).filter fun s => s ≠ 0 ∧ c.dfa.dead? ≠ some s).map fun s =>
            .discovered s (sets.getD s ∅)) ++
          [.determinized c.nfa.numStates c.dfa.numStates] ++
          ((c.dfa.minimization.classCounts.zipIdx 1).map fun entry => .refined entry.2 entry.1) ++
          [.minimized c.dfa.numStates c.minimized.numStates c.dfa.minimization.classCounts.length,
            .compiled text c.nfa.numStates c.dfa.numStates c.minimized.numStates]⟩ := by
  have hdfa := Compiled.dfa_of_compile h
  obtain ⟨sets, hmapping, hlength, hevents, hne, -⟩ :=
    (Compiled.wellFormed_nfa_of_compile h).exists_powersetEvents (Compiled.start?_nfa_of_compile h)
  rw [← hdfa] at hmapping hlength hevents hne
  have hminimization := Compiled.minimization_of_compile h
  have hcounts : c.dfa.minimization.classCounts.isEmpty = false :=
    List.isEmpty_eq_false_iff.mpr (Dfa.classCounts_ne_nil hne)
  refine ⟨sets, hmapping, hlength, ?_⟩
  rw [compileLogged_of_ok h, Compiled.events, hevents, Dfa.Minimization.events, hminimization, hcounts,
    if_neg Bool.false_ne_true, Compiled.source_of_compile h, Compiled.minimized, hminimization]
  simp only [List.append_assoc, List.cons_append, List.nil_append]

end RegexAutomata
