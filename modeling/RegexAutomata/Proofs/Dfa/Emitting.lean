/-
# The minimized automaton is built move by move

While the states are visited, what has been built is a draft of the quotient: the moves of a class are done
when the least member of the class has been visited.  Visiting goes in step with the emission of the moves of
classes (`Dfa.Parallel`), from which it differs in that the moves are set at once and the dead state is created
when it is needed.  So in the end what has been built is alike to the quotient
(`Dfa.exists_quotientStepwise`).

The main result is `Dfa.Operated.minimizeStepwise_alike`: whatever operations an automaton has gone through,
minimizing it move by move fails as minimization does, or gives an automaton that is alike to the minimized
one.
-/
import RegexAutomata.Dfa.Emitting
import RegexAutomata.Proofs.Dfa.Bounds
import RegexAutomata.Proofs.Dfa.Draft

namespace RegexAutomata
namespace Dfa

variable {d m : Dfa} {P : List StateSet} {S : StateSet} {table : Array (Option Nat)} {k i : Nat}

/-! ### States for the classes -/

/-- The label of the least member of a class. -/
def leastLabel (d : Dfa) (P : List StateSet) (i : Nat) : Nat :=
  (representative? P i).elim i fun s => (d.labels[s]?).getD s

/-- The labels of all classes. -/
def leastLabels (d : Dfa) (P : List StateSet) : Array Nat :=
  ((List.range P.length).map (d.leastLabel P)).toArray

lemma addClass_eq (h : Divides P S) (hS : ∀ s ∈ S, s < d.labels.size) {C : StateSet} (hC : P[i]? = some C)
    (hm : m.numStates = i) : d.addClass m C = .ok (m.addState.setLabel i (d.leastLabel P i)) := by
  obtain ⟨r, hr, hrep⟩ := exists_representative h hC
  have hlabel := Array.getElem?_eq_getElem (hS r (h.mem_of_mem (List.mem_of_getElem? hC) hr))
  have hmin : C.min? = some r := by rwa [representative?, hC, Option.bind_some] at hrep
  rw [addClass, hmin]
  simp only [fetch_eq_ok_iff.mpr hlabel, ok_bind]
  rw [leastLabel, hrep, Option.elim_some, hlabel, Option.getD_some, hm]
  rfl

/-- The automaton that has a state with its label for each class, and nothing else. -/
def classStates (d : Dfa) (P : List StateSet) : Dfa :=
  { ofAlphabet d.alphabet with numStates := P.length, labels := d.leastLabels P }

lemma foldlM_addClass (h : Divides P S) (hS : ∀ s ∈ S, s < d.labels.size) :
    P.foldlM d.addClass (ofAlphabet d.alphabet) = .ok (d.classStates P) := by
  have hfold : ∃ m, P.foldlM d.addClass (ofAlphabet d.alphabet) = .ok m ∧ m = d.classStates P := by
    refine exists_foldlM (fun i m => m = { ofAlphabet d.alphabet with
      numStates := i, labels := ((List.range i).map (d.leastLabel P)).toArray }) rfl ?_
    rintro i C hC _ rfl
    refine ⟨_, addClass_eq h hS hC rfl, ?_⟩
    simp [setLabel, addState, List.range_succ]
  obtain ⟨_, hm, rfl⟩ := hfold
  exact hm

/-- The quotient has a state for each class, and behind them its dead state. -/
lemma deadLast_quotient (h : Divides P S) : (d.quotient P).DeadLast P.length (d.leastLabels P) where
  complete := complete_quotient h
  numStates_eq := by
    rw [numStates_quotient]
    cases (d.quotient P).dead? <;> rfl
  labels_eq := by
    rw [labels_quotient_eq]
    cases (d.quotient P).dead? with
    | none => simp [leastLabels, leastLabel]
    | some x => simp [leastLabels, leastLabel]
  dead_eq := fun _ => eq_of_dead?_quotient
  needed := by
    intro hdead
    rcases dead?_quotient.mp hdead with hstart | ⟨i, hi, a, ha, hmove⟩
    · refine Or.inl ?_
      rw [start?_quotient, classOf, hstart, Option.getD_none]
    · refine Or.inr ⟨i, hi, a, ha, ?_⟩
      rw [step_quotient (lt_numStates_quotient.mpr (Or.inl hi)) ha, hmove, Option.getD_none]

/-! ### Visiting the states -/

/-- The move of the class on the symbol is done when the states below `k` have been visited. -/
def DoneBelow (d : Dfa) (P : List StateSet) (k i a : Nat) : Prop :=
  a ∈ d.alphabet.ids ∧ (representative? P i).any (· < k) = true

/-- The visit of the states move by move goes in step with the emission of the moves of classes. -/
structure Parallel (d : Dfa) (P : List StateSet) (k : Nat) (e : Emission) (b : Emitting) : Prop where
  emitted : d.Emitted P k e
  emitted_eq : b.emitted = e.rows.map Option.isSome
  finals_eq : b.result.finals = e.finals
  start?_eq : b.result.start? = (d.quotient P).start?
  mapping?_eq : b.result.mapping? = none
  draft : b.result.Draft P.length (d.leastLabels P) (d.DoneBelow P k) (d.quotient P)

/-- A state that represents a class is in it. -/
lemma getElem?_classIndex_of_representative (h : P.Pairwise fun C D => ∀ x ∈ C, x ∉ D)
    (hk : representative? P i = some k) : (classIndex P)[k]? = some i := by
  obtain ⟨C, hC, hmin⟩ := Option.bind_eq_some_iff.mp hk
  exact (getElem?_classIndex h).mpr ⟨C, hC, (StateSet.min?_eq_some_iff.mp hmin).1⟩

/-- With a state, the moves of the class are done that it represents, if it represents one. -/
lemma doneBelow_succ {j a : Nat} (hdone : d.DoneBelow P (k + 1) j a) :
    d.DoneBelow P k j a ∨ representative? P j = some k ∧ a ∈ d.alphabet.ids := by
  by_cases hrep : representative? P j = some k
  · exact Or.inr ⟨hrep, hdone.1⟩
  · exact Or.inl ⟨hdone.1, any_representative_succ hrep ▸ hdone.2⟩

/-- With a state of a class no others are done than those of the class, and these if it represents the class. -/
lemma doneBelow_succ_of_classIndex {j a r : Nat} (h : P.Pairwise fun C D => ∀ x ∈ C, x ∉ D)
    (hclass : (classIndex P)[k]? = some i) (hr : representative? P i = some r)
    (hdone : d.DoneBelow P (k + 1) j a) : d.DoneBelow P k j a ∨ j = i ∧ r = k ∧ a ∈ d.alphabet.ids := by
  refine (doneBelow_succ hdone).imp_right fun hj => ?_
  have hji := getElem?_classIndex_of_representative h hj.1
  rw [hclass, Option.some.injEq] at hji
  subst hji
  exact ⟨rfl, Option.some.inj (hr.symm.trans hj.1), hj.2⟩

/-- All moves of a class are set as those of its least member. -/
lemma exists_foldlM_emitMove (h : Divides P S) (ht : d.IsClassTable P table) {done : Nat → Nat → Prop}
    (hm : m.Draft P.length (d.leastLabels P) done (d.quotient P)) (hk : representative? P i = some k)
    (hmoves : ∀ a ∈ d.alphabet.ids, ∀ t, d.step k a = some t → t < d.numStates) :
    ∃ m', d.alphabet.ids.foldlM (d.emitMove table k i) m = .ok m' ∧ m'.SameFrame m ∧
      m'.Draft P.length (d.leastLabels P) (fun x b => done x b ∨ x = i ∧ b ∈ d.alphabet.ids)
        (d.quotient P) := by
  have hi : i < P.length := lt_length_of_classIndex h.disjoint
    (getElem?_classIndex_of_representative h.disjoint hk)
  refine hm.exists_foldlM_connect (deadLast_quotient h) fun a ha => ⟨d.moveClass? P i a, ?_, ?_, ?_, ?_⟩
  · intro m' _
    rw [emitMove, targetClass_eq ht (hmoves a ha), moveClass?, hk]
    rfl
  · exact step_quotient (lt_numStates_quotient.mpr (Or.inl hi)) ha
  · exact fun t hmove => Nat.ne_of_lt (lt_of_moveClass? h hmove)
  · exact fun hmove => dead?_quotient.mpr (Or.inr ⟨i, hi, a, ha, hmove⟩)

namespace Parallel

variable {e : Emission} {b : Emitting}

/-- A state that represents no class leaves the moves as they are. -/
lemma draft_of_ne (hb : d.Parallel P k e b) (hne : ∀ j, representative? P j ≠ some k) :
    b.result.Draft P.length (d.leastLabels P) (d.DoneBelow P (k + 1)) (d.quotient P) :=
  hb.draft.mono fun j _ hdone => (doneBelow_succ hdone).resolve_right fun hj => hne j hj.1

/-- The moves of a class have been set if its least member has been visited. -/
lemma getElem?_emitted (hb : d.Parallel P k e b) {r : Nat} (hi : i < P.length)
    (hr : representative? P i = some r) : b.emitted[i]? = some (decide (r < k)) := by
  have hrow := hb.emitted.row_eq i hi
  rw [hr, Option.any_some] at hrow
  rw [hb.emitted_eq, Array.getElem?_map, hrow, Option.map_some]
  split <;> simp_all

/-- A final state makes its class final, and nothing else is changed. -/
lemma exists_marked (hb : d.Parallel P k e b) (i : Nat) : ∃ m,
    (if k ∈ d.finals then b.result.addFinal i else b.result) = m ∧
      m.start? = (d.quotient P).start? ∧
      m.finals = (if k ∈ d.finals then e.finals.insert i else e.finals) ∧
      m.mapping? = none ∧ m.Draft P.length (d.leastLabels P) (d.DoneBelow P k) (d.quotient P) := by
  refine ⟨_, rfl, ?_⟩
  rw [← hb.finals_eq]
  split
  · exact ⟨hb.start?_eq, rfl, hb.mapping?_eq, hb.draft.addFinal i⟩
  · exact ⟨hb.start?_eq, rfl, hb.mapping?_eq, hb.draft⟩

section

variable (hb : d.Parallel P k e b) (h : Divides P S) (ht : d.IsClassTable P table) (hk : k < d.numStates)

include hb h ht hk

/-- A state of no class is passed over. -/
lemma visit_of_none (hclass : (classIndex P)[k]? = none) :
    ∃ e' b', d.visitStepwise table b k = .ok b' ∧ d.Parallel P (k + 1) e' b' := by
  refine ⟨e, b, ?_, { hb with emitted := hb.emitted.visit_of_none h.disjoint hclass, draft := ?_ }⟩
  · rw [visitStepwise, fetch_eq_ok_iff.mpr (ht.getElem?_eq k hk), ok_bind, hclass]
    rfl
  · refine hb.draft_of_ne fun j hj => ?_
    exact absurd (hclass.symm.trans (getElem?_classIndex_of_representative h.disjoint hj)) (by simp)

/-- A class whose least member has been visited has its moves. -/
lemma visit_of_lt {r : Nat} (hclass : (classIndex P)[k]? = some i) (hr : representative? P i = some r)
    (hlt : r < k) : ∃ e' b', d.visitStepwise table b k = .ok b' ∧ d.Parallel P (k + 1) e' b' := by
  have hi : i < P.length := lt_length_of_classIndex h.disjoint hclass
  have hflag := hb.getElem?_emitted hi hr
  obtain ⟨m, hm, hstart, hfinals, hmapping, hdraft⟩ := hb.exists_marked i
  refine ⟨_, { b with result := m }, ?_, hb.emitted.visit_of_lt h.disjoint hclass hr hlt, hb.emitted_eq,
    hfinals, hstart, hmapping, hdraft.mono fun j a hdone => ?_⟩
  · rw [visitStepwise, fetch_eq_ok_iff.mpr (ht.getElem?_eq k hk), ok_bind, hclass]
    simp only [hm, fetch_eq_ok_iff.mpr hflag, ok_bind, hlt, decide_true, if_true]
    rfl
  · exact (doneBelow_succ_of_classIndex h.disjoint hclass hr hdone).resolve_right (by omega)

/-- The least member of a class sets the moves of the class. -/
lemma visit_of_eq (hmoves : ∀ a ∈ d.alphabet.ids, ∀ t, d.step k a = some t → t < d.numStates)
    (hclass : (classIndex P)[k]? = some i) (hr : representative? P i = some k) :
    ∃ e' b', d.visitStepwise table b k = .ok b' ∧ d.Parallel P (k + 1) e' b' := by
  have hi : i < P.length := lt_length_of_classIndex h.disjoint hclass
  have hflag := hb.getElem?_emitted hi hr
  obtain ⟨m, hm, hstart, hfinals, hmapping, hdraft⟩ := hb.exists_marked i
  obtain ⟨m', hemit, hframe, hdraft'⟩ := exists_foldlM_emitMove h ht hdraft hr hmoves
  refine ⟨_, ⟨m', b.emitted.setIfInBounds i true⟩, ?_, hb.emitted.visit_of_eq h.disjoint hclass hr, ?_,
    hframe.finals_eq.trans hfinals, hframe.start?_eq.trans hstart, hframe.mapping?_eq.trans hmapping,
    hdraft'.mono fun j a hdone => ?_⟩
  · rw [visitStepwise, fetch_eq_ok_iff.mpr (ht.getElem?_eq k hk), ok_bind, hclass]
    simp only [hm, fetch_eq_ok_iff.mpr hflag, Nat.lt_irrefl, decide_false, hemit, ok_bind,
      alter_eq_ok hflag]
    rfl
  · rw [hb.emitted_eq, Array.map_setIfInBounds, Option.isSome_some]
  · exact (doneBelow_succ_of_classIndex h.disjoint hclass hr hdone).imp_right fun hj => ⟨hj.1, hj.2.2⟩

end

/-- Each visit finds what there is to be found at a state, and sets what there is to be set. -/
lemma visit (hb : d.Parallel P k e b) (h : Divides P S) (ht : d.IsClassTable P table)
    (hS : ∀ s ∈ S, ∀ a ∈ d.alphabet.ids, ∀ t, d.step s a = some t → t < d.numStates)
    (hk : k < d.numStates) :
    ∃ e' b', d.visitStepwise table b k = .ok b' ∧ d.Parallel P (k + 1) e' b' := by
  cases hclass : (classIndex P)[k]? with
  | none => exact hb.visit_of_none h ht hk hclass
  | some i =>
    obtain ⟨C, hC, hkC⟩ := (getElem?_classIndex h.disjoint).mp hclass
    obtain ⟨r, -, hr⟩ := exists_representative h hC
    rcases Nat.lt_or_eq_of_le (representative_le hC hkC hr) with hlt | rfl
    · exact hb.visit_of_lt h ht hk hclass hr hlt
    · exact hb.visit_of_eq h ht hk (hS r (h.mem_of_mem (List.mem_of_getElem? hC) hkC)) hclass hr

end Parallel

/-! ### The minimized automaton -/

/-- Before the first visit the classes have their states, and the start state is set. -/
lemma exists_startInClass (h : Divides P S) (ht : d.IsClassTable P table) {s : Nat}
    (hs : d.start? = some s) (hlt : s < d.numStates) :
    ∃ m, d.startInClass table (d.classStates P) = .ok m ∧
      d.Parallel P 0 ⟨Array.replicate P.length none, ∅⟩ ⟨m, Array.replicate P.length false⟩ := by
  have hempty : (d.classStates P).Draft P.length (d.leastLabels P) (fun _ _ => False) (d.quotient P) :=
    .of_table_eq_empty rfl rfl rfl rfl rfl rfl
  have hdraft : (d.classStates P).Draft P.length (d.leastLabels P) (d.DoneBelow P 0) (d.quotient P) := by
    refine hempty.mono fun i a hdone => ?_
    obtain ⟨r, -, hr⟩ := (Option.any_eq_true ..).mp hdone.2
    exact absurd (of_decide_eq_true hr) (Nat.not_lt_zero r)
  have hstart : d.start?.bind ((classIndex P)[·]?) = (classIndex P)[s]? := by rw [hs, Option.bind_some]
  refine ⟨_, by rw [startInClass, hs]; simp only [fetch_eq_ok_iff.mpr (ht.getElem?_eq s hlt), ok_bind]; rfl,
    emitted_zero, ?_, finals_startIn, ?_, mapping?_startIn, ?_⟩
  · simp
  · rw [hdraft.start?_startIn, start?_quotient, classOf, hstart]
  · refine hdraft.startIn (deadLast_quotient h) ⟨?_, ?_⟩
    · exact fun i hi => Nat.ne_of_lt (lt_length_of_classIndex h.disjoint hi)
    · exact fun hnone => dead?_quotient.mpr (Or.inl (hstart.trans hnone))

/-- What has been built in the end is alike to the quotient. -/
lemma exists_quotientStepwise (h : Divides P S) (hS : ∀ s ∈ S, s < d.numStates)
    (hmoves : ∀ s ∈ S, ∀ a ∈ d.alphabet.ids, ∀ t, d.step s a = some t → t < d.numStates)
    (hlabels : d.labels.size = d.numStates) {s : Nat} (hs : d.start? = some s) (hlt : s < d.numStates) :
    ∃ m, d.quotientStepwise P = .ok m ∧ m.Alike (d.quotient P) := by
  obtain ⟨table, htable, ht⟩ := exists_classTable h hS
  obtain ⟨m, hm, hzero⟩ := exists_startInClass h ht hs hlt
  have hvisits : ∃ b, (List.range d.numStates).foldlM (d.visitStepwise table)
      ⟨m, Array.replicate P.length false⟩ = .ok b ∧ ∃ e, d.Parallel P (List.range d.numStates).length e b := by
    refine exists_foldlM (fun k b => ∃ e, d.Parallel P k e b) ⟨_, hzero⟩ ?_
    rintro k k' hk b ⟨e, hb⟩
    obtain ⟨hlt, rfl⟩ := List.getElem?_eq_some_iff.mp hk
    rw [List.length_range] at hlt
    rw [List.getElem_range]
    obtain ⟨e', b', hvisit, hb'⟩ := hb.visit h ht hmoves hlt
    exact ⟨b', hvisit, e', hb'⟩
  obtain ⟨b, hb, e, hparallel⟩ := hvisits
  rw [List.length_range] at hparallel
  have hlast := deadLast_quotient (d := d) h
  have hdone : ∀ i < P.length, ∀ a ∈ (d.quotient P).alphabet.ids, d.DoneBelow P d.numStates i a := by
    intro i hi a ha
    obtain ⟨r, hrC, hr⟩ := exists_representative h (List.getElem?_eq_getElem hi)
    refine ⟨ha, ?_⟩
    rw [hr, Option.any_some]
    exact decide_eq_true (hS r (h.mem_of_mem (List.getElem_mem hi) hrC))
  have hfinals : b.result.finals = (d.quotient P).finals := by
    rw [hparallel.finals_eq, hparallel.emitted.finals_eq h hS]
  have hnum : b.result.numStates = (d.quotient P).numStates := by
    rw [hparallel.draft.numStates_eq, hlast.numStates_eq,
      hparallel.draft.dead?_eq hlast hdone hparallel.start?_eq]
  have hcount : P.length ≤ (d.quotient P).numStates := by
    rw [numStates_quotient]
    split <;> omega
  have hmapping := mapping?_quotient (d := d) (P := P)
  simp only [quotientStepwise, htable, ok_bind, foldlM_addClass h (hlabels ▸ hS), hm, hb, hnum,
    classMapping_eq hcount, ← hmapping]
  cases hmap : (d.quotient P).mapping? with
  | none =>
    exact ⟨_, rfl, hparallel.draft.alike hlast hdone hparallel.start?_eq hfinals
      (hparallel.mapping?_eq.trans hmap.symm)⟩
  | some mapping =>
    exact ⟨_, rfl, (hparallel.draft.setMapping mapping).alike hlast hdone hparallel.start?_eq hfinals
      hmap.symm⟩

/-- Minimizing move by move fails as minimization fails, and otherwise gives an automaton that is alike to the
minimized one. -/
lemma Allocated.minimizeStepwise_alike (h : d.Allocated) :
    match d.minimizeChecked with
    | .ok m => ∃ m', d.minimizeStepwise = .ok m' ∧ m'.Alike m
    | .error fault => d.minimizeStepwise = .error fault := by
  by_cases hd : d.numStates = 0 ∨ d.start? = none
  · rw [minimizeChecked_eq_ofAlphabet hd, minimizeStepwise, if_pos hd]
    exact ⟨_, rfl, .refl _⟩
  rw [minimizeStepwise, if_neg hd]
  by_cases hout : d.LeadsOutside
  · obtain ⟨s, -, -, herror⟩ :=
      refineUntilSame_eq_error divides_initialClasses (h.leadsOutside_iff_live.mp hout)
    rw [minimizeChecked, if_neg hd, herror]
    rfl
  · obtain ⟨s, hs⟩ := Option.ne_none_iff_exists'.mp (not_or.mp hd).2
    rw [h.minimizeChecked_eq_ok hd hout, refineUntilSame_eq_refinement hout, ok_bind,
      minimize_eq_quotient hd]
    exact exists_quotientStepwise (stable_refinement d).divides (fun _ => lt_of_mem_live hout)
      (fun _ hs _ ha _ => lt_of_step hout hs ha) h.size_labels hs (lt_of_start? hout hs)

/-- This holds whatever operations an automaton has gone through. -/
lemma Operated.minimizeStepwise_alike {mayGrow : Dfa → Prop} (h : d.Operated mayGrow) :
    match d.minimizeChecked with
    | .ok m => ∃ m', d.minimizeStepwise = .ok m' ∧ m'.Alike m
    | .error fault => d.minimizeStepwise = .error fault :=
  h.allocated.minimizeStepwise_alike

end Dfa
end RegexAutomata
