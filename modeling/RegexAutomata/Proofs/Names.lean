/-
# Names of states

A file has one record under each name, so two states with one name lose a record.  Whatever is read,
determinized or minimized has different names for its states, and all operations keep them different but
one: a state that is added is named after its number, and a state of an automaton that was read or
minimized may have this name already (`Dfa.Operated.names_clash`).

Names stay different as long as a state is only added when its name is free, and then the file of the
automaton has exactly one record for each state but the dead one (`Dfa.Operated.names_distinct`).
-/
import RegexAutomata.Proofs.Dfa.Idempotence
import RegexAutomata.Proofs.Enfa.Powerset
import RegexAutomata.Proofs.File.Renaming

namespace RegexAutomata
namespace Dfa

variable {d e : Dfa} {s t : Nat}

/-! ### Labels and names -/

/-- The label that the name of a state is made of, unless it is the dead state. -/
def labelOf (d : Dfa) (s : Nat) : Nat := (d.labels[s]?).getD s

/-- No two states have one name. -/
def NamesDistinct (d : Dfa) : Prop :=
  ∀ s < d.numStates, ∀ t < d.numStates, d.stateName s = d.stateName t → s = t

/-- No state has the name that the next state to be added would get. -/
def NextNameFree (d : Dfa) : Prop := ∀ s < d.numStates, d.stateName s ≠ nameOfLabel d.numStates

instance (d : Dfa) : Decidable d.NamesDistinct :=
  inferInstanceAs (Decidable (∀ s < d.numStates, ∀ t < d.numStates, _ → _))

instance (d : Dfa) : Decidable d.NextNameFree :=
  inferInstanceAs (Decidable (∀ s < d.numStates, _))

lemma stateName_of_dead (h : d.dead? = some s) : d.stateName s = deadName := if_pos h

lemma stateName_of_live (h : d.dead? ≠ some s) : d.stateName s = nameOfLabel (d.labelOf s) := if_neg h

/-- Names are different if the labels of all states but the dead one are. -/
lemma namesDistinct_of_labels (h : ∀ s < d.numStates, ∀ t < d.numStates, d.dead? ≠ some s →
    d.dead? ≠ some t → d.labelOf s = d.labelOf t → s = t) : d.NamesDistinct := by
  intro s hs t ht hname
  by_cases hsd : d.dead? = some s
  · by_cases htd : d.dead? = some t
    · exact Option.some.inj (hsd.symm.trans htd)
    · rw [stateName_of_dead hsd, stateName_of_live htd] at hname
      exact absurd hname.symm (nameOfLabel_ne_deadName _)
  · by_cases htd : d.dead? = some t
    · rw [stateName_of_live hsd, stateName_of_dead htd] at hname
      exact absurd hname (nameOfLabel_ne_deadName _)
    · rw [stateName_of_live hsd, stateName_of_live htd] at hname
      exact h s hs t ht hsd htd (nameOfLabel_injective hname)

lemma NamesDistinct.eq_of_labelOf_eq (h : d.NamesDistinct) (hs : s < d.numStates)
    (ht : t < d.numStates) (hsd : d.dead? ≠ some s) (htd : d.dead? ≠ some t)
    (hlabel : d.labelOf s = d.labelOf t) : s = t :=
  h s hs t ht (by rw [stateName_of_live hsd, stateName_of_live htd, hlabel])

lemma mem_recordedStates : s ∈ d.recordedStates ↔ s < d.numStates ∧ d.dead? ≠ some s := by
  rw [recordedStates, List.mem_filter, List.mem_range, decide_eq_true_eq]

lemma pairwise_lt_recordedStates (d : Dfa) : d.recordedStates.Pairwise (· < ·) :=
  List.pairwise_lt_range.filter _

lemma WellFormed.mem_recordedStates_of_live (h : d.WellFormed) (hs : s ∈ d.live) :
    s ∈ d.recordedStates :=
  mem_recordedStates.mpr ⟨h.lt_of_mem_live hs, (mem_live.mp hs).2⟩

/-- If names are different, the file has one record for each state but the dead one. -/
lemma NamesDistinct.entries_toFile (h : d.NamesDistinct) :
    d.toFile.states.entries = d.recordedStates.map fun s => (d.stateName s, d.recordOf s) := by
  refine Dfa.entries_toFile ((List.nodup_map_iff_inj_on (List.nodup_range.filter _)).mpr ?_)
  intro s hs t ht
  exact h s (mem_recordedStates.mp hs).1 t (mem_recordedStates.mp ht).1

/-! ### Automata with different names -/

/-- Each state has a label, the dead state exists, and names are different. -/
structure WellNamed (d : Dfa) : Prop where
  size_labels : d.labels.size = d.numStates
  dead_lt : ∀ s, d.dead? = some s → s < d.numStates
  distinct : d.NamesDistinct

/-- Names depend on the labels and the dead state only. -/
lemma WellNamed.congr (h : d.WellNamed) (hnum : e.numStates = d.numStates)
    (hdead : e.dead? = d.dead?) (hlabels : e.labels = d.labels) : e.WellNamed where
  size_labels := by rw [hlabels, hnum, h.size_labels]
  dead_lt := by
    rw [hdead, hnum]
    exact h.dead_lt
  distinct := by
    simp only [NamesDistinct, hnum, stateName, hdead, hlabels]
    exact h.distinct

lemma wellNamed_ofAlphabet (A : Alphabet) : (ofAlphabet A).WellNamed :=
  ⟨rfl, fun _ h => absurd h (by simp [ofAlphabet]), fun _ hs => absurd hs (Nat.not_lt_zero _)⟩

/-! ### One more state -/

lemma labelOf_addState (hsize : d.labels.size = d.numStates) (hs : s < d.numStates) :
    d.addState.labelOf s = d.labelOf s := by
  rw [labelOf, labelOf, addState, Array.getElem?_push, if_neg (by omega)]

lemma labelOf_addState_self (hsize : d.labels.size = d.numStates) :
    d.addState.labelOf d.numStates = d.numStates := by
  rw [labelOf, addState, ← hsize, Array.getElem?_push_size, Option.getD_some]

namespace WellNamed

lemma stateName_addState (h : d.WellNamed) (hs : s < d.numStates) :
    d.addState.stateName s = d.stateName s := by
  have hlabel := labelOf_addState h.size_labels hs
  rw [labelOf, labelOf] at hlabel
  rw [stateName, stateName, hlabel]
  rfl

lemma stateName_addState_self (h : d.WellNamed) :
    d.addState.stateName d.numStates = nameOfLabel d.numStates := by
  have hlive : d.addState.dead? ≠ some d.numStates := fun hdead =>
    absurd (h.dead_lt _ hdead) (Nat.lt_irrefl _)
  rw [stateName_of_live hlive, labelOf_addState_self h.size_labels]

/-- Adding a state keeps names different exactly if its name is free. -/
lemma namesDistinct_addState_iff (h : d.WellNamed) : d.addState.NamesDistinct ↔ d.NextNameFree := by
  constructor
  · intro hdistinct s hs hname
    rw [← h.stateName_addState hs, ← h.stateName_addState_self] at hname
    exact Nat.ne_of_lt hs (hdistinct s (Nat.lt_succ_of_lt hs) _ (Nat.lt_succ_self _) hname)
  · intro hfree s hs t ht hname
    -- the new state is compared with an old one, or two old ones are
    rcases Nat.lt_succ_iff_lt_or_eq.mp hs with hs | rfl
    · rcases Nat.lt_succ_iff_lt_or_eq.mp ht with ht | rfl
      · rw [h.stateName_addState hs, h.stateName_addState ht] at hname
        exact h.distinct s hs t ht hname
      · rw [h.stateName_addState hs, h.stateName_addState_self] at hname
        exact absurd hname (hfree s hs)
    · rcases Nat.lt_succ_iff_lt_or_eq.mp ht with ht | rfl
      · rw [h.stateName_addState ht, h.stateName_addState_self] at hname
        exact absurd hname.symm (hfree t ht)
      · rfl

lemma addState (h : d.WellNamed) (hfree : d.NextNameFree) : d.addState.WellNamed where
  size_labels := by rw [Dfa.addState, Array.size_push, h.size_labels]
  dead_lt := fun s hs => Nat.lt_succ_of_lt (h.dead_lt s hs)
  distinct := h.namesDistinct_addState_iff.mpr hfree

/-- The dead state does not need a name that is made of a label. -/
lemma ensureDead (h : d.WellNamed) : d.ensureDead.WellNamed := by
  cases hdead : d.dead? with
  | some _ => rwa [Dfa.ensureDead, hdead]
  | none =>
    have heq : d.ensureDead = { d.addState with
        dead? := some d.numStates, table := loop d.table d.numStates d.alphabet.ids } := by
      rw [Dfa.ensureDead, hdead]
    rw [heq]
    refine ⟨by rw [Dfa.addState, Array.size_push, h.size_labels], ?_, namesDistinct_of_labels ?_⟩
    · intro s hs
      exact Option.some.inj hs ▸ Nat.lt_succ_self d.numStates
    · intro s hs t ht hsd htd hlabel
      have hs' : s < d.numStates := by
        rcases Nat.lt_succ_iff_lt_or_eq.mp hs with hs | rfl
        · exact hs
        · exact absurd rfl hsd
      have ht' : t < d.numStates := by
        rcases Nat.lt_succ_iff_lt_or_eq.mp ht with ht | rfl
        · exact ht
        · exact absurd rfl htd
      have hlabel' : d.addState.labelOf s = d.addState.labelOf t := hlabel
      rw [labelOf_addState h.size_labels hs', labelOf_addState h.size_labels ht'] at hlabel'
      exact h.distinct.eq_of_labelOf_eq hs' ht' (by simp [hdead]) (by simp [hdead]) hlabel'

end WellNamed

/-! ### Automata that are read, determinized and minimized -/

/-- The states of the powerset automaton are named after their numbers. -/
lemma labelOf_ofSubsets {n : Enfa} {sets : Numbering StateSet} (hs : s < sets.size) :
    (n.ofSubsets sets).labelOf s = s := by
  rw [labelOf, Enfa.ofSubsets, Array.getElem?_range, if_pos hs, Option.getD_some]

lemma wellNamed_ofSubsets (n : Enfa) (sets : Numbering StateSet) : (n.ofSubsets sets).WellNamed where
  size_labels := Array.size_range
  dead_lt := fun _ hs => Numbering.lt_size_of_value? (Numbering.number?_eq_some_iff.mp hs)
  distinct := by
    refine namesDistinct_of_labels ?_
    intro s hs t ht _ _ hlabel
    rwa [labelOf_ofSubsets hs, labelOf_ofSubsets ht] at hlabel

lemma wellNamed_determinize (n : Enfa) : n.determinize.WellNamed := by
  cases hs : n.start? with
  | none =>
    rw [Enfa.determinize_eq_ofAlphabet hs]
    exact wellNamed_ofAlphabet n.alphabet
  | some s =>
    rw [Enfa.determinize_eq_ofSubsets hs]
    exact wellNamed_ofSubsets _ _

/-- A class is named after its least member. -/
lemma labelOf_quotient {P : List StateSet} {i r : Nat} (hi : i < P.length)
    (hr : representative? P i = some r) : (d.quotient P).labelOf i = d.labelOf r := by
  have hlt : i < (d.quotient P).numStates := lt_numStates_quotient.mpr (Or.inl hi)
  rw [labelOf, labels_quotient, List.getElem?_toArray, List.getElem?_map, List.getElem?_range hlt,
    Option.map_some, Option.getD_some, hr]
  rfl

lemma exists_labelOf_quotient {P : List StateSet} {S : StateSet} {i : Nat} (hP : Divides P S)
    (hi : i < (d.quotient P).numStates) (hdead : (d.quotient P).dead? ≠ some i) :
    ∃ C, P[i]? = some C ∧ ∃ r ∈ C, (d.quotient P).labelOf i = d.labelOf r := by
  rcases lt_numStates_quotient.mp hi with hlt | ⟨rfl, hdead'⟩
  · have hC : P[i]? = some P[i] := List.getElem?_eq_getElem hlt
    obtain ⟨r, hr, hrep⟩ := exists_representative hP hC
    exact ⟨_, hC, r, hr, labelOf_quotient hlt hrep⟩
  · exact absurd hdead' hdead

lemma NamesDistinct.quotient (h : d.NamesDistinct) {P : List StateSet} {S : StateSet}
    (hP : Divides P S) (hS : ∀ s ∈ S, s < d.numStates ∧ d.dead? ≠ some s) :
    (d.quotient P).NamesDistinct := by
  refine namesDistinct_of_labels ?_
  intro i hi j hj hidead hjdead hlabel
  obtain ⟨C, hC, r, hr, hir⟩ := exists_labelOf_quotient hP hi hidead
  obtain ⟨D, hD, r', hr', hjr⟩ := exists_labelOf_quotient hP hj hjdead
  obtain ⟨hlt, hlive⟩ := hS r (hP.mem_of_mem (List.mem_of_getElem? hC) hr)
  obtain ⟨hlt', hlive'⟩ := hS r' (hP.mem_of_mem (List.mem_of_getElem? hD) hr')
  rw [hir, hjr] at hlabel
  -- classes with one representative are one class
  obtain rfl := h.eq_of_labelOf_eq hlt hlt' hlive hlive' hlabel
  rw [← classOf_of_mem hP hC hr, ← classOf_of_mem hP hD hr']

lemma WellNamed.quotient (h : d.WellNamed) {P : List StateSet} {S : StateSet} (hP : Divides P S)
    (hS : ∀ s ∈ S, s < d.numStates ∧ d.dead? ≠ some s) : (d.quotient P).WellNamed where
  size_labels := size_labels_quotient
  dead_lt := (complete_quotient hP).dead_lt
  distinct := h.distinct.quotient hP hS

/-- If minimization succeeds, all states that are divided into classes exist. -/
lemma lt_of_mem_live_of_minimize? {m : Dfa} (hm : d.minimize? = some m)
    (hd : ¬(d.numStates = 0 ∨ d.start? = none)) (hs : s ∈ d.live) : s < d.numStates := by
  obtain ⟨hcond, -⟩ := Option.ite_none_right_eq_some.mp hm
  rcases hcond with hzero | hstart | hindex
  · exact absurd (Or.inl hzero) hd
  · exact absurd (Or.inr hstart) hd
  · exact canIndex_initialClasses_iff.mp hindex s hs

lemma WellNamed.minimize (h : d.WellNamed) {m : Dfa} (hm : d.minimize? = some m) : m.WellNamed := by
  rw [minimize_of_minimize? hm]
  by_cases hd : d.numStates = 0 ∨ d.start? = none
  · rw [minimize_eq_ofAlphabet hd]
    exact wellNamed_ofAlphabet d.alphabet
  · rw [minimize_eq_quotient hd]
    refine h.quotient (stable_refinement d).divides fun s hs => ⟨?_, (mem_live.mp hs).2⟩
    exact lt_of_mem_live_of_minimize? hm hd hs

end Dfa

lemma Listing.wellNamed_dfa (p : Listing) : p.dfa.WellNamed where
  size_labels := by
    simp only [dfa, Dfa.ofRows, List.size_toArray, List.length_append, p.length_labels,
      List.length_range]
    split <;> simp
  dead_lt := p.complete.dead_lt
  distinct := by
    refine Dfa.namesDistinct_of_labels ?_
    intro s hs t ht hsd htd hlabel
    have hlt : ∀ {r}, r < p.dfa.numStates → p.dfa.dead? ≠ some r → r < p.rows.length := by
      intro r hr hrd
      rcases p.lt_numStates.mp hr with hlt | ⟨rfl, hdead⟩
      · exact hlt
      · exact absurd hdead hrd
    have hname : p.dfa.stateName s = p.dfa.stateName t := by
      rw [Dfa.stateName_of_live hsd, Dfa.stateName_of_live htd, hlabel]
    have hs' := p.getElem?_names (hlt hs hsd)
    refine (List.getElem?_inj (List.getElem?_eq_some_iff.mp hs').1 p.nodup_names).mp ?_
    rw [hs', p.getElem?_names (hlt ht htd), hname]

namespace Dfa

variable {d : Dfa}

lemma wellNamed_ofText {text : String} (h : ofText text = .ok d) : d.WellNamed := by
  obtain ⟨f, -, hf⟩ := ofText_eq_ok_iff.mp h
  obtain ⟨p, -, rfl⟩ := exists_listing_of_ofFile hf
  exact p.wellNamed_dfa

/-! ### Sequences of operations -/

/-- The automata that arise by the operations, in any order, from automata without states and from
those that are determinized or read.  A state is only added to an automaton that may grow. -/
inductive Operated (mayGrow : Dfa → Prop) : Dfa → Prop
  | ofAlphabet (A : Alphabet) : Operated mayGrow (ofAlphabet A)
  | determinize {n : Enfa} (h : n.Built) : Operated mayGrow n.determinize
  | read {text : String} {d : Dfa} (h : ofText text = .ok d) : Operated mayGrow d
  | addState {d : Dfa} (h : Operated mayGrow d) (hgrow : mayGrow d) : Operated mayGrow d.addState
  | ensureDead {d : Dfa} (h : Operated mayGrow d) : Operated mayGrow d.ensureDead
  | addSymbol {d : Dfa} (h : Operated mayGrow d) (a : Symbol) : Operated mayGrow (d.addSymbol a)
  | addTransition {d : Dfa} (h : Operated mayGrow d) (s a t : Nat) :
    Operated mayGrow (d.addTransition s a t)
  | addFinal {d : Dfa} (h : Operated mayGrow d) (s : Nat) : Operated mayGrow (d.addFinal s)
  | setStart {d : Dfa} (h : Operated mayGrow d) (s : Nat) : Operated mayGrow (d.setStart s)
  | setMapping {d : Dfa} (h : Operated mayGrow d) (mapping : List StateSet) :
    Operated mayGrow (d.setMapping mapping)
  | minimize {d m : Dfa} (h : Operated mayGrow d) (hm : d.minimize? = some m) : Operated mayGrow m

lemma Operated.wellNamed (h : d.Operated NextNameFree) : d.WellNamed := by
  -- one lemma for each operation; those that leave labels alone keep all names
  induction h with
  | ofAlphabet A => exact wellNamed_ofAlphabet A
  | determinize _ => exact wellNamed_determinize _
  | read h => exact wellNamed_ofText h
  | addState _ hfree ih => exact ih.addState hfree
  | ensureDead _ ih => exact ih.ensureDead
  | addSymbol _ a ih => exact ih.congr rfl rfl rfl
  | addTransition _ s a t ih => exact ih.congr rfl rfl rfl
  | addFinal _ s ih => exact ih.congr rfl rfl rfl
  | setStart _ s ih => exact ih.congr rfl rfl rfl
  | setMapping _ mapping ih => exact ih.congr rfl rfl rfl
  | minimize _ hm ih => exact ih.minimize hm

/-- As long as states are only added when their names are free, names are different, whatever the
operations, and the file has exactly one record for each state but the dead one.  The condition cannot
be dropped: adding a state whose name is not free makes two names equal. -/
theorem Operated.names_distinct (h : d.Operated NextNameFree) :
    d.NamesDistinct ∧
      d.toFile.states.entries = d.recordedStates.map (fun s => (d.stateName s, d.recordOf s)) ∧
      (d.addState.NamesDistinct ↔ d.NextNameFree) := by
  have hnamed := h.wellNamed
  exact ⟨hnamed.distinct, hnamed.distinct.entries_toFile, hnamed.namesDistinct_addState_iff⟩

/-- An automaton is read whose states are named after high numbers, a state is added, and the result
minimized and given another state. -/
theorem Operated.names_distinct_of_high : ∃ d, ofText ("\x7b\"startingState\": \"S7\", " ++
      "\"S7\": \x7b\"isTerminatingState\": false, \"a\": \"S9\"\x7d, " ++
      "\"S9\": \x7b\"isTerminatingState\": true, \"a\": \"PHI\"\x7d\x7d") = .ok d ∧
    d.addState.minimize.addState.toFile.states.names = ["S7", "S9", "S3"] ∧
    d.addState.minimize.addState.NamesDistinct := by
  refine exists_eq_ok_and (p := fun d => d.NextNameFree ∧ d.addState.WellFormed ∧
    d.addState.minimize.NextNameFree ∧
    d.addState.minimize.addState.toFile.states.names = ["S7", "S9", "S3"]) (by decide +kernel) ?_
  rintro d h ⟨hfree, hwf, hfree', hnames⟩
  have hoperated := ((Operated.read h).addState hfree).minimize hwf.minimize?_eq |>.addState hfree'
  exact ⟨hnames, hoperated.names_distinct.1⟩

/-- An automaton is read whose only state is named after the number one.  The state that is added next
gets the same name, and there is one record for the two. -/
theorem Operated.names_clash : ∃ d, ofText ("\x7b\"startingState\": \"S1\", " ++
      "\"S1\": \x7b\"isTerminatingState\": true\x7d\x7d") = .ok d ∧
    d.addState.Operated (fun _ => True) ∧ d.addState.recordedStates = [0, 1] ∧
    d.addState.stateName 0 = "S1" ∧ d.addState.stateName 1 = "S1" ∧
    d.addState.toFile.states.names = ["S1"] := by
  refine exists_eq_ok_and (p := fun d => d.addState.recordedStates = [0, 1] ∧
    d.addState.stateName 0 = "S1" ∧ d.addState.stateName 1 = "S1" ∧
    d.addState.toFile.states.names = ["S1"]) (by decide +kernel) ?_
  rintro d h hclash
  exact ⟨(Operated.read h).addState trivial, hclash⟩

end Dfa
end RegexAutomata
