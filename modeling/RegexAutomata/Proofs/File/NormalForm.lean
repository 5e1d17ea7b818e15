/-
# The normal form of a file

An automaton that is read from a file is written and read again as the same automaton
(`Dfa.ofFile_toFile_of_ofFile`), so its text is a normal form: writing what is read from it gives the
same text.  The states of the file have been renamed to the names that are made of their labels.
-/
import RegexAutomata.Proofs.File.Labels
import RegexAutomata.Proofs.File.Records
import RegexAutomata.Proofs.File.Written

namespace RegexAutomata

/-- The parts of an automaton as a file lists them: rows for the whole alphabet that name rows or the
dead state, a label for each row, and symbols that are read from their own labels. -/
structure Listing where
  /-- The symbols. -/
  alphabet : Alphabet
  /-- The destinations of each state. -/
  rows : List (List Nat)
  /-- The start state. -/
  start : Nat
  /-- Whether each state is final. -/
  isFinal : List Bool
  /-- The label of each state. -/
  labels : List Nat
  length_isFinal : isFinal.length = rows.length
  length_labels : labels.length = rows.length
  nodup_labels : labels.Nodup
  labels_again : Dfa.labelsOfNames (labels.map nameOfLabel) = labels
  start_le : start ≤ rows.length
  row_fits : ∀ row ∈ rows, row.length = alphabet.size ∧ ∀ t ∈ row, t ≤ rows.length
  ofLabel?_label : ∀ a ∈ alphabet.symbols, Symbol.ofLabel? a.label = some a
  symbols_eq_nil : rows.length = 0 → alphabet.symbols = []

namespace Listing

open Dfa

variable (p : Listing)

/-- The automaton that is listed. -/
def dfa : Dfa := ofRows p.alphabet p.rows p.start p.isFinal p.labels

lemma complete : p.dfa.Complete := complete_ofRows p.start_le p.row_fits

lemma lt_numStates {s : Nat} : s < p.dfa.numStates ↔
    s < p.rows.length ∨ s = p.rows.length ∧ p.dfa.dead? = some p.rows.length :=
  lt_numStates_ofRows

/-! ### Names -/

lemma stateName_of_label {s label : Nat} (hlabel : p.labels[s]? = some label) :
    p.dfa.stateName s = nameOfLabel label := by
  have hs : s < p.labels.length := (List.getElem?_eq_some_iff.mp hlabel).1
  have hlive : p.dfa.dead? ≠ some s := by
    intro hdead
    have hs' := eq_of_dead?_ofRows hdead
    rw [p.length_labels] at hs
    omega
  rw [stateName, if_neg hlive, dfa, ofRows]
  simp only [List.getElem?_toArray, List.getElem?_append_left hs, hlabel, Option.getD_some]

lemma stateName_dead {s : Nat} (hdead : p.dfa.dead? = some s) : p.dfa.stateName s = deadName := by
  rw [stateName, if_pos hdead]

/-- The names that are made of the labels. -/
def names : List String := p.labels.map nameOfLabel

@[simp] lemma length_names : p.names.length = p.rows.length := by
  rw [names, List.length_map, p.length_labels]

lemma nodup_names : p.names.Nodup := p.nodup_labels.map fun _ _ => nameOfLabel_injective

lemma getElem?_names {s : Nat} (hs : s < p.rows.length) :
    p.names[s]? = some (p.dfa.stateName s) := by
  have hlt : s < p.labels.length := p.length_labels ▸ hs
  have hlabel : p.labels[s]? = some p.labels[s] := List.getElem?_eq_getElem hlt
  rw [p.stateName_of_label hlabel, names, List.getElem?_map, hlabel, Option.map_some]

lemma stateName_ne_deadName {s : Nat} (hs : s < p.rows.length) : p.dfa.stateName s ≠ deadName := by
  obtain ⟨label, -, hlabel⟩ := List.mem_map.mp (List.mem_of_getElem? (p.getElem?_names hs))
  exact hlabel ▸ nameOfLabel_ne_deadName label

/-- A state is found again by its name. -/
lemma targetOfName_stateName {t : Nat} (ht : t < p.dfa.numStates) :
    targetOfName p.names (p.dfa.stateName t) = .ok t := by
  rw [targetOfName_eq_ok_iff]
  rcases p.lt_numStates.mp ht with hlt | ⟨rfl, hdead⟩
  · exact Or.inr ⟨p.stateName_ne_deadName hlt,
      idxOf?_of_nodup p.nodup_names (p.getElem?_names hlt)⟩
  · exact Or.inl ⟨p.stateName_dead hdead, p.length_names⟩

/-! ### The file -/

/-- The record of each state, under its name. -/
def records : List (String × StateRecord String) :=
  (List.range p.rows.length).map fun s => (p.dfa.stateName s, p.dfa.recordOf s)

lemma map_fst_records : p.records.map Prod.fst = p.names := by
  refine List.ext_getElem? fun s => ?_
  rw [records, List.map_map, List.getElem?_map]
  rcases Nat.lt_or_ge s p.rows.length with hs | hs
  · rw [List.getElem?_range hs, p.getElem?_names hs]
    rfl
  · rw [List.getElem?_eq_none (by simpa using hs), List.getElem?_eq_none (by simpa using hs)]
    rfl

lemma recordedStates_eq : p.dfa.recordedStates = List.range p.rows.length := by
  refine StateSet.eq_of_ascending (List.pairwise_lt_range.filter _) List.pairwise_lt_range ?_
  intro s
  rw [recordedStates, List.mem_filter, List.mem_range, List.mem_range, decide_eq_true_eq,
    p.lt_numStates]
  constructor
  · rintro ⟨hlt | ⟨rfl, hdead⟩, hlive⟩
    · exact hlt
    · exact absurd hdead hlive
  · intro hlt
    refine ⟨Or.inl hlt, fun hdead => ?_⟩
    exact absurd (eq_of_dead?_ofRows hdead) (Nat.ne_of_lt hlt)

lemma entries_toFile : p.dfa.toFile.states.entries = p.records := by
  have hnodup : (p.dfa.recordedStates.map p.dfa.stateName).Nodup := by
    have hnames := p.nodup_names
    rwa [← map_fst_records, records, List.map_map, ← recordedStates_eq] at hnames
  rw [Dfa.entries_toFile hnodup, recordedStates_eq, records]

/-- There is no record for the dead state. -/
lemma records_toFile : p.dfa.toFile.records = p.records := by
  rw [AutomatonFile.records, entries_toFile, List.filter_eq_self]
  intro entry hentry
  obtain ⟨s, hs, rfl⟩ := List.mem_map.mp hentry
  exact decide_eq_true (p.stateName_ne_deadName (List.mem_range.mp hs))

lemma step_of_row {s a t : Nat} {row : List Nat} (hrow : p.rows[s]? = some row)
    (ht : row[a]? = some t) : p.dfa.step s a = some t := by
  have hs : s < p.rows.length := (List.getElem?_eq_some_iff.mp hrow).1
  have ha : a < row.length := (List.getElem?_eq_some_iff.mp ht).1
  rw [(p.row_fits row (List.mem_of_getElem? hrow)).1] at ha
  refine step_ofRows_eq_some_iff.mpr
    ⟨⟨p.lt_numStates.mpr (Or.inl hs), Alphabet.mem_ids.mpr ha⟩, ?_⟩
  rw [hrow, Option.bind_some, ht, Option.getD_some]

lemma symbolsOfLabels_records : symbolsOfLabels p.records =
    .ok ((List.range p.rows.length).flatMap fun _ => p.alphabet.symbols) := by
  have hlabels : (p.records.flatMap fun entry => entry.2.transitions.names) =
      ((List.range p.rows.length).flatMap fun _ => p.alphabet.symbols).map Symbol.label := by
    rw [records, List.flatMap_map, List.map_flatMap]
    refine List.flatMap_congr ?_
    intro s hs
    exact names_recordOf (p.complete.exists_step s (p.lt_numStates.mpr (Or.inl (List.mem_range.mp hs))))
  rw [symbolsOfLabels, hlabels]
  refine mapM_map_eq_pure ?_
  intro a ha
  obtain ⟨_, -, ha⟩ := List.mem_flatMap.mp ha
  rw [p.ofLabel?_label a ha]
  rfl

/-- The record of a state gives its row. -/
lemma rowOfRecord_records : List.Forall₂ (fun record row =>
    rowOfRecord p.names p.alphabet record = .ok row) p.records p.rows := by
  rw [records, List.forall₂_map_left_iff, List.forall₂_iff_get]
  refine ⟨List.length_range, ?_⟩
  intro s hs hs'
  rw [List.get_eq_getElem, List.get_eq_getElem, List.getElem_range, rowOfRecord_eq_ok_iff,
    List.forall₂_iff_get]
  have hrow : p.rows[s]? = some p.rows[s] := List.getElem?_eq_getElem hs'
  have hlt : s < p.dfa.numStates := p.lt_numStates.mpr (Or.inl hs')
  refine ⟨((p.row_fits _ (List.getElem_mem hs')).1).symm, ?_⟩
  intro a ha ha'
  have hstep := p.step_of_row hrow (List.getElem?_eq_getElem ha')
  exact ⟨_, get?_recordOf (p.complete.exists_step s hlt) ha hstep,
    p.targetOfName_stateName (p.complete.step_lt s a _ hstep).2.2⟩

lemma map_isFinal_records : p.records.map (·.2.isFinal) = p.isFinal := by
  refine List.ext_getElem (by simp [records, p.length_isFinal]) ?_
  intro s hs hs'
  have hlt : s < p.rows.length := p.length_isFinal ▸ hs'
  simp only [records, List.getElem_map, List.getElem_range, recordOf]
  rw [Bool.eq_iff_iff, decide_eq_true_eq, dfa, mem_finals_ofRows, List.getElem?_eq_getElem hs',
    Option.some.injEq]
  exact and_iff_right hlt

/-- The automaton is read back from its file. -/
lemma ofFile_toFile : ofFile p.dfa.toFile = .ok p.dfa := by
  have hstart : p.dfa.toFile.start = p.dfa.stateName p.start := rfl
  rw [ofFile_eq_ok_iff, records_toFile, map_fst_records, map_isFinal_records, hstart]
  refine ⟨_, p.rows, p.start, p.symbolsOfLabels_records, ?_,
    p.targetOfName_stateName (p.complete.start_lt _ rfl), ?_⟩
  · rw [Alphabet.ofList_repeated p.symbols_eq_nil]
    exact p.rowOfRecord_records
  · rw [Alphabet.ofList_repeated p.symbols_eq_nil, names, p.labels_again]
    rfl

end Listing
end RegexAutomata
