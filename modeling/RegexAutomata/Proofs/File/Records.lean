/-
# What reading a file of a deterministic automaton finds

A file describes an automaton if its labels are those of symbols, every record has a destination for
every symbol, and all destinations and the start state have records or are the dead state
(`Dfa.ofFile_eq_ok_iff`).  What is found is a row of destinations for each record, and the automaton is
made of the rows (`Dfa.ofRows`).

Rows of the right length that name rows, or stand for the dead state, make a complete automaton
(`Dfa.complete_ofRows`).
-/
import RegexAutomata.File.Reading
import RegexAutomata.Proofs.Dfa.Complete
import RegexAutomata.Proofs.Failure

namespace RegexAutomata
namespace Dfa

variable {f : DfaFile} {d : Dfa} {names : List String} {alphabet : Alphabet}
  {rows : List (List Nat)} {start : Nat} {isFinal : List Bool} {labels : List Nat}

lemma ofFile_eq_ok_iff : ofFile f = .ok d ↔
    ∃ symbols rows start, symbolsOfLabels f.records = .ok symbols ∧
      List.Forall₂ (fun record row =>
        rowOfRecord (f.records.map Prod.fst) (Alphabet.ofList symbols) record = .ok row)
        f.records rows ∧
      targetOfName (f.records.map Prod.fst) f.start = .ok start ∧
      d = ofRows (Alphabet.ofList symbols) rows start (f.records.map (·.2.isFinal))
        (labelsOfNames (f.records.map Prod.fst)) := by
  simp only [ofFile, bind_eq_ok_iff, mapM_eq_ok_iff]
  constructor
  · rintro ⟨symbols, hsymbols, rows, hrows, h⟩
    refine ⟨symbols, rows, ?_⟩
    cases hs : targetOfName (f.records.map Prod.fst) f.start with
    | error e =>
      rw [hs] at h
      exact absurd h (by simp [bind, Except.bind])
    | ok start =>
      rw [hs] at h
      exact ⟨start, hsymbols, hrows, rfl, (Except.ok.inj h).symm⟩
  · rintro ⟨symbols, rows, start, hsymbols, hrows, hs, rfl⟩
    refine ⟨symbols, hsymbols, rows, hrows, ?_⟩
    rw [hs]
    rfl

/-- The labels of all records are read in order, each as the symbol that it is the label of. -/
lemma symbolsOfLabels_eq_ok_iff {records : List (String × StateRecord String)}
    {symbols : List Symbol} : symbolsOfLabels records = .ok symbols ↔
      List.Forall₂ (fun label a => Symbol.ofLabel? label = some a)
        (records.flatMap fun entry => entry.2.transitions.names) symbols := by
  rw [symbolsOfLabels, mapM_eq_ok_iff]
  refine iff_of_eq (congrFun₂ (congrArg List.Forall₂ (funext₂ fun label a => propext ?_)) _ _)
  cases Symbol.ofLabel? label <;> simp

/-- The dead state is named by its own name, and any other state by the name of its record. -/
lemma targetOfName_eq_ok_iff {name : String} {t : Nat} : targetOfName names name = .ok t ↔
    name = deadName ∧ names.length = t ∨ name ≠ deadName ∧ names.idxOf? name = some t := by
  rw [targetOfName]
  split
  · rename_i h
    simp [h]
  · rename_i h
    cases names.idxOf? name <;> simp [h]

lemma le_length_of_targetOfName {name : String} {t : Nat} (h : targetOfName names name = .ok t) :
    t ≤ names.length := by
  rcases targetOfName_eq_ok_iff.mp h with ⟨-, rfl⟩ | ⟨-, h⟩
  · exact Nat.le_refl _
  · obtain ⟨hlt, -⟩ := List.idxOf?_eq_some_iff.mp h
    exact Nat.le_of_lt hlt

/-- A record gives one destination for each symbol, in the order of the alphabet. -/
lemma rowOfRecord_eq_ok_iff {record : String × StateRecord String} {row : List Nat} :
    rowOfRecord names alphabet record = .ok row ↔
      List.Forall₂ (fun a t => ∃ name, record.2.transitions.get? a.label = some name ∧
        targetOfName names name = .ok t) alphabet.symbols row := by
  rw [rowOfRecord, mapM_eq_ok_iff]
  -- the two relations agree on each symbol
  refine iff_of_eq (congrFun₂ (congrArg List.Forall₂ (funext₂ fun a t => propext ?_)) _ _)
  cases record.2.transitions.get? a.label <;> simp

/-! ### Rows -/

lemma dead?_ofRows : (ofRows alphabet rows start isFinal labels).dead? = some rows.length ↔
    start = rows.length ∨ ∃ row ∈ rows, rows.length ∈ row := by
  simp only [ofRows, Option.ite_none_right_eq_some, and_true, List.any_eq_true, List.contains_iff_mem]

lemma eq_of_dead?_ofRows {s : Nat}
    (h : (ofRows alphabet rows start isFinal labels).dead? = some s) : s = rows.length := by
  simp only [ofRows] at h
  split at h
  · exact (Option.some.inj h).symm
  · exact absurd h (by simp)

lemma lt_numStates_ofRows {s : Nat} : s < (ofRows alphabet rows start isFinal labels).numStates ↔
    s < rows.length ∨
      s = rows.length ∧ (ofRows alphabet rows start isFinal labels).dead? = some rows.length := by
  simp only [ofRows, List.length_range]
  split
  · simp only [and_true]
    omega
  · simp

/-- The destination in a row, and the dead state behind all rows. -/
lemma step_ofRows_eq_some_iff {s a t : Nat} :
    (ofRows alphabet rows start isFinal labels).step s a = some t ↔
      (s < (ofRows alphabet rows start isFinal labels).numStates ∧ a ∈ alphabet.ids) ∧
        ((rows[s]?).bind (·[a]?)).getD rows.length = t := by
  rw [step, ofRows, Table.get?_tabulate_eq_some_iff]
  simp only [List.mem_range, List.length_range]

lemma step_ofRows_dead {a : Nat}
    (h : (ofRows alphabet rows start isFinal labels).dead? = some rows.length)
    (ha : a ∈ alphabet.ids) :
    (ofRows alphabet rows start isFinal labels).step rows.length a = some rows.length := by
  refine step_ofRows_eq_some_iff.mpr ⟨⟨lt_numStates_ofRows.mpr (Or.inr ⟨rfl, h⟩), ha⟩, ?_⟩
  rw [List.getElem?_eq_none (Nat.le_refl _), Option.bind_none, Option.getD_none]

lemma mem_finals_ofRows {s : Nat} : s ∈ (ofRows alphabet rows start isFinal labels).finals ↔
    s < rows.length ∧ isFinal[s]? = some true := by
  simp only [ofRows, StateSet.mem_ofList, List.mem_filter, List.mem_range]
  cases isFinal[s]? <;> simp

/-- Rows for the whole alphabet that name rows or the dead state make a complete automaton. -/
lemma complete_ofRows (hstart : start ≤ rows.length)
    (hrows : ∀ row ∈ rows, row.length = alphabet.size ∧ ∀ t ∈ row, t ≤ rows.length) :
    (ofRows alphabet rows start isFinal labels).Complete where
  exists_start := fun _ => ⟨start, rfl⟩
  start_lt := by
    intro s hs
    obtain rfl : start = s := Option.some.inj hs
    rw [lt_numStates_ofRows, dead?_ofRows]
    rcases Nat.lt_or_eq_of_le hstart with hlt | heq
    · exact Or.inl hlt
    · exact Or.inr ⟨heq, Or.inl heq⟩
  final_lt := fun s hs => lt_numStates_ofRows.mpr (Or.inl (mem_finals_ofRows.mp hs).1)
  exists_step := fun s hs a ha => ⟨_, step_ofRows_eq_some_iff.mpr ⟨⟨hs, ha⟩, rfl⟩⟩
  step_lt := by
    intro s a t ht
    obtain ⟨⟨hs, ha⟩, htarget⟩ := step_ofRows_eq_some_iff.mp ht
    refine ⟨hs, ha, lt_numStates_ofRows.mpr ?_⟩
    rcases lt_numStates_ofRows.mp hs with hlt | ⟨rfl, hdead⟩
    · -- the destination stands in a row
      obtain ⟨hlen, hle⟩ := hrows rows[s] (List.getElem_mem hlt)
      have ha' : a < rows[s].length := by
        rw [hlen]
        exact Alphabet.mem_ids.mp ha
      rw [List.getElem?_eq_getElem hlt, Option.bind_some, List.getElem?_eq_getElem ha',
        Option.getD_some] at htarget
      have hmem : t ∈ rows[s] := htarget ▸ List.getElem_mem ha'
      rcases Nat.lt_or_eq_of_le (hle t hmem) with hlt' | heq
      · exact Or.inl hlt'
      · exact Or.inr ⟨heq, dead?_ofRows.mpr
          (Or.inr ⟨rows[s], List.getElem_mem hlt, heq ▸ hmem⟩)⟩
    · rw [step_ofRows_dead hdead ha, Option.some.injEq] at ht
      exact Or.inr ⟨ht.symm, hdead⟩
  dead_lt := by
    intro s hs
    obtain rfl := eq_of_dead?_ofRows hs
    exact lt_numStates_ofRows.mpr (Or.inr ⟨rfl, hs⟩)
  dead_not_final := by
    intro s hs hfinal
    have hlt := (mem_finals_ofRows.mp hfinal).1
    rw [eq_of_dead?_ofRows hs] at hlt
    exact Nat.lt_irrefl _ hlt
  dead_step := by
    intro s hs a ha
    obtain rfl := eq_of_dead?_ofRows hs
    exact step_ofRows_dead hs ha

/-! ### Files and texts -/

/-- The rows of records name records or the dead state, for the whole alphabet. -/
lemma row_fits_of_records {records : List (String × StateRecord String)}
    (hrows : List.Forall₂ (fun record row => rowOfRecord (records.map Prod.fst) alphabet record = .ok row)
      records rows) :
    ∀ row ∈ rows, row.length = alphabet.size ∧ ∀ t ∈ row, t ≤ rows.length := by
  intro row hrow
  obtain ⟨record, -, hrecord⟩ := exists_mem_of_forall₂ hrows hrow
  have hdests := rowOfRecord_eq_ok_iff.mp hrecord
  refine ⟨hdests.length_eq.symm, ?_⟩
  intro t ht
  obtain ⟨a, -, name, -, htarget⟩ := exists_mem_of_forall₂ hdests ht
  have hle := le_length_of_targetOfName htarget
  rwa [List.length_map, hrows.length_eq] at hle

lemma complete_ofFile (h : ofFile f = .ok d) : d.Complete := by
  obtain ⟨symbols, rows, start, -, hrows, hstart, rfl⟩ := ofFile_eq_ok_iff.mp h
  have hle := le_length_of_targetOfName hstart
  rw [List.length_map, hrows.length_eq] at hle
  exact complete_ofRows hle (row_fits_of_records hrows)

lemma ofText_eq_ok_iff {text : String} :
    ofText text = .ok d ↔ ∃ f, AutomatonFile.ofText text = .ok f ∧ ofFile f = .ok d := by
  rw [ofText]
  cases (AutomatonFile.ofText text : Except Json.Fault DfaFile) with
  | error fault => simp
  | ok f => cases hf : ofFile f <;> simp [hf, Except.mapError]

lemma complete_ofText {text : String} (h : ofText text = .ok d) : d.Complete := by
  obtain ⟨f, -, hf⟩ := ofText_eq_ok_iff.mp h
  exact complete_ofFile hf

end Dfa
end RegexAutomata
