/-
# Which files describe an automaton

Both kinds of files are read from the front, so of all faults of a file the first is reported.
`Dfa.faults` and `Enfa.faults` list them in the order in which they are looked for.

For a deterministic automaton all labels come first, then record by record the moves under each label of the
file, and last the start state; the record of the dead state is not looked at.  For a nondeterministic one the
labels and destinations come in the order of the file, then the start state, and the name of the dead state is
like any other.

A file without faults is consistent (`Dfa.faults_eq_nil_iff`, `Enfa.faults_eq_nil_iff`), and the main statement
is `reading_reports_first_fault`.
-/
import RegexAutomata.Proofs.File.Records
import RegexAutomata.Proofs.File.Rows

namespace RegexAutomata

/-! ### Labels -/

/-- A label is one character, or a range with its ends in order. -/
def IsSymbolLabel (label : String) : Prop :=
  (∃ c, label.toList = [c]) ∨ ∃ lo hi, lo ≤ hi ∧ label.toList = ['[', lo, '-', hi, ']']

lemma isSymbolLabel_iff {label : String} : IsSymbolLabel label ↔ ∃ a, Symbol.ofLabel? label = some a := by
  rw [IsSymbolLabel, Symbol.ofLabel?]
  constructor
  · rintro (⟨c, h⟩ | ⟨lo, hi, hle, h⟩)
    · exact ⟨.literal c, by rw [h]; rfl⟩
    · exact ⟨.range lo hi, by rw [h]; exact if_pos hle⟩
  · rintro ⟨a, h⟩
    unfold Symbol.ofSpelling? at h
    split at h
    · rename_i c hc
      exact Or.inl ⟨c, hc⟩
    · rename_i lo hi hrange
      rw [Option.ite_none_right_eq_some] at h
      exact Or.inr ⟨lo, hi, h.1, hrange⟩
    · exact absurd h (by simp)

instance (label : String) : Decidable (IsSymbolLabel label) :=
  decidable_of_iff ((Symbol.ofLabel? label).isSome = true)
    (Option.isSome_iff_exists.trans isSymbolLabel_iff.symm)

/-- A label of no symbol is a fault. -/
def labelFault? (label : String) : Option FileError :=
  if IsSymbolLabel label then none else some (.badSymbol label)

lemma labelFault?_of_some {label : String} {a : Symbol} (h : Symbol.ofLabel? label = some a) :
    labelFault? label = none :=
  if_pos (isSymbolLabel_iff.mpr ⟨a, h⟩)

lemma labelFault?_of_none {label : String} (h : Symbol.ofLabel? label = none) :
    labelFault? label = some (.badSymbol label) :=
  if_neg (by simp [isSymbolLabel_iff, h])

/-! ### Files of deterministic automata -/

namespace AutomatonFile

variable {α : Type}

/-- The labels of all records, in the order of the file. -/
def labels (f : AutomatonFile α) : List String := f.records.flatMap fun record => record.2.transitions.names

/-- The name is that of a record or of the dead state. -/
def Names (f : AutomatonFile α) (name : String) : Prop := name = deadName ∨ name ∈ f.records.map Prod.fst

instance (f : AutomatonFile α) (name : String) : Decidable (f.Names name) :=
  inferInstanceAs (Decidable (name = deadName ∨ name ∈ f.records.map Prod.fst))

/-- The record of the dead state is left out. -/
lemma records_insert_dead (f : AutomatonFile α) (record : StateRecord α) :
    ({ f with states := f.states.insert deadName record } : AutomatonFile α).records = f.records := by
  have hput : ∀ entries : List (String × StateRecord α),
      (NameMap.put deadName record entries).filter (·.1 ≠ deadName) = entries.filter (·.1 ≠ deadName) := by
    intro entries
    induction entries with
    | nil => simp [NameMap.put]
    | cons entry entries ih =>
      obtain ⟨name, value⟩ := entry
      rw [NameMap.put]
      split
      · rename_i hname
        simp [hname]
      · rw [List.filter_cons, List.filter_cons, ih]
  exact hput f.states.entries

end AutomatonFile

namespace Dfa

variable {f : DfaFile} {record : String × StateRecord String} {label name : String}

/-- The moves of the records are complete, and lead to states that are named. -/
structure Consistent (f : DfaFile) : Prop where
  isSymbolLabel : ∀ record ∈ f.records, ∀ label ∈ record.2.transitions.names, IsSymbolLabel label
  same_labels : ∀ record ∈ f.records, ∀ record' ∈ f.records, ∀ label,
    label ∈ record.2.transitions.names ↔ label ∈ record'.2.transitions.names
  names_destination : ∀ record ∈ f.records, ∀ entry ∈ record.2.transitions.entries, f.Names entry.2
  names_start : f.Names f.start

/-- Under each label a record has a destination, which is named. -/
def moveFault? (f : DfaFile) (record : String × StateRecord String) (label : String) : Option FileError :=
  match record.2.transitions.get? label with
  | none => some (.missingTransition record.1 label)
  | some name => if f.Names name then none else some (.unknownState name)

/-- The faults of a file, in the order in which they are looked for. -/
def faults (f : DfaFile) : List FileError :=
  f.labels.filterMap labelFault? ++
    ((f.records.flatMap fun record => f.labels.eraseDups.filterMap (moveFault? f record)) ++
      if f.Names f.start then [] else [.missingStart f.start])

lemma moveFault?_eq_none_iff : moveFault? f record label = none ↔
    ∃ name, (label, name) ∈ record.2.transitions.entries ∧ f.Names name := by
  simp only [← NameMap.get?_eq_some_iff]
  rw [moveFault?]
  cases record.2.transitions.get? label <;> simp

lemma faults_eq_nil_iff : faults f = [] ↔ Consistent f := by
  have hlabel : ∀ label, labelFault? label = none ↔ IsSymbolLabel label := fun label => by
    simp [labelFault?]
  rw [faults, List.append_eq_nil_iff, List.append_eq_nil_iff, List.filterMap_eq_nil_iff,
    List.flatMap_eq_nil_iff]
  simp only [List.filterMap_eq_nil_iff, List.mem_eraseDups, hlabel, moveFault?_eq_none_iff, ite_eq_left_iff,
    reduceCtorEq, imp_false, not_not]
  constructor
  · rintro ⟨hlabels, hmoves, hstart⟩
    have hmem : ∀ record ∈ f.records, ∀ label ∈ record.2.transitions.names, label ∈ f.labels :=
      fun record hrecord label hl => List.mem_flatMap.mpr ⟨record, hrecord, hl⟩
    have hsub : ∀ record ∈ f.records, ∀ record' ∈ f.records, ∀ label ∈ record.2.transitions.names,
        label ∈ record'.2.transitions.names := by
      intro record hrecord record' hrecord' label hl
      obtain ⟨name, hname, -⟩ := hmoves record' hrecord' label (hmem record hrecord label hl)
      exact List.mem_map_of_mem hname
    refine ⟨fun record hrecord label hl => hlabels label (hmem record hrecord label hl), ?_, ?_, hstart⟩
    · exact fun record hrecord record' hrecord' label =>
        ⟨hsub record hrecord record' hrecord' label, hsub record' hrecord' record hrecord label⟩
    · rintro record hrecord ⟨label, name⟩ hentry
      have hl := hmem record hrecord label (List.mem_map_of_mem hentry)
      obtain ⟨name', hname', hnames⟩ := hmoves record hrecord label hl
      -- a record has one destination under a label
      rw [← NameMap.get?_eq_some_iff] at hentry hname'
      obtain rfl : name = name' := Option.some.inj (hentry.symm.trans hname')
      exact hnames
  · intro h
    refine ⟨fun label hl => ?_, fun record hrecord label hl => ?_, h.names_start⟩
    · obtain ⟨record, hrecord, hl⟩ := List.mem_flatMap.mp hl
      exact h.isSymbolLabel record hrecord label hl
    · obtain ⟨record', hrecord', hl⟩ := List.mem_flatMap.mp hl
      rw [h.same_labels record' hrecord' record hrecord] at hl
      obtain ⟨⟨_, name⟩, hentry, rfl⟩ := List.mem_map.mp hl
      exact ⟨name, hentry, h.names_destination record hrecord _ hentry⟩

/-! #### What is reported -/

lemma fault?_symbolsOfLabels :
    fault? (symbolsOfLabels f.records) = (f.labels.filterMap labelFault?).head? := by
  rw [symbolsOfLabels, fault?_mapM, List.head?_filterMap]
  refine congrArg (List.findSome? · f.labels) (funext fun label => ?_)
  cases h : Symbol.ofLabel? label with
  | none => exact (labelFault?_of_none h).symm
  | some a => exact (labelFault?_of_some h).symm

lemma fault?_targetOfName : fault? (targetOfName (f.records.map Prod.fst) name) =
    if f.Names name then none else some (.unknownState name) := by
  rw [targetOfName]
  by_cases hdead : name = deadName
  · have hnames : f.Names name := Or.inl hdead
    rw [if_pos hdead, if_pos hnames]
    rfl
  · rw [if_neg hdead]
    cases hs : (f.records.map Prod.fst).idxOf? name with
    | none =>
      have hnames : ¬f.Names name := not_or.mpr ⟨hdead, List.idxOf?_eq_none_iff.mp hs⟩
      rw [if_neg hnames]
      rfl
    | some s =>
      have hnames : f.Names name := Or.inr (List.isSome_idxOf?.mp (Option.isSome_of_eq_some hs))
      rw [if_pos hnames]
      rfl

/-- The symbols of an alphabet are looked for under their labels. -/
lemma fault?_rowOfRecord {symbols : List Symbol} (h : symbols.map Symbol.label = f.labels) :
    fault? (rowOfRecord (f.records.map Prod.fst) (Alphabet.ofList symbols) record) =
      (f.labels.eraseDups.filterMap (moveFault? f record)).head? := by
  rw [rowOfRecord, fault?_mapM, List.head?_filterMap, ← h, ← Alphabet.map_label_symbols_ofList,
    List.findSome?_map]
  refine congrArg (List.findSome? · _) (funext fun a => ?_)
  rw [Function.comp_apply, moveFault?]
  cases record.2.transitions.get? a.label with
  | none => rfl
  | some name => exact fault?_targetOfName

/-- Symbols that are read from labels have these labels. -/
lemma map_label_of_forall₂ {labels : List String} {symbols : List Symbol}
    (h : List.Forall₂ (fun label a => Symbol.ofLabel? label = some a) labels symbols) :
    symbols.map Symbol.label = labels := by
  induction h with
  | nil => rfl
  | cons hread _ ih => rw [List.map_cons, Symbol.ofLabel?_eq_some hread, ih]

/-- The first fault of a file is reported. -/
lemma fault?_ofFile : fault? (ofFile f) = (faults f).head? := by
  rw [ofFile, faults, List.head?_append, ← fault?_symbolsOfLabels]
  refine fault?_bind fun symbols hsymbols => ?_
  have hlabels := map_label_of_forall₂ (symbolsOfLabels_eq_ok_iff.mp hsymbols)
  have hrows : fault? (f.records.mapM (rowOfRecord (f.records.map Prod.fst) (Alphabet.ofList symbols))) =
      (f.records.flatMap fun record => f.labels.eraseDups.filterMap (moveFault? f record)).head? := by
    rw [fault?_mapM, List.head?_flatMap]
    exact congrArg (List.findSome? · f.records) (funext fun record => fault?_rowOfRecord hlabels)
  rw [List.head?_append, ← hrows]
  refine fault?_bind fun rows _ => ?_
  -- the start state is looked for like a destination, and only the fault is another
  have hstart : fault? (targetOfName (f.records.map Prod.fst) f.start) =
      if f.Names f.start then none else some (.unknownState f.start) := fault?_targetOfName
  by_cases hnames : f.Names f.start
  · rw [if_pos hnames] at hstart ⊢
    obtain ⟨start, hs⟩ := fault?_eq_none_iff.mp hstart
    rw [hs]
    rfl
  · rw [if_neg hnames] at hstart ⊢
    rw [fault?_eq_some_iff.mp hstart]
    rfl

end Dfa

/-! ### Files of nondeterministic automata -/

namespace Enfa

variable {f : EnfaFile} {name : String}

/-- The labels stand for symbols or for epsilon, and the destinations and the start state have records. -/
structure Consistent (f : EnfaFile) : Prop where
  isSymbolLabel : ∀ record ∈ f.states.entries, ∀ label ∈ record.2.transitions.names,
    label = epsilonLabel ∨ IsSymbolLabel label
  mem_names_destination : ∀ record ∈ f.states.entries, ∀ entry ∈ record.2.transitions.entries,
    ∀ name ∈ entry.2, name ∈ f.states.names
  mem_names_start : f.start ∈ f.states.names

/-- A destination without a record is a fault. -/
def destinationFault? (f : EnfaFile) (name : String) : Option FileError :=
  if name ∈ f.states.names then none else some (.unknownState name)

/-- The faults of a label and of the destinations under it. -/
def moveFaults (f : EnfaFile) (entry : String × List String) : List FileError :=
  (if entry.1 = epsilonLabel then none else labelFault? entry.1).toList ++
    entry.2.filterMap (destinationFault? f)

/-- The faults of a file, in the order in which they are looked for. -/
def faults (f : EnfaFile) : List FileError :=
  (f.states.entries.flatMap fun record => record.2.transitions.entries.flatMap (moveFaults f)) ++
    if f.start ∈ f.states.names then [] else [.missingStart f.start]

lemma moveFaults_eq_nil_iff {entry : String × List String} : moveFaults f entry = [] ↔
    (entry.1 = epsilonLabel ∨ IsSymbolLabel entry.1) ∧ ∀ name ∈ entry.2, name ∈ f.states.names := by
  rw [moveFaults, List.append_eq_nil_iff, List.filterMap_eq_nil_iff]
  simp [destinationFault?, labelFault?, or_iff_not_imp_left]

lemma faults_eq_nil_iff : faults f = [] ↔ Consistent f := by
  rw [faults, List.append_eq_nil_iff, List.flatMap_eq_nil_iff]
  simp only [List.flatMap_eq_nil_iff, moveFaults_eq_nil_iff, ite_eq_left_iff, reduceCtorEq, imp_false,
    not_not]
  constructor
  · rintro ⟨hmoves, hstart⟩
    refine ⟨fun record hrecord label hl => ?_, fun record hrecord entry hentry =>
      (hmoves record hrecord entry hentry).2, hstart⟩
    obtain ⟨entry, hentry, rfl⟩ := List.mem_map.mp hl
    exact (hmoves record hrecord entry hentry).1
  · intro h
    refine ⟨fun record hrecord entry hentry => ⟨?_, ?_⟩, h.mem_names_start⟩
    · exact h.isSymbolLabel record hrecord entry.1 (List.mem_map_of_mem hentry)
    · exact h.mem_names_destination record hrecord entry hentry

/-! #### What is reported -/

lemma fault?_stateOfName : fault? (stateOfName f.states.names name) = destinationFault? f name := by
  rw [stateOfName, destinationFault?]
  cases hs : f.states.names.idxOf? name with
  | none =>
    rw [if_neg (List.idxOf?_eq_none_iff.mp hs)]
    rfl
  | some s =>
    rw [if_pos (List.isSome_idxOf?.mp (Option.isSome_of_eq_some hs))]
    rfl

lemma fault?_symbolOfLabel {label : String} : fault? (symbolOfLabel label) =
    if label = epsilonLabel then none else labelFault? label := by
  rw [symbolOfLabel]
  split
  · rfl
  · cases h : Symbol.ofLabel? label with
    | none => exact (labelFault?_of_none h).symm
    | some a => exact (labelFault?_of_some h).symm

lemma fault?_addMoves {s : Nat} {n : Enfa} {entry : String × List String} :
    fault? (n.addMoves f.states.names s entry) = (moveFaults f entry).head? := by
  rw [addMoves, moveFaults, List.head?_append, Option.head?_toList, ← fault?_symbolOfLabel]
  refine fault?_bind fun symbol? _ => ?_
  rw [List.head?_filterMap]
  refine fault?_foldlM fun n name _ => ?_
  -- once the destination is found, adding the move cannot fail
  refine (fault?_bind_of_none fun d => ?_).trans fault?_stateOfName
  cases symbol? <;> rfl

/-- The state of a record is known, so only its moves may have faults. -/
lemma fault?_addRecord {n : Enfa} {record : String × StateRecord (List String)}
    (hrecord : record ∈ f.states.entries) : fault? (n.addRecord f.states.names record) =
      (record.2.transitions.entries.flatMap (moveFaults f)).head? := by
  have hmem : record.1 ∈ f.states.names := List.mem_map_of_mem hrecord
  obtain ⟨s, hs⟩ := fault?_eq_none_iff.mp (fault?_stateOfName.trans (if_pos hmem))
  rw [addRecord, hs, List.head?_flatMap]
  exact fault?_foldlM fun _ _ _ => fault?_addMoves

/-- The first fault of a file is reported. -/
lemma fault?_ofFile : fault? (ofFile f) = (faults f).head? := by
  have hrecords : fault? (f.states.entries.foldlM (addRecord f.states.names) (ofStates f.states.size)) =
      (f.states.entries.flatMap fun record =>
        record.2.transitions.entries.flatMap (moveFaults f)).head? := by
    rw [List.head?_flatMap]
    exact fault?_foldlM fun _ _ hrecord => fault?_addRecord hrecord
  rw [ofFile, faults, List.head?_append, ← hrecords]
  refine fault?_bind fun n _ => ?_
  cases hs : f.states.names.idxOf? f.start with
  | none =>
    rw [if_neg (List.idxOf?_eq_none_iff.mp hs)]
    rfl
  | some s =>
    rw [if_pos (List.isSome_idxOf?.mp (Option.isSome_of_eq_some hs))]
    rfl

end Enfa

/-- A file is read exactly if it is consistent, and of an inconsistent file the first fault is reported.  In a
file of a deterministic automaton the record of the dead state plays no part. -/
theorem reading_reports_first_fault :
    (∀ f : DfaFile,
      ((∃ d, Dfa.ofFile f = .ok d) ↔ Dfa.Consistent f) ∧
      (∀ e, Dfa.ofFile f = .error e ↔ (Dfa.faults f).head? = some e) ∧
      ∀ record, Dfa.ofFile { f with states := f.states.insert deadName record } = Dfa.ofFile f) ∧
    ∀ f : EnfaFile,
      ((∃ n, Enfa.ofFile f = .ok n) ↔ Enfa.Consistent f) ∧
      ∀ e, Enfa.ofFile f = .error e ↔ (Enfa.faults f).head? = some e := by
  refine ⟨fun f => ⟨?_, fun e => ?_, fun record => ?_⟩, fun f => ⟨?_, fun e => ?_⟩⟩
  · rw [← fault?_eq_none_iff, Dfa.fault?_ofFile, List.head?_eq_none_iff, Dfa.faults_eq_nil_iff]
  · rw [← fault?_eq_some_iff, Dfa.fault?_ofFile]
  · simp only [Dfa.ofFile, f.records_insert_dead record]
  · rw [← fault?_eq_none_iff, Enfa.fault?_ofFile, List.head?_eq_none_iff, Enfa.faults_eq_nil_iff]
  · rw [← fault?_eq_some_iff, Enfa.fault?_ofFile]

end RegexAutomata
