/-
# Files are read move by move

Reading a file move by move comes upon the same faults in the same order as reading it row by row.  If there
are none, what has been built of the automaton when some of the records have been gone through is a draft of
the automaton that the rows make (`Dfa.exists_connectRecord`), so in the end it is alike to it.

The main result is `Dfa.ofFileStepwise_alike`.
-/
import RegexAutomata.File.Connecting
import RegexAutomata.Proofs.Dfa.Draft
import RegexAutomata.Proofs.File.Faults
import RegexAutomata.Proofs.File.Renaming

namespace RegexAutomata
namespace Dfa

variable {f : DfaFile} {d : Dfa} {A : Alphabet} {names : List String} {states : NameMap Nat}
  {name : String} {s : Nat}

/-! ### Symbols and states -/

/-- The symbols are added label by label. -/
lemma foldlM_addLabel (labels : List String) (A : Alphabet) :
    labels.foldlM addLabel (ofAlphabet A) =
      (fun symbols => ofAlphabet (symbols.foldl .insert A)) <$> labels.mapM fun label =>
        match Symbol.ofLabel? label with
        | some a => Except.ok a
        | none => .error (.badSymbol label) := by
  induction labels generalizing A with
  | nil => rfl
  | cons label labels ih =>
    rw [List.foldlM_cons, List.mapM_cons, addLabel]
    cases Symbol.ofLabel? label with
    | none => rfl
    | some a =>
      have hadd : (ofAlphabet A).addSymbol a = ofAlphabet (A.insert a) := rfl
      simp only [pure_bind, hadd, ih, ok_bind]
      cases labels.mapM (fun label => match Symbol.ofLabel? label with
        | some a => Except.ok a
        | none => .error (FileError.badSymbol label)) <;> rfl

/-- The automaton that has states with labels, and nothing else. -/
def ofLabels (A : Alphabet) (labels : List Nat) : Dfa :=
  { ofAlphabet A with numStates := labels.length, labels := labels.toArray }

/-- The states are added name by name. -/
lemma foldl_addNamed (entries : List (String × Nat)) (labels : List Nat) (states : NameMap Nat) :
    entries.foldl addNamed (ofLabels A labels, states) =
      (ofLabels A (labels ++ entries.map Prod.snd),
        ((entries.map Prod.fst).zipIdx labels.length).foldl
          (fun states entry => states.insert entry.1 entry.2) states) := by
  induction entries generalizing labels states with
  | nil => simp
  | cons entry entries ih =>
    have hadd : addNamed (ofLabels A labels, states) entry =
        (ofLabels A (labels ++ [entry.2]), states.insert entry.1 labels.length) := by
      simp [addNamed, ofLabels, addState, setLabel]
    rw [List.foldl_cons, hadd, ih]
    simp

lemma foldl_addNamed_zip {labels : List Nat} (h : labels.length = names.length) :
    (names.zip labels).foldl addNamed (ofAlphabet A, .empty) =
      (ofLabels A labels, .ofList names.zipIdx) := by
  have hfold := foldl_addNamed (A := A) (names.zip labels) [] .empty
  rw [List.map_fst_zip (Nat.le_of_eq h.symm), List.map_snd_zip (Nat.le_of_eq h)] at hfold
  exact hfold

/-- Each name stands for the state that has been added with it. -/
lemma get?_ofList_zipIdx (h : names.Nodup) :
    (NameMap.ofList names.zipIdx).get? name = names.idxOf? name := by
  have hentries : (NameMap.ofList names.zipIdx).entries = names.zipIdx :=
    NameMap.entries_ofList (by rwa [List.zipIdx_map_fst])
  ext s
  rw [NameMap.get?_eq_some_iff, hentries, List.mem_zipIdx_iff_getElem?]
  refine ⟨idxOf?_of_nodup h, fun hs => ?_⟩
  obtain ⟨hlt, hname, -⟩ := List.idxOf?_eq_some_iff.mp hs
  rw [← hname]
  exact List.getElem?_eq_getElem hlt

/-! ### Faults -/

/-- In a row the dead state has the number behind all names. -/
lemma targetOfName_eq (hstates : ∀ name, states.get? name = names.idxOf? name) (name : String) :
    targetOfName names name = (·.getD names.length) <$> resolve states name := by
  rw [targetOfName, resolve, lookUp, hstates]
  split
  · rfl
  · cases names.idxOf? name <;> rfl

lemma rowOfRecord_eq (hstates : ∀ name, states.get? name = names.idxOf? name) (A : Alphabet)
    (record : String × StateRecord String) : rowOfRecord names A record =
      A.symbols.mapM fun a => (·.getD names.length) <$> moveOf states record a.label := by
  rw [rowOfRecord]
  refine congrArg (List.mapM · A.symbols) (funext fun a => ?_)
  rw [moveOf]
  cases record.2.transitions.get? a.label with
  | none => rfl
  | some name => exact targetOfName_eq hstates name

lemma alphabet_of_connectOn {record : String × StateRecord String} {a : Nat} {d' : Dfa}
    (h : connectOn states record s d a = .ok d') : d'.alphabet = d.alphabet := by
  obtain ⟨t?, -, hd'⟩ := bind_eq_ok_iff.mp h
  exact Except.ok.inj hd' ▸ (SameFrame.connect d s a t?).alphabet_eq

lemma alphabet_of_connectRecord {record : String × StateRecord String} {d' : Dfa}
    (h : connectRecord states d record = .ok d') : d'.alphabet = d.alphabet := by
  obtain ⟨s, -, hfold⟩ := bind_eq_ok_iff.mp h
  have hkept : ∀ (m : Dfa) (a : Nat) (m' : Dfa), m.alphabet = d.alphabet →
      connectOn states record s m a = .ok m' → m'.alphabet = d.alphabet :=
    fun _ _ _ hm hm' => (alphabet_of_connectOn hm').trans hm
  refine foldlM_keeps hkept ?_ hfold
  split <;> rfl

/-- The moves of a record have the same faults in the same order. -/
lemma fault?_connectRecord (hstates : ∀ name, states.get? name = names.idxOf? name)
    {record : String × StateRecord String} (hs : lookUp states record.1 = .ok s) :
    fault? (connectRecord states d record) = fault? (rowOfRecord names d.alphabet record) := by
  have hon : ∀ m : Dfa, m.alphabet = d.alphabet → ∀ a ∈ d.alphabet.ids,
      fault? (connectOn states record s m a) =
        fault? (moveOf states record (d.alphabet.label (.symbol a))) := by
    intro m hm a _
    rw [connectOn, fault?_bind_of_none fun _ => rfl, hm]
  have hfinal : (if record.2.isFinal then d.addFinal s else d).alphabet = d.alphabet := by
    split <;> rfl
  have hlabels := congrArg (List.findSome? fun label => fault? (moveOf states record label))
    d.alphabet.map_label_ids
  rw [List.findSome?_map, List.findSome?_map] at hlabels
  rw [connectRecord, hs, ok_bind, rowOfRecord_eq hstates, fault?_mapM]
  simp only [hfinal, fault?_map]
  refine (fault?_foldlM_of_keeps (fun m => m.alphabet = d.alphabet) hfinal hon ?_).trans hlabels
  exact fun m a m' hm hm' => (alphabet_of_connectOn hm').trans hm

/-! ### Moves -/

section

variable {rows : List (List Nat)} {start : Nat} {isFinal : List Bool} {labels : List Nat}

lemma step_ofRows {a : Nat} (hs : s < rows.length) (ha : a ∈ A.ids) :
    (ofRows A rows start isFinal labels).step s a =
      some (((rows[s]?).bind (·[a]?)).getD rows.length) :=
  step_ofRows_eq_some_iff.mpr ⟨⟨lt_numStates_ofRows.mpr (Or.inl hs), ha⟩, rfl⟩

/-- The automaton of rows has a state for each row, and behind them its dead state. -/
lemma deadLast_ofRows (hstart : start ≤ rows.length)
    (hrows : ∀ row ∈ rows, row.length = A.size ∧ ∀ t ∈ row, t ≤ rows.length) :
    (ofRows A rows start isFinal labels).DeadLast rows.length labels.toArray where
  complete := complete_ofRows hstart hrows
  numStates_eq := by
    simp only [ofRows, List.length_range]
    split <;> simp
  labels_eq := by
    simp only [ofRows]
    split <;> simp
  dead_eq := fun _ => eq_of_dead?_ofRows
  needed := by
    intro hdead
    rcases dead?_ofRows.mp hdead with rfl | ⟨row, hrow, hmem⟩
    · exact Or.inl rfl
    · obtain ⟨s, hs⟩ := List.mem_iff_getElem?.mp hrow
      obtain ⟨a, ha⟩ := List.mem_iff_getElem?.mp hmem
      have hlt := (List.getElem?_eq_some_iff.mp hs).1
      have hid : a ∈ A.ids := Alphabet.mem_ids.mpr ((hrows row hrow).1 ▸ (List.getElem?_eq_some_iff.mp ha).1)
      refine Or.inr ⟨s, hlt, a, hid, ?_⟩
      rw [step_ofRows hlt hid, hs, Option.bind_some, ha, Option.getD_some]

lemma lt_of_resolve (hstates : ∀ name, states.get? name = names.idxOf? name) {t : Nat}
    (h : resolve states name = .ok (some t)) : t < names.length := by
  rw [resolve, lookUp, hstates] at h
  split at h
  · exact absurd (Except.ok.inj h) (by simp)
  · cases ht : names.idxOf? name with
    | none => rw [ht] at h; exact absurd h (by simp)
    | some t' =>
      rw [ht] at h
      obtain rfl : t' = t := Option.some.inj (Except.ok.inj h)
      exact (List.idxOf?_eq_some_iff.mp ht).1

/-- What the moves of a record are, if a row is made of it. -/
lemma exists_moveOf (hstates : ∀ name, states.get? name = names.idxOf? name)
    {record : String × StateRecord String} {row : List Nat} (hrow : rowOfRecord names A record = .ok row)
    {a : Nat} (ha : a ∈ A.ids) : ∃ t?, moveOf states record (A.label (.symbol a)) = .ok t? ∧
      row[a]? = some (t?.getD names.length) ∧ ∀ t, t? = some t → t < names.length := by
  have hlt : a < A.symbols.length := Alphabet.mem_ids.mp ha
  rw [rowOfRecord_eq hstates, mapM_eq_ok_iff, List.forall₂_iff_get] at hrow
  obtain ⟨hlength, hget⟩ := hrow
  obtain ⟨t?, hmove, ht⟩ := map_eq_ok_iff.mp (hget a hlt (hlength ▸ hlt))
  refine ⟨t?, by rwa [Alphabet.label_symbol hlt], ?_, ?_⟩
  · rw [ht, List.get_eq_getElem]
    exact List.getElem?_eq_getElem _
  · rintro t rfl
    rw [moveOf] at hmove
    split at hmove
    · exact absurd hmove (by simp)
    · exact lt_of_resolve hstates hmove

/-- A record is connected as its row says. -/
lemma exists_connectRecord (hstates : ∀ name, states.get? name = names.idxOf? name)
    (hnames : names.length = rows.length)
    (he : (ofRows A rows start isFinal labels).DeadLast rows.length labels.toArray)
    {record : String × StateRecord String} {row : List Nat} (hrow : rowOfRecord names A record = .ok row)
    (hrecord : lookUp states record.1 = .ok s) (hs : rows[s]? = some row) {done : Nat → Nat → Prop}
    (hd : d.Draft rows.length labels.toArray done (ofRows A rows start isFinal labels)) :
    ∃ d', connectRecord states d record = .ok d' ∧
      d'.SameFrame (if record.2.isFinal then d.addFinal s else d) ∧
      d'.Draft rows.length labels.toArray (fun x b => done x b ∨ x = s ∧ b ∈ A.ids)
        (ofRows A rows start isFinal labels) := by
  have hlt := (List.getElem?_eq_some_iff.mp hs).1
  have hfinal : (if record.2.isFinal then d.addFinal s else d).Draft rows.length labels.toArray done
      (ofRows A rows start isFinal labels) := by
    split
    · exact hd.addFinal s
    · exact hd
  have hids : (if record.2.isFinal then d.addFinal s else d).alphabet = A := hfinal.alphabet_eq
  rw [connectRecord, hrecord, ok_bind]
  simp only [hids]
  refine hfinal.exists_foldlM_connect he fun a (ha : a ∈ A.ids) => ?_
  obtain ⟨t?, hmove, ht, hlt'⟩ := exists_moveOf hstates hrow ha
  rw [hnames] at ht hlt'
  refine ⟨t?, fun m hm => ?_, ?_, fun t hte => Nat.ne_of_lt (hlt' t hte), fun hte => ?_⟩
  · have hm' : m.alphabet = A := hm
    rw [connectOn, hm', hmove]
    rfl
  · rw [step_ofRows hlt ha, hs, Option.bind_some, ht, Option.getD_some]
  · refine dead?_ofRows.mpr (Or.inr ⟨row, List.mem_of_getElem? hs, List.mem_of_getElem? (i := a) ?_⟩)
    rw [ht, hte, Option.getD_none]

end

/-! ### Files -/

/-- The states of the records, by name. -/
def statesOf (f : DfaFile) : NameMap Nat := .ofList f.recordNames.zipIdx

lemma get?_statesOf (f : DfaFile) (name : String) : (statesOf f).get? name = f.recordNames.idxOf? name :=
  get?_ofList_zipIdx f.nodup_recordNames

lemma ofFileStepwise_eq (f : DfaFile) : ofFileStepwise f =
    symbolsOfLabels f.records >>= fun symbols =>
      f.records.foldlM (connectRecord (statesOf f))
        (ofLabels (.ofList symbols) (labelsOfNames f.recordNames)) >>=
      startNamed (statesOf f) f.start := by
  have hlabels : (f.records.flatMap fun entry => entry.2.transitions.names).foldlM addLabel empty =
      (fun symbols => ofAlphabet (Alphabet.ofList symbols)) <$> symbolsOfLabels f.records :=
    foldlM_addLabel _ .empty
  rw [ofFileStepwise]
  simp only [hlabels, bind_map_left]
  refine congrArg (symbolsOfLabels f.records >>= ·) (funext fun symbols => ?_)
  rw [foldl_addNamed_zip length_labelsOfNames]
  rfl

lemma lookUp_statesOf {record : String × StateRecord String} (hs : f.records[s]? = some record) :
    lookUp (statesOf f) record.1 = .ok s := by
  have hname : f.recordNames[s]? = some record.1 := by
    rw [AutomatonFile.recordNames, List.getElem?_map, hs, Option.map_some]
  rw [lookUp, get?_statesOf, idxOf?_of_nodup f.nodup_recordNames hname]

/-- Reading move by move comes upon the same fault. -/
lemma fault?_ofFileStepwise : fault? (ofFileStepwise f) = fault? (ofFile f) := by
  rw [ofFileStepwise_eq, ofFile]
  cases symbolsOfLabels f.records with
  | error e => rfl
  | ok symbols =>
    have hrecords : fault? (f.records.foldlM (connectRecord (statesOf f))
        (ofLabels (.ofList symbols) (labelsOfNames f.recordNames))) =
          fault? (f.records.mapM (rowOfRecord f.recordNames (.ofList symbols))) := by
      rw [fault?_mapM]
      refine fault?_foldlM_of_keeps (fun m => m.alphabet = .ofList symbols) rfl ?_ ?_
      · intro m hm record hrecord
        obtain ⟨s, hs⟩ := List.mem_iff_getElem?.mp hrecord
        rw [fault?_connectRecord (get?_statesOf f) (lookUp_statesOf hs), hm]
      · exact fun m record m' hm hm' => (alphabet_of_connectRecord hm').trans hm
    have hstart : ∀ d : Dfa, fault? (startNamed (statesOf f) f.start d) =
        fault? (startNamed (statesOf f) f.start empty) := by
      intro d
      rw [startNamed, startNamed]
      cases resolve (statesOf f) f.start <;> rfl
    rw [ok_bind, fault?_bind fun d _ => hstart d, hrecords]
    refine (fault?_bind fun rows _ => ?_).symm
    have htarget : targetOfName (f.records.map Prod.fst) f.start = _ :=
      targetOfName_eq (get?_statesOf f) f.start
    rw [startNamed, htarget]
    cases resolve (statesOf f) f.start <;> rfl

section

variable {rows : List (List Nat)} {start : Nat} {isFinal : List Bool} {labels : List Nat}

/-- The first records of a file have been connected, and nothing else has been set. -/
structure ConnectedUpTo (i : Nat) (A : Alphabet) (rows : List (List Nat)) (start : Nat)
    (isFinal : List Bool) (labels : List Nat) (d : Dfa) : Prop where
  start?_eq : d.start? = none
  mapping?_eq : d.mapping? = none
  mem_finals_iff : ∀ x, x ∈ d.finals ↔ x < i ∧ isFinal[x]? = some true
  draft : d.Draft rows.length labels.toArray (fun x a => x < i ∧ a ∈ A.ids)
    (ofRows A rows start isFinal labels)

lemma connectedUpTo_zero (hlabels : labels.length = rows.length) :
    ConnectedUpTo 0 A rows start isFinal labels (ofLabels A labels) where
  start?_eq := rfl
  mapping?_eq := rfl
  mem_finals_iff := fun x => ⟨fun hx => absurd hx StateSet.not_mem_empty, fun hx => by omega⟩
  draft := by
    have hempty : (ofLabels A labels).Draft rows.length labels.toArray (fun _ _ => False)
        (ofRows A rows start isFinal labels) := .of_table_eq_empty rfl hlabels rfl rfl rfl rfl
    exact hempty.mono fun x a hxa => Nat.not_lt_zero x hxa.1

/-- The next record is connected. -/
lemma ConnectedUpTo.exists_connectRecord {record : String × StateRecord String} {row : List Nat}
    (h : ConnectedUpTo s A rows start isFinal labels d)
    (hstates : ∀ name, states.get? name = names.idxOf? name) (hnames : names.length = rows.length)
    (he : (ofRows A rows start isFinal labels).DeadLast rows.length labels.toArray)
    (hrow : rowOfRecord names A record = .ok row) (hrecord : lookUp states record.1 = .ok s)
    (hs : rows[s]? = some row) (hfinal : isFinal[s]? = some record.2.isFinal) :
    ∃ d', connectRecord states d record = .ok d' ∧
      ConnectedUpTo (s + 1) A rows start isFinal labels d' := by
  obtain ⟨d', hconnect, hframe, hdraft⟩ := Dfa.exists_connectRecord hstates hnames he hrow hrecord hs h.draft
  refine ⟨d', hconnect, ?_, ?_, fun x => ?_, hdraft.mono fun x a hxa => ?_⟩
  · rw [hframe.start?_eq, ← h.start?_eq]
    split <;> rfl
  · rw [hframe.mapping?_eq, ← h.mapping?_eq]
    split <;> rfl
  · rw [hframe.finals_eq]
    split
    · rename_i hrecordFinal
      rw [addFinal, StateSet.mem_insert, h.mem_finals_iff]
      grind
    · rw [h.mem_finals_iff]
      grind
  · exact (Nat.lt_succ_iff_lt_or_eq.mp hxa.1).imp (⟨·, hxa.2⟩) (⟨·, hxa.2⟩)

/-- All records are connected one after the other. -/
lemma exists_foldlM_connectRecord (hnames : f.recordNames.length = rows.length)
    (hlabels : labels.length = rows.length)
    (he : (ofRows A rows start (f.records.map (·.2.isFinal)) labels).DeadLast rows.length labels.toArray)
    (hrows : List.Forall₂ (fun record row => rowOfRecord f.recordNames A record = .ok row) f.records rows) :
    ∃ d, f.records.foldlM (connectRecord (statesOf f)) (ofLabels A labels) = .ok d ∧
      ConnectedUpTo f.records.length A rows start (f.records.map (·.2.isFinal)) labels d := by
  refine exists_foldlM (fun i d => ConnectedUpTo i A rows start (f.records.map (·.2.isFinal)) labels d)
    (connectedUpTo_zero hlabels) fun i record hrecord d hd => ?_
  obtain ⟨hi, hget⟩ := List.getElem?_eq_some_iff.mp hrecord
  obtain ⟨hlength, hrow⟩ := List.forall₂_iff_get.mp hrows
  refine hd.exists_connectRecord (get?_statesOf f) hnames he ?_ (lookUp_statesOf hrecord)
    (List.getElem?_eq_getElem (hlength ▸ hi)) ?_
  · rw [← hget]
    exact hrow i hi (hlength ▸ hi)
  · rw [List.getElem?_map, hrecord, Option.map_some]

end

/-- The start state is looked up like a destination. -/
lemma startNamed_of_targetOfName (hstates : ∀ name, states.get? name = names.idxOf? name) {start : Nat}
    (h : targetOfName names name = .ok start) : ∃ start?, start?.getD names.length = start ∧
      (∀ t, start? = some t → t < names.length) ∧ startNamed states name d = .ok (d.startIn start?) := by
  rw [targetOfName_eq hstates] at h
  obtain ⟨start?, hresolve, hstart⟩ := map_eq_ok_iff.mp h
  refine ⟨start?, hstart, ?_, by rw [startNamed, hresolve]; rfl⟩
  rintro t rfl
  exact lt_of_resolve hstates hresolve

/-- What has been built in the end is alike to the automaton that the file describes. -/
lemma exists_ofFileStepwise (h : ofFile f = .ok d) : ∃ d', ofFileStepwise f = .ok d' ∧ d'.Alike d := by
  obtain ⟨symbols, rows, start, hsymbols, hrows, hstart, rfl⟩ := ofFile_eq_ok_iff.mp h
  have hlength := hrows.length_eq
  have hnames : f.recordNames.length = rows.length := by
    rw [AutomatonFile.recordNames, List.length_map, hlength]
  have hle : start ≤ rows.length := hnames ▸ le_length_of_targetOfName hstart
  have hlast : (ofRows (.ofList symbols) rows start (f.records.map (·.2.isFinal))
      (labelsOfNames f.recordNames)).DeadLast rows.length (labelsOfNames f.recordNames).toArray :=
    deadLast_ofRows hle (row_fits_of_records hrows)
  obtain ⟨m, hfold, hm⟩ :=
    exists_foldlM_connectRecord hnames (length_labelsOfNames.trans hnames) hlast hrows
  obtain ⟨start?, hget, hlt, hnamed⟩ := startNamed_of_targetOfName (d := m) (get?_statesOf f) hstart
  rw [hnames] at hget hlt
  refine ⟨m.startIn start?, ?_, ?_⟩
  · rw [ofFileStepwise_eq, hsymbols, ok_bind, hfold, ok_bind, hnamed]
  · have hdenotes : Denotes rows.length (ofRows (.ofList symbols) rows start
        (f.records.map (·.2.isFinal)) (labelsOfNames f.recordNames)) start? := by
      refine ⟨fun t ht => Nat.ne_of_lt (hlt t ht), fun hnone => dead?_ofRows.mpr (Or.inl ?_)⟩
      rw [← hget, hnone, Option.getD_none]
    refine (hm.draft.startIn hlast hdenotes).alike hlast (fun x hx a ha => ⟨hlength ▸ hx, ha⟩) ?_ ?_ ?_
    · rw [hm.draft.start?_startIn, hget]
      rfl
    · rw [finals_startIn]
      ext x
      rw [hm.mem_finals_iff, mem_finals_ofRows, hlength]
    · rw [mapping?_startIn, hm.mapping?_eq]
      rfl

/-- Reading a file move by move fails as reading it row by row fails, and otherwise gives an automaton that is
alike. -/
lemma ofFileStepwise_alike (f : DfaFile) :
    match ofFile f with
    | .ok d => ∃ d', ofFileStepwise f = .ok d' ∧ d'.Alike d
    | .error e => ofFileStepwise f = .error e := by
  have hfault := fault?_ofFileStepwise (f := f)
  cases h : ofFile f with
  | ok d => exact exists_ofFileStepwise h
  | error e =>
    rw [h] at hfault
    exact fault?_eq_some_iff.mp hfault

end Dfa
end RegexAutomata
