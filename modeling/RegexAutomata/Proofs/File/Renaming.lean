/-
# Files that have been written again

Writing an automaton that was read from a text renames the states of the text (`Dfa.Renames`): a name
that is made of a label of at most 32 bits stays, and the others are replaced by names that are not in
use.  The new text is a normal form: it is read as the same automaton and written as the same text
(`Dfa.text_of_ofText_is_normal`).
-/
import Mathlib.Data.Set.Function
import RegexAutomata.Proofs.File.NormalForm

namespace RegexAutomata

open Dfa

/-! ### What a file lists -/

/-- The names of the states with records. -/
def AutomatonFile.recordNames {α : Type} (f : AutomatonFile α) : List String :=
  f.records.map Prod.fst

/-- The parts are those of the automaton that a file describes. -/
structure Listing.Of (p : Listing) (f : DfaFile) : Prop where
  labels_eq : p.labels = labelsOfNames f.recordNames
  isFinal_eq : p.isFinal = f.records.map (·.2.isFinal)
  start_ok : targetOfName f.recordNames f.start = .ok p.start
  rows_ok : List.Forall₂ (fun record row => rowOfRecord f.recordNames p.alphabet record = .ok row)
    f.records p.rows
  exists_symbol : ∀ entry ∈ f.records, ∀ label ∈ entry.2.transitions.names,
    ∃ a ∈ p.alphabet.symbols, a.label = label

variable {f : DfaFile} {p : Listing}

lemma AutomatonFile.nodup_recordNames {α : Type} (f : AutomatonFile α) : f.recordNames.Nodup :=
  f.states.nodup.sublist (List.filter_sublist.map _)

lemma AutomatonFile.deadName_not_mem_recordNames {α : Type} (f : AutomatonFile α) :
    deadName ∉ f.recordNames := by
  intro h
  obtain ⟨entry, hentry, hname⟩ := List.mem_map.mp h
  exact of_decide_eq_true (List.mem_filter.mp hentry).2 hname

/-- The parts of an automaton that is read from a file. -/
lemma exists_listing_of_ofFile {d : Dfa} (h : ofFile f = .ok d) :
    ∃ p : Listing, p.Of f ∧ p.dfa = d := by
  obtain ⟨symbols, rows, start, hsymbols, hrows, hstart, rfl⟩ := ofFile_eq_ok_iff.mp h
  rw [symbolsOfLabels_eq_ok_iff] at hsymbols
  have hlen := hrows.length_eq
  have hle := le_length_of_targetOfName hstart
  rw [List.length_map, hlen] at hle
  have hread : ∀ a ∈ (Alphabet.ofList symbols).symbols, Symbol.ofLabel? a.label = some a := by
    intro a ha
    obtain ⟨label, -, hlabel⟩ :=
      exists_mem_of_forall₂ hsymbols (Alphabet.mem_symbols_ofList.mp ha)
    rwa [Symbol.ofLabel?_eq_some hlabel]
  have hnil : rows.length = 0 → (Alphabet.ofList symbols).symbols = [] := by
    intro hzero
    rw [← hlen, List.length_eq_zero_iff] at hzero
    rw [hzero, List.flatMap_nil, List.forall₂_nil_left_iff] at hsymbols
    rw [hsymbols]
    rfl
  refine ⟨⟨Alphabet.ofList symbols, rows, start, f.records.map (·.2.isFinal),
    labelsOfNames f.recordNames, by rw [List.length_map, hlen], ?_,
    nodup_labelsOfNames f.nodup_recordNames, labelsOfNames_map_nameOfLabel _, hle,
    row_fits_of_records hrows, hread, hnil⟩, ⟨rfl, rfl, hstart, hrows, ?_⟩, rfl⟩
  · rw [length_labelsOfNames, AutomatonFile.recordNames, List.length_map, hlen]
  · intro entry hentry label hlabel
    obtain ⟨a, ha, hread⟩ := exists_mem_of_forall₂ hsymbols.flip
      (List.mem_flatMap.mpr ⟨entry, hentry, hlabel⟩)
    exact ⟨a, Alphabet.mem_symbols_ofList.mpr ha, Symbol.ofLabel?_eq_some hread⟩

/-! ### New names -/

/-- The name that the state with a given name gets: the name made of its label.  Other names stay. -/
def newName (names : List String) (name : String) : String :=
  match (names.idxOf? name).bind ((labelsOfNames names)[·]?) with
  | some label => nameOfLabel label
  | none => name

section

variable {names : List String} {name : String}

lemma newName_of_idxOf? {s : Nat} (hs : names.idxOf? name = some s) :
    ∃ label, (labelsOfNames names)[s]? = some label ∧ newName names name = nameOfLabel label := by
  have hlt : s < (labelsOfNames names).length := by
    rw [length_labelsOfNames]
    exact (List.idxOf?_eq_some_iff.mp hs).1
  have hlabel : (labelsOfNames names)[s]? = some (labelsOfNames names)[s] :=
    List.getElem?_eq_getElem hlt
  exact ⟨_, hlabel, by rw [newName, hs, Option.bind_some, hlabel]⟩

lemma newName_of_not_mem (h : name ∉ names) : newName names name = name := by
  rw [newName, List.idxOf?_eq_none_iff.mpr h, Option.bind_none]

/-- A name that is made of a label of at most 32 bits stays. -/
lemma newName_nameOfLabel {label : Nat} (hlabel : label < 4294967296) :
    newName names (nameOfLabel label) = nameOfLabel label := by
  cases hs : names.idxOf? (nameOfLabel label) with
  | none => exact newName_of_not_mem (List.idxOf?_eq_none_iff.mp hs)
  | some s =>
    obtain ⟨hlt, hname, -⟩ := List.idxOf?_eq_some_iff.mp hs
    obtain ⟨label', hlabel', hnew⟩ := newName_of_idxOf? hs
    rw [getElem?_labelsOfNames hlabel (List.getElem?_eq_some_iff.mpr ⟨hlt, hname⟩),
      Option.some.injEq] at hlabel'
    rw [hnew, hlabel']

/-- States keep having different names, and none gets the name of the dead state. -/
lemma injOn_newName (hnodup : names.Nodup) (hdead : deadName ∉ names) :
    Set.InjOn (newName names) {name | name = deadName ∨ name ∈ names} := by
  have hnew : ∀ name ∈ names, ∃ s label : Nat, names[s]? = some name ∧
      (labelsOfNames names)[s]? = some label ∧ newName names name = nameOfLabel label := by
    intro name hname
    obtain ⟨s, hs⟩ := List.mem_iff_getElem?.mp hname
    obtain ⟨label, hlabel, hnew⟩ := newName_of_idxOf? (idxOf?_of_nodup hnodup hs)
    exact ⟨s, label, hs, hlabel, hnew⟩
  rintro x (rfl | hx) y (rfl | hy) hxy
  · rfl
  · obtain ⟨_, label, -, -, hy⟩ := hnew y hy
    rw [newName_of_not_mem hdead, hy] at hxy
    exact absurd hxy.symm (nameOfLabel_ne_deadName label)
  · obtain ⟨_, label, -, -, hx⟩ := hnew x hx
    rw [newName_of_not_mem hdead, hx] at hxy
    exact absurd hxy (nameOfLabel_ne_deadName label)
  · obtain ⟨s, label, hs, hlabel, hnewx⟩ := hnew x hx
    obtain ⟨t, label', ht, hlabel', hnewy⟩ := hnew y hy
    rw [hnewx, hnewy] at hxy
    obtain rfl := nameOfLabel_injective hxy
    -- different states have different labels
    have hst : s = t := (List.getElem?_inj (List.getElem?_eq_some_iff.mp hlabel).1
      (nodup_labelsOfNames hnodup)).mp (hlabel.trans hlabel'.symm)
    rw [hst, ht, Option.some.injEq] at hs
    exact hs.symm

end

namespace Dfa

/-- One file is the other with its states renamed: it has one record for each record of the other but
that of the dead state, in the same order, and the start state, the final states and all moves
correspond. -/
structure Renames (rename : String → String) (f f' : DfaFile) : Prop where
  injOn : Set.InjOn rename {name | name = deadName ∨ name ∈ f.recordNames}
  deadName_eq : rename deadName = deadName
  nameOfLabel_eq : ∀ label < 4294967296, rename (nameOfLabel label) = nameOfLabel label
  start_eq : f'.start = rename f.start
  records : List.Forall₂ (fun old new => new.1 = rename old.1 ∧ new.2.isFinal = old.2.isFinal ∧
    ∀ label, new.2.transitions.get? label = (old.2.transitions.get? label).map rename)
    f.records f'.states.entries

end Dfa

namespace Listing.Of

variable (h : p.Of f)

include h

lemma length_recordNames : f.recordNames.length = p.rows.length := by
  rw [AutomatonFile.recordNames, List.length_map, h.rows_ok.length_eq]

/-- A state that is the destination of a name is dead exactly if the name is that of the dead state. -/
lemma dead?_eq_some_iff {name : String} {t : Nat} (ht : targetOfName f.recordNames name = .ok t)
    (hlt : t < p.dfa.numStates) : p.dfa.dead? = some t ↔ name = deadName := by
  have hlen := h.length_recordNames
  rcases targetOfName_eq_ok_iff.mp ht with ⟨rfl, rfl⟩ | ⟨hname, hidx⟩
  · refine iff_of_true ?_ rfl
    rcases p.lt_numStates.mp hlt with hlt | ⟨heq, hdead⟩
    · omega
    · exact heq ▸ hdead
  · refine iff_of_false (fun hdead => ?_) hname
    obtain ⟨hlt, -⟩ := List.idxOf?_eq_some_iff.mp hidx
    rw [eq_of_dead?_ofRows hdead] at hlt
    omega

/-- A state that is the destination of a name goes by the new name. -/
lemma stateName_eq {name : String} {t : Nat} (ht : targetOfName f.recordNames name = .ok t)
    (hlt : t < p.dfa.numStates) : p.dfa.stateName t = newName f.recordNames name := by
  by_cases hname : name = deadName
  · rw [p.stateName_dead ((h.dead?_eq_some_iff ht hlt).mpr hname), hname,
      newName_of_not_mem f.deadName_not_mem_recordNames]
  · obtain ⟨-, hidx⟩ := (targetOfName_eq_ok_iff.mp ht).resolve_left fun hdead => hname hdead.1
    obtain ⟨label, hlabel, hnew⟩ := newName_of_idxOf? hidx
    rw [hnew, p.stateName_of_label (h.labels_eq ▸ hlabel)]

/-- A record gives the name of the destination for each symbol. -/
lemma exists_destination {s i : Nat} {record : String × StateRecord String} {a : Symbol}
    (hs : f.records[s]? = some record) (ha : p.alphabet.symbol? i = some a) :
    ∃ name t, record.2.transitions.get? a.label = some name ∧
      targetOfName f.recordNames name = .ok t ∧ p.dfa.step s i = some t := by
  obtain ⟨hs', rfl⟩ := List.getElem?_eq_some_iff.mp hs
  obtain ⟨hi, rfl⟩ := List.getElem?_eq_some_iff.mp ha
  have hrow : s < p.rows.length := h.rows_ok.length_eq ▸ hs'
  obtain ⟨hlen, hget⟩ :=
    List.forall₂_iff_get.mp (rowOfRecord_eq_ok_iff.mp ((List.forall₂_iff_get.mp h.rows_ok).2 s hs' hrow))
  obtain ⟨name, hname, htarget⟩ := hget i hi (hlen ▸ hi)
  exact ⟨name, _, hname, htarget,
    p.step_of_row (List.getElem?_eq_getElem hrow) (List.getElem?_eq_getElem (hlen ▸ hi))⟩

/-- The record of a state is the record of the file with its destinations renamed. -/
lemma get?_recordOf_eq {s : Nat} (hs : s < p.rows.length) (hs' : s < f.records.length)
    (label : String) : (p.dfa.recordOf s).transitions.get? label =
      (f.records[s].2.transitions.get? label).map (newName f.recordNames) := by
  have hlt : s < p.dfa.numStates := p.lt_numStates.mpr (Or.inl hs)
  have hstep := p.complete.exists_step s hlt
  by_cases hlabel : ∃ a ∈ p.alphabet.symbols, a.label = label
  · obtain ⟨a, ha, rfl⟩ := hlabel
    obtain ⟨i, hi, rfl⟩ := List.mem_iff_getElem.mp ha
    obtain ⟨name, t, hname, htarget, hmove⟩ :=
      h.exists_destination (List.getElem?_eq_getElem hs') (List.getElem?_eq_getElem hi)
    rw [hname, Option.map_some, ← h.stateName_eq htarget (p.complete.step_lt s i _ hmove).2.2]
    exact get?_recordOf hstep hi hmove
  · -- a label that stands for no symbol of the alphabet is in neither record
    have hnew : (p.dfa.recordOf s).transitions.get? label = none := by
      rw [NameMap.get?_eq_none_iff, names_recordOf hstep, List.mem_map]
      exact hlabel
    have hold : f.records[s].2.transitions.get? label = none := by
      rw [NameMap.get?_eq_none_iff]
      exact fun hmem => hlabel (h.exists_symbol _ (List.getElem_mem hs') label hmem)
    rw [hnew, hold, Option.map_none]

/-- Writing what is listed renames the states of the file. -/
lemma renames : Renames (newName f.recordNames) f p.dfa.toFile where
  injOn := injOn_newName f.nodup_recordNames f.deadName_not_mem_recordNames
  deadName_eq := newName_of_not_mem f.deadName_not_mem_recordNames
  nameOfLabel_eq := fun _ hlabel => newName_nameOfLabel hlabel
  start_eq := h.stateName_eq h.start_ok (p.complete.start_lt _ rfl)
  records := by
    have hlen := h.rows_ok.length_eq
    rw [p.entries_toFile, Listing.records, List.forall₂_map_right_iff, List.forall₂_iff_get]
    refine ⟨by rw [hlen, List.length_range], ?_⟩
    intro s hs hs'
    rw [List.get_eq_getElem, List.get_eq_getElem, List.getElem_range]
    have hrow : s < p.rows.length := hlen ▸ hs
    have hname : f.recordNames[s]? = some f.records[s].1 := by
      rw [AutomatonFile.recordNames, List.getElem?_map, List.getElem?_eq_getElem hs, Option.map_some]
    refine ⟨?_, ?_, h.get?_recordOf_eq hrow hs⟩
    · refine h.stateName_eq ?_ (p.lt_numStates.mpr (Or.inl hrow))
      rw [targetOfName_eq_ok_iff]
      refine Or.inr ⟨fun hdead => ?_, idxOf?_of_nodup f.nodup_recordNames hname⟩
      exact f.deadName_not_mem_recordNames (hdead ▸ List.mem_of_getElem? hname)
    · rw [recordOf, Bool.eq_iff_iff, decide_eq_true_eq, Listing.dfa, mem_finals_ofRows, h.isFinal_eq,
        List.getElem?_map, List.getElem?_eq_getElem hs, Option.map_some, Option.some.injEq]
      exact and_iff_right hrow

end Listing.Of

namespace Dfa

/-- An automaton that is read from a text is read again from its own text. -/
lemma ofText_text {text : String} {d : Dfa} (h : ofText text = .ok d) : ofText d.text = .ok d := by
  obtain ⟨f, -, hf⟩ := ofText_eq_ok_iff.mp h
  obtain ⟨p, -, rfl⟩ := exists_listing_of_ofFile hf
  exact ofText_eq_ok_iff.mpr ⟨_, ofText_text_eq_toFile p.dfa, p.ofFile_toFile⟩

/-- The text of an automaton that is read from a text is a normal form: what is read from it has the
same text and accepts the same strings.  It is the first text with its states renamed. -/
theorem text_of_ofText_is_normal {text : String} {d : Dfa} (h : ofText text = .ok d) :
    (∃ d', ofText d.text = .ok d' ∧ d'.text = d.text ∧ ∀ w, d'.accepts w = d.accepts w) ∧
      ∃ f f' : DfaFile, ∃ rename, AutomatonFile.ofText text = .ok f ∧
        AutomatonFile.ofText d.text = .ok f' ∧ Renames rename f f' := by
  refine ⟨⟨d, ofText_text h, rfl, fun _ => rfl⟩, ?_⟩
  obtain ⟨f, htext, hf⟩ := ofText_eq_ok_iff.mp h
  obtain ⟨p, hp, rfl⟩ := exists_listing_of_ofFile hf
  exact ⟨f, _, newName f.recordNames, htext, ofText_text_eq_toFile p.dfa, hp.renames⟩

/-- In this text `S01` is not made of a label, and a record claims that the dead state is final. -/
theorem text_of_ofText_is_normal_of_padded :
    ∃ d, ofText ("\x7b\"startingState\": \"S01\", \"PHI\": \x7b\"isTerminatingState\": true\x7d, " ++
        "\"S01\": \x7b\"isTerminatingState\": false, \"b\": \"PHI\", \"a\": \"S0\"\x7d, " ++
        "\"S0\": \x7b\"a\": \"S0\", \"isTerminatingState\": true, \"b\": \"S01\"\x7d\x7d") = .ok d ∧
      d.toFile.start = "S1" ∧ d.toFile.states.names = ["S1", "S0"] ∧
      (∃ d', ofText d.text = .ok d' ∧ d'.text = d.text ∧ ∀ w, d'.accepts w = d.accepts w) := by
  refine exists_eq_ok_and (p := fun d => d.toFile.start = "S1" ∧
    d.toFile.states.names = ["S1", "S0"]) (by decide +kernel) ?_
  rintro d h ⟨hstart, hnames⟩
  exact ⟨hstart, hnames, (text_of_ofText_is_normal h).1⟩

end Dfa
end RegexAutomata
