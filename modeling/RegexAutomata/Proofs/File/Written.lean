/-
# Written automata

The record of a state holds a destination for each symbol on which the state moves, in the order of the
alphabet (`Dfa.get?_recordOf`, `Dfa.names_recordOf`).  No name or label that is written is the name of a
member of its own, so the text of any automaton is read back as the file that was written
(`Dfa.ofText_text_eq_toFile`).
-/
import RegexAutomata.File.Reading
import RegexAutomata.Proofs.Alphabet
import RegexAutomata.Proofs.File.Text

namespace RegexAutomata

/-- A symbol is spelled with one character, or with five if it is a range. -/
lemma Symbol.label_ne_finalKey (a : Symbol) : a.label ≠ finalKey := by
  intro h
  have hlen := congrArg List.length (congrArg String.toList h)
  have hkey : finalKey.toList.length = 18 := by decide
  rw [toList_label, hkey] at hlen
  cases a <;> simp [spelling] at hlen

lemma nameOfLabel_ne_startKey (label : Nat) : nameOfLabel label ≠ startKey := by
  intro h
  have hchars := congrArg String.toList h
  rw [toList_nameOfLabel] at hchars
  exact absurd (List.cons.inj hchars).1 (by decide)

namespace Dfa

variable {d : Dfa} {s : Nat}

/-! ### Records -/

/-- The label of each move of a state, and the name of its destination. -/
def namedMoves (d : Dfa) (s : Nat) : List (String × String) :=
  d.alphabet.ids.filterMap fun a =>
    (d.step s a).map fun t => (d.alphabet.label (.symbol a), d.stateName t)

/-- A state that moves on every symbol has the label of every symbol. -/
lemma map_fst_namedMoves (h : ∀ a ∈ d.alphabet.ids, ∃ t, d.step s a = some t) :
    (d.namedMoves s).map Prod.fst = d.alphabet.symbols.map Symbol.label := by
  rw [namedMoves, List.map_filterMap, ← Alphabet.map_label_ids, ← List.filterMap_eq_map]
  refine List.filterMap_congr ?_
  intro a ha
  obtain ⟨t, ht⟩ := h a ha
  rw [ht]
  rfl

lemma names_recordOf (h : ∀ a ∈ d.alphabet.ids, ∃ t, d.step s a = some t) :
    (d.recordOf s).transitions.names = d.alphabet.symbols.map Symbol.label := by
  have hnodup : ((d.namedMoves s).map Prod.fst).Nodup := by
    rw [map_fst_namedMoves h]
    exact d.alphabet.nodup_labels
  rw [NameMap.names, ← map_fst_namedMoves h]
  exact congrArg (List.map Prod.fst) (NameMap.entries_ofList hnodup)

/-- Under the label of a symbol stands the name of the destination on the symbol. -/
lemma get?_recordOf (h : ∀ a ∈ d.alphabet.ids, ∃ t, d.step s a = some t) {a : Nat}
    (ha : a < d.alphabet.symbols.length) {t : Nat} (ht : d.step s a = some t) :
    (d.recordOf s).transitions.get? d.alphabet.symbols[a].label = some (d.stateName t) := by
  have hnodup : ((d.namedMoves s).map Prod.fst).Nodup := by
    rw [map_fst_namedMoves h]
    exact d.alphabet.nodup_labels
  rw [NameMap.get?_eq_some_iff]
  have hentries : (d.recordOf s).transitions.entries = d.namedMoves s :=
    NameMap.entries_ofList hnodup
  rw [hentries, namedMoves, List.mem_filterMap]
  refine ⟨a, Alphabet.mem_ids.mpr ha, ?_⟩
  rw [ht, Option.map_some, Alphabet.label_symbol ha]

/-! ### Files -/

/-- The states that have records: all but the dead one. -/
def recordedStates (d : Dfa) : List Nat :=
  (List.range d.numStates).filter fun s => d.dead? ≠ some s

lemma toFile_eq (d : Dfa) : d.toFile = ⟨(d.start?.map d.stateName).getD "",
    .ofList (d.recordedStates.map fun s => (d.stateName s, d.recordOf s))⟩ := rfl

lemma entries_toFile (h : (d.recordedStates.map d.stateName).Nodup) :
    d.toFile.states.entries = d.recordedStates.map fun s => (d.stateName s, d.recordOf s) := by
  refine NameMap.entries_ofList ?_
  rw [List.map_map]
  exact h

lemma stateName_ne_startKey (d : Dfa) (s : Nat) : d.stateName s ≠ startKey := by
  rw [stateName]
  split
  · decide
  · exact nameOfLabel_ne_startKey _

/-- No name of a state and no label is the name of another member. -/
lemma writable_toFile (d : Dfa) : d.toFile.Writable where
  ne_startKey := by
    intro entry hentry
    obtain ⟨s, -, rfl⟩ := List.mem_map.mp (NameMap.mem_of_mem_ofList hentry)
    exact d.stateName_ne_startKey s
  not_mem_names := by
    intro entry hentry hmem
    obtain ⟨s, -, rfl⟩ := List.mem_map.mp (NameMap.mem_of_mem_ofList hentry)
    obtain ⟨move, hmove, hkey⟩ := List.mem_map.mp hmem
    obtain ⟨a, ha, hmove⟩ := List.mem_filterMap.mp (NameMap.mem_of_mem_ofList hmove)
    obtain ⟨t, -, rfl⟩ := Option.map_eq_some_iff.mp hmove
    rw [Alphabet.label_symbol (Alphabet.mem_ids.mp ha)] at hkey
    exact Symbol.label_ne_finalKey _ hkey

/-- The text of an automaton is read back as the file that was written. -/
lemma ofText_text_eq_toFile (d : Dfa) : AutomatonFile.ofText d.text = .ok d.toFile :=
  AutomatonFile.ofText_text d.writable_toFile

end Dfa
end RegexAutomata
