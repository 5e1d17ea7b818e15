/-
# Automata with the same moves

A table of moves can be laid out in more than one way, and so two automata with the same states and moves
need not be equal.  They are *alike* (`Dfa.Alike`).  Nothing that is done with an automaton depends on the
layout: alike automata run alike and accept the same strings, are drawn and written in the same way, and
minimizing them fails in the same way or gives the same automaton (`Dfa.Alike.minimizeChecked_eq`).
-/
import RegexAutomata.Dfa.Checked
import RegexAutomata.File.Reading
import RegexAutomata.Proofs.Dfa.Reachability

namespace RegexAutomata
namespace Dfa

/-- Two automata have the same states and the same moves. -/
structure Alike (d e : Dfa) : Prop where
  numStates_eq : d.numStates = e.numStates
  start?_eq : d.start? = e.start?
  finals_eq : d.finals = e.finals
  dead?_eq : d.dead? = e.dead?
  alphabet_eq : d.alphabet = e.alphabet
  step_eq : d.step = e.step
  mapping?_eq : d.mapping? = e.mapping?
  labels_eq : d.labels = e.labels

variable {d e : Dfa}

/-- A move is drawn exactly if it leads from a state on a symbol, and it is drawn with the label of the
symbol. -/
lemma mem_drawing_iff {s t : Nat} {label : String} : (s, t, label) ∈ d.drawing.2 ↔
    s < d.numStates ∧ ∃ a ∈ d.alphabet.ids, d.step s a = some t ∧
      d.alphabet.label (.symbol a) = label := by
  simp only [drawing, transitions, List.mem_map, List.mem_flatMap, List.mem_range, List.mem_filterMap,
    Option.map_eq_some_iff]
  constructor
  · rintro ⟨_, ⟨_, hs, a, ha, _, hstep, rfl⟩, h⟩
    obtain ⟨rfl, rfl, rfl⟩ := by simpa using h
    exact ⟨hs, a, ha, hstep, rfl⟩
  · rintro ⟨hs, a, ha, hstep, rfl⟩
    exact ⟨_, ⟨s, hs, a, ha, t, hstep, rfl⟩, rfl⟩

namespace Alike

lemma refl (d : Dfa) : d.Alike d := ⟨rfl, rfl, rfl, rfl, rfl, rfl, rfl, rfl⟩

variable (h : d.Alike e)

include h

/-! ### Runs and strings -/

lemma run_eq : d.run = e.run := by
  have hwalk : d.walk = e.walk := by
    funext s u
    rw [walk, walk, h.step_eq]
  funext u
  rw [run, run, h.start?_eq, hwalk]

lemma accepts_eq : d.accepts = e.accepts := by
  have hread : d.read = e.read := by
    funext S x
    rw [read, read, h.alphabet_eq, h.dead?_eq, h.step_eq]
  funext w
  rw [accepts, accepts, h.start?_eq, h.finals_eq, hread]

lemma isTotal_eq : d.isTotal = e.isTotal := by
  rw [isTotal, isTotal, h.numStates_eq, h.alphabet_eq, h.step_eq]

/-! ### What is drawn and written -/

lemma drawing_eq : d.drawing = e.drawing := by
  have htransitions : d.transitions = e.transitions := by
    rw [transitions, transitions, h.numStates_eq, h.alphabet_eq, h.step_eq]
  rw [drawing, drawing, h.numStates_eq, h.alphabet_eq, htransitions]

lemma text_eq : d.text = e.text := by
  have hname : d.stateName = e.stateName := by
    funext s
    rw [stateName, stateName, h.dead?_eq, h.labels_eq]
  have hrecord : d.recordOf = e.recordOf := by
    funext s
    rw [recordOf, recordOf, h.finals_eq, h.alphabet_eq, h.step_eq, hname]
  rw [text, text, toFile, toFile, h.start?_eq, h.numStates_eq, h.dead?_eq, hname, hrecord]

/-! ### Minimization -/

lemma live_eq : d.live = e.live := by
  ext s
  rw [mem_live, mem_live, h.dead?_eq, h.run_eq, h.alphabet_eq]

lemma classTable_eq : d.classTable = e.classTable := by
  funext classes
  rw [classTable, classTable, h.numStates_eq]

lemma refineUntilSame_eq (rounds : Nat) : d.refineUntilSame rounds = e.refineUntilSame rounds := by
  have hrefine : d.refineChecked = e.refineChecked := by
    funext classes
    rw [refineChecked, refineChecked, h.classTable_eq, h.alphabet_eq, h.step_eq]
  induction rounds with
  | zero => rfl
  | succ rounds ih =>
    funext classes
    rw [refineUntilSame, refineUntilSame, hrefine, ih]

lemma targetClass_eq : d.targetClass = e.targetClass := by
  funext table s a
  rw [targetClass, targetClass, h.step_eq]

lemma startClass_eq : d.startClass = e.startClass := by
  funext table
  rw [startClass, startClass, h.start?_eq]

lemma classMapping_eq : d.classMapping = e.classMapping := by
  funext classes count
  rw [classMapping, classMapping, h.mapping?_eq]

lemma quotientChecked_eq (classes : List StateSet) :
    d.quotientChecked classes = e.quotientChecked classes := by
  have hvisit : d.visit = e.visit := by
    funext table e s
    rw [visit, visit, h.finals_eq, h.alphabet_eq, h.targetClass_eq]
  have hemit : d.emit = e.emit := by
    funext table count
    rw [emit, emit, h.numStates_eq, hvisit]
  have hlabel : d.classLabel = e.classLabel := by
    funext classes i
    rw [classLabel, classLabel, h.labels_eq]
  rw [quotientChecked, quotientChecked, h.classTable_eq, hlabel, h.startClass_eq, hemit, h.alphabet_eq,
    h.classMapping_eq]

/-- Minimizing alike automata gives the same automaton, or fails in the same way. -/
lemma minimizeChecked_eq : d.minimizeChecked = e.minimizeChecked := by
  have hclasses : d.initialClasses = e.initialClasses := by
    rw [initialClasses, initialClasses, h.live_eq, h.finals_eq]
  have hquotient : d.quotientChecked = e.quotientChecked := funext h.quotientChecked_eq
  rw [minimizeChecked, minimizeChecked, h.numStates_eq, h.start?_eq, h.alphabet_eq, h.live_eq, hclasses,
    h.refineUntilSame_eq, hquotient]

end Alike

end Dfa
end RegexAutomata
