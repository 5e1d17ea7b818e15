/-
# Files as graphs of names

A file draws a graph: the records are its vertices, known by their names, and every destination in a
record is an edge with a label.  An automaton that is read from a file knows neither the names nor the
labels.  It numbers the states and the symbols, each in an order of its own, and the dead state of a
deterministic automaton has no record.

Still it accepts the strings that the graph spells (`reading_keeps_the_named_graph`).  A state follows a
name if it is the state that the name stands for.  Every move of a state is then an edge of the name, and
every edge a move (`Enfa.exists_edge_of_arc`, `Enfa.exists_arc_of_edge`, `Listing.Of.exists_edge_of_move`,
`Listing.Of.exists_move_of_edge`), so paths in the automaton and in the graph follow each other.
-/
import RegexAutomata.Proofs.Enfa.ArcPaths
import RegexAutomata.Proofs.File.Renaming
import RegexAutomata.Proofs.File.RoundTrip

namespace RegexAutomata

/-! ### Labels -/

/-- A label matches a character: it is the character itself, or a range that holds it. -/
def LabelAdmits (label : String) (x : Char) : Prop :=
  label.toList = [x] ∨ ∃ lo hi, label.toList = ['[', lo, '-', hi, ']'] ∧ lo ≤ x ∧ x ≤ hi

lemma labelAdmits_label_iff {a : Symbol} {x : Char} : LabelAdmits a.label x ↔ a.admits x = true := by
  cases a with
  | literal c => simp [LabelAdmits, Symbol.spelling]
  | range lo hi => simp [LabelAdmits, Symbol.spelling, ← and_assoc]

/-! ### Graphs of names -/

namespace AutomatonFile

variable {α : Type}

/-- The record of a name has the name of another under a label, where `leads` says which names a
destination consists of. -/
def NamedEdge (f : AutomatonFile α) (leads : α → String → Prop) (name label next : String) : Prop :=
  ∃ record destination, f.states.get? name = some record ∧
    record.transitions.get? label = some destination ∧ leads destination next

/-- The record of a name says that the state is final. -/
def Terminates (f : AutomatonFile α) (name : String) : Prop :=
  ∃ record, f.states.get? name = some record ∧ record.isFinal = true

end AutomatonFile

/-- The edges in a file of a nondeterministic automaton, which lists the destinations under a label. -/
def EnfaFile.Edge (f : EnfaFile) : String → String → String → Prop :=
  f.NamedEdge fun names next => next ∈ names

/-- The edges in a file of a deterministic automaton that do not lead to the dead state. -/
def DfaFile.LiveEdge (f : DfaFile) (name label next : String) : Prop :=
  f.NamedEdge (· = ·) name label next ∧ next ≠ deadName

/-! ### Nondeterministic automata -/

namespace Enfa

variable {f : EnfaFile} {rows : List Row} {start s t : Nat} {name label next : String}
  {a? : Option Symbol}

/-- A label stands for a symbol or for epsilon. -/
def LabelOf (a? : Option Symbol) (label : String) : Prop := (a?.map Symbol.label).getD epsilonLabel = label

lemma labelOf_of_symbolOfLabel (h : symbolOfLabel label = .ok a?) : LabelOf a? label := by
  rw [symbolOfLabel] at h
  split at h
  · rename_i heps
    rw [← Except.ok.inj h, heps]
    rfl
  · cases hlabel : Symbol.ofLabel? label with
    | none => simp [hlabel] at h
    | some a =>
      simp only [hlabel, Except.ok.injEq] at h
      exact h ▸ Symbol.ofLabel?_eq_some hlabel

/-- The symbols of a path have the labels that are not that of epsilon. -/
lemma labels_of_labelOf {labels? : List (Option Symbol)} {labels : List String}
    (h : List.Forall₂ LabelOf labels? labels) : List.Forall₂ (fun a label => a.label = label)
      labels?.reduceOption (labels.filter (· ≠ epsilonLabel)) := by
  induction h with
  | nil => exact .nil
  | @cons a? label labels? labels hlabel _ ih =>
    cases a? with
    | none =>
      have heps : label = epsilonLabel := hlabel.symm
      rwa [List.reduceOption_cons_of_none, List.filter_cons_of_neg (by simpa using heps)]
    | some a =>
      have heq : a.label = label := hlabel
      have hne : label ≠ epsilonLabel := heq ▸ a.label_ne_epsilonLabel
      rw [List.reduceOption_cons_of_some, List.filter_cons_of_pos (by simpa using hne)]
      exact .cons heq ih

lemma symbolsAdmit_iff {labels? : List (Option Symbol)} {labels : List String} {w : List Char}
    (h : List.Forall₂ LabelOf labels? labels) : SymbolsAdmit labels?.reduceOption w ↔
      List.Forall₂ LabelAdmits (labels.filter (· ≠ epsilonLabel)) w := by
  refine forall₂_congr_of_forall₂ ?_ (labels_of_labelOf h)
  rintro a _ rfl x
  exact labelAdmits_label_iff.symm

section

variable (hrows : List.Forall₂ (ReadsRow f.states.names) f.states.entries rows)

include hrows

/-- The record of a name says what the row of its state says. -/
lemma exists_row_of_name (hs : stateOfName f.states.names name = .ok s) :
    ∃ record r, f.states.get? name = some record ∧ r ∈ rows ∧ r.source = s ∧
      ReadsRow f.states.names (name, record) r := by
  obtain ⟨hlt, hname, -⟩ := List.idxOf?_eq_some_iff.mp (stateOfName_eq_ok_iff.mp hs)
  have hentry : s < f.states.entries.length := by rwa [NameMap.names, List.length_map] at hlt
  have hrow : s < rows.length := hrows.length_eq ▸ hentry
  have hread := hrows.get hentry hrow
  rw [List.get_eq_getElem, List.get_eq_getElem] at hread
  have heq : f.states.entries[s] = (name, f.states.entries[s].2) :=
    Prod.ext (by simpa [NameMap.names] using hname) rfl
  rw [heq] at hread
  refine ⟨_, _, NameMap.get?_eq_some_iff.mpr (heq ▸ List.getElem_mem hentry), List.getElem_mem hrow, ?_,
    hread⟩
  exact Except.ok.inj (hread.source.symm.trans hs)

lemma mem_finals_iff_terminates (hs : stateOfName f.states.names name = .ok s) :
    s ∈ (ofRows rows start).finals ↔ f.Terminates name := by
  obtain ⟨record, r, hrecord, hr, hsource, hread⟩ := exists_row_of_name hrows hs
  have hfits := fits_of_readsRow hrows
  have hfinal : record.isFinal = r.isFinal := hread.isFinal
  simp only [mem_finals_ofRows hfits, AutomatonFile.Terminates, hrecord, Option.some.injEq,
    exists_eq_left', hfinal]
  constructor
  · rintro ⟨r', hr', hsource', hfinal⟩
    exact hfits.eq_of_source_eq hr hr' (hsource.trans hsource'.symm) ▸ hfinal
  · exact fun hfinal => ⟨r, hr, hsource, hfinal⟩

/-- An arc from the state of a name is an edge from the name. -/
lemma exists_edge_of_arc (hs : stateOfName f.states.names name = .ok s)
    (harc : (ofRows rows start).ArcMove s a? t) : ∃ label next, LabelOf a? label ∧
      f.Edge name label next ∧ stateOfName f.states.names next = .ok t := by
  obtain ⟨record, r, hrecord, hr, hsource, hread⟩ := exists_row_of_name hrows hs
  have hfits := fits_of_readsRow hrows
  obtain ⟨r', hr', hb⟩ := (hasArc_ofRows hfits).mp harc
  obtain ⟨hsource', ds, hmove, ht⟩ := Row.mem_arcs_iff.mp hb
  obtain rfl := hfits.eq_of_source_eq hr hr' (hsource.trans hsource')
  obtain ⟨⟨label, names⟩, hentry, hlabel, hnames⟩ := exists_mem_of_forall₂ hread.moves hmove
  obtain ⟨next, hnext, ht⟩ := exists_mem_of_forall₂ hnames ht
  exact ⟨label, next, labelOf_of_symbolOfLabel hlabel,
    ⟨record, names, hrecord, NameMap.get?_eq_some_iff.mpr hentry, hnext⟩, ht⟩

/-- An edge from a name is an arc from its state. -/
lemma exists_arc_of_edge (start : Nat) (hs : stateOfName f.states.names name = .ok s)
    (hedge : f.Edge name label next) : ∃ a? t, LabelOf a? label ∧
      (ofRows rows start).ArcMove s a? t ∧ stateOfName f.states.names next = .ok t := by
  obtain ⟨record, r, hrecord, hr, hsource, hread⟩ := exists_row_of_name hrows hs
  obtain ⟨record', names, hrecord', hentry, hnext⟩ := hedge
  obtain rfl := Option.some.inj (hrecord.symm.trans hrecord')
  obtain ⟨⟨a?, ds⟩, hmove, hlabel, hnames⟩ :=
    exists_mem_of_forall₂ hread.moves.flip (NameMap.get?_eq_some_iff.mp hentry)
  obtain ⟨t, ht, hstate⟩ := exists_mem_of_forall₂ hnames.flip hnext
  refine ⟨a?, t, labelOf_of_symbolOfLabel hlabel, ?_, hstate⟩
  exact (hasArc_ofRows (fits_of_readsRow hrows)).mpr
    ⟨r, hr, Row.mem_arcs_iff.mpr ⟨hsource.symm, ds, hmove, ht⟩⟩

end

/-- An automaton that is read from a file accepts what the graph of names spells. -/
lemma accepts_iff_of_ofFile {n : Enfa} (h : ofFile f = .ok n) {w : List Char} :
    n.accepts w = true ↔ ∃ labels last, LabelPath f.Edge f.start labels last ∧ f.Terminates last ∧
      List.Forall₂ LabelAdmits (labels.filter (· ≠ epsilonLabel)) w := by
  rw [(built_of_ofFile h).wellFormed.accepts_iff_arcPath]
  obtain ⟨rows, start, hrows, hstart, rfl⟩ := ofFile_eq_ok_iff.mp h
  constructor
  · rintro ⟨s, t, labels?, hs, ht, path, hw⟩
    obtain rfl : start = s := Option.some.inj hs
    obtain ⟨labels, last, hlabels, path, hlast⟩ := path.follow
      (R := fun s name => stateOfName f.states.names name = .ok s) hstart
      fun _ _ _ _ => exists_edge_of_arc hrows
    exact ⟨labels, last, path, (mem_finals_iff_terminates hrows hlast).mp ht,
      (symbolsAdmit_iff hlabels).mp hw⟩
  · rintro ⟨labels, last, path, hlast, hw⟩
    obtain ⟨labels?, t, hlabels, path, ht⟩ := path.follow (Q := flip LabelOf)
      (R := fun name s => stateOfName f.states.names name = .ok s) hstart
      fun _ _ _ _ => exists_arc_of_edge hrows start
    exact ⟨start, t, labels?, rfl, (mem_finals_iff_terminates hrows ht).mpr hlast, path,
      (symbolsAdmit_iff hlabels.flip).mpr hw⟩

end Enfa

/-! ### Deterministic automata -/

namespace Listing

open Dfa

/-- A label is that of the symbol with a given id. -/
def LabelOf (p : Listing) (a : Nat) (label : String) : Prop :=
  ∃ symbol, p.alphabet.symbol? a = some symbol ∧ symbol.label = label

lemma spells_iff {p : Listing} {u : List Nat} {labels : List String} {w : List Char}
    (h : List.Forall₂ p.LabelOf u labels) :
    p.alphabet.Spells u w ↔ List.Forall₂ LabelAdmits labels w := by
  refine forall₂_congr_of_forall₂ ?_ h
  rintro a _ ⟨symbol, ha, rfl⟩ x
  rw [Alphabet.mem_matching, labelAdmits_label_iff, ha]
  simp

namespace Of

variable {f : DfaFile} {p : Listing} (h : p.Of f) {s a t : Nat} {name label next : String}

omit h in
/-- The record of a name is the one at the place of its state. -/
lemma exists_record_of_name (hs : f.recordNames.idxOf? name = some s) :
    ∃ record, f.states.get? name = some record ∧ f.records[s]? = some (name, record) := by
  obtain ⟨hlt, hname, -⟩ := List.idxOf?_eq_some_iff.mp hs
  have hs' : s < f.records.length := by rwa [AutomatonFile.recordNames, List.length_map] at hlt
  have heq : f.records[s] = (name, f.records[s].2) :=
    Prod.ext (by simpa [AutomatonFile.recordNames] using hname) rfl
  have hmem : f.records[s] ∈ f.states.entries := (List.mem_filter.mp (List.getElem_mem hs')).1
  exact ⟨_, NameMap.get?_eq_some_iff.mpr (heq ▸ hmem), heq ▸ List.getElem?_eq_getElem hs'⟩

include h

lemma mem_finals_iff_terminates (hs : f.recordNames.idxOf? name = some s) :
    s ∈ p.dfa.finals ↔ f.Terminates name := by
  obtain ⟨record, hrecord, hplace⟩ := exists_record_of_name hs
  have hlt : s < p.rows.length := by
    rw [← h.length_recordNames]
    exact (List.idxOf?_eq_some_iff.mp hs).1
  simp only [Listing.dfa, mem_finals_ofRows, hlt, true_and, h.isFinal_eq, List.getElem?_map, hplace,
    Option.map_some, AutomatonFile.Terminates, hrecord, Option.some.injEq, exists_eq_left']

/-- A destination other than the dead state is the state of its name. -/
lemma idxOf?_of_target (ht : targetOfName f.recordNames name = .ok t) (hlt : t < p.dfa.numStates)
    (hlive : p.dfa.dead? ≠ some t) : name ≠ deadName ∧ f.recordNames.idxOf? name = some t := by
  have hname : name ≠ deadName := mt (h.dead?_eq_some_iff ht hlt).mpr hlive
  exact (targetOfName_eq_ok_iff.mp ht).resolve_left fun hdead => hname hdead.1

/-- A live move from the state of a name is an edge from the name. -/
lemma exists_edge_of_move (hs : f.recordNames.idxOf? name = some s) (hmove : p.dfa.LiveMove s a t) :
    ∃ label next, p.LabelOf a label ∧ f.LiveEdge name label next ∧
      f.recordNames.idxOf? next = some t := by
  obtain ⟨record, hrecord, hplace⟩ := exists_record_of_name hs
  obtain ⟨hstep, hlive⟩ := hmove
  obtain ⟨-, ha, hlt⟩ := p.complete.step_lt s a t hstep
  have hsymbol := List.getElem?_eq_getElem (Alphabet.mem_ids.mp ha)
  obtain ⟨next, t', hnext, htarget, hstep'⟩ := h.exists_destination hplace hsymbol
  obtain rfl := Option.some.inj (hstep'.symm.trans hstep)
  obtain ⟨hne, hidx⟩ := h.idxOf?_of_target htarget hlt hlive
  exact ⟨_, next, ⟨_, hsymbol, rfl⟩, ⟨⟨record, next, hrecord, hnext, rfl⟩, hne⟩, hidx⟩

/-- An edge from a name that does not lead to the dead state is a live move from its state. -/
lemma exists_move_of_edge (hs : f.recordNames.idxOf? name = some s) (hedge : f.LiveEdge name label next) :
    ∃ a t, p.LabelOf a label ∧ p.dfa.LiveMove s a t ∧ f.recordNames.idxOf? next = some t := by
  obtain ⟨record, hrecord, hplace⟩ := exists_record_of_name hs
  obtain ⟨⟨record', destination, hrecord', hdestination, rfl⟩, hne⟩ := hedge
  obtain rfl := Option.some.inj (hrecord.symm.trans hrecord')
  have hlabel : label ∈ record.transitions.names :=
    List.mem_map_of_mem (NameMap.get?_eq_some_iff.mp hdestination)
  obtain ⟨symbol, hsymbol, rfl⟩ := h.exists_symbol _ (List.mem_of_getElem? hplace) label hlabel
  obtain ⟨a, ha⟩ := List.mem_iff_getElem?.mp hsymbol
  obtain ⟨next, t, hnext, htarget, hstep⟩ := h.exists_destination hplace ha
  obtain rfl := Option.some.inj (hnext.symm.trans hdestination)
  obtain ⟨-, -, hlt⟩ := p.complete.step_lt s a t hstep
  have hlive : p.dfa.dead? ≠ some t := mt (h.dead?_eq_some_iff htarget hlt).mp hne
  exact ⟨a, t, ⟨symbol, ha, rfl⟩, ⟨hstep, hlive⟩, (h.idxOf?_of_target htarget hlt hlive).2⟩

end Of
end Listing

namespace Dfa

variable {f : DfaFile} {d : Dfa}

/-- An automaton that is read from a file accepts what the graph of names spells without the dead
state. -/
lemma accepts_iff_of_ofFile (hf : ofFile f = .ok d) {w : List Char} :
    d.accepts w = true ↔ f.start ≠ deadName ∧ ∃ labels last, LabelPath f.LiveEdge f.start labels last ∧
      f.Terminates last ∧ List.Forall₂ LabelAdmits labels w := by
  obtain ⟨p, h, rfl⟩ := exists_listing_of_ofFile hf
  have hstart := p.complete.start_lt p.start rfl
  rw [accepts_iff_livePath]
  constructor
  · rintro ⟨s, t, u, hs, ht, hu, path⟩
    obtain rfl : p.start = s := Option.some.inj hs
    have hlive : p.dfa.dead? ≠ some p.start := by
      intro hdead
      -- a path from the dead state ends there
      have hend := p.complete.deadAbsorbs.walk_eq hdead hu.mem_ids (walk_of_livePath path)
      exact p.complete.dead_not_final _ hdead (hend ▸ ht)
    obtain ⟨hne, hidx⟩ := h.idxOf?_of_target h.start_ok hstart hlive
    obtain ⟨labels, last, hlabels, path, hlast⟩ := path.follow
      (R := fun s name => f.recordNames.idxOf? name = some s) hidx fun _ _ _ _ => h.exists_edge_of_move
    exact ⟨hne, labels, last, path, (h.mem_finals_iff_terminates hlast).mp ht,
      (Listing.spells_iff hlabels).mp hu⟩
  · rintro ⟨hne, labels, last, path, hlast, hw⟩
    have hlive := mt (h.dead?_eq_some_iff h.start_ok hstart).mp hne
    obtain ⟨-, hidx⟩ := h.idxOf?_of_target h.start_ok hstart hlive
    obtain ⟨u, t, hu, path, ht⟩ := path.follow (Q := flip p.LabelOf)
      (R := fun name s => f.recordNames.idxOf? name = some s) hidx fun _ _ _ _ => h.exists_move_of_edge
    exact ⟨p.start, t, u, rfl, (h.mem_finals_iff_terminates ht).mpr hlast,
      (Listing.spells_iff hu.flip).mpr hw, path⟩

end Dfa

/-- An automaton that is read from a file behaves as the graph of names in the file.  A nondeterministic
automaton accepts a string exactly if a path leads from the start name to a name whose record says that
it is final, and the labels of the path, epsilon left out, match the characters of the string in order.
For a deterministic automaton each label matches one character, and the path must avoid the name of the
dead state, whatever its record says. -/
theorem reading_keeps_the_named_graph :
    (∀ (f : EnfaFile) (n : Enfa), Enfa.ofFile f = .ok n → ∀ w, n.accepts w = true ↔
      ∃ labels last, LabelPath f.Edge f.start labels last ∧ f.Terminates last ∧
        List.Forall₂ LabelAdmits (labels.filter (· ≠ epsilonLabel)) w) ∧
    ∀ (f : DfaFile) (d : Dfa), Dfa.ofFile f = .ok d → ∀ w, d.accepts w = true ↔
      f.start ≠ deadName ∧ ∃ labels last, LabelPath f.LiveEdge f.start labels last ∧
        f.Terminates last ∧ List.Forall₂ LabelAdmits labels w :=
  ⟨fun _ _ h _ => Enfa.accepts_iff_of_ofFile h, fun _ _ h _ => Dfa.accepts_iff_of_ofFile h⟩

/-- In the first file the state with the name `S7` gets the number 1, and two labels match `b`.  In the
second a record claims that the dead state is final, with a label and a destination that make no sense. -/
theorem reading_keeps_the_named_graph_of_odd_names :
    (∃ (f : EnfaFile) (n : Enfa), Enfa.ofFile f = .ok n ∧ n.start? = some 1 ∧ f.start = "S7" ∧
      ∃ labels last, LabelPath f.Edge f.start labels last ∧ f.Terminates last ∧
        List.Forall₂ LabelAdmits (labels.filter (· ≠ epsilonLabel)) ['b', 'b', 'c']) ∧
    ∃ (f : DfaFile) (d : Dfa), Dfa.ofFile f = .ok d ∧ d.dead? = some 2 ∧ f.Terminates deadName ∧
      (∃ labels last, LabelPath f.LiveEdge f.start labels last ∧ f.Terminates last ∧
        List.Forall₂ LabelAdmits labels ['b', 'a', 'b']) ∧
      ¬∃ labels last, LabelPath f.LiveEdge f.start labels last ∧ f.Terminates last ∧
        List.Forall₂ LabelAdmits labels ['a'] := by
  refine ⟨⟨⟨"S7", .ofList [("S0", ⟨true, .empty⟩), ("S7", ⟨false,
      .ofList [(epsilonLabel, ["S7"]), ("[a-c]", ["S0"]), ("b", ["S0", "S7"])]⟩)]⟩,
    exists_eq_ok_and (p := fun n => n.start? = some 1 ∧ n.accepts ['b', 'b', 'c'] = true)
      (by decide +kernel) ?_⟩,
    ⟨"x", .ofList [("x", ⟨false, .ofList [("b", "y"), ("[a-c]", deadName)]⟩),
      (deadName, ⟨true, .ofList [("", "z")]⟩), ("y", ⟨true, .ofList [("[a-c]", "x"), ("b", deadName)]⟩)]⟩,
    exists_eq_ok_and (p := fun d => d.dead? = some 2 ∧ d.accepts ['b', 'a', 'b'] = true ∧
      d.accepts ['a'] = false) (by decide +kernel) ?_⟩
  · rintro n h ⟨hstart, haccepts⟩
    exact ⟨hstart, rfl, (reading_keeps_the_named_graph.1 _ n h _).mp haccepts⟩
  · rintro d h ⟨hdead, haccepts, hrefuses⟩
    have hne : "x" ≠ deadName := by decide
    refine ⟨hdead, ⟨_, rfl, rfl⟩, ((reading_keeps_the_named_graph.2 _ d h _).mp haccepts).2, fun hpath => ?_⟩
    rw [(reading_keeps_the_named_graph.2 _ d h _).mpr ⟨hne, hpath⟩] at hrefuses
    exact absurd hrefuses (by simp)

end RegexAutomata
