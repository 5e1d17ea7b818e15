/-
# Nondeterministic automata that are written and read

The file of an automaton says in a row for each state what the automaton has there (`Enfa.row`), so
reading it gives an automaton with the same states and moves (`Enfa.Alike`).  Only the alphabet may
differ: its symbols are now in file order.  If they have been so before, the text is the same again
(`Enfa.Alike.text_eq`).

Hence an automaton survives being written and read (`Enfa.ofText_text_alike`), and the text of what has
been read is a fixed point.
-/
import RegexAutomata.Proofs.File.Rows
import RegexAutomata.Proofs.File.Written

namespace RegexAutomata

/-! ### Labels -/

/-- The symbol of a label, or nothing for epsilon. -/
def Alphabet.symbolOf? (A : Alphabet) : Label → Option Symbol
  | .symbol id => A.symbol? id
  | .epsilon => none

/-- A symbol is spelled with one character, or with five if it is a range. -/
lemma Symbol.label_ne_epsilonLabel (a : Symbol) : a.label ≠ epsilonLabel := by
  intro h
  have hlen := congrArg List.length (congrArg String.toList h)
  have hkey : epsilonLabel.toList.length = 7 := by decide
  rw [toList_label, hkey] at hlen
  cases a <;> simp [spelling] at hlen

namespace Enfa

variable {n m : Enfa} {l : Label} {s d : Nat}

lemma mem_labels_iff : l ∈ n.labels ↔
    (∃ a, ∃ h : a < n.alphabet.symbols.length, l = .symbol a ∧
      n.alphabet.symbolOf? l = some n.alphabet.symbols[a]) ∨ l = .epsilon := by
  rw [labels, List.mem_append, List.mem_map, List.mem_singleton]
  refine or_congr_left ?_
  constructor
  · rintro ⟨a, ha, rfl⟩
    exact ⟨a, Alphabet.mem_ids.mp ha, rfl, List.getElem?_eq_getElem (Alphabet.mem_ids.mp ha)⟩
  · rintro ⟨a, ha, rfl, -⟩
    exact ⟨a, Alphabet.mem_ids.mpr ha, rfl⟩

/-- The texts of the labels are different, and none is that of the member for being final. -/
lemma nodup_map_label (n : Enfa) : (n.labels.map n.alphabet.label).Nodup := by
  rw [labels, List.map_append, List.map_map, List.map_singleton]
  have hsymbols := n.alphabet.map_label_ids
  refine List.nodup_append.mpr ⟨?_, List.nodup_singleton _, ?_⟩
  · exact hsymbols ▸ n.alphabet.nodup_labels
  · intro label hlabel _ heq
    rw [List.mem_singleton.mp heq]
    obtain ⟨a, -, rfl⟩ := List.mem_map.mp (hsymbols ▸ hlabel)
    exact a.label_ne_epsilonLabel

lemma label_ne_finalKey (hl : l ∈ n.labels) : n.alphabet.label l ≠ finalKey := by
  rcases mem_labels_iff.mp hl with ⟨a, ha, rfl, -⟩ | rfl
  · rw [Alphabet.label_symbol ha]
    exact Symbol.label_ne_finalKey _
  · exact (by decide : epsilonLabel ≠ finalKey)

/-- A label is read back if it is not that of a reversed range. -/
lemma symbolOfLabel_label (horder : n.alphabet.InOrder) (hl : l ∈ n.labels) :
    symbolOfLabel (n.alphabet.label l) = .ok (n.alphabet.symbolOf? l) := by
  rcases mem_labels_iff.mp hl with ⟨a, ha, rfl, hsymbol⟩ | rfl
  · rw [Alphabet.label_symbol ha, symbolOfLabel, if_neg (Symbol.label_ne_epsilonLabel _), hsymbol,
      Symbol.ofLabel?_label_iff.mpr (horder _ (List.getElem_mem ha))]
  · rfl

/-! ### Moves -/

lemma hasArc_symbolOf_iff (hl : l ∈ n.labels) :
    n.HasArc ⟨s, n.alphabet.symbolOf? l, d⟩ ↔ d ∈ n.destinations s l := by
  rcases mem_labels_iff.mp hl with ⟨a, ha, rfl, hsymbol⟩ | rfl
  · rw [hsymbol, hasArc_symbol_iff (List.getElem_mem ha), Alphabet.idOf,
      n.alphabet.nodup.idxOf_getElem a ha]
  · rfl

/-- Each move carries a label. -/
lemma HasArc.exists_label {b : Arc} (h : n.HasArc b) :
    ∃ l ∈ n.labels, n.alphabet.symbolOf? l = b.symbol? := by
  obtain ⟨s, _ | a, d⟩ := b
  · exact ⟨.epsilon, mem_labels_iff.mpr (Or.inr rfl), rfl⟩
  · obtain ⟨id, hid, -⟩ := h
    have hlt : id < n.alphabet.symbols.length := (List.getElem?_eq_some_iff.mp hid).1
    exact ⟨.symbol id, mem_labels_iff.mpr (Or.inl ⟨id, hlt, rfl, List.getElem?_eq_getElem hlt⟩), hid⟩

/-- The labels of the moves from a state. -/
def labelsFrom (n : Enfa) (s : Nat) : List Label :=
  n.labels.filter fun l => !(n.destinations s l).isEmpty

lemma mem_labels_of_mem_labelsFrom (hl : l ∈ n.labelsFrom s) : l ∈ n.labels := (List.mem_filter.mp hl).1

lemma transitionMap_eq (n : Enfa) : n.transitionMap = (List.range n.numStates).map fun s =>
    (s, (n.labelsFrom s).map fun l => (l, n.destinations s l)) := by
  refine List.map_congr_left fun s _ => congrArg (Prod.mk s) ?_
  rw [labelsFrom, ← List.filterMap_eq_map, List.filterMap_filter]
  refine List.filterMap_congr fun l _ => ?_
  dsimp only
  cases (n.destinations s l).isEmpty <;> rfl

/-- The row of a state: its moves as a file says them. -/
def row (n : Enfa) (s : Nat) : Row where
  source := s
  isFinal := decide (s ∈ n.finals)
  moves := (n.labelsFrom s).map fun l => (n.alphabet.symbolOf? l, (n.destinations s l).toList)

lemma mem_arcs_row_iff {b : Arc} : b ∈ (n.row s).arcs ↔ b.source = s ∧ n.HasArc b := by
  obtain ⟨s', symbol?, d⟩ := b
  rw [Row.mem_arcs_iff]
  refine and_congr_right ?_
  rintro rfl
  simp only [row, List.mem_map, Prod.mk.injEq]
  constructor
  · rintro ⟨ds, ⟨l, hl, rfl, rfl⟩, hd⟩
    exact (hasArc_symbolOf_iff (mem_labels_of_mem_labelsFrom hl)).mpr hd
  · intro harc
    obtain ⟨l, hl, rfl⟩ := harc.exists_label
    have hd := (hasArc_symbolOf_iff hl).mp harc
    refine ⟨_, ⟨l, List.mem_filter.mpr ⟨hl, ?_⟩, rfl, rfl⟩, hd⟩
    rw [Bool.not_eq_true']
    exact StateSet.isEmpty_eq_false_iff.mpr ⟨d, hd⟩

/-! ### The file -/

/-- What stands in the record of a state. -/
def namedMoves (n : Enfa) (s : Nat) : List (String × List String) :=
  (n.labelsFrom s).map fun l => (n.alphabet.label l, (n.destinations s l).toList.map nameOfLabel)

/-- The record of a state. -/
def recordOf (n : Enfa) (s : Nat) : StateRecord (List String) where
  isFinal := decide (s ∈ n.finals)
  transitions := NameMap.ofList (n.namedMoves s)

lemma entries_recordOf (n : Enfa) (s : Nat) : (n.recordOf s).transitions.entries = n.namedMoves s := by
  refine NameMap.entries_ofList ?_
  rw [namedMoves, List.map_map]
  exact n.nodup_map_label.sublist (List.filter_sublist.map _)

lemma entries_toFile (n : Enfa) : n.toFile.states.entries =
    (List.range n.numStates).map fun s => (nameOfLabel s, n.recordOf s) := by
  have hrecords : (n.transitionMap.map fun row => (nameOfLabel row.1,
      ({ isFinal := decide (row.1 ∈ n.finals)
         transitions := NameMap.ofList <| row.2.map fun entry =>
          (n.alphabet.label entry.1, entry.2.toList.map nameOfLabel) } : StateRecord (List String)))) =
      (List.range n.numStates).map fun s => (nameOfLabel s, n.recordOf s) := by
    rw [transitionMap_eq, List.map_map]
    refine List.map_congr_left fun s _ => ?_
    simp only [Function.comp, List.map_map]
    rfl
  rw [toFile, hrecords]
  refine NameMap.entries_ofList ?_
  rw [List.map_map]
  exact List.nodup_range.map fun _ _ => nameOfLabel_injective

lemma writable_toFile (n : Enfa) : n.toFile.Writable where
  ne_startKey := by
    intro entry hentry
    rw [entries_toFile] at hentry
    obtain ⟨s, -, rfl⟩ := List.mem_map.mp hentry
    exact nameOfLabel_ne_startKey s
  not_mem_names := by
    intro entry hentry hmem
    rw [entries_toFile] at hentry
    obtain ⟨s, -, rfl⟩ := List.mem_map.mp hentry
    rw [NameMap.names, entries_recordOf, namedMoves, List.map_map] at hmem
    obtain ⟨l, hl, hkey⟩ := List.mem_map.mp hmem
    exact label_ne_finalKey (mem_labels_of_mem_labelsFrom hl) hkey

/-! ### Reading the file -/

lemma stateOfName_nameOfLabel (hs : s < n.numStates) :
    stateOfName n.toFile.states.names (nameOfLabel s) = .ok s := by
  have hlt : s < n.toFile.states.entries.length := by simpa [entries_toFile] using hs
  have hname : n.toFile.states.entries[s].1 = nameOfLabel s := by simp [entries_toFile]
  rw [stateOfName_eq_ok_iff, ← hname, NameMap.idxOf?_names]

/-- The record of each state says what its row says. -/
lemma WellFormed.readsRow_recordOf (h : n.WellFormed) (horder : n.alphabet.InOrder)
    (hs : s < n.numStates) :
    ReadsRow n.toFile.states.names (nameOfLabel s, n.recordOf s) (n.row s) := by
  refine ⟨stateOfName_nameOfLabel hs, rfl, ?_⟩
  rw [entries_recordOf, namedMoves, row, List.forall₂_map_left_iff, List.forall₂_map_right_iff,
    List.forall₂_same]
  intro l hl
  refine ⟨symbolOfLabel_label horder (mem_labels_of_mem_labelsFrom hl), ?_⟩
  rw [List.forall₂_map_left_iff, List.forall₂_same]
  exact fun d hd => stateOfName_nameOfLabel (h.edge_lt s l d hd).2

/-- The rows of all states. -/
def rows (n : Enfa) : List Row := (List.range n.numStates).map n.row

lemma WellFormed.forall₂_readsRow (h : n.WellFormed) (horder : n.alphabet.InOrder) :
    List.Forall₂ (ReadsRow n.toFile.states.names) n.toFile.states.entries n.rows := by
  rw [entries_toFile, rows, List.forall₂_map_left_iff, List.forall₂_map_right_iff, List.forall₂_same]
  intro s hs
  exact h.readsRow_recordOf horder (List.mem_range.mp hs)

lemma WellFormed.ofText_text (h : n.WellFormed) (horder : n.alphabet.InOrder)
    (hstart : n.start? = some s) : ofText n.text = .ok (ofRows n.rows s) := by
  refine ofText_eq_ok_iff.mpr ⟨_, AutomatonFile.ofText_text n.writable_toFile, ?_⟩
  refine ofFile_eq_ok_iff.mpr ⟨n.rows, s, h.forall₂_readsRow horder, ?_, rfl⟩
  have hname : n.toFile.start = nameOfLabel s := by rw [toFile, hstart]; rfl
  rw [hname]
  exact stateOfName_nameOfLabel (h.start_lt s hstart)

/-! ### The symbols that are read -/

lemma symbolsFrom_eq_filterMap (n : Enfa) (s : Nat) :
    n.symbolsFrom s = (n.labelsFrom s).filterMap n.alphabet.symbolOf? := by
  have hids : n.alphabet.ids.map Label.symbol =
      n.alphabet.symbols.map fun a => .symbol (n.alphabet.idOf a) := by
    refine List.ext_getElem (by simp [Alphabet.ids, Alphabet.size]) fun i hi hi' => ?_
    rw [List.length_map] at hi'
    simp only [List.getElem_map, Alphabet.ids, List.getElem_range, Alphabet.idOf,
      n.alphabet.nodup.idxOf_getElem i hi']
  have hepsilon : ([Label.epsilon].filter fun l => !(n.destinations s l).isEmpty).filterMap
      n.alphabet.symbolOf? = [] := by
    rw [List.filterMap_eq_nil_iff]
    intro l hl
    rw [List.mem_singleton.mp (List.mem_filter.mp hl).1]
    rfl
  rw [labelsFrom, labels, hids, List.filter_append, List.filterMap_append, hepsilon, List.append_nil,
    List.filter_map, List.filterMap_map, symbolsFrom]
  refine (List.map_id _).symm.trans (List.filterMap_eq_map_iff_forall_eq_some.mpr ?_).symm
  intro a ha
  have hmem := (List.mem_filter.mp ha).1
  exact (List.getElem?_eq_getElem (List.idxOf_lt_length_of_mem hmem)).trans
    (congrArg some (List.getElem_idxOf _))

/-- Each symbol of a row is added once for each destination. -/
lemma foldl_insert_symbols_row (A : Alphabet) (n : Enfa) (s : Nat) :
    (n.row s).symbols.foldl Alphabet.insert A = (n.symbolsFrom s).foldl Alphabet.insert A := by
  rw [symbolsFrom_eq_filterMap, Row.symbols, Row.arcs, row, List.flatMap_map, List.filterMap_flatMap,
    List.foldl_flatMap, List.foldl_filterMap]
  refine List.foldl_ext _ _ _ fun A l hl => ?_
  have hne : (n.destinations s l).toList ≠ [] := by
    intro hnil
    have hempty := (List.mem_filter.mp hl).2
    rw [StateSet.isEmpty, hnil] at hempty
    exact absurd hempty (by simp)
  rw [List.filterMap_map]
  cases n.alphabet.symbolOf? l with
  | none => simp
  | some a =>
    simp only [Function.comp_def, List.filterMap_eq_map']
    exact Alphabet.foldl_insert_const hne A a

lemma ofList_symbols_rows (n : Enfa) :
    Alphabet.ofList (n.rows.flatMap Row.symbols) = Alphabet.ofList n.appearances := by
  rw [rows, List.flatMap_map, appearances, Alphabet.ofList, Alphabet.ofList, List.foldl_flatMap,
    List.foldl_flatMap]
  simp only [foldl_insert_symbols_row]

/-! ### Alike automata -/

/-- Two automata have the same states and moves; their alphabets may list the symbols in different
orders. -/
structure Alike (m n : Enfa) : Prop where
  numStates_eq : m.numStates = n.numStates
  start?_eq : m.start? = n.start?
  finals_eq : m.finals = n.finals
  hasArc_iff : ∀ b, m.HasArc b ↔ n.HasArc b

namespace Alike

lemma symm (h : Alike m n) : Alike n m :=
  ⟨h.numStates_eq.symm, h.start?_eq.symm, h.finals_eq.symm, fun b => (h.hasArc_iff b).symm⟩

lemma mem_symbols (h : Alike m n) (hm : m.Built) {a : Symbol} (ha : a ∈ m.alphabet.symbols) :
    a ∈ n.alphabet.symbols := by
  obtain ⟨s, d, harc⟩ := hm.exists_hasArc ha
  exact ((h.hasArc_iff _).mp harc).mem_symbols

lemma reads (h : Alike m n) {w : List Char} (hr : m.Reads s w d) : n.Reads s w d := by
  induction hr with
  | refl s => exact .refl s
  | epsilon edge _ ih => exact .epsilon ((h.hasArc_iff ⟨_, none, _⟩).mp edge) ih
  | symbol edge known admits _ ih =>
    obtain ⟨id, known, edge⟩ := (h.hasArc_iff ⟨_, some _, _⟩).mp ⟨_, known, edge⟩
    exact .symbol edge known admits ih

lemma accepts_eq (h : Alike m n) (hm : m.WellFormed) (hn : n.WellFormed) (w : List Char) :
    m.accepts w = n.accepts w := by
  have hreads : ∀ s d, m.Reads s w d ↔ n.Reads s w d := fun s d => ⟨h.reads, h.symm.reads⟩
  rw [Bool.eq_iff_iff, hm.accepts_iff_reads, hn.accepts_iff_reads, h.start?_eq, h.finals_eq]
  simp only [hreads]

/-- What is written depends on the order of the alphabet, but on nothing else that may differ. -/
lemma text_eq (h : Alike m n) (halphabet : m.alphabet = n.alphabet) : m.text = n.text := by
  have hlabels : m.labels = n.labels := by rw [labels, labels, halphabet]
  have hdestinations : ∀ s, ∀ l ∈ n.labels, m.destinations s l = n.destinations s l := by
    intro s l hl
    ext d
    rw [← hasArc_symbolOf_iff hl, ← hasArc_symbolOf_iff (hlabels ▸ hl), halphabet, h.hasArc_iff]
  have hfrom : ∀ s, m.labelsFrom s = n.labelsFrom s := by
    intro s
    rw [labelsFrom, hlabels]
    exact List.filter_congr fun l hl => by rw [hdestinations s l hl]
  have hmap : m.transitionMap = n.transitionMap := by
    rw [transitionMap_eq, transitionMap_eq, h.numStates_eq]
    refine List.map_congr_left fun s _ => congrArg (Prod.mk s) ?_
    rw [hfrom]
    exact List.map_congr_left fun l hl => by
      rw [hdestinations s l (mem_labels_of_mem_labelsFrom hl)]
  have hfile : m.toFile = n.toFile := by
    rw [toFile, toFile, hmap, h.start?_eq, h.finals_eq, halphabet]
  rw [text, hfile, text]

end Alike

/-- What is read from the text of an automaton is like the automaton, with the symbols in the order in
which the text names them. -/
lemma Built.exists_alike (hn : n.Built) (horder : n.alphabet.InOrder)
    (hstart : n.start? = some s) : ∃ m, ofText n.text = .ok m ∧ Alike m n ∧
      m.alphabet = Alphabet.ofList n.appearances := by
  have h := hn.wellFormed
  have hfits : Fits n.rows := fits_of_readsRow (h.forall₂_readsRow horder)
  have hlength : n.rows.length = n.numStates := by rw [rows, List.length_map, List.length_range]
  have hlt : s < n.rows.length := hlength ▸ h.start_lt s hstart
  refine ⟨_, h.ofText_text horder hstart, ⟨?_, ?_, ?_, ?_⟩, ?_⟩
  · rw [numStates_ofRows hfits hlt, hlength]
  · rw [hstart]
    rfl
  · ext x
    rw [mem_finals_ofRows hfits, rows]
    simp only [List.mem_map, List.mem_range, exists_exists_and_eq_and, row, decide_eq_true_eq]
    constructor
    · rintro ⟨_, -, rfl, hx⟩
      exact hx
    · exact fun hx => ⟨x, hn.final_lt x hx, rfl, hx⟩
  · intro b
    rw [hasArc_ofRows hfits, rows]
    simp only [List.mem_map, List.mem_range, exists_exists_and_eq_and, mem_arcs_row_iff]
    constructor
    · rintro ⟨_, -, -, harc⟩
      exact harc
    · exact fun harc => ⟨b.source, h.source_lt harc, rfl, harc⟩
  · rw [alphabet_ofRows hfits, ofList_symbols_rows]

/-- An automaton is read from its own text with the same states, the same moves and the same symbols, so
it accepts the same strings.  The text of what has been read is read as itself.  The automaton of an
expression, and one that has been read from a text, have their symbols in file order, and then the order
of the symbols and the text are the same too. -/
theorem ofText_text_alike (hn : n.Built) (hstart : n.start?.isSome = true)
    (horder : n.alphabet.InOrder) : ∃ m, ofText n.text = .ok m ∧ Alike m n ∧
      (∀ a, a ∈ m.alphabet.symbols ↔ a ∈ n.alphabet.symbols) ∧ (∀ w, m.accepts w = n.accepts w) ∧
      (∃ m', ofText m.text = .ok m' ∧ m'.text = m.text) ∧
      ((∃ source c, compile source = .ok c ∧ c.nfa = n) ∨ (∃ source, ofText source = .ok n) →
        m.alphabet = n.alphabet ∧ m.text = n.text) := by
  obtain ⟨s, hs⟩ := Option.isSome_iff_exists.mp hstart
  obtain ⟨m, hread, halike, halphabet⟩ := hn.exists_alike horder hs
  have hm : m.Built := built_of_ofText hread
  have hsymbols : ∀ a, a ∈ m.alphabet.symbols ↔ a ∈ n.alphabet.symbols := fun a =>
    ⟨halike.mem_symbols hm, halike.symm.mem_symbols hn⟩
  refine ⟨m, hread, halike, hsymbols, halike.accepts_eq hm.wellFormed hn.wellFormed, ?_, ?_⟩
  · have horder' : m.alphabet.InOrder := fun a ha => horder a ((hsymbols a).mp ha)
    obtain ⟨m', hread', halike', halphabet'⟩ := hm.exists_alike horder' (halike.start?_eq.trans hs)
    exact ⟨m', hread', halike'.text_eq (halphabet'.trans (inFileOrder_of_ofText hread))⟩
  · intro hsource
    have hfile : n.InFileOrder := by
      rcases hsource with ⟨source, c, hc, rfl⟩ | ⟨source, hsource⟩
      · exact inFileOrder_of_compile hc
      · exact inFileOrder_of_ofText hsource
    exact ⟨halphabet.trans hfile, halike.text_eq (halphabet.trans hfile)⟩

/-- The symbols of this automaton are not in file order; it has a state without moves and one with an
epsilon move to itself, and a quotation mark is a label. -/
theorem ofText_text_alike_of_disordered :
    ∃ n : Enfa, n.Built ∧ n.start? = some 1 ∧ n.alphabet.InOrder ∧ ¬n.InFileOrder ∧
      ∃ m, ofText n.text = .ok m ∧ m.InFileOrder ∧ Alike m n ∧ (∀ w, m.accepts w = n.accepts w) ∧
        ∃ m', ofText m.text = .ok m' ∧ m'.text = m.text := by
  have hbuilt := Built.empty
    |>.addTransition 1 (.literal '"') 0 |>.addTransition 0 (.range 'a' 'c') 1 |>.addEpsilon 0 0
    |>.addState |>.setStart 1 |>.addFinal 0
  obtain ⟨m, hread, halike, -, haccepts, hagain, -⟩ :=
    ofText_text_alike hbuilt (by simp [addFinal, setStart]) (by decide +kernel)
  exact ⟨_, hbuilt, by simp [addFinal, setStart], by decide +kernel, by decide +kernel, m, hread,
    inFileOrder_of_ofText hread, halike, haccepts, hagain⟩

end Enfa
end RegexAutomata
