/-
# What reading a file of a nondeterministic automaton finds

A file describes an automaton if its labels are those of symbols or of epsilon, and all destinations and
the start state have records (`Enfa.ofFile_eq_ok_iff`).  What is found is a row for each record: its
state, whether it is final, and the destinations of its moves.  The automaton is made of the rows
(`Enfa.ofRows`), one move after the other.

The moves are those of the rows (`Enfa.hasArc_ofRows`), and the symbols enter the alphabet in the order of
the rows (`Enfa.alphabet_ofRows`), so the alphabet is in file order (`Enfa.inFileOrder_of_ofText`).
-/
import RegexAutomata.File.Reading
import RegexAutomata.Proofs.Enfa.Appearance
import RegexAutomata.Proofs.File.NameMap

namespace RegexAutomata
namespace Enfa

variable {n n' : Enfa}

/-! ### Rows -/

/-- What the record of a state says. -/
structure Row where
  /-- The state. -/
  source : Nat
  /-- Whether it is final. -/
  isFinal : Bool
  /-- The symbol of each label, or nothing for epsilon, and the destinations under the label. -/
  moves : List (Option Symbol × List Nat)

namespace Row

/-- The moves of a state. -/
def arcs (r : Row) : List Arc :=
  r.moves.flatMap fun move => move.2.map fun d => ⟨r.source, move.1, d⟩

/-- The symbols of the moves of a state. -/
def symbols (r : Row) : List Symbol := r.arcs.filterMap Arc.symbol?

/-- The state, if it is final. -/
def finals (r : Row) : List Nat := if r.isFinal then [r.source] else []

variable {r : Row} {b : Arc}

lemma mem_arcs_iff : b ∈ r.arcs ↔
    b.source = r.source ∧ ∃ ds, (b.symbol?, ds) ∈ r.moves ∧ b.target ∈ ds := by
  obtain ⟨s, symbol?, d⟩ := b
  simp only [arcs, List.mem_flatMap, List.mem_map, Arc.mk.injEq]
  constructor
  · rintro ⟨move, hmove, _, hd, rfl, rfl, rfl⟩
    exact ⟨rfl, move.2, hmove, hd⟩
  · rintro ⟨rfl, ds, hmove, hd⟩
    exact ⟨_, hmove, d, hd, rfl, rfl, rfl⟩

lemma mem_symbols_iff {a : Symbol} : a ∈ r.symbols ↔ ∃ d, ⟨r.source, some a, d⟩ ∈ r.arcs := by
  rw [symbols, List.mem_filterMap]
  constructor
  · rintro ⟨⟨s, symbol?, d⟩, hb, rfl⟩
    obtain ⟨rfl, -⟩ := mem_arcs_iff.mp hb
    exact ⟨d, hb⟩
  · rintro ⟨d, hd⟩
    exact ⟨_, hd, rfl⟩

end Row

/-- Rows for the states in order, with destinations among them. -/
structure Fits (rows : List Row) : Prop where
  map_source : rows.map Row.source = List.range rows.length
  target_lt : ∀ r ∈ rows, ∀ b ∈ r.arcs, b.target < rows.length

namespace Fits

variable {rows : List Row} {r r' : Row}

lemma source_lt (h : Fits rows) (hr : r ∈ rows) : r.source < rows.length := by
  rw [← List.mem_range, ← h.map_source]
  exact List.mem_map_of_mem hr

/-- There is one row for a state. -/
lemma eq_of_source_eq (h : Fits rows) (hr : r ∈ rows) (hr' : r' ∈ rows)
    (hs : r.source = r'.source) : r = r' :=
  List.inj_on_of_nodup_map (h.map_source ▸ List.nodup_range) hr hr' hs

end Fits

/-! ### Automata made of rows -/

/-- Add a move that is given as an arc. -/
def addArc (n : Enfa) (b : Arc) : Enfa :=
  match b.symbol? with
  | some a => n.addTransition b.source a b.target
  | none => n.addEpsilon b.source b.target

/-- Add what a row says. -/
def addRow (n : Enfa) (r : Row) : Enfa :=
  r.arcs.foldl addArc (if r.isFinal then n.addFinal r.source else n)

/-- The automaton with given rows, one for each state. -/
def ofRows (rows : List Row) (start : Nat) : Enfa :=
  (rows.foldl addRow (ofStates rows.length)).setStart start

/-- One automaton arises from another by adding moves between its states and making states final, and
new symbols have been added in the order of the moves. -/
structure Gains (n : Enfa) (arcs : List Arc) (finals : List Nat) (n' : Enfa) : Prop where
  built : n'.Built
  numStates_eq : n'.numStates = n.numStates
  hasArc_iff : ∀ b, n'.HasArc b ↔ b ∈ arcs ∨ n.HasArc b
  alphabet_eq : n'.alphabet = (arcs.filterMap Arc.symbol?).foldl Alphabet.insert n.alphabet
  mem_finals_iff : ∀ s, s ∈ n'.finals ↔ s ∈ finals ∨ s ∈ n.finals

namespace Gains

variable {n'' : Enfa} {arcs arcs' : List Arc} {finals finals' : List Nat}

lemma refl (h : n.Built) : Gains n [] [] n := ⟨h, rfl, by simp, rfl, by simp⟩

lemma trans (h : Gains n arcs finals n') (h' : Gains n' arcs' finals' n'') :
    Gains n (arcs ++ arcs') (finals ++ finals') n'' := by
  refine ⟨h'.built, h'.numStates_eq.trans h.numStates_eq, ?_, ?_, ?_⟩
  · intro b
    rw [h'.hasArc_iff, h.hasArc_iff, List.mem_append, or_left_comm, or_assoc]
  · rw [h'.alphabet_eq, h.alphabet_eq, List.filterMap_append, List.foldl_append]
  · intro s
    rw [h'.mem_finals_iff, h.mem_finals_iff, List.mem_append, or_left_comm, or_assoc]

lemma addFinal (h : n.Built) {s : Nat} (hs : s < n.numStates) : Gains n [] [s] (n.addFinal s) where
  built := h.addFinal s
  numStates_eq := by
    rw [numStates_addFinal]
    omega
  hasArc_iff := by simp
  alphabet_eq := by simp
  mem_finals_iff := by simp [Enfa.addFinal]

lemma addArc (h : n.Built) {b : Arc} (hs : b.source < n.numStates) (hd : b.target < n.numStates) :
    Gains n [b] [] (n.addArc b) := by
  obtain ⟨s, _ | a, d⟩ := b
  · refine ⟨h.addEpsilon s d, ?_, ?_, alphabet_addEpsilon n s d, ?_⟩
    · rw [Enfa.addArc, numStates_addEpsilon]
      omega
    · simp [Enfa.addArc, hasArc_addEpsilon]
    · simp [Enfa.addArc, Enfa.addEpsilon]
  · refine ⟨h.addTransition s a d, ?_, ?_, alphabet_addTransition n s a d, ?_⟩
    · rw [Enfa.addArc, numStates_addTransition]
      omega
    · simp [Enfa.addArc, h.wellFormed.hasArc_addTransition]
    · simp [Enfa.addArc, Enfa.addTransition]

lemma foldl_addArc (h : n.Built)
    (harcs : ∀ b ∈ arcs, b.source < n.numStates ∧ b.target < n.numStates) :
    Gains n arcs [] (arcs.foldl Enfa.addArc n) := by
  induction arcs generalizing n with
  | nil => exact refl h
  | cons b arcs ih =>
    obtain ⟨⟨hs, hd⟩, harcs⟩ := List.forall_mem_cons.mp harcs
    have hb := addArc h hs hd
    exact hb.trans (ih hb.built (by rwa [hb.numStates_eq]))

lemma addRow (h : n.Built) {r : Row} (hs : r.source < n.numStates)
    (hd : ∀ b ∈ r.arcs, b.target < n.numStates) : Gains n r.arcs r.finals (n.addRow r) := by
  have harcs : ∀ b ∈ r.arcs, b.source < n.numStates ∧ b.target < n.numStates := fun b hb =>
    ⟨(Row.mem_arcs_iff.mp hb).1 ▸ hs, hd b hb⟩
  rw [Enfa.addRow, Row.finals]
  split
  · have hfinal := addFinal h hs
    exact hfinal.trans (foldl_addArc hfinal.built (by rwa [hfinal.numStates_eq]))
  · exact foldl_addArc h harcs

lemma foldl_addRow {rows : List Row} (h : n.Built) (hrows : ∀ r ∈ rows, r.source < n.numStates ∧
    ∀ b ∈ r.arcs, b.target < n.numStates) :
    Gains n (rows.flatMap Row.arcs) (rows.flatMap Row.finals) (rows.foldl Enfa.addRow n) := by
  induction rows generalizing n with
  | nil => exact refl h
  | cons r rows ih =>
    obtain ⟨⟨hs, hd⟩, hrows⟩ := List.forall_mem_cons.mp hrows
    have hr := addRow h hs hd
    exact hr.trans (ih hr.built (by rwa [hr.numStates_eq]))

end Gains

variable {rows : List Row} {start : Nat}

lemma gains_ofRows (h : Fits rows) : Gains (ofStates rows.length) (rows.flatMap Row.arcs)
    (rows.flatMap Row.finals) (rows.foldl addRow (ofStates rows.length)) :=
  .foldl_addRow (built_ofStates _) fun r hr => ⟨h.source_lt hr, h.target_lt r hr⟩

lemma numStates_ofRows (h : Fits rows) (hstart : start < rows.length) :
    (ofRows rows start).numStates = rows.length := by
  have hcount : (ofStates rows.length).numStates = rows.length := rfl
  rw [ofRows, numStates_setStart, (gains_ofRows h).numStates_eq, hcount]
  omega

lemma mem_finals_ofRows (h : Fits rows) {s : Nat} :
    s ∈ (ofRows rows start).finals ↔ ∃ r ∈ rows, r.source = s ∧ r.isFinal = true := by
  have hfinals : (ofRows rows start).finals = (rows.foldl addRow (ofStates rows.length)).finals :=
    finals_ensureState _ _
  have hempty : s ∉ (ofStates rows.length).finals := StateSet.not_mem_empty
  rw [hfinals, (gains_ofRows h).mem_finals_iff, or_iff_left hempty, List.mem_flatMap]
  simp only [Row.finals]
  grind

lemma hasArc_ofRows (h : Fits rows) {b : Arc} :
    (ofRows rows start).HasArc b ↔ ∃ r ∈ rows, b ∈ r.arcs := by
  have hempty : ¬(ofStates rows.length).HasArc b := not_hasArc_empty
  rw [ofRows, hasArc_setStart, (gains_ofRows h).hasArc_iff, or_iff_left hempty, List.mem_flatMap]

lemma alphabet_ofRows (h : Fits rows) :
    (ofRows rows start).alphabet = Alphabet.ofList (rows.flatMap Row.symbols) := by
  rw [ofRows, alphabet_setStart, (gains_ofRows h).alphabet_eq, List.filterMap_flatMap]
  rfl

/-- The symbols have entered the alphabet in the order in which a file names them. -/
lemma inFileOrder_ofRows (h : Fits rows) (hstart : start < rows.length) :
    (ofRows rows start).InFileOrder := by
  have hsymbols : ∀ r ∈ rows, (ofRows rows start).symbolsFrom r.source =
      (ofRows rows start).alphabet.symbols.filter (· ∈ r.symbols) := by
    intro r hr
    refine symbolsFrom_eq_filter fun a _ => ?_
    simp only [decide_eq_true_eq, Row.mem_symbols_iff, hasArc_ofRows h]
    refine exists_congr fun d => ⟨fun hd => ⟨r, hr, hd⟩, ?_⟩
    rintro ⟨r', hr', hd⟩
    obtain rfl := h.eq_of_source_eq hr hr' (Row.mem_arcs_iff.mp hd).1
    exact hd
  have happearances : (ofRows rows start).appearances = (rows.map Row.symbols).flatMap
      fun symbols => (ofRows rows start).alphabet.symbols.filter (· ∈ symbols) := by
    rw [appearances, numStates_ofRows h hstart, ← h.map_source, List.flatMap_map, List.flatMap_map]
    exact List.flatMap_congr hsymbols
  rw [InFileOrder, happearances]
  refine Alphabet.ofList_flatMap_filter ?_
  rw [alphabet_ofRows h, List.flatMap_def]

/-! ### Reading -/

/-- A label stands for a symbol or for epsilon, and the names under it for states. -/
def ReadsMove (names : List String) (entry : String × List String)
    (move : Option Symbol × List Nat) : Prop :=
  symbolOfLabel entry.1 = .ok move.1 ∧
    List.Forall₂ (fun name d => stateOfName names name = .ok d) entry.2 move.2

/-- A record says what a row says. -/
structure ReadsRow (names : List String) (entry : String × StateRecord (List String)) (r : Row) :
    Prop where
  source : stateOfName names entry.1 = .ok r.source
  isFinal : entry.2.isFinal = r.isFinal
  moves : List.Forall₂ (ReadsMove names) entry.2.transitions.entries r.moves

variable {names : List String} {s : Nat}

lemma stateOfName_eq_ok_iff {name : String} :
    stateOfName names name = .ok s ↔ names.idxOf? name = some s := by
  rw [stateOfName]
  cases names.idxOf? name <;> simp

lemma addMoves_eq_ok_iff (n : Enfa) (entry : String × List String) (n' : Enfa) :
    n.addMoves names s entry = .ok n' ↔ ∃ move, ReadsMove names entry move ∧
      (move.2.map fun d => (⟨s, move.1, d⟩ : Arc)).foldl addArc n = n' := by
  have hstep : ∀ (symbol? : Option Symbol) (n : Enfa) (name : String) (n' : Enfa),
      (do
        let d ← stateOfName names name
        match symbol? with
        | some a => return n.addTransition s a d
        | none => return n.addEpsilon s d : Except FileError Enfa) = .ok n' ↔
        ∃ d, stateOfName names name = .ok d ∧ n.addArc ⟨s, symbol?, d⟩ = n' := by
    intro symbol? n name n'
    rw [bind_eq_ok_iff]
    refine exists_congr fun d => and_congr_right fun _ => ?_
    cases symbol? <;> exact ⟨Except.ok.inj, congrArg Except.ok⟩
  rw [addMoves, bind_eq_ok_iff]
  constructor
  · rintro ⟨symbol?, hlabel, h⟩
    obtain ⟨ds, hds, h⟩ := (foldlM_eq_ok_iff (hstep symbol?)).mp h
    exact ⟨(symbol?, ds), ⟨hlabel, hds⟩, by rwa [List.foldl_map]⟩
  · rintro ⟨⟨symbol?, ds⟩, ⟨hlabel, hds⟩, h⟩
    exact ⟨symbol?, hlabel, (foldlM_eq_ok_iff (hstep symbol?)).mpr ⟨ds, hds, by rwa [List.foldl_map] at h⟩⟩

lemma addRecord_eq_ok_iff (n : Enfa) (entry : String × StateRecord (List String)) (n' : Enfa) :
    n.addRecord names entry = .ok n' ↔ ∃ r, ReadsRow names entry r ∧ n.addRow r = n' := by
  rw [addRecord, bind_eq_ok_iff]
  constructor
  · rintro ⟨s, hs, h⟩
    obtain ⟨moves, hmoves, h⟩ := (foldlM_eq_ok_iff addMoves_eq_ok_iff).mp h
    exact ⟨⟨s, entry.2.isFinal, moves⟩, ⟨hs, rfl, hmoves⟩, by rwa [addRow, Row.arcs, List.foldl_flatMap]⟩
  · rintro ⟨⟨s, isFinal, moves⟩, ⟨hs, rfl, hmoves⟩, h⟩
    rw [addRow, Row.arcs, List.foldl_flatMap] at h
    exact ⟨s, hs, (foldlM_eq_ok_iff addMoves_eq_ok_iff).mpr ⟨moves, hmoves, h⟩⟩

lemma ofFile_eq_ok_iff {f : EnfaFile} : ofFile f = .ok n ↔
    ∃ rows start, List.Forall₂ (ReadsRow f.states.names) f.states.entries rows ∧
      stateOfName f.states.names f.start = .ok start ∧ n = ofRows rows start := by
  rw [ofFile, bind_eq_ok_iff]
  constructor
  · rintro ⟨m, hm, h⟩
    obtain ⟨rows, hrows, rfl⟩ := (foldlM_eq_ok_iff addRecord_eq_ok_iff).mp hm
    split at h
    · rename_i start hstart
      refine ⟨rows, start, hrows, stateOfName_eq_ok_iff.mpr hstart, ?_⟩
      rw [← Except.ok.inj h, NameMap.size, hrows.length_eq, ofRows]
    · exact absurd h (by simp)
  · rintro ⟨rows, start, hrows, hstart, rfl⟩
    refine ⟨_, (foldlM_eq_ok_iff addRecord_eq_ok_iff).mpr ⟨rows, hrows, rfl⟩, ?_⟩
    rw [stateOfName_eq_ok_iff.mp hstart, NameMap.size, hrows.length_eq]
    rfl

/-- The rows of a file stand in the order of its records. -/
lemma fits_of_readsRow {f : EnfaFile}
    (h : List.Forall₂ (ReadsRow f.states.names) f.states.entries rows) : Fits rows := by
  have hlength : f.states.names.length = rows.length := by
    rw [NameMap.names, List.length_map, h.length_eq]
  have hlt : ∀ {name d}, stateOfName f.states.names name = .ok d → d < rows.length := by
    intro name d hd
    obtain ⟨hlt, -⟩ := List.idxOf?_eq_some_iff.mp (stateOfName_eq_ok_iff.mp hd)
    rwa [hlength] at hlt
  refine ⟨List.ext_getElem (by simp) fun i hi _ => ?_, ?_⟩
  · have hrow : i < rows.length := by rwa [List.length_map] at hi
    have hentry : i < f.states.entries.length := h.length_eq ▸ hrow
    have hsource := stateOfName_eq_ok_iff.mp (h.get hentry hrow).source
    rw [List.get_eq_getElem, NameMap.idxOf?_names, Option.some.injEq] at hsource
    simpa using hsource.symm
  · intro r hr b hb
    obtain ⟨entry, -, hrow⟩ := exists_mem_of_forall₂ h hr
    obtain ⟨-, ds, hmove, hd⟩ := Row.mem_arcs_iff.mp hb
    obtain ⟨move, -, -, hnames⟩ := exists_mem_of_forall₂ hrow.moves hmove
    obtain ⟨name, -, hname⟩ := exists_mem_of_forall₂ hnames hd
    exact hlt hname

lemma inFileOrder_of_ofText {text : String} (hn : ofText text = .ok n) : n.InFileOrder := by
  obtain ⟨f, -, hf⟩ := ofText_eq_ok_iff.mp hn
  obtain ⟨rows, start, hrows, hstart, rfl⟩ := ofFile_eq_ok_iff.mp hf
  have hlt : start < f.states.names.length :=
    (List.idxOf?_eq_some_iff.mp (stateOfName_eq_ok_iff.mp hstart)).1
  rw [NameMap.names, List.length_map, hrows.length_eq] at hlt
  exact inFileOrder_ofRows (fits_of_readsRow hrows) hlt

end Enfa
end RegexAutomata
