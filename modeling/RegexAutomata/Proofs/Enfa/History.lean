/-
# What an automaton keeps of its history

An automaton comes about by operations, in any order.  A move may be added again, and so may a symbol;
states come into being because moves name them.  The moves are kept by source and symbol id, while they are
listed by going through all states and, for each of them, through all symbols of the alphabet
(`Enfa.transitions`).  So a move is listed only if its source is among the states, and its label among the
labels.

It always is (`Enfa.Built.wellFormed`), and hence the list has each move that has been added once and
nothing else (`Enfa.arcs_applyAll_perm`), in the order of `Label.Before`.  The main result is
`Enfa.records_of_operations`.
-/
import RegexAutomata.Proofs.File.RoundTrip

namespace RegexAutomata

/-- The order of labels: symbols by their ids, and epsilon last. -/
def Label.Before : Label → Label → Prop
  | .symbol a, .symbol b => a < b
  | .symbol _, .epsilon => True
  | .epsilon, _ => False

/-- The order of moves: by source, then by label, then by destination. -/
def Enfa.MoveBefore : Nat × Label × Nat → Nat × Label × Nat → Prop :=
  Prod.Lex (· < ·) (Prod.Lex Label.Before (· < ·))

/-- An arc as it is drawn. -/
def Arc.drawn (b : Arc) : Nat × Nat × String :=
  (b.source, b.target, (b.symbol?.map Symbol.label).getD epsilonLabel)

namespace Enfa

variable {n : Enfa} {b : Arc} {l : Label} {s d : Nat}

/-! ### Sequences of operations -/

/-- What changes an automaton. -/
inductive Operation where
  | addState
  | addTransition (s : Nat) (a : Symbol) (d : Nat)
  | addEpsilon (s d : Nat)
  | setStart (s : Nat)
  | addFinal (s : Nat)
  | cacheClosures
deriving DecidableEq

/-- The move that an operation adds. -/
def Operation.arc? : Operation → Option Arc
  | .addTransition s a d => some ⟨s, some a, d⟩
  | .addEpsilon s d => some ⟨s, none, d⟩
  | _ => none

/-- Carry out an operation. -/
def apply (n : Enfa) : Operation → Enfa
  | .addState => n.addState
  | .addTransition s a d => n.addTransition s a d
  | .addEpsilon s d => n.addEpsilon s d
  | .setStart s => n.setStart s
  | .addFinal s => n.addFinal s
  | .cacheClosures => n.cacheClosures

/-- Carry out operations from left to right. -/
def applyAll (n : Enfa) (ops : List Operation) : Enfa := ops.foldl apply n

lemma Built.apply (h : n.Built) (op : Operation) : (n.apply op).Built := by
  cases op with
  | addState => exact h.addState
  | addTransition s a d => exact h.addTransition s a d
  | addEpsilon s d => exact h.addEpsilon s d
  | setStart s => exact h.setStart s
  | addFinal s => exact h.addFinal s
  | cacheClosures => exact h.cacheClosures

lemma Built.applyAll (h : n.Built) (ops : List Operation) : (n.applyAll ops).Built := by
  induction ops generalizing n with
  | nil => exact h
  | cons op ops ih => exact ih (h.apply op)

lemma numStates_le_apply (n : Enfa) (op : Operation) : n.numStates ≤ (n.apply op).numStates := by
  cases op <;> simp only [apply, numStates_addState, numStates_addTransition, numStates_addEpsilon,
    numStates_setStart, numStates_addFinal, numStates_cacheClosures] <;> omega

lemma numStates_le_applyAll (n : Enfa) (ops : List Operation) :
    n.numStates ≤ (n.applyAll ops).numStates := by
  induction ops generalizing n with
  | nil => exact Nat.le_refl _
  | cons op ops ih => exact (numStates_le_apply n op).trans (ih (n.apply op))

lemma WellFormed.hasArc_apply (h : n.WellFormed) (op : Operation) :
    (n.apply op).HasArc b ↔ op.arc? = some b ∨ n.HasArc b := by
  cases op with
  | addTransition s a d =>
    rw [apply, h.hasArc_addTransition, Operation.arc?, Option.some.injEq, eq_comm (a := b)]
  | addEpsilon s d => rw [apply, hasArc_addEpsilon, Operation.arc?, Option.some.injEq, eq_comm (a := b)]
  | _ => simp [apply, Operation.arc?]

/-- The moves of an automaton are those that have been added. -/
lemma Built.hasArc_applyAll (h : n.Built) (ops : List Operation) :
    (n.applyAll ops).HasArc b ↔ b ∈ ops.filterMap Operation.arc? ∨ n.HasArc b := by
  induction ops generalizing n with
  | nil => exact (or_iff_right List.not_mem_nil).symm
  | cons op ops ih =>
    have hstep : n.applyAll (op :: ops) = (n.apply op).applyAll ops := rfl
    rw [hstep, ih (h.apply op), h.wellFormed.hasArc_apply]
    simp only [List.mem_filterMap, List.exists_mem_cons_iff]
    rw [← or_assoc, or_comm (a := ∃ op ∈ ops, _)]

/-! ### The order of the moves -/

/-- What is listed by a first component and then by a second is in the order of both. -/
lemma pairwise_lex_flatMap {α β : Type} {r : α → α → Prop} {r' : β → β → Prop} {xs : List α}
    {f : α → List β} (hxs : xs.Pairwise r) (hf : ∀ x ∈ xs, (f x).Pairwise r') :
    (xs.flatMap fun x => (f x).map (Prod.mk x)).Pairwise (Prod.Lex r r') := by
  refine List.pairwise_flatMap.mpr ⟨?_, hxs.imp fun hxy p hp q hq => ?_⟩
  · intro x hx
    exact List.pairwise_map.mpr ((hf x hx).imp fun hab => .right x hab)
  · obtain ⟨a, -, rfl⟩ := List.mem_map.mp hp
    obtain ⟨b, -, rfl⟩ := List.mem_map.mp hq
    exact .left a b hxy

lemma pairwise_labels (n : Enfa) : n.labels.Pairwise Label.Before := by
  rw [labels, List.pairwise_append]
  refine ⟨List.pairwise_map.mpr List.pairwise_lt_range, List.pairwise_singleton _ _, ?_⟩
  intro l hl l' hl'
  obtain ⟨a, -, rfl⟩ := List.mem_map.mp hl
  rw [List.mem_singleton.mp hl']
  trivial

lemma transitions_eq (n : Enfa) : n.transitions =
    (List.range n.numStates).flatMap fun s =>
      ((n.labelsFrom s).flatMap fun l => (n.destinations s l).toList.map (Prod.mk l)).map (Prod.mk s) := by
  rw [transitions, transitionMap_eq, List.flatMap_map]
  refine List.flatMap_congr fun s _ => ?_
  simp only [List.flatMap_map, List.map_flatMap, List.map_map, Function.comp_def]

lemma pairwise_transitions (n : Enfa) : n.transitions.Pairwise MoveBefore := by
  rw [transitions_eq]
  refine pairwise_lex_flatMap List.pairwise_lt_range fun s _ => ?_
  exact pairwise_lex_flatMap (n.pairwise_labels.filter _) fun l _ => (n.destinations s l).ascending

lemma moveBefore_irrefl (e : Nat × Label × Nat) : ¬MoveBefore e e := by
  rcases e with ⟨s, _ | _, d⟩ <;> simp [MoveBefore, Prod.lex_def, Label.Before]

lemma nodup_transitions (n : Enfa) : n.transitions.Nodup :=
  n.pairwise_transitions.imp fun {e e'} h heq => by
    subst heq
    exact moveBefore_irrefl e h

/-! ### The moves that are listed -/

lemma mem_labels : l ∈ n.labels ↔ l = .epsilon ∨ ∃ id ∈ n.alphabet.ids, l = .symbol id := by
  simp only [labels, List.mem_append, List.mem_map, List.mem_singleton, or_comm, eq_comm]

lemma mem_labelsFrom : l ∈ n.labelsFrom s ↔ l ∈ n.labels ∧ ∃ d, n.Edge s l d := by
  rw [labelsFrom, List.mem_filter, Bool.not_eq_true', StateSet.isEmpty_eq_false_iff]
  rfl

lemma WellFormed.label_mem (h : n.WellFormed) (hsd : n.Edge s l d) : l ∈ n.labels := by
  cases l with
  | symbol id => exact mem_labels.mpr (.inr ⟨id, Alphabet.mem_ids.mpr (h.symbol_lt s id d hsd), rfl⟩)
  | epsilon => exact mem_labels.mpr (.inl rfl)

lemma Built.exists_edge (h : n.Built) {id : Nat} (hid : id ∈ n.alphabet.ids) :
    ∃ s d, n.Edge s (.symbol id) d := by
  have hlt : id < n.alphabet.symbols.length := Alphabet.mem_ids.mp hid
  obtain ⟨s, d, harc⟩ := h.exists_hasArc (List.getElem_mem hlt)
  rw [hasArc_symbol_iff (List.getElem_mem hlt), Alphabet.idOf, n.alphabet.nodup.idxOf_getElem id hlt]
    at harc
  exact ⟨s, d, harc⟩

/-- All moves are listed: their sources and their labels are among those that are gone through. -/
lemma WellFormed.mem_transitions_iff (h : n.WellFormed) :
    (s, l, d) ∈ n.transitions ↔ n.Edge s l d := by
  simp only [transitions_eq, List.mem_flatMap, List.mem_map, List.mem_range, Prod.mk.injEq,
    mem_labelsFrom]
  constructor
  · rintro ⟨s', -, e, ⟨l', -, d', hd, rfl⟩, rfl, rfl, rfl⟩
    exact hd
  · intro hsd
    exact ⟨s, (h.edge_lt s l d hsd).1, (l, d), ⟨l, ⟨h.label_mem hsd, d, hsd⟩, d, hsd, rfl⟩, rfl, rfl⟩

/-- The moves as they are listed, with symbols in place of ids. -/
def arcs (n : Enfa) : List Arc :=
  n.transitions.map fun e => ⟨e.1, n.alphabet.symbolOf? e.2.1, e.2.2⟩

lemma WellFormed.mem_arcs_iff (h : n.WellFormed) : b ∈ n.arcs ↔ n.HasArc b := by
  rw [arcs, List.mem_map]
  constructor
  · rintro ⟨⟨s, l, d⟩, he, rfl⟩
    have hsd := h.mem_transitions_iff.mp he
    exact (hasArc_symbolOf_iff (h.label_mem hsd)).mpr hsd
  · intro hb
    obtain ⟨l, hl, hsymbol⟩ := hb.exists_label
    obtain ⟨s, a?, d⟩ := b
    obtain rfl : n.alphabet.symbolOf? l = a? := hsymbol
    exact ⟨(s, l, d), h.mem_transitions_iff.mpr ((hasArc_symbolOf_iff hl).mp hb), rfl⟩

/-! ### The map of the moves -/

lemma map_fst_transitionMap (n : Enfa) : n.transitionMap.map Prod.fst = List.range n.numStates := by
  rw [transitionMap, List.map_map]
  exact List.map_id _

lemma map_labels_transitionMap {row : Nat × List (Label × StateSet)} (hrow : row ∈ n.transitionMap) :
    (row.2.map Prod.fst).Pairwise Label.Before ∧ ∀ entry ∈ row.2, ∃ d, d ∈ entry.2 := by
  rw [transitionMap_eq] at hrow
  obtain ⟨s, -, rfl⟩ := List.mem_map.mp hrow
  refine ⟨?_, fun entry hentry => ?_⟩
  · rw [List.map_map]
    exact List.pairwise_map.mpr (n.pairwise_labels.filter _)
  · obtain ⟨l, hl, rfl⟩ := List.mem_map.mp hentry
    exact (mem_labelsFrom.mp hl).2

lemma mem_map_iff :
    (∃ row ds, (s, row) ∈ n.transitionMap ∧ (l, ds) ∈ row ∧ d ∈ ds) ↔ (s, l, d) ∈ n.transitions := by
  rw [transitions, List.mem_flatMap]
  simp only [List.mem_flatMap, List.mem_map, Prod.mk.injEq]
  constructor
  · rintro ⟨row, ds, hrow, hentry, hd⟩
    exact ⟨_, hrow, _, hentry, d, hd, rfl, rfl, rfl⟩
  · rintro ⟨⟨s, row⟩, hrow, ⟨l, ds⟩, hentry, d, hd, rfl, rfl, rfl⟩
    exact ⟨row, ds, hrow, hentry, hd⟩

/-! ### The moves that are drawn -/

lemma mem_labels_of_mem_transitions {e : Nat × Label × Nat} (he : e ∈ n.transitions) :
    e.2.1 ∈ n.labels := by
  simp only [transitions_eq, List.mem_flatMap, List.mem_map] at he
  obtain ⟨s, -, e', ⟨l, hl, d, -, rfl⟩, rfl⟩ := he
  exact mem_labels_of_mem_labelsFrom hl

/-- What is drawn of a move depends on its symbol alone, not on the id of the symbol. -/
lemma drawing_eq (n : Enfa) : n.drawing = (List.range n.numStates, n.arcs.map Arc.drawn) := by
  rw [drawing, arcs, List.map_map]
  refine congrArg (Prod.mk _) (List.map_congr_left fun e he => ?_)
  have hlabel : n.alphabet.label e.2.1 =
      ((n.alphabet.symbolOf? e.2.1).map Symbol.label).getD epsilonLabel := by
    rcases mem_labels_iff.mp (mem_labels_of_mem_transitions he) with ⟨a, ha, hl, hsymbol⟩ | hl
    · rw [hsymbol, hl, Alphabet.label_symbol ha]
      rfl
    · rw [hl]
      rfl
  rw [Function.comp, Arc.drawn, hlabel]

/-- Different moves are drawn differently. -/
lemma nodup_drawing (n : Enfa) : n.drawing.2.Nodup := by
  refine n.nodup_transitions.map_on fun e he e' he' heq => ?_
  obtain ⟨s, l, d⟩ := e
  obtain ⟨s', l', d'⟩ := e'
  simp only [Prod.mk.injEq] at heq ⊢
  obtain ⟨rfl, rfl, hlabel⟩ := heq
  have hl := List.inj_on_of_nodup_map n.nodup_map_label (mem_labels_of_mem_transitions he)
    (mem_labels_of_mem_transitions he') hlabel
  exact ⟨rfl, hl, rfl⟩

lemma nodup_arcs (n : Enfa) : n.arcs.Nodup := by
  have hdrawing := n.nodup_drawing
  rw [drawing_eq] at hdrawing
  exact hdrawing.of_map _

/-- Each move that has been added is listed once, and nothing else is. -/
lemma arcs_applyAll_perm (ops : List Operation) :
    (empty.applyAll ops).arcs.Perm (ops.filterMap Operation.arc?).dedup := by
  have h : (empty.applyAll ops).Built := Built.empty.applyAll ops
  refine (List.perm_ext_iff_of_nodup (nodup_arcs _) (List.nodup_dedup _)).mpr fun b => ?_
  rw [h.wellFormed.mem_arcs_iff, Built.empty.hasArc_applyAll, List.mem_dedup]
  exact or_iff_left not_hasArc_empty

/-! ### The main result -/

/-- What an automaton keeps, and what it lists, if the moves of a list have been added to it, perhaps some
of them more than once. -/
structure Records (n : Enfa) (added : List Arc) : Prop where
  start_lt : ∀ s, n.start? = some s → s < n.numStates
  final_lt : ∀ s ∈ n.finals, s < n.numStates
  edge_lt : ∀ s l d, n.Edge s l d → s < n.numStates ∧ d < n.numStates
  /-- A move carries epsilon or the id of a symbol of the alphabet. -/
  edge_label : ∀ s l d, n.Edge s l d → l = .epsilon ∨ ∃ id ∈ n.alphabet.ids, l = .symbol id
  /-- Each symbol of the alphabet is that of a move. -/
  exists_edge : ∀ id ∈ n.alphabet.ids, ∃ s d, n.Edge s (.symbol id) d
  /-- The moves are listed in order. -/
  transitions_pairwise : n.transitions.Pairwise MoveBefore
  /-- The moves that are kept are listed. -/
  mem_transitions_iff : ∀ s l d, (s, l, d) ∈ n.transitions ↔ n.Edge s l d
  /-- The moves that have been added are listed, each once. -/
  arcs_perm : n.arcs.Perm added.dedup
  /-- The map has an entry for each state, in order. -/
  map_states : n.transitionMap.map Prod.fst = List.range n.numStates
  /-- The entry of a state has a set of destinations for each label that occurs, in order. -/
  map_labels : ∀ row ∈ n.transitionMap, (row.2.map Prod.fst).Pairwise Label.Before ∧
    ∀ entry ∈ row.2, ∃ d, d ∈ entry.2
  /-- The map has the moves that are listed. -/
  mem_map_iff : ∀ s l d, (∃ row ds, (s, row) ∈ n.transitionMap ∧ (l, ds) ∈ row ∧ d ∈ ds) ↔
    (s, l, d) ∈ n.transitions
  /-- All states are drawn, and all moves in the order in which they are listed. -/
  drawing_eq : n.drawing = (List.range n.numStates, n.arcs.map Arc.drawn)
  /-- No two moves are drawn alike. -/
  drawing_nodup : n.drawing.2.Nodup

/-- Whatever operations an automaton has come about by, the states that it names exist, its alphabet is that
of its moves, and each move that has been added is listed once: by source, then by symbol with epsilon last,
then by destination.  Operations never take states away. -/
theorem records_of_operations (ops : List Operation) :
    (empty.applyAll ops).Records (ops.filterMap Operation.arc?) ∧
      ∀ more, (empty.applyAll ops).numStates ≤ (empty.applyAll (ops ++ more)).numStates := by
  have hbuilt : (empty.applyAll ops).Built := Built.empty.applyAll ops
  have h := hbuilt.wellFormed
  refine ⟨?_, ?_⟩
  · exact {
      start_lt := h.start_lt
      final_lt := hbuilt.final_lt
      edge_lt := h.edge_lt
      edge_label := fun s l d hsd => mem_labels.mp (h.label_mem hsd)
      exists_edge := fun id hid => hbuilt.exists_edge hid
      transitions_pairwise := pairwise_transitions _
      mem_transitions_iff := fun s l d => h.mem_transitions_iff
      arcs_perm := arcs_applyAll_perm ops
      map_states := map_fst_transitionMap _
      map_labels := fun row hrow => map_labels_transitionMap hrow
      mem_map_iff := fun s l d => mem_map_iff
      drawing_eq := drawing_eq _
      drawing_nodup := nodup_drawing _ }
  · intro more
    rw [applyAll, applyAll, List.foldl_append]
    exact numStates_le_applyAll _ more

/-- The symbol `b` has the smaller id, because it is met first, and its move is added twice. -/
example : (empty.applyAll [.addTransition 1 (.literal 'b') 0, .addEpsilon 1 0,
    .addTransition 1 (.literal 'a') 0, .addTransition 1 (.literal 'b') 0]).transitions =
      [(1, .symbol 0, 0), (1, .symbol 1, 0), (1, .epsilon, 0)] := by decide +kernel

end Enfa
end RegexAutomata
