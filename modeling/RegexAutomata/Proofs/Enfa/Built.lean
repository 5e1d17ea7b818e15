/-
# Automata built by the operations

An automaton is *built* if it arises from the empty one by adding states, moves and final states,
setting the start state and computing closures, in any order.  Automata read from files are built as
well (`Enfa.built_of_ofText`).

Built automata are well formed (`Enfa.Built.wellFormed`): all states that are named exist, and closures
that are kept are those of the current epsilon moves.
-/
import Mathlib.Tactic.Lemma
import RegexAutomata.Enfa.Closure
import RegexAutomata.File.Reading
import RegexAutomata.Proofs.Failure

namespace RegexAutomata
namespace Enfa

/-- The automata that arise from the empty one by the operations. -/
inductive Built : Enfa → Prop
  | empty : Built empty
  | addState {n : Enfa} (h : Built n) : Built n.addState
  | addTransition {n : Enfa} (h : Built n) (s : Nat) (a : Symbol) (d : Nat) :
    Built (n.addTransition s a d)
  | addEpsilon {n : Enfa} (h : Built n) (s d : Nat) : Built (n.addEpsilon s d)
  | setStart {n : Enfa} (h : Built n) (s : Nat) : Built (n.setStart s)
  | addFinal {n : Enfa} (h : Built n) (s : Nat) : Built (n.addFinal s)
  | cacheClosures {n : Enfa} (h : Built n) : Built n.cacheClosures

/-- The start state, the ends and the symbols of all moves exist, and closures that are kept are
correct. -/
structure WellFormed (n : Enfa) : Prop where
  start_lt : ∀ s, n.start? = some s → s < n.numStates
  edge_lt : ∀ s l d, n.Edge s l d → s < n.numStates ∧ d < n.numStates
  symbol_lt : ∀ s id d, n.Edge s (.symbol id) d → id < n.alphabet.size
  closures_eq : ∀ closures, n.closures? = some closures →
    closures = (Array.range n.numStates).map fun s => n.epsilon.reach (StateSet.singleton s)

variable {n : Enfa}

/-! ### What the operations do to states and moves -/

/-- Making a state exist changes the number of states only, and drops the closures if it does. -/
lemma ensureState_eq (n : Enfa) (s : Nat) :
    n.ensureState s = { n with
      numStates := max n.numStates (s + 1)
      closures? := if s < n.numStates then n.closures? else none } := by
  rw [ensureState]
  split
  · have hmax : max n.numStates (s + 1) = n.numStates := by omega
    rw [hmax]
  · have hmax : max n.numStates (s + 1) = s + 1 := by omega
    rw [hmax]

@[simp] lemma numStates_ensureState (n : Enfa) (s : Nat) :
    (n.ensureState s).numStates = max n.numStates (s + 1) := by
  rw [ensureState_eq]

@[simp] lemma start?_ensureState (n : Enfa) (s : Nat) : (n.ensureState s).start? = n.start? := by
  rw [ensureState_eq]

@[simp] lemma finals_ensureState (n : Enfa) (s : Nat) : (n.ensureState s).finals = n.finals := by
  rw [ensureState_eq]

@[simp] lemma alphabet_ensureState (n : Enfa) (s : Nat) :
    (n.ensureState s).alphabet = n.alphabet := by
  rw [ensureState_eq]

@[simp] lemma moves_ensureState (n : Enfa) (s : Nat) : (n.ensureState s).moves = n.moves := by
  rw [ensureState_eq]

@[simp] lemma epsilon_ensureState (n : Enfa) (s : Nat) :
    (n.ensureState s).epsilon = n.epsilon := by
  rw [ensureState_eq]

@[simp] lemma edge_ensureState {s s' d' : Nat} {l : Label} :
    (n.ensureState s).Edge s' l d' ↔ n.Edge s' l d' := by
  cases l <;> simp [Edge, destinations]

@[simp] lemma not_edge_empty {s d : Nat} {l : Label} : ¬empty.Edge s l d := by
  cases l <;> simp [Edge, destinations, empty]

@[simp] lemma edge_addState {s d : Nat} {l : Label} : n.addState.Edge s l d ↔ n.Edge s l d := by
  cases l <;> rfl

@[simp] lemma edge_setStart {s s' d' : Nat} {l : Label} :
    (n.setStart s).Edge s' l d' ↔ n.Edge s' l d' := by
  have h : (n.setStart s).Edge s' l d' ↔ (n.ensureState s).Edge s' l d' := by
    cases l <;> rfl
  rw [h, edge_ensureState]

@[simp] lemma edge_addFinal {s s' d' : Nat} {l : Label} :
    (n.addFinal s).Edge s' l d' ↔ n.Edge s' l d' := by
  have h : (n.addFinal s).Edge s' l d' ↔ (n.ensureState s).Edge s' l d' := by
    cases l <;> rfl
  rw [h, edge_ensureState]

/-- Computing closures changes nothing but the closures that are kept. -/
lemma cacheClosures_eq (n : Enfa) :
    n.cacheClosures = { n with closures? := n.cacheClosures.closures? } := by
  rw [cacheClosures]
  split <;> rfl

@[simp] lemma start?_cacheClosures (n : Enfa) : n.cacheClosures.start? = n.start? := by
  rw [cacheClosures_eq]

@[simp] lemma numStates_cacheClosures (n : Enfa) : n.cacheClosures.numStates = n.numStates := by
  rw [cacheClosures_eq]

@[simp] lemma finals_cacheClosures (n : Enfa) : n.cacheClosures.finals = n.finals := by
  rw [cacheClosures_eq]

@[simp] lemma alphabet_cacheClosures (n : Enfa) : n.cacheClosures.alphabet = n.alphabet := by
  rw [cacheClosures_eq]

@[simp] lemma epsilon_cacheClosures (n : Enfa) : n.cacheClosures.epsilon = n.epsilon := by
  rw [cacheClosures_eq]

@[simp] lemma destinations_cacheClosures (n : Enfa) :
    n.cacheClosures.destinations = n.destinations := by
  rw [cacheClosures_eq]
  rfl

@[simp] lemma edge_cacheClosures {s d : Nat} {l : Label} :
    n.cacheClosures.Edge s l d ↔ n.Edge s l d := by
  rw [Edge, Edge, destinations_cacheClosures]

@[simp] lemma edge_addTransition {s d s' d' : Nat} {a : Symbol} {l : Label} :
    (n.addTransition s a d).Edge s' l d' ↔
      (s' = s ∧ l = .symbol (n.alphabet.idOf a) ∧ d' = d) ∨ n.Edge s' l d' := by
  cases l with
  | symbol id => simp [Edge, destinations, addTransition, Table.mem_destinations_addEdge]
  | epsilon => simp [Edge, destinations, addTransition]

@[simp] lemma edge_addEpsilon {s d s' d' : Nat} {l : Label} :
    (n.addEpsilon s d).Edge s' l d' ↔ (s' = s ∧ l = .epsilon ∧ d' = d) ∨ n.Edge s' l d' := by
  cases l with
  | symbol id => simp [Edge, destinations, addEpsilon]
  | epsilon => simp [Edge, destinations, addEpsilon, Graph.mem_successors_addEdge]

@[simp] lemma numStates_addState (n : Enfa) : n.addState.numStates = n.numStates + 1 := rfl

@[simp] lemma numStates_addTransition (n : Enfa) (s : Nat) (a : Symbol) (d : Nat) :
    (n.addTransition s a d).numStates = max (max n.numStates (s + 1)) (d + 1) := by
  simp [addTransition]

@[simp] lemma numStates_addEpsilon (n : Enfa) (s d : Nat) :
    (n.addEpsilon s d).numStates = max (max n.numStates (s + 1)) (d + 1) := by
  simp [addEpsilon]

@[simp] lemma numStates_setStart (n : Enfa) (s : Nat) :
    (n.setStart s).numStates = max n.numStates (s + 1) := by
  simp [setStart]

@[simp] lemma numStates_addFinal (n : Enfa) (s : Nat) :
    (n.addFinal s).numStates = max n.numStates (s + 1) := by
  simp [addFinal]

@[simp] lemma alphabet_addState (n : Enfa) : n.addState.alphabet = n.alphabet := rfl

@[simp] lemma alphabet_setStart (n : Enfa) (s : Nat) : (n.setStart s).alphabet = n.alphabet :=
  alphabet_ensureState n s

@[simp] lemma alphabet_addFinal (n : Enfa) (s : Nat) : (n.addFinal s).alphabet = n.alphabet :=
  alphabet_ensureState n s

@[simp] lemma alphabet_addTransition (n : Enfa) (s : Nat) (a : Symbol) (d : Nat) :
    (n.addTransition s a d).alphabet = n.alphabet.insert a := by
  simp [addTransition]

@[simp] lemma alphabet_addEpsilon (n : Enfa) (s d : Nat) :
    (n.addEpsilon s d).alphabet = n.alphabet := by
  simp [addEpsilon]

/-! ### Built automata are well formed -/

/-- An operation that drops the closures keeps an automaton well formed if states and symbols only
become more, and those that new moves name exist. -/
lemma WellFormed.mono {n' : Enfa} (h : n.WellFormed) (hle : n.numStates ≤ n'.numStates)
    (hsize : n.alphabet.size ≤ n'.alphabet.size) (hstart : n'.start? = n.start?)
    (hclosures : n'.closures? = none)
    (hedge : ∀ s l d, n'.Edge s l d → n.Edge s l d ∨
      s < n'.numStates ∧ d < n'.numStates ∧ ∀ id, l = .symbol id → id < n'.alphabet.size) :
    n'.WellFormed := by
  refine ⟨?_, ?_, ?_, ?_⟩
  · intro s hs
    have hlt := h.start_lt s (hstart ▸ hs)
    omega
  · intro s l d hsd
    rcases hedge s l d hsd with hold | ⟨hs, hd, -⟩
    · have hlt := h.edge_lt s l d hold
      omega
    · exact ⟨hs, hd⟩
  · intro s id d hsd
    rcases hedge s _ d hsd with hold | ⟨-, -, hnew⟩
    · have hlt := h.symbol_lt s id d hold
      omega
    · exact hnew id rfl
  · intro closures hc
    rw [hclosures] at hc
    exact absurd hc (by simp)

lemma WellFormed.ensureState (h : n.WellFormed) (s : Nat) : (n.ensureState s).WellFormed := by
  by_cases hs : s < n.numStates
  · rwa [Enfa.ensureState, if_pos hs]
  · refine h.mono ?_ (by simp) (by simp) ?_ ?_
    · rw [numStates_ensureState]
      omega
    · rw [Enfa.ensureState, if_neg hs]
    · intro s l d hsd
      exact Or.inl (edge_ensureState.mp hsd)

lemma wellFormed_empty : empty.WellFormed := by
  refine ⟨by simp [empty], ?_, ?_, by simp [empty]⟩
  · intro s l d hsd
    exact absurd hsd not_edge_empty
  · intro s id d hsd
    exact absurd hsd not_edge_empty

lemma WellFormed.addState (h : n.WellFormed) : n.addState.WellFormed :=
  h.mono (Nat.le_succ _) (Nat.le_refl _) rfl rfl fun _ _ _ hsd => Or.inl (edge_addState.mp hsd)

lemma WellFormed.addTransition (h : n.WellFormed) (s : Nat) (a : Symbol) (d : Nat) :
    (n.addTransition s a d).WellFormed := by
  refine h.mono ?_ ?_ (by simp [Enfa.addTransition]) rfl ?_
  · rw [numStates_addTransition]
    omega
  · rw [alphabet_addTransition]
    exact Alphabet.size_le_size_insert _ _
  · intro s' l d' hsd
    rcases edge_addTransition.mp hsd with ⟨rfl, rfl, rfl⟩ | hold
    · -- the new move: its ends have been made to exist and its symbol has been given an id
      rw [numStates_addTransition, alphabet_addTransition]
      refine Or.inr ⟨by omega, by omega, fun id hid => ?_⟩
      rw [← Label.symbol.inj hid]
      exact Alphabet.idOf_lt_size_insert _ _
    · exact Or.inl hold

lemma WellFormed.addEpsilon (h : n.WellFormed) (s d : Nat) : (n.addEpsilon s d).WellFormed := by
  refine h.mono ?_ (by simp) (by simp [Enfa.addEpsilon]) rfl ?_
  · rw [numStates_addEpsilon]
    omega
  · intro s' l d' hsd
    rcases edge_addEpsilon.mp hsd with ⟨rfl, rfl, rfl⟩ | hold
    · rw [numStates_addEpsilon]
      exact Or.inr ⟨by omega, by omega, by simp⟩
    · exact Or.inl hold

lemma WellFormed.setStart (h : n.WellFormed) (s : Nat) : (n.setStart s).WellFormed := by
  have hs := h.ensureState s
  refine ⟨?_, ?_, ?_, hs.closures_eq⟩
  · intro s' hs'
    obtain rfl : s = s' := Option.some.inj hs'
    rw [numStates_setStart]
    omega
  · intro s' l d hsd
    exact hs.edge_lt s' l d (edge_ensureState.mpr (edge_setStart.mp hsd))
  · intro s' id d hsd
    exact hs.symbol_lt s' id d (edge_ensureState.mpr (edge_setStart.mp hsd))

lemma WellFormed.addFinal (h : n.WellFormed) (s : Nat) : (n.addFinal s).WellFormed := by
  have hs := h.ensureState s
  refine ⟨hs.start_lt, ?_, ?_, hs.closures_eq⟩
  · intro s' l d hsd
    exact hs.edge_lt s' l d (edge_ensureState.mpr (edge_addFinal.mp hsd))
  · intro s' id d hsd
    exact hs.symbol_lt s' id d (edge_ensureState.mpr (edge_addFinal.mp hsd))

lemma WellFormed.cacheClosures (h : n.WellFormed) : n.cacheClosures.WellFormed := by
  rw [Enfa.cacheClosures]
  split
  · exact h
  · exact ⟨h.start_lt, h.edge_lt, h.symbol_lt, fun closures hc => (Option.some.inj hc).symm⟩

/-- Built automata are well formed. -/
lemma Built.wellFormed (h : n.Built) : n.WellFormed := by
  -- one lemma for each operation
  induction h with
  | empty => exact wellFormed_empty
  | addState _ ih => exact ih.addState
  | addTransition _ s a d ih => exact ih.addTransition s a d
  | addEpsilon _ s d ih => exact ih.addEpsilon s d
  | setStart _ s ih => exact ih.setStart s
  | addFinal _ s ih => exact ih.addFinal s
  | cacheClosures _ ih => exact ih.cacheClosures

lemma Built.final_lt (h : n.Built) : ∀ s ∈ n.finals, s < n.numStates := by
  induction h with
  | empty => exact fun s hs => absurd hs StateSet.not_mem_empty
  | addState _ ih => exact fun s hs => Nat.lt_succ_of_lt (ih s hs)
  | addTransition _ t a d ih =>
    intro s hs
    have hlt := ih s (by simpa [Enfa.addTransition] using hs)
    rw [numStates_addTransition]
    omega
  | addEpsilon _ t d ih =>
    intro s hs
    have hlt := ih s (by simpa [Enfa.addEpsilon] using hs)
    rw [numStates_addEpsilon]
    omega
  | setStart _ t ih =>
    intro s hs
    have hlt := ih s (by simpa [Enfa.setStart] using hs)
    rw [numStates_setStart]
    omega
  | addFinal _ t ih =>
    intro s hs
    rw [numStates_addFinal]
    rcases StateSet.mem_insert.mp hs with rfl | hs
    · omega
    · have hlt := ih s (by simpa using hs)
      omega
  | cacheClosures _ ih => simpa using ih

/-! ### Automata read from files -/

lemma built_ofStates (count : Nat) : (ofStates count).Built := by
  induction count with
  | zero => exact .empty
  | succ count ih => exact ih.addState

lemma Built.addMoves {names : List String} {s : Nat} {entry : String × List String} {n' : Enfa}
    (h : n.Built) (hn : n.addMoves names s entry = .ok n') : n'.Built := by
  rw [Enfa.addMoves, bind_eq_ok_iff] at hn
  obtain ⟨symbol?, -, hn⟩ := hn
  refine foldlM_keeps (fun m name m' hm hm' => ?_) h hn
  obtain ⟨d, -, hm'⟩ := bind_eq_ok_iff.mp hm'
  cases symbol? with
  | none => exact Except.ok.inj hm' ▸ hm.addEpsilon s d
  | some a => exact Except.ok.inj hm' ▸ hm.addTransition s a d

lemma Built.addRecord {names : List String} {entry : String × StateRecord (List String)}
    {n' : Enfa} (h : n.Built) (hn : n.addRecord names entry = .ok n') : n'.Built := by
  rw [Enfa.addRecord, bind_eq_ok_iff] at hn
  obtain ⟨s, -, hn⟩ := hn
  refine foldlM_keeps (fun m entry m' hm hm' => hm.addMoves hm') ?_ hn
  split
  · exact h.addFinal s
  · exact h

lemma built_of_ofFile {f : EnfaFile} (hn : ofFile f = .ok n) : n.Built := by
  rw [ofFile, bind_eq_ok_iff] at hn
  obtain ⟨m, hfold, hn⟩ := hn
  have hm : m.Built := foldlM_keeps (fun _ _ _ h h' => h.addRecord h') (built_ofStates _) hfold
  split at hn
  · exact Except.ok.inj hn ▸ hm.setStart _
  · exact absurd hn (by simp)

lemma ofText_eq_ok_iff {text : String} :
    ofText text = .ok n ↔ ∃ f, AutomatonFile.ofText text = .ok f ∧ ofFile f = .ok n := by
  rw [ofText]
  cases (AutomatonFile.ofText text : Except Json.Fault EnfaFile) with
  | error fault => simp
  | ok f => cases hf : ofFile f <;> simp [hf, Except.mapError]

/-- Automata read from texts are built. -/
lemma built_of_ofText {text : String} (hn : ofText text = .ok n) : n.Built := by
  obtain ⟨f, -, hf⟩ := ofText_eq_ok_iff.mp hn
  exact built_of_ofFile hf

end Enfa
end RegexAutomata
