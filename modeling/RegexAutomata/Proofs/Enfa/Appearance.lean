/-
# The order in which symbols appear

A file names the symbols of an automaton state by state, and for each state in the order of the alphabet
(`Enfa.appearances`).  An alphabet is *in file order* if this is the order in which its symbols first
appear; then its symbols keep their ids when the file is read.

Moves may be added in any order, so the alphabet need not be in file order.  But it is if each symbol is
added with a move from a state behind all others: hence it is for the automaton of an expression
(`Enfa.inFileOrder_ofPostfix`).

Every symbol of a built automaton appears (`Enfa.Built.exists_hasArc`).
-/
import RegexAutomata.Compile
import RegexAutomata.Proofs.Alphabet
import RegexAutomata.Proofs.Enfa.Thompson

namespace RegexAutomata
namespace Enfa

variable {n n' : Enfa} {a : Symbol} {s d : Nat}

/-! ### The symbols of an automaton -/

lemma HasArc.mem_symbols (h : n.HasArc ⟨s, some a, d⟩) : a ∈ n.alphabet.symbols := by
  obtain ⟨id, hid, -⟩ := h
  exact List.mem_of_getElem? hid

/-- Every symbol of a built automaton is that of a move. -/
lemma Built.exists_hasArc (h : n.Built) (ha : a ∈ n.alphabet.symbols) :
    ∃ s d, n.HasArc ⟨s, some a, d⟩ := by
  induction h with
  | empty => exact absurd ha List.not_mem_nil
  | addState _ ih => simpa using ih ha
  | @addTransition n h s b d ih =>
    rw [alphabet_addTransition, Alphabet.mem_insert] at ha
    simp only [h.wellFormed.hasArc_addTransition]
    rcases ha with ha | rfl
    · obtain ⟨s', d', harc⟩ := ih ha
      exact ⟨s', d', Or.inr harc⟩
    · exact ⟨s, d, Or.inl rfl⟩
  | addEpsilon _ s d ih => simpa [hasArc_addEpsilon] using ih (by simpa using ha)
  | setStart _ s ih => simpa using ih (by simpa using ha)
  | addFinal _ s ih => simpa using ih (by simpa using ha)
  | cacheClosures _ ih => simpa using ih (by simpa using ha)

/-! ### The symbols of the moves from a state -/

/-- The symbols of the moves from a state, in the order of the alphabet. -/
def symbolsFrom (n : Enfa) (s : Nat) : List Symbol :=
  n.alphabet.symbols.filter fun a => !(n.destinations s (.symbol (n.alphabet.idOf a))).isEmpty

/-- The symbols of all moves, as a file names them: by source, and then in the order of the alphabet. -/
def appearances (n : Enfa) : List Symbol := (List.range n.numStates).flatMap n.symbolsFrom

/-- The symbols of the alphabet stand in the order of their first appearance in a file. -/
def InFileOrder (n : Enfa) : Prop := Alphabet.ofList n.appearances = n.alphabet

instance (n : Enfa) : Decidable n.InFileOrder :=
  inferInstanceAs (Decidable (Alphabet.ofList n.appearances = n.alphabet))

/-- A move with a symbol of the alphabet carries the place of the symbol. -/
lemma hasArc_symbol_iff (ha : a ∈ n.alphabet.symbols) :
    n.HasArc ⟨s, some a, d⟩ ↔ d ∈ n.destinations s (.symbol (n.alphabet.idOf a)) := by
  simp only [HasArc, Edge, Alphabet.symbol?_eq_some_iff ha, exists_eq_left]

lemma symbolsFrom_eq_filter {p : Symbol → Bool}
    (h : ∀ a ∈ n.alphabet.symbols, p a = true ↔ ∃ d, n.HasArc ⟨s, some a, d⟩) :
    n.symbolsFrom s = n.alphabet.symbols.filter p := by
  refine List.filter_congr fun a ha => ?_
  rw [Bool.eq_iff_iff, h a ha]
  simp only [hasArc_symbol_iff ha, Bool.not_eq_true', StateSet.isEmpty_eq_false_iff]

lemma mem_symbolsFrom : a ∈ n.symbolsFrom s ↔ ∃ d, n.HasArc ⟨s, some a, d⟩ := by
  classical
  rw [symbolsFrom_eq_filter (p := fun a => decide (∃ d, n.HasArc ⟨s, some a, d⟩))
    fun _ _ => decide_eq_true_iff, List.mem_filter, decide_eq_true_iff]
  exact and_iff_right_of_imp fun ⟨_, h⟩ => h.mem_symbols

lemma nodup_symbolsFrom : (n.symbolsFrom s).Nodup := n.alphabet.nodup.filter _

/-- New symbols behind the others do not change what a state has, if it has no new moves. -/
lemma symbolsFrom_congr (halphabet : ∃ new, n'.alphabet.symbols = n.alphabet.symbols ++ new)
    (h : ∀ a d, n'.HasArc ⟨s, some a, d⟩ ↔ n.HasArc ⟨s, some a, d⟩) :
    n'.symbolsFrom s = n.symbolsFrom s := by
  classical
  obtain ⟨new, hnew⟩ := halphabet
  have hnodup := n'.alphabet.nodup
  rw [hnew, List.nodup_append] at hnodup
  have hnone : new.filter (fun a => decide (∃ d, n.HasArc ⟨s, some a, d⟩)) = [] := by
    rw [List.filter_eq_nil_iff]
    intro a ha hd
    obtain ⟨d, hd⟩ := of_decide_eq_true hd
    exact hnodup.2.2 a hd.mem_symbols a ha rfl
  rw [symbolsFrom_eq_filter (n := n') (p := fun a => decide (∃ d, n.HasArc ⟨s, some a, d⟩))
      (by simp [h]), symbolsFrom_eq_filter (n := n) fun _ _ => decide_eq_true_iff, hnew,
    List.filter_append, hnone, List.append_nil]

lemma WellFormed.symbolsFrom_eq_nil (h : n.WellFormed) (hs : n.numStates ≤ s) :
    n.symbolsFrom s = [] := by
  rw [List.eq_nil_iff_forall_not_mem]
  intro a ha
  obtain ⟨d, id, -, hedge⟩ := mem_symbolsFrom.mp ha
  exact absurd (h.edge_lt s _ d hedge).1 (Nat.not_lt.mpr hs)

lemma flatMap_range_of_nil {α : Type} {f : Nat → List α} {m count : Nat} (hle : m ≤ count)
    (hnil : ∀ s, m ≤ s → f s = []) : (List.range count).flatMap f = (List.range m).flatMap f := by
  obtain ⟨more, rfl⟩ := Nat.exists_eq_add_of_le hle
  rw [List.range_add, List.flatMap_append, List.flatMap_map,
    List.flatMap_eq_nil_iff.mpr fun s _ => hnil (m + s) (Nat.le_add_right _ _), List.append_nil]

/-- Only states with moves that carry symbols matter. -/
lemma WellFormed.appearances_eq (h : n.WellFormed) (hnil : ∀ t, s ≤ t → n.symbolsFrom t = []) :
    n.appearances = (List.range s).flatMap n.symbolsFrom := by
  rcases Nat.le_total s n.numStates with hle | hle
  · exact flatMap_range_of_nil hle hnil
  · exact (flatMap_range_of_nil hle fun t ht => h.symbolsFrom_eq_nil ht).symm

/-! ### The automaton of an expression -/

/-- What adds no move with a symbol keeps the alphabet in file order. -/
lemma InFileOrder.mono (h : n.InFileOrder) (hn : n.WellFormed) (hle : n.numStates ≤ n'.numStates)
    (halphabet : n'.alphabet = n.alphabet)
    (harcs : ∀ s a d, n'.HasArc ⟨s, some a, d⟩ ↔ n.HasArc ⟨s, some a, d⟩) :
    n'.InFileOrder := by
  have hsymbols : n'.symbolsFrom = n.symbolsFrom := funext fun s =>
    symbolsFrom_congr ⟨[], by rw [halphabet, List.append_nil]⟩ (harcs s)
  have happearances : n'.appearances = n.appearances := by
    rw [appearances, hsymbols, flatMap_range_of_nil hle fun s hs => hn.symbolsFrom_eq_nil hs]
    rfl
  rw [InFileOrder, happearances, halphabet]
  exact h

lemma InFileOrder.addState (h : n.InFileOrder) (hn : n.WellFormed) : n.addState.InFileOrder :=
  h.mono hn (Nat.le_succ _) rfl fun _ _ _ => hasArc_addState

lemma InFileOrder.addEpsilon (h : n.InFileOrder) (hn : n.WellFormed) (s d : Nat) :
    (n.addEpsilon s d).InFileOrder := by
  refine h.mono hn ?_ (alphabet_addEpsilon n s d) fun _ _ _ => by simp [hasArc_addEpsilon]
  rw [numStates_addEpsilon]
  omega

lemma InFileOrder.setStart (h : n.InFileOrder) (hn : n.WellFormed) (s : Nat) :
    (n.setStart s).InFileOrder := by
  refine h.mono hn ?_ (alphabet_setStart n s) fun _ _ _ => hasArc_setStart
  rw [numStates_setStart]
  omega

lemma InFileOrder.addFinal (h : n.InFileOrder) (hn : n.WellFormed) (s : Nat) :
    (n.addFinal s).InFileOrder := by
  refine h.mono hn ?_ (alphabet_addFinal n s) fun _ _ _ => hasArc_addFinal
  rw [numStates_addFinal]
  omega

lemma InFileOrder.cacheClosures (h : n.InFileOrder) (hn : n.WellFormed) :
    n.cacheClosures.InFileOrder :=
  h.mono hn (by simp) (alphabet_cacheClosures n) fun _ _ _ => hasArc_cacheClosures

/-- A symbol with a move from a state behind all others with symbols appears last. -/
lemma WellFormed.appearances_addTransition (hn : n.WellFormed)
    (hs : ∀ t, s ≤ t → n.symbolsFrom t = []) :
    (n.addTransition s a d).appearances = n.appearances ++ [a] := by
  have hothers : ∀ t, t ≠ s → (n.addTransition s a d).symbolsFrom t = n.symbolsFrom t := by
    intro t ht
    refine symbolsFrom_congr ?_ fun c e => ?_
    · rw [alphabet_addTransition]
      exact Alphabet.exists_symbols_foldl_insert n.alphabet [a]
    · rw [hn.hasArc_addTransition]
      exact or_iff_right fun h => ht (Arc.mk.inj h).1
  have hself : (n.addTransition s a d).symbolsFrom s = [a] := by
    refine List.perm_singleton.mp ((List.perm_ext_iff_of_nodup nodup_symbolsFrom
      (List.nodup_singleton a)).mpr fun c => ?_)
    have hnone : ∀ e, ¬n.HasArc ⟨s, some c, e⟩ := by
      intro e harc
      have hmem : c ∈ n.symbolsFrom s := mem_symbolsFrom.mpr ⟨e, harc⟩
      rw [hs s (Nat.le_refl s)] at hmem
      exact absurd hmem List.not_mem_nil
    simp [mem_symbolsFrom, hn.hasArc_addTransition, hnone]
  have hbehind : ∀ t, s + 1 ≤ t → (n.addTransition s a d).symbolsFrom t = [] := fun t ht =>
    (hothers t (Nat.ne_of_gt ht)).trans (hs t (Nat.le_of_succ_le ht))
  have hfront : (List.range s).flatMap (n.addTransition s a d).symbolsFrom =
      (List.range s).flatMap n.symbolsFrom :=
    List.flatMap_congr fun t ht => hothers t (Nat.ne_of_lt (List.mem_range.mp ht))
  rw [(hn.addTransition s a d).appearances_eq hbehind, hn.appearances_eq hs, List.range_succ,
    List.flatMap_append, hfront, List.flatMap_singleton, hself]

lemma InFileOrder.addTransition (h : n.InFileOrder) (hn : n.WellFormed)
    (hs : ∀ t, s ≤ t → n.symbolsFrom t = []) : (n.addTransition s a d).InFileOrder := by
  rw [InFileOrder, hn.appearances_addTransition hs, alphabet_addTransition, Alphabet.ofList,
    List.foldl_append]
  exact congrArg (Alphabet.insert · a) h

/-- Reading a token keeps the alphabet in file order. -/
lemma InFileOrder.assembleStep {stack stack' : List Fragment} {token : Token} (hn : n.Built)
    (h : n.InFileOrder) (hstep : assembleStep n stack token = some (n', stack')) :
    n'.Built ∧ n'.InFileOrder := by
  have hstates : n.addState.addState.InFileOrder :=
    (h.addState hn.wellFormed).addState hn.addState.wellFormed
  have hbuilt : n.addState.addState.Built := hn.addState.addState
  have hepsilon : ∀ {m : Enfa} (s d : Nat), m.Built ∧ m.InFileOrder →
      (m.addEpsilon s d).Built ∧ (m.addEpsilon s d).InFileOrder := fun s d hm =>
    ⟨hm.1.addEpsilon s d, hm.2.addEpsilon hm.1.wellFormed s d⟩
  unfold Enfa.assembleStep at hstep
  split at hstep
  · -- the two new states have no moves yet
    obtain ⟨rfl, -⟩ := Prod.mk.inj (Option.some.inj hstep)
    refine ⟨hbuilt.addTransition _ _ _, hstates.addTransition hbuilt.wellFormed fun t ht => ?_⟩
    rw [symbolsFrom_congr ⟨[], (List.append_nil _).symm⟩ fun _ _ =>
      hasArc_addState.trans hasArc_addState]
    exact hn.wellFormed.symbolsFrom_eq_nil ht
  · obtain ⟨rfl, -⟩ := Prod.mk.inj (Option.some.inj hstep)
    exact hepsilon _ _ (hepsilon _ _ (hepsilon _ _ (hepsilon _ _ ⟨hbuilt, hstates⟩)))
  · obtain ⟨rfl, -⟩ := Prod.mk.inj (Option.some.inj hstep)
    exact hepsilon _ _ (hepsilon _ _ (hepsilon _ _ ⟨hbuilt, hstates⟩))
  · obtain ⟨rfl, -⟩ := Prod.mk.inj (Option.some.inj hstep)
    exact hepsilon _ _ ⟨hn, h⟩
  · obtain ⟨rfl, -⟩ := Prod.mk.inj (Option.some.inj hstep)
    exact hepsilon _ _ (hepsilon _ _ (hepsilon _ _ (hepsilon _ _ ⟨hbuilt, hstates⟩)))
  · exact absurd hstep (by simp)

lemma InFileOrder.assemble {stack stack' : List Fragment} {tokens : List Token} (hn : n.Built)
    (h : n.InFileOrder) (hrun : assemble n stack tokens = some (n', stack')) :
    n'.Built ∧ n'.InFileOrder := by
  induction tokens generalizing n stack with
  | nil =>
    obtain ⟨rfl, -⟩ := Prod.mk.inj (Option.some.inj hrun)
    exact ⟨hn, h⟩
  | cons token rest ih =>
    rw [Enfa.assemble] at hrun
    split at hrun
    · exact absurd hrun (by simp)
    · rename_i hstep
      obtain ⟨hn, h⟩ := InFileOrder.assembleStep hn h hstep
      exact ih hn h hrun

/-- The automaton of an expression has its symbols in file order. -/
lemma inFileOrder_ofPostfix (p : Postfix) : (ofPostfix p).InFileOrder := by
  obtain ⟨n, whole, hrun⟩ := exists_assemble_eq_some p
  obtain ⟨hn, h⟩ := InFileOrder.assemble .empty (by rfl : empty.InFileOrder) hrun
  rw [ofPostfix, hrun]
  exact (h.setStart hn.wellFormed _).addFinal (hn.setStart _).wellFormed _

lemma inFileOrder_of_compile {text : String} {c : Compiled} (hc : compile text = .ok c) :
    c.nfa.InFileOrder := by
  obtain ⟨p, -, hc⟩ := bind_eq_ok_iff.mp hc
  obtain rfl := Except.ok.inj hc
  exact (inFileOrder_ofPostfix p).cacheClosures (built_ofPostfix p).wellFormed

end Enfa
end RegexAutomata
