/-
# Acceptance, words and paths

Reading a string keeps one set of states, whatever symbols read its characters.  For a well-formed
automaton this set is known in two ways: it is the union of the sets to which the words that spell the
string lead (`Enfa.mem_foldl_read_iff_sweep`), and it holds the ends of the paths that read the string
(`Enfa.mem_foldl_read_iff_reads`).

The first is what the powerset construction needs, the second what the construction of an automaton
from an expression needs.
-/
import RegexAutomata.Enfa.Accept
import RegexAutomata.Enfa.Path
import RegexAutomata.Proofs.Enfa.Built
import RegexAutomata.Proofs.Spelling

namespace RegexAutomata
namespace Enfa

variable {n : Enfa} {S : StateSet}

/-! ### Closures and moves -/

/-- The closure of a set holds what can be reached from its members by epsilon moves, whether or not
closures have been kept. -/
lemma WellFormed.mem_closure (h : n.WellFormed) {x : Nat} :
    x ∈ n.closure S ↔ ∃ s ∈ S, n.epsilon.Reaches s x := by
  rw [closure]
  split
  · exact Graph.mem_reach
  · rename_i closures hc
    have hreach : ∀ s, x ∈ (closures[s]?).getD (StateSet.singleton s) ↔ n.epsilon.Reaches s x := by
      intro s
      rw [h.closures_eq closures hc]
      by_cases hs : s < n.numStates
      · simp [hs, Graph.mem_reach]
      · -- a number that is no state has no moves, so it reaches only itself
        have hnone : (Array.range n.numStates)[s]? = none :=
          Array.getElem?_eq_none (by simpa using hs)
        rw [Array.getElem?_map, hnone, Option.map_none, Option.getD_none, StateSet.mem_singleton]
        constructor
        · rintro rfl
          exact .refl x
        · intro hr
          induction hr with
          | refl => rfl
          | tail _ edge ih =>
            subst ih
            exact absurd (h.edge_lt _ .epsilon _ edge).1 hs
    simp only [StateSet.mem_unions_map, StateSet.mem_toList, hreach]

lemma WellFormed.mem_move (h : n.WellFormed) {l : Label} {x : Nat} :
    x ∈ n.move S l ↔ ∃ s ∈ S, ∃ m, n.Edge s l m ∧ n.epsilon.Reaches m x := by
  rw [move, h.mem_closure]
  simp only [StateSet.mem_unions_map, StateSet.mem_toList]
  constructor
  · rintro ⟨m, ⟨s, hs, hm⟩, hr⟩
    exact ⟨s, hs, m, hm, hr⟩
  · rintro ⟨s, hs, m, hm, hr⟩
    exact ⟨m, ⟨s, hs, hm⟩, hr⟩

lemma mem_read {c : Char} {x : Nat} :
    x ∈ n.read S c ↔ ∃ a ∈ n.alphabet.matching c, x ∈ n.move S (.symbol a) := by
  simp [read]

/-! ### Words -/

/-- The states to which a word of symbol ids leads from a set of states. -/
def sweep (n : Enfa) (S : StateSet) (u : List Nat) : StateSet :=
  u.foldl (fun S a => n.move S (.symbol a)) S

@[simp] lemma sweep_nil (n : Enfa) (S : StateSet) : n.sweep S [] = S := rfl

@[simp] lemma sweep_cons (n : Enfa) (S : StateSet) (a : Nat) (u : List Nat) :
    n.sweep S (a :: u) = n.sweep (n.move S (.symbol a)) u := rfl

lemma sweep_append (n : Enfa) (S : StateSet) (u v : List Nat) :
    n.sweep S (u ++ v) = n.sweep (n.sweep S u) v := by
  rw [sweep, List.foldl_append]
  rfl

/-- What a word reaches from a set, it reaches from a member of the set. -/
lemma WellFormed.mem_sweep_iff (h : n.WellFormed) {u : List Nat} {x : Nat} :
    x ∈ n.sweep S u ↔ ∃ s ∈ S, x ∈ n.sweep (StateSet.singleton s) u := by
  induction u generalizing S with
  | nil => simp
  | cons a u ih =>
    rw [sweep_cons, ih]
    -- both sides go through a state `m` that the first symbol reaches
    constructor
    · rintro ⟨m, hm, hx⟩
      obtain ⟨s, hs, hsm⟩ := h.mem_move.mp hm
      refine ⟨s, hs, ?_⟩
      rw [sweep_cons, ih]
      exact ⟨m, h.mem_move.mpr ⟨s, StateSet.mem_singleton.mpr rfl, hsm⟩, hx⟩
    · rintro ⟨s, hs, hx⟩
      rw [sweep_cons, ih] at hx
      obtain ⟨m, hm, hx⟩ := hx
      obtain ⟨s', hs', hsm⟩ := h.mem_move.mp hm
      rw [StateSet.mem_singleton] at hs'
      exact ⟨m, h.mem_move.mpr ⟨s, hs, hs' ▸ hsm⟩, hx⟩

/-- Reading a string reaches what the words that spell it reach. -/
lemma WellFormed.mem_foldl_read_iff_sweep (h : n.WellFormed) {w : List Char} {x : Nat} :
    x ∈ w.foldl n.read S ↔ ∃ u, n.alphabet.Spells u w ∧ x ∈ n.sweep S u := by
  induction w generalizing S with
  | nil => simp
  | cons c w ih =>
    rw [List.foldl_cons, ih]
    constructor
    · rintro ⟨u, hu, hx⟩
      obtain ⟨m, hm, hx⟩ := h.mem_sweep_iff.mp hx
      obtain ⟨a, ha, hm⟩ := mem_read.mp hm
      refine ⟨a :: u, Alphabet.spells_cons_right.mpr ⟨a, u, ha, hu, rfl⟩, ?_⟩
      rw [sweep_cons, h.mem_sweep_iff]
      exact ⟨m, hm, hx⟩
    · rintro ⟨_, hau, hx⟩
      obtain ⟨a, u, ha, hu, rfl⟩ := Alphabet.spells_cons_right.mp hau
      rw [sweep_cons, h.mem_sweep_iff] at hx
      obtain ⟨m, hm, hx⟩ := hx
      exact ⟨u, hu, h.mem_sweep_iff.mpr ⟨m, mem_read.mpr ⟨a, ha, hm⟩, hx⟩⟩

/-- A string is accepted exactly if a word that spells it leads to a final state. -/
lemma WellFormed.accepts_iff_sweep (h : n.WellFormed) {w : List Char} :
    n.accepts w = true ↔ ∃ s, n.start? = some s ∧ ∃ u, n.alphabet.Spells u w ∧
      ∃ x ∈ n.sweep (n.closure (StateSet.singleton s)) u, x ∈ n.finals := by
  rw [accepts]
  cases n.start? with
  | none => simp
  | some s =>
    simp only [StateSet.intersects_iff, h.mem_foldl_read_iff_sweep, Option.some.injEq,
      exists_eq_left']
    constructor
    · rintro ⟨x, ⟨u, hu, hx⟩, hf⟩
      exact ⟨u, hu, x, hx, hf⟩
    · rintro ⟨u, hu, x, hx, hf⟩
      exact ⟨x, ⟨u, hu, hx⟩, hf⟩

/-! ### Paths -/

lemma reads_of_reaches {s m x : Nat} {w : List Char} (hr : n.epsilon.Reaches s m)
    (h : n.Reads m w x) : n.Reads s w x := by
  induction hr with
  | refl => exact h
  | tail _ edge ih => exact ih (.epsilon edge h)

lemma reads_nil_iff {s x : Nat} : n.Reads s [] x ↔ n.epsilon.Reaches s x := by
  constructor
  · intro h
    -- the word is an index of the relation, so it is made a variable first
    generalize hw : ([] : List Char) = w at h
    induction h with
    | refl s => exact .refl s
    | epsilon edge _ ih => exact .head edge (ih hw)
    | symbol => exact absurd hw (by simp)
  · intro h
    exact reads_of_reaches h (.refl x)

/-- A path that reads a character first follows epsilon moves and then a move that reads it. -/
lemma reads_cons_iff {s x : Nat} {c : Char} {w : List Char} :
    n.Reads s (c :: w) x ↔ ∃ t a m, n.epsilon.Reaches s t ∧ a ∈ n.alphabet.matching c ∧
      n.Edge t (.symbol a) m ∧ n.Reads m w x := by
  constructor
  · intro h
    generalize hv : c :: w = v at h
    induction h with
    | refl => exact absurd hv (by simp)
    | epsilon edge _ ih =>
      obtain ⟨t, a, m, hr, hrest⟩ := ih hv
      exact ⟨t, a, m, .head edge hr, hrest⟩
    | symbol edge known admits path _ =>
      obtain ⟨rfl, rfl⟩ := List.cons.inj hv
      exact ⟨_, _, _, .refl _, Alphabet.mem_matching.mpr ⟨_, known, admits⟩, edge, path⟩
  · rintro ⟨t, a, m, hr, ha, edge, path⟩
    obtain ⟨b, known, admits⟩ := Alphabet.mem_matching.mp ha
    exact reads_of_reaches hr (.symbol edge known admits path)

/-- Reading a string from the closure of a set reaches the ends of the paths that begin in the set and
read the string. -/
lemma WellFormed.mem_foldl_read_iff_reads (h : n.WellFormed) {w : List Char} {x : Nat} :
    x ∈ w.foldl n.read (n.closure S) ↔ ∃ s ∈ S, n.Reads s w x := by
  induction w generalizing S with
  | nil => simp only [List.foldl_nil, h.mem_closure, reads_nil_iff]
  | cons c w ih =>
    -- what is reached by one character is the closure of the ends of the moves that read it
    have hread : n.read (n.closure S) c = n.closure (StateSet.unions
        ((n.alphabet.matching c).map fun a => StateSet.unions
          ((n.closure S).toList.map (n.destinations · (.symbol a))))) := by
      ext y
      rw [mem_read, h.mem_closure]
      simp only [h.mem_move, StateSet.mem_unions_map, StateSet.mem_toList]
      constructor
      · rintro ⟨a, ha, t, ht, m, hm, hr⟩
        exact ⟨m, ⟨a, ha, t, ht, hm⟩, hr⟩
      · rintro ⟨m, ⟨a, ha, t, ht, hm⟩, hr⟩
        exact ⟨a, ha, t, ht, m, hm, hr⟩
    rw [List.foldl_cons, hread, ih]
    simp only [reads_cons_iff, StateSet.mem_unions_map, StateSet.mem_toList, h.mem_closure]
    constructor
    · rintro ⟨m, ⟨a, ha, t, ⟨s, hs, hr⟩, hm⟩, path⟩
      exact ⟨s, hs, t, a, m, hr, ha, hm, path⟩
    · rintro ⟨s, hs, t, a, m, hr, ha, hm, path⟩
      exact ⟨m, ⟨a, ha, t, ⟨s, hs, hr⟩, hm⟩, path⟩

/-- A string is accepted exactly if a path from the start state to a final state reads it. -/
lemma WellFormed.accepts_iff_reads (h : n.WellFormed) {w : List Char} :
    n.accepts w = true ↔ ∃ s, n.start? = some s ∧ ∃ x ∈ n.finals, n.Reads s w x := by
  rw [accepts]
  cases n.start? with
  | none => simp
  | some s =>
    simp only [StateSet.intersects_iff, h.mem_foldl_read_iff_reads, StateSet.mem_singleton,
      exists_eq_left, Option.some.injEq, exists_eq_left']
    constructor
    · rintro ⟨x, path, hx⟩
      exact ⟨x, hx, path⟩
    · rintro ⟨x, hx, path⟩
      exact ⟨x, path, hx⟩

end Enfa
end RegexAutomata
