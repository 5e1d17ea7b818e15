/-
# The powerset construction preserves what is accepted

The search for sets of states takes up the discovered sets in order.  What it keeps is that the images
of all sets taken up so far are known (`Enfa.Exploring`); there are no more sets than sets of states,
so in the end all sets have been taken up and the images of every set are known
(`Enfa.images_mem_subsets`).

Then the run of a word in the deterministic automaton ends in the number of the set to which the word
leads (`Enfa.run_ofSubsets`), and the two automata accept the same strings.
-/
import Mathlib.Data.Finset.Powerset
import Mathlib.Data.List.Induction
import RegexAutomata.Dfa.Powerset
import RegexAutomata.Proofs.Dfa.Complete
import RegexAutomata.Proofs.Enfa.Acceptance

namespace RegexAutomata
namespace Enfa

variable {n : Enfa}

/-! ### Sets of states -/

lemma WellFormed.lt_of_reaches (h : n.WellFormed) {s x : Nat} (hs : s < n.numStates)
    (hr : n.epsilon.Reaches s x) : x < n.numStates := by
  induction hr with
  | refl => exact hs
  | tail _ edge _ => exact (h.edge_lt _ .epsilon _ edge).2

lemma WellFormed.lt_of_mem_move (h : n.WellFormed) {S : StateSet} {l : Label} {x : Nat}
    (hx : x ∈ n.move S l) : x < n.numStates := by
  obtain ⟨s, -, m, hm, hr⟩ := h.mem_move.mp hx
  exact h.lt_of_reaches (h.edge_lt s l m hm).2 hr

lemma WellFormed.move_empty (h : n.WellFormed) (l : Label) : n.move ∅ l = ∅ := by
  ext x
  rw [h.mem_move]
  simp

lemma mem_images {S T : StateSet} :
    T ∈ n.images S ↔ ∃ a ∈ n.alphabet.ids, n.move S (.symbol a) = T := by
  simp [images]

/-- There are at most `2 ^ m` different sets of numbers below `m`. -/
lemma length_le_two_pow {sets : List StateSet} {m : Nat} (hnodup : sets.Nodup)
    (hlt : ∀ S ∈ sets, ∀ x ∈ S, x < m) : sets.length ≤ 2 ^ m := by
  -- the sets are counted as subsets of `0, …, m - 1`
  have hinj : Function.Injective fun S : StateSet => S.toList.toFinset := by
    intro S T hST
    ext x
    have hx := congrArg (x ∈ ·) hST
    simpa [StateSet.mem_toList] using hx
  have hsub : (sets.map fun S => S.toList.toFinset).toFinset ⊆ (Finset.range m).powerset := by
    intro F hF
    rw [List.mem_toFinset, List.mem_map] at hF
    obtain ⟨S, hS, rfl⟩ := hF
    rw [Finset.mem_powerset]
    intro x hx
    rw [List.mem_toFinset] at hx
    exact Finset.mem_range.mpr (hlt S hS x hx)
  have hcard := Finset.card_le_card hsub
  rw [List.toFinset_card_of_nodup (hnodup.map hinj), List.length_map, Finset.card_powerset,
    Finset.card_range] at hcard
  exact hcard

/-! ### The search -/

/-- The sets with numbers below `i` have been taken up: their images are known.  The search began with
the set `S₀`, and it finds sets of states only. -/
structure Exploring (n : Enfa) (S₀ : StateSet) (i : Nat) (known : Numbering StateSet) : Prop where
  value?_zero : known.value? 0 = some S₀
  lt_numStates : ∀ S ∈ known.toList, ∀ x ∈ S, x < n.numStates
  images_mem : ∀ j < i, ∀ S, known.value? j = some S → ∀ T ∈ n.images S, T ∈ known.toList

variable {S₀ : StateSet} {known : Numbering StateSet} {i : Nat}

lemma Exploring.size_le (h : n.Exploring S₀ i known) : known.size ≤ 2 ^ n.numStates := by
  rw [← Numbering.length_toList]
  exact length_le_two_pow known.nodup_toList h.lt_numStates

/-- Taking up one set. -/
lemma Exploring.step (h : n.Exploring S₀ i known) (hn : n.WellFormed) {S : StateSet}
    (hS : known.value? i = some S) :
    n.Exploring S₀ (i + 1) ((n.images S).foldl .insert known) := by
  refine ⟨Numbering.value?_foldl_insert h.value?_zero, ?_, ?_⟩
  · intro T hT x hx
    rcases Numbering.mem_foldl_insert.mp hT with hold | hnew
    · exact h.lt_numStates T hold x hx
    · obtain ⟨a, -, rfl⟩ := mem_images.mp hnew
      exact hn.lt_of_mem_move hx
  · intro j hj T hT U hU
    rw [Numbering.mem_foldl_insert]
    -- a set taken up has kept its number
    have hlt : j < known.size := by
      have hi := Numbering.lt_size_of_value? hS
      omega
    rw [Numbering.value?_foldl_insert_of_lt hlt] at hT
    rcases Nat.lt_or_eq_of_le (Nat.le_of_lt_succ hj) with hji | rfl
    · exact Or.inl (h.images_mem j hji T hT U hU)
    · rw [hS, Option.some.injEq] at hT
      exact Or.inr (hT ▸ hU)

/-- What is kept by taking up one set holds in the end.  The search ends when its steps are used up or when
all sets have been taken up. -/
lemma explore_induction {motive : Nat → Numbering StateSet → Prop}
    (hstep : ∀ i known S, motive i known → known.value? i = some S →
      motive (i + 1) ((n.images S).foldl .insert known))
    (h : motive i known) (steps : Nat) :
    ∃ j, motive j (n.explore steps i known) ∧
      (j = i + steps ∨ (n.explore steps i known).size ≤ j) := by
  induction steps generalizing i known with
  | zero => exact ⟨i, h, Or.inl rfl⟩
  | succ steps ih =>
    rw [Enfa.explore]
    split
    · -- there is no set with the number `i`
      rename_i hnone
      exact ⟨i, h, Or.inr (Array.getElem?_eq_none_iff.mp hnone)⟩
    · rename_i S hS
      obtain ⟨j, hj, hend⟩ := ih (hstep i known S h hS)
      exact ⟨j, hj, by omega⟩

/-- In the end all sets have been taken up: there are no more of them than steps. -/
lemma Exploring.explore (h : n.Exploring S₀ i known) (hn : n.WellFormed) {steps : Nat}
    (hsteps : 2 ^ n.numStates ≤ i + steps) :
    n.Exploring S₀ (n.explore steps i known).size (n.explore steps i known) := by
  obtain ⟨j, hj, hend⟩ := explore_induction (fun _ _ _ h hS => h.step hn hS) h steps
  have hsize := hj.size_le
  refine ⟨hj.value?_zero, hj.lt_numStates, fun l hl => hj.images_mem l ?_⟩
  omega

/-- The search begins with the closure of a state. -/
lemma exploring_closure (h : n.WellFormed) {s : Nat} (hs : s < n.numStates) :
    n.Exploring (n.closure (StateSet.singleton s)) 0
      (.ofList [n.closure (StateSet.singleton s)]) := by
  refine ⟨?_, ?_, ?_⟩
  · rw [← Numbering.getElem?_toList, Numbering.toList_ofList_singleton]
    rfl
  · intro S hS x hx
    rw [Numbering.toList_ofList_singleton, List.mem_singleton] at hS
    subst hS
    obtain ⟨s', hs', hr⟩ := h.mem_closure.mp hx
    rw [StateSet.mem_singleton] at hs'
    exact h.lt_of_reaches (hs' ▸ hs) hr
  · intro j hj
    exact absurd hj (Nat.not_lt_zero j)

lemma exploring_subsets (h : n.WellFormed) {s : Nat} (hs : s < n.numStates) :
    n.Exploring (n.closure (StateSet.singleton s)) (n.subsets s).size (n.subsets s) :=
  (exploring_closure h hs).explore h (by rw [Nat.zero_add]; exact Nat.le_refl _)

/-- The images of all sets that are found are found. -/
lemma images_mem_subsets (h : n.WellFormed) {s : Nat} (hs : s < n.numStates) {j : Nat}
    {S T : StateSet} (hS : (n.subsets s).value? j = some S) (hT : T ∈ n.images S) :
    T ∈ (n.subsets s).toList :=
  (exploring_subsets h hs).images_mem j (Numbering.lt_size_of_value? hS) S hS T hT

/-! ### The deterministic automaton -/

/-- Each set moves to the number of its image. -/
lemma step_ofSubsets {sets : Numbering StateSet} {i a : Nat} {S : StateSet}
    (hS : sets.value? i = some S) (ha : a ∈ n.alphabet.ids) :
    (n.ofSubsets sets).step i a = some (sets.numberOf (n.move S (.symbol a))) := by
  have hi := Numbering.lt_size_of_value? hS
  rw [Dfa.step, ofSubsets, Table.get?_tabulate, if_pos ⟨List.mem_range.mpr hi, ha⟩, hS,
    Option.getD_some]

/-- Of the sets that are found, each moves to its image. -/
lemma exists_step_subsets (h : n.WellFormed) {s : Nat} (hs : s < n.numStates) {i a : Nat} {S : StateSet}
    (hS : (n.subsets s).value? i = some S) (ha : a ∈ n.alphabet.ids) :
    ∃ j, (n.ofSubsets (n.subsets s)).step i a = some j ∧
      (n.subsets s).value? j = some (n.move S (.symbol a)) :=
  ⟨_, step_ofSubsets hS ha,
    Numbering.value?_numberOf (images_mem_subsets h hs hS (mem_images.mpr ⟨a, ha, rfl⟩))⟩

lemma mem_finals_ofSubsets {sets : Numbering StateSet} {i : Nat} {S : StateSet}
    (hS : sets.value? i = some S) :
    i ∈ (n.ofSubsets sets).finals ↔ ∃ x ∈ S, x ∈ n.finals := by
  have hi := Numbering.lt_size_of_value? hS
  simp [ofSubsets, hS, hi]

/-- The run of a word ends in the number of the set to which the word leads. -/
lemma run_ofSubsets (h : n.WellFormed) {s : Nat} (hs : s < n.numStates) {u : List Nat}
    (hu : ∀ a ∈ u, a ∈ n.alphabet.ids) :
    ∃ j, (n.ofSubsets (n.subsets s)).run u = some j ∧
      (n.subsets s).value? j = some (n.sweep (n.closure (StateSet.singleton s)) u) := by
  induction u using List.reverseRecOn with
  | nil => exact ⟨0, rfl, (exploring_subsets h hs).value?_zero⟩
  | append_singleton u a ih =>
    obtain ⟨hu, ha⟩ := List.forall_mem_append.mp hu
    rw [List.forall_mem_singleton] at ha
    obtain ⟨j, hrun, hj⟩ := ih hu
    obtain ⟨k, hstep, hk⟩ := exists_step_subsets h hs hj ha
    refine ⟨k, ?_, ?_⟩
    · rw [Dfa.run_append_singleton, hrun, Option.bind_some, hstep]
    · rw [sweep_append]
      exact hk

lemma lt_of_mem_finals_ofSubsets {sets : Numbering StateSet} {i : Nat}
    (h : i ∈ (n.ofSubsets sets).finals) : i < sets.size := by
  simp only [ofSubsets, StateSet.mem_ofList, List.mem_filter, List.mem_range] at h
  exact h.1

/-- The empty set, if it has been found, moves to itself. -/
lemma step_ofSubsets_dead (h : n.WellFormed) {sets : Numbering StateSet} {i a : Nat}
    (hi : (n.ofSubsets sets).dead? = some i) (ha : a ∈ n.alphabet.ids) :
    (n.ofSubsets sets).step i a = some i := by
  have hi' : sets.value? i = some ∅ := Numbering.number?_eq_some_iff.mp hi
  rw [step_ofSubsets hi' ha, h.move_empty, Numbering.numberOf_eq hi']

/-- The empty set is not final, and every move from it leads to it. -/
lemma deadAbsorbs_ofSubsets (h : n.WellFormed) (sets : Numbering StateSet) :
    (n.ofSubsets sets).DeadAbsorbs := by
  refine ⟨?_, ?_⟩
  · intro i hi hf
    have hi' : sets.value? i = some ∅ := Numbering.number?_eq_some_iff.mp hi
    obtain ⟨x, hx, -⟩ := (mem_finals_ofSubsets hi').mp hf
    exact absurd hx (by simp)
  · intro i hi a ha t ht
    rw [step_ofSubsets_dead h hi ha, Option.some.injEq] at ht
    exact ht.symm

/-- The numbered sets that are found from the closure of a state make a complete automaton: their
images are among them. -/
lemma complete_ofSubsets (h : n.WellFormed) {s : Nat} (hs : s < n.numStates) :
    (n.ofSubsets (n.subsets s)).Complete where
  exists_start := fun _ => ⟨0, rfl⟩
  start_lt := by
    intro i hi
    obtain rfl : 0 = i := Option.some.inj hi
    exact Numbering.lt_size_of_value? (exploring_subsets h hs).value?_zero
  final_lt := fun _ hi => lt_of_mem_finals_ofSubsets hi
  exists_step := by
    intro i hi a ha
    obtain ⟨S, hS⟩ := Numbering.exists_value? hi
    exact ⟨_, step_ofSubsets hS ha⟩
  step_lt := by
    intro i a j hj
    obtain ⟨⟨hi, ha⟩, -⟩ := Table.get?_tabulate_eq_some_iff.mp hj
    rw [List.mem_range] at hi
    obtain ⟨S, hS⟩ := Numbering.exists_value? hi
    obtain ⟨k, hstep, hk⟩ := exists_step_subsets h hs hS ha
    obtain rfl : j = k := Option.some.inj (hj.symm.trans hstep)
    exact ⟨hi, ha, Numbering.lt_size_of_value? hk⟩
  dead_lt := fun _ hi => Numbering.lt_size_of_value? (Numbering.number?_eq_some_iff.mp hi)
  dead_not_final := (deadAbsorbs_ofSubsets h _).not_mem_finals
  dead_step := fun _ hi _ ha => step_ofSubsets_dead h hi ha

lemma acceptsWord_ofSubsets_iff (h : n.WellFormed) {s : Nat} (hs : s < n.numStates) {u : List Nat}
    (hu : ∀ a ∈ u, a ∈ n.alphabet.ids) :
    (n.ofSubsets (n.subsets s)).AcceptsWord u ↔
      ∃ x ∈ n.sweep (n.closure (StateSet.singleton s)) u, x ∈ n.finals := by
  obtain ⟨j, hrun, hj⟩ := run_ofSubsets h hs hu
  rw [Dfa.AcceptsWord, hrun, ← mem_finals_ofSubsets hj]
  simp

/-! ### Determinization -/

/-- Closures that are kept are the closures. -/
lemma WellFormed.closure_cacheClosures (h : n.WellFormed) : n.cacheClosures.closure = n.closure := by
  funext S
  ext x
  rw [h.cacheClosures.mem_closure, h.mem_closure, epsilon_cacheClosures]

lemma WellFormed.move_cacheClosures (h : n.WellFormed) : n.cacheClosures.move = n.move := by
  funext S l
  simp only [move, h.closure_cacheClosures, destinations_cacheClosures]

/-- Keeping closures does not change what is accepted. -/
lemma WellFormed.accepts_cacheClosures (h : n.WellFormed) (w : List Char) :
    n.cacheClosures.accepts w = n.accepts w := by
  have hread : n.cacheClosures.read = n.read := by
    funext S c
    simp only [read, h.move_cacheClosures, alphabet_cacheClosures]
  simp only [accepts, hread, h.closure_cacheClosures, start?_cacheClosures, finals_cacheClosures]

lemma determinize_eq_ofSubsets {s : Nat} (hs : n.start? = some s) :
    n.determinize = n.cacheClosures.ofSubsets (n.cacheClosures.subsets s) := by
  rw [determinize, hs]

lemma determinize_eq_ofAlphabet (hs : n.start? = none) :
    n.determinize = Dfa.ofAlphabet n.alphabet := by
  rw [determinize, hs]

/-- The deterministic automaton accepts the same strings. -/
lemma WellFormed.accepts_determinize_eq (h : n.WellFormed) (w : List Char) :
    n.determinize.accepts w = n.accepts w := by
  cases hs : n.start? with
  | none =>
    rw [determinize_eq_ofAlphabet hs, accepts, hs]
    show (Dfa.ofAlphabet n.alphabet).accepts w = false
    rfl
  | some s =>
    have hn := h.cacheClosures
    have hs' : s < n.cacheClosures.numStates := hn.start_lt s (by rw [start?_cacheClosures, hs])
    rw [determinize_eq_ofSubsets hs, ← h.accepts_cacheClosures, Bool.eq_iff_iff,
      (deadAbsorbs_ofSubsets hn _).accepts_iff, hn.accepts_iff_sweep, start?_cacheClosures, hs]
    simp only [Option.some.injEq, exists_eq_left']
    constructor
    · rintro ⟨u, hu, haccepts⟩
      exact ⟨u, hu, (acceptsWord_ofSubsets_iff hn hs' hu.mem_ids).mp haccepts⟩
    · rintro ⟨u, hu, hx⟩
      exact ⟨u, hu, (acceptsWord_ofSubsets_iff hn hs' hu.mem_ids).mpr hx⟩

lemma WellFormed.complete_determinize (h : n.WellFormed) : n.determinize.Complete := by
  cases hs : n.start? with
  | none =>
    rw [determinize_eq_ofAlphabet hs]
    exact Dfa.complete_ofAlphabet n.alphabet
  | some s =>
    rw [determinize_eq_ofSubsets hs]
    have hn := h.cacheClosures
    exact complete_ofSubsets hn (hn.start_lt s (by rw [start?_cacheClosures, hs]))

lemma WellFormed.wellFormed_determinize (h : n.WellFormed) : n.determinize.WellFormed :=
  h.complete_determinize.wellFormed

/-- Determinization preserves what is accepted, for every automaton that is built by the operations or
read from a text. -/
theorem determinize_preserves_acceptance
    (h : n.Built ∨ ∃ text, ofText text = .ok n) (w : List Char) :
    n.determinize.accepts w = n.accepts w := by
  have hbuilt : n.Built := by
    rcases h with hbuilt | ⟨text, htext⟩
    · exact hbuilt
    · exact built_of_ofText htext
  exact hbuilt.wellFormed.accepts_determinize_eq w

/-- An automaton with a cycle of epsilon moves, two symbols that match `b` and a reversed range. -/
theorem determinize_preserves_acceptance_of_cycle :
    ∃ n : Enfa, n.Built ∧ n.Edge 0 .epsilon 1 ∧ n.Edge 1 .epsilon 0 ∧
      n.accepts ['b', 'a'] = true ∧ n.determinize.accepts ['b', 'a'] = n.accepts ['b', 'a'] := by
  have hbuilt := Built.empty
    |>.addEpsilon 0 1 |>.addEpsilon 1 0
    |>.addTransition 1 (.literal 'b') 0 |>.addTransition 0 (.range 'a' 'c') 2
    |>.addTransition 2 (.range 'z' 'a') 0 |>.setStart 0 |>.addFinal 2
  exact ⟨_, hbuilt, by simp, by simp, by decide +kernel,
    determinize_preserves_acceptance (Or.inl hbuilt) _⟩

end Enfa
end RegexAutomata
