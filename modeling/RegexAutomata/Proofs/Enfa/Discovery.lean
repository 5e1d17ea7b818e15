/-
# The states of a determinized automaton

Determinizing numbers the sets of states in the order of their discovery: every set but the first is the
image of an earlier one, and moves are followed in the order of their sources, from one source in the order
of their symbols (`Dfa.Earlier`).  A set is numbered when the first move that leads to it is followed, so all
moves that are earlier lead to sets with smaller numbers (`Enfa.Discovers`).  Adding one image keeps this
(`Enfa.InDiscoveryOrder.insert`), hence so do taking up a set and the search as a whole
(`Enfa.inDiscoveryOrder_subsets`).

It follows that each state is reached, and that the first moves to the states come in the order of the states.
With what the search knows about images this makes the deterministic automaton the reachable part of the
powerset automaton (`Enfa.determinize_reachable_powerset`).
-/
import RegexAutomata.Proofs.Enfa.Trim

namespace RegexAutomata

namespace Dfa

/-- The move from `l` on `b` comes before the move from `k` on `a`: moves come in the order of their sources,
and from one source in the order of their symbols. -/
def Earlier (l b k a : Nat) : Prop := l < k ∨ l = k ∧ b < a

/-- Of all moves that lead to the state `j`, the one from `k` on `a` comes first. -/
structure FirstMove (d : Dfa) (k a j : Nat) : Prop where
  step_eq : d.step k a = some j
  not_earlier : ∀ l b, d.step l b = some j → ¬Earlier l b k a

lemma FirstMove.unique {d : Dfa} {k a l b j : Nat} (h : d.FirstMove k a j) (h' : d.FirstMove l b j) :
    k = l ∧ a = b := by
  have hle := h.not_earlier l b h'.step_eq
  have hge := h'.not_earlier k a h.step_eq
  simp only [Earlier] at hle hge
  omega

end Dfa

namespace Enfa

open Dfa (Earlier)

variable {n : Enfa} {known : Numbering StateSet} {S₀ S : StateSet} {i j k a s : Nat}

/-! ### The order of discovery -/

/-- The set with number `j` was discovered by the move from the set with number `k` on `a`: it is the image,
and all earlier moves lead to sets with smaller numbers. -/
structure Discovers (n : Enfa) (known : Numbering StateSet) (k a j : Nat) : Prop where
  source_lt : k < j
  mem_ids : a ∈ n.alphabet.ids
  leads : ∃ S, known.value? k = some S ∧ known.value? j = some (n.move S (.symbol a))
  earlier_lt : ∀ l b, Earlier l b k a → b ∈ n.alphabet.ids → ∀ S, known.value? l = some S →
    ∃ i < j, known.value? i = some (n.move S (.symbol b))

/-- Every set but the first one was discovered by a move. -/
def InDiscoveryOrder (n : Enfa) (known : Numbering StateSet) : Prop :=
  ∀ j, 0 < j → j < known.size → ∃ k a, n.Discovers known k a j

/-- Sets that are added change nothing about a set that has been discovered. -/
lemma Discovers.insert (h : n.Discovers known k a j) (hj : j < known.size) (T : StateSet) :
    n.Discovers (known.insert T) k a j := by
  obtain ⟨S, hS, himage⟩ := h.leads
  refine ⟨h.source_lt, h.mem_ids, ⟨S, Numbering.value?_insert hS, Numbering.value?_insert himage⟩, ?_⟩
  intro l b hlb hb U hU
  have hl : l < known.size := by
    have hk := h.source_lt
    simp only [Earlier] at hlb
    omega
  rw [Numbering.value?_insert_of_lt hl] at hU
  obtain ⟨i, hi, hvalue⟩ := h.earlier_lt l b hlb hb U hU
  exact ⟨i, hi, Numbering.value?_insert hvalue⟩

/-- Following one move after all earlier ones. -/
lemma InDiscoveryOrder.insert (h : n.InDiscoveryOrder known) (hS : known.value? i = some S)
    (ha : a ∈ n.alphabet.ids)
    (hearlier : ∀ l b, Earlier l b i a → b ∈ n.alphabet.ids → ∀ T, known.value? l = some T →
      n.move T (.symbol b) ∈ known.toList) :
    n.InDiscoveryOrder (known.insert (n.move S (.symbol a))) := by
  by_cases hmem : n.move S (.symbol a) ∈ known.toList
  · rwa [Numbering.insert_eq_self hmem]
  have hi : i < known.size := Numbering.lt_size_of_value? hS
  intro j hpos hj
  rw [Numbering.size_insert_of_not_mem hmem] at hj
  rcases Nat.lt_or_eq_of_le (Nat.le_of_lt_succ hj) with hj | rfl
  · obtain ⟨k, b, hk⟩ := h j hpos hj
    exact ⟨k, b, hk.insert hj _⟩
  · -- the image is new and gets the last number
    refine ⟨i, a, hi, ha, ⟨S, Numbering.value?_insert hS, Numbering.value?_insert_size hmem⟩, ?_⟩
    intro l b hlb hb T hT
    have hl : l < known.size := by
      simp only [Earlier] at hlb
      omega
    rw [Numbering.value?_insert_of_lt hl] at hT
    obtain ⟨m, hm⟩ := Numbering.mem_toList_iff.mp (hearlier l b hlb hb T hT)
    exact ⟨m, Numbering.lt_size_of_value? hm, Numbering.value?_insert hm⟩

/-- Taking up one set. -/
lemma InDiscoveryOrder.step (h : n.InDiscoveryOrder known) (hexploring : n.Exploring S₀ i known)
    (hS : known.value? i = some S) : n.InDiscoveryOrder ((n.images S).foldl .insert known) := by
  have hi : i < known.size := Numbering.lt_size_of_value? hS
  -- after the moves on the symbols below `c`
  have hbelow : ∀ c ≤ n.alphabet.size, n.InDiscoveryOrder
      (((List.range c).map fun a => n.move S (.symbol a)).foldl .insert known) := by
    intro c hc
    induction c with
    | zero => exact h
    | succ c ih =>
      rw [List.range_succ, List.map_append, List.foldl_append, List.map_singleton, List.foldl_cons,
        List.foldl_nil]
      refine (ih (by omega)).insert (Numbering.value?_foldl_insert hS)
        (Alphabet.mem_ids.mpr (by omega)) ?_
      intro l b hlb hb T hT
      rw [Numbering.mem_foldl_insert]
      rcases hlb with hl | ⟨rfl, hbc⟩
      · -- the images of the sets before were known already
        rw [Numbering.value?_foldl_insert_of_lt (Nat.lt_trans hl hi)] at hT
        exact Or.inl (hexploring.images_mem l hl T hT _ (mem_images.mpr ⟨b, hb, rfl⟩))
      · rw [Numbering.value?_foldl_insert hS, Option.some.injEq] at hT
        exact Or.inr (List.mem_map.mpr ⟨b, List.mem_range.mpr hbc, by rw [hT]⟩)
  exact hbelow _ (Nat.le_refl _)

/-- The sets that are found are numbered in the order of their discovery. -/
lemma inDiscoveryOrder_subsets (h : n.WellFormed) (hs : s < n.numStates) :
    n.InDiscoveryOrder (n.subsets s) := by
  have hstart : n.InDiscoveryOrder (.ofList [n.closure (StateSet.singleton s)]) := by
    intro j hpos hj
    rw [← Numbering.length_toList, Numbering.toList_ofList_singleton, List.length_singleton] at hj
    omega
  obtain ⟨i, ⟨-, horder⟩, -⟩ := explore_induction
    (motive := fun i known => n.Exploring (n.closure (StateSet.singleton s)) i known ∧
      n.InDiscoveryOrder known)
    (fun _ _ _ h' hS => ⟨h'.1.step h hS, h'.2.step h'.1 hS⟩) ⟨exploring_closure h hs, hstart⟩
    (Nat.pow 2 n.numStates)
  exact horder

/-! ### The moves of the deterministic automaton -/

/-- A state moves to the state for the image of its set. -/
lemma step_subsets_iff (h : n.WellFormed) (hs : s < n.numStates) :
    (n.ofSubsets (n.subsets s)).step k a = some j ↔ a ∈ n.alphabet.ids ∧
      ∃ S, (n.subsets s).value? k = some S ∧
        (n.subsets s).value? j = some (n.move S (.symbol a)) := by
  constructor
  · intro hstep
    obtain ⟨hk, ha, -⟩ := (complete_ofSubsets h hs).step_lt k a j hstep
    obtain ⟨S, hS⟩ := Numbering.exists_value? hk
    obtain ⟨i, hstep', himage⟩ := exists_step_subsets h hs hS ha
    obtain rfl : j = i := Option.some.inj (hstep.symm.trans hstep')
    exact ⟨ha, S, hS, himage⟩
  · rintro ⟨ha, S, hS, himage⟩
    rw [step_ofSubsets hS ha, Numbering.numberOf_eq himage]

/-- The move by which a set was discovered is the first one that leads to it. -/
lemma Discovers.firstMove (h : n.WellFormed) (hs : s < n.numStates)
    (hj : n.Discovers (n.subsets s) k a j) : (n.ofSubsets (n.subsets s)).FirstMove k a j := by
  refine ⟨(step_subsets_iff h hs).mpr ⟨hj.mem_ids, hj.leads⟩, ?_⟩
  intro l b hstep hlb
  obtain ⟨hb, S, hS, himage⟩ := (step_subsets_iff h hs).mp hstep
  obtain ⟨i, hi, hvalue⟩ := hj.earlier_lt l b hlb hb S hS
  exact Nat.ne_of_lt hi (Numbering.eq_of_value? hvalue himage)

/-- A set with a smaller number was discovered by an earlier move. -/
lemma Discovers.earlier {l b : Nat} (hi : n.Discovers known k a i) (hj : n.Discovers known l b j)
    (hij : i < j) : Earlier k a l b := by
  obtain ⟨S, hS, himage⟩ := hi.leads
  obtain ⟨T, hT, himage'⟩ := hj.leads
  by_contra hnot
  have hcases : Earlier l b k a ∨ l = k ∧ b = a := by
    simp only [Earlier] at hnot ⊢
    omega
  rcases hcases with hlb | ⟨rfl, rfl⟩
  · obtain ⟨m, hm, hvalue⟩ := hi.earlier_lt l b hlb hj.mem_ids T hT
    have hmj : m = j := Numbering.eq_of_value? hvalue himage'
    omega
  · obtain rfl : S = T := Option.some.inj (hS.symm.trans hT)
    exact Nat.ne_of_lt hij (Numbering.eq_of_value? himage himage')

/-- Every state is reached by a word: the set was discovered from one with a smaller number. -/
lemma exists_run_subsets (h : n.WellFormed) (hs : s < n.numStates) (hi : i < (n.subsets s).size) :
    ∃ u, (∀ a ∈ u, a ∈ n.alphabet.ids) ∧ (n.ofSubsets (n.subsets s)).run u = some i := by
  induction i using Nat.strong_induction_on with
  | _ i ih =>
    rcases Nat.eq_zero_or_pos i with rfl | hpos
    · exact ⟨[], by simp, rfl⟩
    · obtain ⟨k, a, hk⟩ := inDiscoveryOrder_subsets h hs i hpos hi
      obtain ⟨u, hu, hrun⟩ := ih k hk.source_lt (Nat.lt_trans hk.source_lt hi)
      refine ⟨u ++ [a], List.forall_mem_append.mpr ⟨hu, List.forall_mem_singleton.mpr hk.mem_ids⟩, ?_⟩
      rw [Dfa.run_append_singleton, hrun, Option.bind_some, (hk.firstMove h hs).step_eq]

/-! ### The reachable powerset automaton -/

/-- The sets that a deterministic automaton has for its states are those to which words lead from the closure
of a state of an automaton, each once and in the order of their discovery. -/
structure ReachablePowerset (n : Enfa) (s : Nat) (d : Dfa) (sets : List StateSet) : Prop where
  length_eq : sets.length = d.numStates
  alphabet_eq : d.alphabet = n.alphabet
  start : d.start? = some 0 ∧ sets[0]? = some (n.closure (StateSet.singleton s))
  step : ∀ i S, sets[i]? = some S → ∀ a ∈ n.alphabet.ids,
    ∃ j, d.step i a = some j ∧ sets[j]? = some (n.move S (.symbol a))
  nodup : sets.Nodup
  dead_iff : ∀ i, sets[i]? = some ∅ ↔ d.dead? = some i
  closed : ∀ S ∈ sets, n.closure S = S
  final_iff : ∀ i S, sets[i]? = some S → (i ∈ d.finals ↔ ∃ x ∈ S, x ∈ n.finals)
  exists_run : ∀ i < d.numStates, ∃ u, (∀ a ∈ u, a ∈ n.alphabet.ids) ∧ d.run u = some i
  exists_firstMove : ∀ j, 0 < j → j < d.numStates → ∃ k a, k < j ∧ d.FirstMove k a j
  firstMove_earlier : ∀ i j k a l b, 0 < i → i < j → d.FirstMove k a i → d.FirstMove l b j →
    Earlier k a l b
  numStates_le : d.numStates ≤ 2 ^ n.numStates

lemma WellFormed.closure_eq_self (h : n.WellFormed) (hS : n.Closed S) : n.closure S = S := by
  ext x
  rw [h.mem_closure]
  constructor
  · rintro ⟨y, hy, hreach⟩
    exact hS y hy x hreach
  · intro hx
    exact ⟨x, hx, .refl x⟩

/-- The sets that are found are closed: the first one is a closure, and the others are images. -/
lemma closed_of_mem_subsets (h : n.WellFormed) (hs : s < n.numStates)
    (hS : S ∈ (n.subsets s).toList) : n.Closed S := by
  obtain ⟨i, hi⟩ := Numbering.mem_toList_iff.mp hS
  rcases Nat.eq_zero_or_pos i with rfl | hpos
  · rw [(exploring_subsets h hs).value?_zero, Option.some.injEq] at hi
    exact hi ▸ h.closed_closure
  · obtain ⟨k, a, hk⟩ := inDiscoveryOrder_subsets h hs i hpos (Numbering.lt_size_of_value? hi)
    obtain ⟨T, -, himage⟩ := hk.leads
    obtain rfl := Option.some.inj (hi.symm.trans himage)
    exact h.closed_move _

lemma reachablePowerset_ofSubsets (h : n.WellFormed) (hs : s < n.numStates) :
    n.ReachablePowerset s (n.ofSubsets (n.subsets s)) (n.subsets s).toList where
  length_eq := rfl
  alphabet_eq := rfl
  start := ⟨rfl, by rw [Numbering.getElem?_toList, (exploring_subsets h hs).value?_zero]⟩
  step := by
    intro i S hS a ha
    simp only [Numbering.getElem?_toList] at hS ⊢
    exact exists_step_subsets h hs hS ha
  nodup := Numbering.nodup_toList _
  dead_iff := by
    intro i
    rw [Numbering.getElem?_toList]
    exact Numbering.number?_eq_some_iff.symm
  closed := fun S hS => h.closure_eq_self (closed_of_mem_subsets h hs hS)
  final_iff := by
    intro i S hS
    rw [Numbering.getElem?_toList] at hS
    exact mem_finals_ofSubsets hS
  exists_run := fun i hi => exists_run_subsets h hs hi
  exists_firstMove := by
    intro j hpos hj
    obtain ⟨k, a, hk⟩ := inDiscoveryOrder_subsets h hs j hpos hj
    exact ⟨k, a, hk.source_lt, hk.firstMove h hs⟩
  firstMove_earlier := by
    intro i j k a l b hpos hij hi hj
    have hlt : j < (n.subsets s).size := ((complete_ofSubsets h hs).step_lt l b j hj.step_eq).2.2
    obtain ⟨k', a', hk⟩ := inDiscoveryOrder_subsets h hs i hpos (Nat.lt_trans hij hlt)
    obtain ⟨l', b', hl⟩ := inDiscoveryOrder_subsets h hs j (Nat.lt_trans hpos hij) hlt
    -- there is only one first move
    obtain ⟨rfl, rfl⟩ := hi.unique (hk.firstMove h hs)
    obtain ⟨rfl, rfl⟩ := hj.unique (hl.firstMove h hs)
    exact hk.earlier hl hij
  numStates_le := (exploring_subsets h hs).size_le

/-- Whether closures are kept makes no difference. -/
lemma ReachablePowerset.of_cacheClosures {d : Dfa} {sets : List StateSet} (h : n.WellFormed)
    (hsets : n.cacheClosures.ReachablePowerset s d sets) : n.ReachablePowerset s d sets := by
  obtain ⟨hlength, halphabet, hstart, hstep, hnodup, hdead, hclosed, hfinal, hrun, hfirst, hearlier,
    hle⟩ := hsets
  rw [alphabet_cacheClosures] at halphabet hstep hrun
  rw [h.closure_cacheClosures] at hstart hclosed
  rw [h.move_cacheClosures] at hstep
  rw [finals_cacheClosures] at hfinal
  rw [numStates_cacheClosures] at hle
  exact ⟨hlength, halphabet, hstart, hstep, hnodup, hdead, hclosed, hfinal, hrun, hfirst, hearlier, hle⟩

/-- Determinizing an automaton with a start state yields the reachable part of its powerset automaton, and
keeps the set of each state. -/
theorem determinize_reachable_powerset (h : n.Built) (hs : n.start? = some s) :
    ∃ sets, n.determinize.mapping? = some sets ∧ n.ReachablePowerset s n.determinize sets := by
  have hwf : n.WellFormed := h.wellFormed
  have hlt : s < n.cacheClosures.numStates := by
    rw [numStates_cacheClosures]
    exact hwf.start_lt s hs
  rw [determinize_eq_ofSubsets hs]
  exact ⟨_, rfl, (reachablePowerset_ofSubsets hwf.cacheClosures hlt).of_cacheClosures hwf⟩

/-- The dead state of this automaton is discovered before the set of the state 3. -/
theorem determinize_reachable_powerset_of_dead :
    ∃ n : Enfa, n.Built ∧ n.start? = some 0 ∧ n.determinize.dead? = some 2 ∧
      ∃ sets, n.determinize.mapping? = some sets ∧ n.ReachablePowerset 0 n.determinize sets ∧
        sets = [.ofList [0], .ofList [1, 2], ∅, .ofList [3]] := by
  have hbuilt := Built.empty
    |>.addTransition 0 (.literal 'a') 1 |>.addEpsilon 1 2 |>.addEpsilon 2 1
    |>.addTransition 2 (.literal 'b') 3 |>.setStart 0 |>.addFinal 3
  obtain ⟨sets, hmapping, hsets⟩ := determinize_reachable_powerset hbuilt rfl
  refine ⟨_, hbuilt, rfl, by decide +kernel, sets, hmapping, hsets, ?_⟩
  refine Option.some.inj (hmapping.symm.trans ?_)
  decide +kernel

end Enfa
end RegexAutomata
