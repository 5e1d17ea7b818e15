/-
# The search for a final state is right

As long as the search goes on, all that is visited or waits can be reached from the start state, nothing that
can be reached by epsilon moves is missing there, and the moves of the states visited have been followed
(`Enfa.Hunt.Follows`).  So if a final state comes up the automaton is not empty, and if the queue runs dry
everything that can be reached has been visited, and none of it is final.

The search is over after as many steps as there are states to begin with and destinations to be jumped to, and
one more: a state that is taken from the queue waited, and one that is visited puts no more in the queue than
it has jumps, which never count again.  The main result is `Enfa.Hunt.verdict?_iterate_step`.
-/
import RegexAutomata.Enfa.Queue
import RegexAutomata.Proofs.Emptiness
import RegexAutomata.Proofs.Search

namespace RegexAutomata
namespace Enfa

open Relation (ReflTransGen)

variable {n : Enfa} {c : Hunt} {visited : StateSet} {rest : List Nat} {s x y k : Nat} {b : Bool}

/-! ### Jumps -/

lemma mem_jumps : y ∈ n.jumps x ↔
    ∃ a ∈ n.alphabet.ids, y ∈ n.closure (n.destinations x (.symbol a)) := by
  simp only [jumps, List.mem_flatMap, StateSet.mem_toList]

/-- A jump is a move on a symbol and epsilon moves after it. -/
lemma WellFormed.moves_of_mem_jumps (h : n.WellFormed) (hy : y ∈ n.jumps x) : ReflTransGen n.Moves x y := by
  obtain ⟨a, -, hy⟩ := mem_jumps.mp hy
  obtain ⟨z, hz, hr⟩ := h.mem_closure.mp hy
  exact .head ⟨.symbol a, hz⟩ (moves_of_reaches hr)

/-- Whatever can be reached from a destination by epsilon moves is another. -/
lemma WellFormed.mem_jumps_of_reaches (h : n.WellFormed) (hx : x ∈ n.jumps s) (hr : n.epsilon.Reaches x y) :
    y ∈ n.jumps s := by
  obtain ⟨a, ha, hx⟩ := mem_jumps.mp hx
  exact mem_jumps.mpr ⟨a, ha, h.closed_closure x hx y hr⟩

lemma WellFormed.lt_of_moves (h : n.WellFormed) (hs : s < n.numStates) (hx : ReflTransGen n.Moves s x) :
    x < n.numStates := by
  induction hx with
  | refl => exact hs
  | tail _ hmove _ =>
    obtain ⟨l, hedge⟩ := hmove
    exact (h.edge_lt _ l _ hedge).2

namespace Hunt

/-! ### Steps -/

/-- A search that is over stays as it is. -/
lemma step_of_verdict (h : c.verdict? = some b) : step n c = c := by
  simp only [step, h]

lemma step_of_nil : step n ⟨visited, [], none⟩ = ⟨visited, [], some true⟩ := rfl

lemma step_of_mem (hs : s ∈ visited) : step n ⟨visited, s :: rest, none⟩ = ⟨visited, rest, none⟩ := by
  simp only [step, if_pos hs]

lemma step_of_final (hs : s ∉ visited) (hfinal : s ∈ n.finals) :
    step n ⟨visited, s :: rest, none⟩ = ⟨visited.insert s, rest, some false⟩ := by
  simp only [step, if_neg hs, if_pos hfinal]

lemma step_of_notMem (hs : s ∉ visited) (hfinal : s ∉ n.finals) :
    step n ⟨visited, s :: rest, none⟩ = ⟨visited.insert s,
      rest ++ (n.jumps s).filter (· ∉ visited.insert s), none⟩ := by
  simp only [step, if_neg hs, if_neg hfinal]

/-! ### What is visited -/

/-- The state has come up in the search. -/
def Knows (c : Hunt) (x : Nat) : Prop := x ∈ c.visited ∨ x ∈ c.waiting

lemma knows_drop (hs : s ∈ visited) :
    Knows ⟨visited, rest, none⟩ x ↔ Knows ⟨visited, s :: rest, none⟩ x := by
  simp only [Knows, List.mem_cons]
  grind

lemma knows_visit : Knows ⟨visited.insert s, rest ++ (n.jumps s).filter (· ∉ visited.insert s), none⟩ x ↔
    Knows ⟨visited, s :: rest, none⟩ x ∨ x ∈ n.jumps s := by
  simp only [Knows, StateSet.mem_insert, List.mem_append, List.mem_filter, List.mem_cons, decide_eq_true_eq]
  grind

/-- What is known of a search that has not ended. -/
structure Follows (n : Enfa) (s : Nat) (c : Hunt) : Prop where
  /-- All that has come up can be reached. -/
  reached : ∀ x, c.Knows x → ReflTransGen n.Moves s x
  /-- The start state has come up. -/
  began : c.Knows s
  /-- With a state all that it leads to by epsilon moves has come up. -/
  closed : ∀ x, c.Knows x → ∀ y, n.epsilon.Reaches x y → c.Knows y
  /-- The moves of what is visited have been followed. -/
  followed : ∀ x ∈ c.visited, ∀ y ∈ n.jumps x, c.Knows y
  /-- No final state has been visited. -/
  not_final : ∀ x ∈ c.visited, x ∉ n.finals

namespace Follows

variable {s₀ : Nat}

/-- In the beginning the closure of the start state waits. -/
lemma start (hn : n.WellFormed) (hs : n.start? = some s₀) : Follows n s₀ (start n) := by
  have hknows : ∀ x, (Hunt.start n).Knows x ↔ n.epsilon.Reaches s₀ x := by
    intro x
    simp only [Knows, Hunt.start, hs, StateSet.not_mem_empty, false_or, StateSet.mem_toList, hn.mem_closure,
      StateSet.mem_singleton, exists_eq_left]
  have hvisited : (Hunt.start n).visited = ∅ := by rw [Hunt.start, hs]
  refine ⟨fun x hx => moves_of_reaches ((hknows x).mp hx), (hknows s₀).mpr (.refl s₀), ?_, ?_, ?_⟩
  · intro x hx y hr
    exact (hknows y).mpr (((hknows x).mp hx).trans hr)
  · exact fun x hx => absurd (hvisited ▸ hx) StateSet.not_mem_empty
  · exact fun x hx => absurd (hvisited ▸ hx) StateSet.not_mem_empty

/-- A state that is dropped has been visited, so nothing is lost with it. -/
lemma drop (h : Follows n s₀ ⟨visited, s :: rest, none⟩) (hs : s ∈ visited) :
    Follows n s₀ ⟨visited, rest, none⟩ where
  reached := fun x hx => h.reached x ((knows_drop hs).mp hx)
  began := (knows_drop hs).mpr h.began
  closed := fun x hx y hr => (knows_drop hs).mpr (h.closed x ((knows_drop hs).mp hx) y hr)
  followed := fun x hx y hy => (knows_drop hs).mpr (h.followed x hx y hy)
  not_final := h.not_final

/-- A state that waits is visited, and its moves are followed. -/
lemma visit (h : Follows n s₀ ⟨visited, s :: rest, none⟩) (hn : n.WellFormed) (hfinal : s ∉ n.finals) :
    Follows n s₀ ⟨visited.insert s, rest ++ (n.jumps s).filter (· ∉ visited.insert s), none⟩ where
  reached := by
    intro x hx
    rcases knows_visit.mp hx with hx | hx
    · exact h.reached x hx
    · exact (h.reached s (Or.inr List.mem_cons_self)).trans (hn.moves_of_mem_jumps hx)
  began := knows_visit.mpr (Or.inl h.began)
  closed := by
    intro x hx y hr
    exact knows_visit.mpr ((knows_visit.mp hx).imp (h.closed x · y hr) (hn.mem_jumps_of_reaches · hr))
  followed := by
    intro x hx y hy
    rcases StateSet.mem_insert.mp hx with rfl | hx
    · exact knows_visit.mpr (Or.inr hy)
    · exact knows_visit.mpr (Or.inl (h.followed x hx y hy))
  not_final := by
    intro x hx
    rcases StateSet.mem_insert.mp hx with rfl | hx
    · exact hfinal
    · exact h.not_final x hx

/-- When the queue has run dry, everything that can be reached has been visited. -/
lemma mem_visited (h : Follows n s₀ ⟨visited, [], none⟩) (hn : n.WellFormed)
    (hx : ReflTransGen n.Moves s₀ x) : x ∈ visited := by
  have hknows : ∀ {x}, Knows ⟨visited, [], none⟩ x → x ∈ visited := fun hx => hx.resolve_right List.not_mem_nil
  induction hx with
  | refl => exact hknows h.began
  | tail _ hmove ih =>
    obtain ⟨l, hedge⟩ := hmove
    cases l with
    | epsilon => exact hknows (h.closed _ (Or.inl ih) _ (.tail (.refl _) hedge))
    | symbol a =>
      refine hknows (h.followed _ ih _ (mem_jumps.mpr ⟨a, ?_, hn.mem_closure.mpr ⟨_, hedge, .refl _⟩⟩))
      exact Alphabet.mem_ids.mpr (hn.symbol_lt _ a _ hedge)

end Follows

/-! ### The verdict -/

/-- The search is under way, or it has ended with the right verdict. -/
structure Sound (n : Enfa) (s : Nat) (c : Hunt) : Prop where
  follows : c.verdict? = none → Follows n s c
  eq_isEmpty : ∀ b, c.verdict? = some b → b = n.isEmpty

lemma Sound.step {s₀ : Nat} (h : Sound n s₀ c) (hn : n.WellFormed) (hs : n.start? = some s₀) :
    Sound n s₀ (step n c) := by
  obtain ⟨visited, waiting, verdict?⟩ := c
  cases verdict? with
  | some b => rwa [step_of_verdict rfl]
  | none =>
    have hfollows := h.follows rfl
    cases waiting with
    | nil =>
      refine ⟨fun hnone => absurd hnone (by simp [step_of_nil]), fun b hb => ?_⟩
      have hempty : n.isEmpty = true := (hn.isEmpty_iff_moves hs).mpr fun x hx =>
        hfollows.not_final x (hfollows.mem_visited hn hx)
      exact (Option.some.inj hb).symm.trans hempty.symm
    | cons s rest =>
      by_cases hvisited : s ∈ visited
      · rw [step_of_mem hvisited]
        exact ⟨fun _ => hfollows.drop hvisited, fun b hb => absurd hb (by simp)⟩
      · by_cases hfinal : s ∈ n.finals
        · rw [step_of_final hvisited hfinal]
          refine ⟨fun hnone => absurd hnone (by simp), fun b hb => ?_⟩
          have hreached := hfollows.reached s (Or.inr List.mem_cons_self)
          have hempty : n.isEmpty = false := Bool.eq_false_iff.mpr fun hempty =>
            (hn.isEmpty_iff_moves hs).mp hempty s hreached hfinal
          exact (Option.some.inj hb).symm.trans hempty.symm
        · rw [step_of_notMem hvisited hfinal]
          exact ⟨fun _ => hfollows.visit hn hfinal, fun b hb => absurd hb (by simp)⟩

lemma sound_iterate {s₀ : Nat} (hn : n.WellFormed) (hs : n.start? = some s₀) (k : Nat) :
    Sound n s₀ ((step n)^[k] (start n)) := by
  induction k with
  | zero => exact ⟨fun _ => .start hn hs, fun b hb => absurd hb (by simp [start, hs])⟩
  | succ k ih =>
    rw [Function.iterate_succ_apply']
    exact ih.step hn hs

/-! ### When the search ends -/

/-- All jumps, with the states they start from. -/
def leaps (n : Enfa) : List (Nat × Nat) :=
  (List.range n.numStates).flatMap fun s => (n.jumps s).map (s, ·)

lemma length_jumps_le (hs : s < n.numStates) :
    (n.jumps s).length ≤ ((leaps n).filter (·.1 = s)).length := by
  have hsub : ((n.jumps s).map (s, ·)).Sublist (leaps n) :=
    List.sublist_flatten_of_mem (List.mem_map_of_mem (List.mem_range.mpr hs))
  have hall : ((n.jumps s).map (s, ·)).filter (·.1 = s) = (n.jumps s).map (s, ·) :=
    List.filter_eq_self.mpr (by simp)
  have hle := (hsub.filter (·.1 = s)).length_le
  rwa [hall, List.length_map] at hle

/-- The number of states that wait and of jumps from states that have not been visited. -/
def pending (n : Enfa) (c : Hunt) : Nat :=
  c.waiting.length + ((leaps n).filter (·.1 ∉ c.visited)).length

/-- A step of a search that goes on brings it nearer to its end. -/
lemma pending_step_lt (hgoes : (step n c).verdict? = none) (hlt : ∀ x ∈ c.waiting, x < n.numStates) :
    pending n (step n c) < pending n c := by
  obtain ⟨visited, waiting, verdict?⟩ := c
  cases verdict? with
  | some b => exact absurd hgoes (by simp [step_of_verdict])
  | none =>
    cases waiting with
    | nil => exact absurd hgoes (by simp [step_of_nil])
    | cons s rest =>
      by_cases hvisited : s ∈ visited
      · rw [step_of_mem hvisited]
        simp [pending]
      · by_cases hfinal : s ∈ n.finals
        · exact absurd hgoes (by simp [step_of_final hvisited hfinal])
        · rw [step_of_notMem hvisited hfinal]
          have hput := List.length_filter_le (· ∉ visited.insert s) (n.jumps s)
          have hjumps := length_jumps_le (hlt s List.mem_cons_self)
          have hcount := Search.length_filter_insert (leaps n) hvisited
          simp only [pending, List.length_append, List.length_cons]
          omega

/-- A search that has as many steps before it as are pending, and one more, comes to its end. -/
lemma exists_verdict_iterate {s₀ : Nat} (h : Sound n s₀ c) (hn : n.WellFormed) (hs : n.start? = some s₀)
    (hk : pending n c < k) : ∃ b, ((step n)^[k] c).verdict? = some b := by
  induction k generalizing c with
  | zero => exact absurd hk (Nat.not_lt_zero _)
  | succ k ih =>
    rw [Function.iterate_succ_apply]
    cases hverdict : (step n c).verdict? with
    | some b =>
      rw [Function.iterate_fixed (step_of_verdict hverdict)]
      exact ⟨b, hverdict⟩
    | none =>
      have hpending : pending n (step n c) < pending n c := by
        refine pending_step_lt hverdict fun x hx => ?_
        cases hc : c.verdict? with
        | some b => exact absurd (step_of_verdict (n := n) hc ▸ hverdict) (by simp [hc])
        | none => exact hn.lt_of_moves (hn.start_lt s₀ hs) ((h.follows hc).reached x (Or.inr hx))
      exact ih (h.step hn hs) (by omega)

/-- After as many steps as there are states to begin with and jumps, and one more, the search has told whether
the automaton is empty. -/
lemma verdict?_iterate_step (hn : n.WellFormed) (hk : (start n).waiting.length + (leaps n).length < k) :
    ((step n)^[k] (start n)).verdict? = some n.isEmpty := by
  cases hs : n.start? with
  | none =>
    have hover : (start n).verdict? = some n.isEmpty := by rw [start, isEmpty, hs]
    rw [Function.iterate_fixed (step_of_verdict hover), hover]
  | some s =>
    have hsound := sound_iterate hn hs 0
    have hpending : pending n (start n) < k := by
      have hle := List.length_filter_le (fun leap : Nat × Nat => decide (leap.1 ∉ (start n).visited)) (leaps n)
      simp only [pending]
      omega
    obtain ⟨b, hb⟩ := exists_verdict_iterate hsound hn hs hpending
    rw [Function.iterate_zero_apply] at hb
    rw [hb, (sound_iterate hn hs k).eq_isEmpty b hb]

end Hunt

end Enfa
end RegexAutomata
