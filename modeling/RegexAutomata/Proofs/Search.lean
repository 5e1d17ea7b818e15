/-
# The search with a stack

The search follows an invariant: whatever is found or waits can be reached, what the search began
with is found or waits, and so are the successors of all that is found.  When nothing waits any more,
the vertices found are those that can be reached.

It comes to that on every graph, with cycles or without.  The vertices that wait and the edges of
vertices that have not been found become fewer with every step: a vertex that is dropped waited, and one
that is found puts no more on the stack than it has edges, which never count again.  How
often a vertex waits does not matter.

The main result is `Search.iterate_step_start`: after as many steps as there are vertices to begin with
and edges in the graph nothing waits, and the vertices found are those of `Graph.reach`.
-/
import Mathlib.Data.List.Nodup
import Mathlib.Data.List.Perm.Subperm
import Mathlib.Logic.Function.Iterate
import Mathlib.Logic.Relation
import Mathlib.Tactic.Lemma
import RegexAutomata.Search

namespace RegexAutomata

open Relation (ReflTransGen)

namespace Graph

variable {g : Graph}

/-! ### Edges -/

/-- All edges of a graph, as pairs of vertices. -/
def edges (g : Graph) : List (Nat × Nat) :=
  g.rows.toList.flatMap fun row => row.2.toList.map (row.1, ·)

lemma mem_edges {s d : Nat} : (s, d) ∈ g.edges ↔ d ∈ g.successors s := by
  have hrow : ∀ row : Nat × StateSet,
      (row ∈ g.rows.toList ∧ (s, d) ∈ row.2.toList.map (row.1, ·)) ↔
        row.1 = s ∧ g.rows[s]? = some row.2 ∧ d ∈ row.2 := by
    rintro ⟨t, T⟩
    rw [Std.TreeMap.mem_toList_iff_getElem?_eq_some]
    simp only [List.mem_map, Prod.mk.injEq, StateSet.mem_toList]
    grind
  simp only [edges, List.mem_flatMap, hrow, successors]
  cases g.rows[s]? with
  | none => simp
  | some T => simp

/-- A vertex has no more successors than there are edges that leave it. -/
lemma size_successors_le (s : Nat) :
    (g.successors s).size ≤ (g.edges.filter (·.1 = s)).length := by
  have hnodup : ((g.successors s).toList.map (s, ·)).Nodup := by
    refine List.Nodup.map (fun d d' hd => (Prod.mk.inj hd).2) ?_
    exact (g.successors s).ascending.imp Nat.ne_of_lt
  have hsub : (g.successors s).toList.map (s, ·) ⊆ g.edges.filter (·.1 = s) := by
    intro edge hedge
    obtain ⟨d, hd, rfl⟩ := List.mem_map.mp hedge
    exact List.mem_filter.mpr ⟨mem_edges.mpr hd, by simp⟩
  simpa [StateSet.size] using (hnodup.subperm hsub).length_le

/-- A path is a chain of edges. -/
lemma reaches_iff_reflTransGen {s d : Nat} :
    g.Reaches s d ↔ ReflTransGen (fun x y => y ∈ g.successors x) s d := by
  constructor
  · intro hr
    induction hr with
    | refl => exact .refl
    | tail _ edge ih => exact ih.tail edge
  · intro hr
    induction hr with
    | refl => exact .refl s
    | tail _ edge ih => exact .tail ih edge

end Graph

namespace Search

variable {g : Graph} {c : Search} {S found : StateSet} {s : Nat} {rest : List Nat}

/-! ### Steps -/

/-- A search that is over stays as it is. -/
lemma step_of_nil (h : c.waiting = []) : step g c = c := by
  simp only [step, h]

lemma step_of_mem (hs : s ∈ found) : step g ⟨found, s :: rest⟩ = ⟨found, rest⟩ := by
  simp only [step, if_pos hs]

lemma step_of_notMem (hs : s ∉ found) :
    step g ⟨found, s :: rest⟩ = ⟨found.insert s,
      ((g.successors s).toList.filter (· ∉ found.insert s)).reverse ++ rest⟩ := by
  simp only [step, if_neg hs]

/-! ### What is found -/

/-- What is known of a search that began with a set of vertices. -/
structure Follows (g : Graph) (S : StateSet) (c : Search) : Prop where
  /-- All that is found or waits can be reached. -/
  reached : ∀ x, x ∈ c.found ∨ x ∈ c.waiting → ∃ s ∈ S, g.Reaches s x
  /-- What the search began with is found or waits. -/
  began : ∀ s ∈ S, s ∈ c.found ∨ s ∈ c.waiting
  /-- The successors of what is found are found or wait. -/
  followed : ∀ x ∈ c.found, ∀ y ∈ g.successors x, y ∈ c.found ∨ y ∈ c.waiting

lemma follows_start (g : Graph) (S : StateSet) : Follows g S (start S) where
  reached := by
    rintro x (hx | hx)
    · exact absurd hx StateSet.not_mem_empty
    · exact ⟨x, List.mem_reverse.mp hx, .refl x⟩
  began := fun s hs => Or.inr (List.mem_reverse.mpr hs)
  followed := fun x hx => absurd hx StateSet.not_mem_empty

/-- A vertex that is dropped has been found, so nothing is lost with it. -/
lemma Follows.drop (h : Follows g S ⟨found, s :: rest⟩) (hs : s ∈ found) :
    Follows g S ⟨found, rest⟩ := by
  have hkept : ∀ x, x ∈ found ∨ x ∈ s :: rest → x ∈ found ∨ x ∈ rest := by
    rintro x (hx | hx)
    · exact Or.inl hx
    · rcases List.mem_cons.mp hx with rfl | hx
      · exact Or.inl hs
      · exact Or.inr hx
  refine ⟨fun x hx => h.reached x ?_, fun t ht => hkept t (h.began t ht),
    fun x hx y hy => hkept y (h.followed x hx y hy)⟩
  exact hx.imp id (List.mem_cons_of_mem s)

/-- A vertex that waits is found, and such successors of it are put on the stack that none is
missing. -/
lemma Follows.find {more : List Nat} (h : Follows g S ⟨found, s :: rest⟩)
    (hsucc : ∀ y ∈ more, y ∈ g.successors s)
    (hmore : ∀ y ∈ g.successors s, y ∈ found.insert s ∨ y ∈ more) :
    Follows g S ⟨found.insert s, more ++ rest⟩ := by
  have hkept : ∀ x, x ∈ found ∨ x ∈ s :: rest → x ∈ found.insert s ∨ x ∈ more ++ rest := by
    rintro x (hx | hx)
    · exact Or.inl (StateSet.mem_insert.mpr (Or.inr hx))
    · rcases List.mem_cons.mp hx with rfl | hx
      · exact Or.inl (StateSet.mem_insert.mpr (Or.inl rfl))
      · exact Or.inr (List.mem_append_right _ hx)
  obtain ⟨t, ht, hts⟩ := h.reached s (Or.inr List.mem_cons_self)
  refine ⟨?_, fun t ht => hkept t (h.began t ht), ?_⟩
  · rintro x (hx | hx)
    · rcases StateSet.mem_insert.mp hx with rfl | hx
      · exact ⟨t, ht, hts⟩
      · exact h.reached x (Or.inl hx)
    · rcases List.mem_append.mp hx with hx | hx
      · exact ⟨t, ht, .tail hts (hsucc x hx)⟩
      · exact h.reached x (Or.inr (List.mem_cons_of_mem s hx))
  · intro x hx y hy
    rcases StateSet.mem_insert.mp hx with rfl | hx
    · exact (hmore y hy).imp id (List.mem_append_left _)
    · exact hkept y (h.followed x hx y hy)

lemma Follows.step (h : Follows g S c) : Follows g S (step g c) := by
  obtain ⟨found, waiting⟩ := c
  cases waiting with
  | nil => exact h
  | cons s rest =>
    by_cases hs : s ∈ found
    · rw [step_of_mem hs]
      exact h.drop hs
    · rw [step_of_notMem hs]
      refine h.find (fun y hy => List.mem_of_mem_filter (List.mem_reverse.mp hy)) fun y hy => ?_
      by_cases hfound : y ∈ found.insert s
      · exact Or.inl hfound
      · exact Or.inr (List.mem_reverse.mpr (List.mem_filter.mpr ⟨hy, decide_eq_true hfound⟩))

lemma follows_iterate (g : Graph) (S : StateSet) (k : Nat) : Follows g S ((step g)^[k] (start S)) := by
  induction k with
  | zero => exact follows_start g S
  | succ k ih =>
    rw [Function.iterate_succ_apply']
    exact ih.step

/-- When nothing waits, all that can be reached has been found, and nothing else. -/
lemma Follows.found_eq_reach (h : Follows g S c) (hdone : c.waiting = []) :
    c.found = g.reach S := by
  ext x
  rw [Graph.mem_reach]
  constructor
  · intro hx
    exact h.reached x (Or.inl hx)
  · rintro ⟨s, hs, hr⟩
    induction hr with
    | refl => simpa [hdone] using h.began s hs
    | tail _ edge ih => simpa [hdone] using h.followed _ ih _ edge

/-! ### When the search ends -/

/-- The number of vertices that wait and of edges whose source has not been found. -/
def pending (g : Graph) (c : Search) : Nat :=
  c.waiting.length + (g.edges.filter (·.1 ∉ c.found)).length

lemma pending_start_le (g : Graph) (S : StateSet) :
    pending g (start S) ≤ S.size + g.edges.length := by
  have hle := List.length_filter_le (fun e : Nat × Nat => decide (e.1 ∉ (start S).found)) g.edges
  simp only [pending, start, List.length_reverse, StateSet.size] at hle ⊢
  omega

/-- When a vertex is found, its edges no longer count. -/
lemma length_filter_insert (edges : List (Nat × Nat)) (hs : s ∉ found) :
    (edges.filter (·.1 ∉ found.insert s)).length + (edges.filter (·.1 = s)).length =
      (edges.filter (·.1 ∉ found)).length := by
  induction edges with
  | nil => rfl
  | cons e edges ih =>
    simp only [List.filter_cons, StateSet.mem_insert] at ih ⊢
    by_cases he : e.1 = s
    · simp [he, hs] at ih ⊢
      omega
    · by_cases hf : e.1 ∈ found <;> simp [he, hf] at ih ⊢ <;> omega

/-- A step of a search that is not over brings it nearer to its end. -/
lemma pending_step_lt (h : c.waiting ≠ []) : pending g (step g c) < pending g c := by
  obtain ⟨found, waiting⟩ := c
  cases waiting with
  | nil => exact absurd rfl h
  | cons s rest =>
    by_cases hs : s ∈ found
    · rw [step_of_mem hs]
      simp [pending]
    · rw [step_of_notMem hs]
      have hput := List.length_filter_le (· ∉ found.insert s) (g.successors s).toList
      have hedges := g.size_successors_le s
      have hcount := length_filter_insert g.edges hs
      simp only [pending, List.length_append, List.length_reverse, List.length_cons]
      simp only [StateSet.size] at hedges
      omega

/-- A search with as many steps before it as are pending comes to its end. -/
lemma waiting_iterate {k : Nat} (h : pending g c ≤ k) : ((step g)^[k] c).waiting = [] := by
  induction k generalizing c with
  | zero =>
    have hlen : c.waiting.length = 0 := by
      simp only [pending] at h
      omega
    exact List.eq_nil_of_length_eq_zero hlen
  | succ k ih =>
    rw [Function.iterate_succ_apply]
    by_cases hdone : c.waiting = []
    · rw [step_of_nil hdone, Function.iterate_fixed (step_of_nil hdone)]
      exact hdone
    · have hlt := pending_step_lt (g := g) hdone
      exact ih (by omega)

/-- After as many steps as there are vertices to begin with and edges the search has ended with the
vertices that can be reached. -/
lemma iterate_step_start (g : Graph) (S : StateSet) :
    (step g)^[S.size + g.edges.length] (start S) = ⟨g.reach S, []⟩ := by
  have hdone := waiting_iterate (pending_start_le g S)
  have hfound := (follows_iterate g S _).found_eq_reach hdone
  rw [← hfound, ← hdone]

end Search

end RegexAutomata
