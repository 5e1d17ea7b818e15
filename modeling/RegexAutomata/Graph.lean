/-
# Graphs and reachability

A graph gives each vertex a finite set of successors.  `Graph.reach` collects the vertices
that can be reached from a set of vertices, in rounds: each round follows the edges of the
vertices found in the one before.  When the edges of a vertex are followed its row is taken out of
the graph, so no row is followed twice, and there are no more rounds than rows, and one to see that
nothing is left.

The main result is `Graph.mem_reach`: the search finds exactly the vertices at the end of a
path that begins in the given set.
-/
import Std.Data.TreeMap
import RegexAutomata.StateSet

namespace RegexAutomata

/-- A directed graph with states as vertices. -/
structure Graph where
  /-- The successors of each vertex that has any. -/
  rows : Std.TreeMap Nat StateSet

namespace Graph

/-- The graph without edges. -/
def empty : Graph := ⟨∅⟩

instance : Inhabited Graph := ⟨empty⟩

/-- The successors of a vertex. -/
def successors (g : Graph) (s : Nat) : StateSet := (g.rows[s]?).getD ∅

/-- The graph with one edge more. -/
def addEdge (g : Graph) (s d : Nat) : Graph := ⟨g.rows.insert s ((g.successors s).insert d)⟩

/-- The graph whose vertices in the list have the successors given by a function, and in which
no other vertex has a successor. -/
def ofSuccessors (vertices : List Nat) (f : Nat → StateSet) : Graph :=
  ⟨vertices.foldr (fun s rows => rows.insert s (f s)) ∅⟩

/-- Follow the edges of vertices: the rows that are left, and the vertices at the ends of the
edges. -/
def follow (rows : Std.TreeMap Nat StateSet) :
    List Nat → Std.TreeMap Nat StateSet × List Nat
  | [] => (rows, [])
  | s :: frontier =>
    match rows[s]? with
    | none => follow rows frontier
    | some next =>
      let rest := follow (rows.erase s) frontier
      (rest.1, next.toList ++ rest.2)

/-- Search from the vertices of a frontier in a number of rounds, and put what is found in front of
what has been seen. -/
def explore : Nat → Std.TreeMap Nat StateSet → List Nat → List Nat → List Nat
  | 0, _, frontier, seen => frontier ++ seen
  | rounds + 1, rows, frontier, seen =>
    if frontier.isEmpty then seen
    else
      let next := follow rows frontier
      explore rounds next.1 next.2 (frontier ++ seen)

/-- The vertices that can be reached from a set of vertices, those of the set included. -/
def reach (g : Graph) (S : StateSet) : StateSet :=
  StateSet.ofList (explore (g.rows.size + 1) g.rows S.toList [])

/-- There is a path from one vertex to the other. -/
inductive Reaches (g : Graph) : Nat → Nat → Prop
  /-- The empty path. -/
  | refl (s : Nat) : Reaches g s s
  /-- A path continued by one edge. -/
  | tail {s m d : Nat} (path : Reaches g s m) (edge : d ∈ g.successors m) : Reaches g s d

/-! ### Edges -/

@[simp] theorem successors_empty (s : Nat) : empty.successors s = ∅ := by
  simp [empty, successors]

theorem mem_successors_addEdge {g : Graph} {s d s' d' : Nat} :
    d' ∈ (g.addEdge s d).successors s' ↔ (s' = s ∧ d' = d) ∨ d' ∈ g.successors s' := by
  simp only [addEdge, successors, Std.TreeMap.getElem?_insert, Nat.compare_eq_eq]
  by_cases hs : s = s'
  · subst hs
    simp
  · simp [hs, Ne.symm hs]

theorem successors_ofSuccessors {vertices : List Nat} {f : Nat → StateSet} {s : Nat} :
    (ofSuccessors vertices f).successors s = if s ∈ vertices then f s else ∅ := by
  simp only [ofSuccessors, successors]
  induction vertices with
  | nil => simp
  | cons v vertices ih =>
    simp only [List.foldr_cons, Std.TreeMap.getElem?_insert, Nat.compare_eq_eq, List.mem_cons]
    by_cases hv : v = s
    · subst hv
      simp
    · simp [hv, Ne.symm hv, ih]

/-! ### Reachability -/

namespace Reaches

theorem head {g : Graph} {s m d : Nat} (edge : m ∈ g.successors s) (path : g.Reaches m d) :
    g.Reaches s d := by
  induction path with
  | refl => exact .tail (.refl s) edge
  | tail _ e ih => exact .tail ih e

theorem trans {g : Graph} {s m d : Nat} (h : g.Reaches s m) (h' : g.Reaches m d) :
    g.Reaches s d := by
  induction h' with
  | refl => exact h
  | tail _ e ih => exact .tail ih e

end Reaches

/-- The rows of other vertices stay. -/
theorem getElem?_follow {rows : Std.TreeMap Nat StateSet} {frontier : List Nat} {s : Nat}
    (h : s ∉ frontier) : (follow rows frontier).1[s]? = rows[s]? := by
  induction frontier generalizing rows with
  | nil => rfl
  | cons v frontier ih =>
    have hv : v ≠ s := fun e => h (by simp [e])
    have hs : s ∉ frontier := fun h' => h (List.mem_cons_of_mem _ h')
    simp only [follow]
    split
    · exact ih hs
    · rw [ih hs, Std.TreeMap.getElem?_erase, if_neg (by simpa [Nat.compare_eq_eq] using hv)]

/-- No row is new. -/
theorem getElem?_of_follow {rows : Std.TreeMap Nat StateSet} {frontier : List Nat} {s : Nat}
    {next : StateSet} (h : (follow rows frontier).1[s]? = some next) : rows[s]? = some next := by
  induction frontier generalizing rows with
  | nil => exact h
  | cons v frontier ih =>
    simp only [follow] at h
    split at h
    · exact ih h
    · have h' := ih h
      rw [Std.TreeMap.getElem?_erase] at h'
      split at h'
      · exact absurd h' (by simp)
      · exact h'

/-- Every edge of a vertex of the frontier is followed. -/
theorem mem_follow {rows : Std.TreeMap Nat StateSet} {frontier : List Nat} {s d : Nat}
    {next : StateSet} (hs : s ∈ frontier) (hrow : rows[s]? = some next) (hd : d ∈ next) :
    d ∈ (follow rows frontier).2 := by
  induction frontier generalizing rows with
  | nil => exact absurd hs (by simp)
  | cons v frontier ih =>
    simp only [follow]
    by_cases hv : v = s
    · subst hv
      rw [hrow]
      exact List.mem_append_left _ hd
    · have hs' : s ∈ frontier := by simpa [Ne.symm hv] using hs
      split
      · exact ih hs' hrow
      · refine List.mem_append_right _ (ih hs' ?_)
        rw [Std.TreeMap.getElem?_erase, if_neg (by simpa [Nat.compare_eq_eq] using hv)]
        exact hrow

/-- Only edges of vertices of the frontier are followed. -/
theorem exists_of_mem_follow {rows : Std.TreeMap Nat StateSet} {frontier : List Nat} {d : Nat}
    (h : d ∈ (follow rows frontier).2) :
    ∃ s ∈ frontier, ∃ next, rows[s]? = some next ∧ d ∈ next := by
  induction frontier generalizing rows with
  | nil => exact absurd h (by simp [follow])
  | cons v frontier ih =>
    simp only [follow] at h
    split at h
    · obtain ⟨s, hs, next, hrow, hd⟩ := ih h
      exact ⟨s, List.mem_cons_of_mem _ hs, next, hrow, hd⟩
    · rename_i next hnext
      rcases List.mem_append.mp h with hd | hd
      · exact ⟨v, by simp, next, hnext, hd⟩
      · obtain ⟨s, hs, next', hrow, hd⟩ := ih hd
        rw [Std.TreeMap.getElem?_erase] at hrow
        split at hrow
        · exact absurd hrow (by simp)
        · exact ⟨s, List.mem_cons_of_mem _ hs, next', hrow, hd⟩

theorem size_follow_le (rows : Std.TreeMap Nat StateSet) (frontier : List Nat) :
    (follow rows frontier).1.size ≤ rows.size := by
  induction frontier generalizing rows with
  | nil => exact Nat.le_refl _
  | cons v frontier ih =>
    simp only [follow]
    split
    · exact ih rows
    · exact Nat.le_trans (ih _) Std.TreeMap.size_erase_le

/-- A round that finds something uses up a row. -/
theorem size_follow_lt {rows : Std.TreeMap Nat StateSet} {frontier : List Nat}
    (h : (follow rows frontier).2 ≠ []) : (follow rows frontier).1.size < rows.size := by
  induction frontier generalizing rows with
  | nil => exact absurd rfl h
  | cons v frontier ih =>
    simp only [follow] at h ⊢
    split
    · rename_i hnone
      rw [hnone] at h
      exact ih h
    · rename_i next hnext
      have hv : rows.contains v = true := by
        rw [Std.TreeMap.contains_eq_isSome_getElem?, hnext, Option.isSome_some]
      have hpos : rows.size ≠ 0 := by
        intro h0
        have he : rows.isEmpty = true := by rw [Std.TreeMap.isEmpty_eq_size_eq_zero, h0]; rfl
        rw [Std.TreeMap.contains_of_isEmpty he] at hv
        exact absurd hv (by decide)
      have hle := size_follow_le (rows.erase v) frontier
      rw [Std.TreeMap.size_erase, if_pos hv] at hle
      dsimp only
      omega

/-- What has been seen and the frontier end up in the result. -/
theorem mem_explore_of_mem {rounds : Nat} {rows : Std.TreeMap Nat StateSet}
    {frontier seen : List Nat} {x : Nat} (h : x ∈ frontier ∨ x ∈ seen) :
    x ∈ explore rounds rows frontier seen := by
  induction rounds generalizing rows frontier seen with
  | zero => exact List.mem_append.mpr h
  | succ rounds ih =>
    simp only [explore]
    split
    · rename_i he
      rw [List.isEmpty_iff] at he
      simpa [he] using h
    · exact ih (Or.inr (List.mem_append.mpr h))

/-- All that ends up in the result had been seen or can be reached from the frontier. -/
theorem reaches_of_mem_explore {g : Graph} {rounds : Nat} {rows : Std.TreeMap Nat StateSet}
    {frontier seen : List Nat} {x : Nat}
    (hrows : ∀ s next, rows[s]? = some next → next = g.successors s)
    (h : x ∈ explore rounds rows frontier seen) :
    x ∈ seen ∨ ∃ s ∈ frontier, g.Reaches s x := by
  induction rounds generalizing rows frontier seen with
  | zero =>
    rcases List.mem_append.mp h with hx | hx
    · exact Or.inr ⟨x, hx, .refl x⟩
    · exact Or.inl hx
  | succ rounds ih =>
    simp only [explore] at h
    split at h
    · exact Or.inl h
    · rcases ih (fun s next h' => hrows s next (getElem?_of_follow h')) h with hx | ⟨m, hm, hr⟩
      · rcases List.mem_append.mp hx with hx | hx
        · exact Or.inr ⟨x, hx, .refl x⟩
        · exact Or.inl hx
      · obtain ⟨s, hs, next, hrow, hd⟩ := exists_of_mem_follow hm
        exact Or.inr ⟨s, hs, hr.head (hrows s next hrow ▸ hd)⟩

/-- The result is closed under edges if there are enough rounds, the rows of all that has not been
seen are still there, and the successors of all that has been seen are seen or on the frontier. -/
theorem explore_closed {g : Graph} {rounds : Nat} {rows : Std.TreeMap Nat StateSet}
    {frontier seen : List Nat} (hrounds : rows.size < rounds)
    (hrows : ∀ s, s ∉ seen → rows[s]? = g.rows[s]?)
    (hseen : ∀ s ∈ seen, ∀ d ∈ g.successors s, d ∈ frontier ∨ d ∈ seen) :
    ∀ s ∈ explore rounds rows frontier seen, ∀ d ∈ g.successors s,
      d ∈ explore rounds rows frontier seen := by
  induction rounds generalizing rows frontier seen with
  | zero => exact absurd hrounds (Nat.not_lt_zero _)
  | succ rounds ih =>
    simp only [explore]
    split
    · rename_i he
      rw [List.isEmpty_iff] at he
      intro s hs d hd
      simpa [he] using hseen s hs d hd
    · have hseen' : ∀ s ∈ frontier ++ seen, ∀ d ∈ g.successors s,
          d ∈ (follow rows frontier).2 ∨ d ∈ frontier ++ seen := by
        intro s hs d hd
        by_cases hin : s ∈ seen
        · exact Or.inr (List.mem_append.mpr (hseen s hin d hd))
        · have hf : s ∈ frontier := by simpa [hin] using hs
          cases hrow : rows[s]? with
          | none =>
            rw [successors, ← hrows s hin, hrow] at hd
            exact absurd hd (by simp)
          | some next =>
            rw [successors, ← hrows s hin, hrow] at hd
            exact Or.inl (mem_follow hf hrow hd)
      have hrows' : ∀ s, s ∉ frontier ++ seen → (follow rows frontier).1[s]? = g.rows[s]? := by
        intro s hs
        rw [List.mem_append, not_or] at hs
        rw [getElem?_follow hs.1, hrows s hs.2]
      by_cases hnext : (follow rows frontier).2 = []
      · have hdone : explore rounds (follow rows frontier).1 (follow rows frontier).2
            (frontier ++ seen) = frontier ++ seen := by
          rw [hnext]
          cases rounds <;> simp [explore]
        rw [hdone]
        intro s hs d hd
        simpa [hnext] using hseen' s hs d hd
      · exact ih (by have := size_follow_lt hnext; omega) hrows' hseen'

/-- The search finds exactly the vertices at the end of a path that begins in the set. -/
theorem mem_reach {g : Graph} {S : StateSet} {x : Nat} :
    x ∈ g.reach S ↔ ∃ s ∈ S, g.Reaches s x := by
  rw [reach, StateSet.mem_ofList]
  constructor
  · intro h
    have hrows : ∀ s next, g.rows[s]? = some next → next = g.successors s := by
      intro s next hs
      simp [successors, hs]
    simpa [StateSet.mem_toList] using reaches_of_mem_explore hrows h
  · rintro ⟨s, hs, hr⟩
    induction hr with
    | refl => exact mem_explore_of_mem (Or.inl hs)
    | tail _ e ih => exact explore_closed (Nat.lt_succ_self _) (by simp) (by simp) _ ih _ e

end Graph

end RegexAutomata
