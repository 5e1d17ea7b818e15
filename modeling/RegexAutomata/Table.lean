/-
# Transition tables

A table gives a value to some pairs of a state and a symbol id.  It is kept as one row per
state, so that the rows can also be read as the vertices of a graph.  Two laws pin it
down: an empty table has no value anywhere (`get?_empty`), and after `set` the pair has
the new value and every other pair the value it had (`get?_set`).

A table of sets of states is the same thing as a set of edges, each with a source, a symbol id
and a destination (`mem_destinations_addEdge`).
-/
import Std.Data.TreeMap
import RegexAutomata.StateSet

namespace RegexAutomata

/-- Values for some pairs of a state and a symbol id. -/
structure Table (α : Type) where
  /-- The values of each state that has any, by symbol id. -/
  rows : Std.TreeMap Nat (Std.TreeMap Nat α)

namespace Table

variable {α : Type}

/-- The table without values. -/
def empty : Table α := ⟨∅⟩

instance : Inhabited (Table α) := ⟨empty⟩

/-- The value of a state and a symbol id. -/
def get? (t : Table α) (state id : Nat) : Option α :=
  (t.rows[state]?).bind (·[id]?)

/-- Give a value to a state and a symbol id, in place of the one they have. -/
def set (t : Table α) (state id : Nat) (value : α) : Table α :=
  ⟨t.rows.insert state ((t.rows.getD state ∅).insert id value)⟩

/-- The table with a value for each of some states on each of some symbol ids. -/
def tabulate (states ids : List Nat) (f : Nat → Nat → α) : Table α :=
  states.foldr (fun s t => ids.foldr (fun a t => t.set s a (f s a)) t) empty

/-- The states that have a value on some symbol id, in ascending order. -/
def states (t : Table α) : List Nat := t.rows.keys

@[simp] theorem get?_empty {state id : Nat} : (empty : Table α).get? state id = none := by
  simp [empty, get?]

theorem get?_set {t : Table α} {state id state' id' : Nat} {value : α} :
    (t.set state id value).get? state' id' =
      if state' = state ∧ id' = id then some value else t.get? state' id' := by
  simp only [get?, set, Std.TreeMap.getElem?_insert, Nat.compare_eq_eq]
  by_cases hs : state = state'
  · subst hs
    by_cases hi : id = id'
    · subst hi
      simp
    · rw [Std.TreeMap.getD_eq_getD_getElem?]
      cases t.rows[state]? <;> simp [Std.TreeMap.getElem?_insert, hi, Ne.symm hi]
  · simp [hs, Ne.symm hs]

@[simp] theorem get?_set_self {t : Table α} {state id : Nat} {value : α} :
    (t.set state id value).get? state id = some value := by
  simp [get?_set]

theorem get?_tabulate {states ids : List Nat} {f : Nat → Nat → α} {s a : Nat} :
    (tabulate states ids f).get? s a = if s ∈ states ∧ a ∈ ids then some (f s a) else none := by
  have row : ∀ (t : Table α) (x : Nat), (ids.foldr (fun a t => t.set x a (f x a)) t).get? s a =
      if s = x ∧ a ∈ ids then some (f s a) else t.get? s a := by
    intro t x
    induction ids with
    | nil => simp
    | cons b ids ih => simp only [List.foldr_cons, get?_set, ih, List.mem_cons]; grind
  induction states with
  | nil => simp [tabulate]
  | cons x states ih =>
    simp only [tabulate, List.foldr_cons, row, List.mem_cons] at ih ⊢
    grind

/-- A tabulated table has values for the given states and symbol ids only. -/
theorem get?_tabulate_eq_some_iff {states ids : List Nat} {f : Nat → Nat → α} {s a : Nat}
    {value : α} : (tabulate states ids f).get? s a = some value ↔
      (s ∈ states ∧ a ∈ ids) ∧ f s a = value := by
  rw [get?_tabulate, Option.ite_none_right_eq_some, Option.some.injEq]

/-- A state with a value is among the states of the table. -/
theorem mem_states_of_get? {t : Table α} {state id : Nat} {value : α}
    (h : t.get? state id = some value) : state ∈ t.states := by
  rw [get?] at h
  obtain ⟨row, hrow, -⟩ := Option.bind_eq_some_iff.mp h
  exact Std.TreeMap.mem_keys.mpr (Std.TreeMap.mem_iff_isSome_getElem?.mpr (by simp [hrow]))

/-! ### Tables of sets -/

/-- The destinations of the edges from a state on a symbol id. -/
def destinations (t : Table StateSet) (state id : Nat) : StateSet := (t.get? state id).getD ∅

/-- The table with one edge more. -/
def addEdge (t : Table StateSet) (state id destination : Nat) : Table StateSet :=
  t.set state id ((t.destinations state id).insert destination)

@[simp] theorem destinations_empty {state id : Nat} :
    (empty : Table StateSet).destinations state id = ∅ := by
  simp [destinations]

theorem mem_destinations_addEdge {t : Table StateSet} {s a d s' a' d' : Nat} :
    d' ∈ (t.addEdge s a d).destinations s' a' ↔
      (s' = s ∧ a' = a ∧ d' = d) ∨ d' ∈ t.destinations s' a' := by
  simp only [addEdge, destinations, get?_set]
  by_cases h : s' = s ∧ a' = a
  · obtain ⟨rfl, rfl⟩ := h
    simp
  · rw [if_neg h]
    grind

end Table

end RegexAutomata
