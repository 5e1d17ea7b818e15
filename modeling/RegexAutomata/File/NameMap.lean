/-
# Maps from names

A map from names to values that remembers the order in which the names first appeared.  Putting a
value under a name that is there already replaces the value and leaves the name at its place, so a
list of pairs with repeated names becomes a map with the first place and the last value of each.
-/

namespace RegexAutomata

/-- Values under different names, in order. -/
structure NameMap (α : Type) where
  /-- The names with their values. -/
  entries : List (String × α)
  /-- No name appears twice. -/
  nodup : (entries.map Prod.fst).Nodup

namespace NameMap

variable {α β : Type}

/-- Replace the value under a name, or add the name at the end. -/
def put (name : String) (value : α) : List (String × α) → List (String × α)
  | [] => [(name, value)]
  | (n, v) :: entries =>
    if n = name then (n, value) :: entries else (n, v) :: put name value entries

theorem map_fst_put (name : String) (value : α) (entries : List (String × α)) :
    (put name value entries).map Prod.fst =
      if name ∈ entries.map Prod.fst then entries.map Prod.fst
      else entries.map Prod.fst ++ [name] := by
  induction entries with
  | nil => simp [put]
  | cons entry entries ih =>
    obtain ⟨n, v⟩ := entry
    simp only [put]
    split
    · rename_i h
      simp [h]
    · rename_i h
      simp only [List.map_cons, ih, List.mem_cons, Ne.symm h, false_or]
      split <;> rfl

theorem nodup_put {name : String} {value : α} {entries : List (String × α)}
    (h : (entries.map Prod.fst).Nodup) : ((put name value entries).map Prod.fst).Nodup := by
  rw [map_fst_put]
  split
  · exact h
  · rename_i hnot
    rw [List.nodup_append]
    exact ⟨h, by simp, by rintro a ha b hb rfl; simp at hb; exact hnot (hb ▸ ha)⟩

/-- The map without names. -/
def empty : NameMap α := ⟨[], List.nodup_nil⟩

instance : Inhabited (NameMap α) := ⟨empty⟩

/-- Put a value under a name. -/
def insert (m : NameMap α) (name : String) (value : α) : NameMap α :=
  ⟨put name value m.entries, nodup_put m.nodup⟩

/-- The map with the pairs of a list. -/
def ofList (pairs : List (String × α)) : NameMap α :=
  pairs.foldl (fun m pair => m.insert pair.1 pair.2) empty

/-- The names in order. -/
def names (m : NameMap α) : List String := m.entries.map Prod.fst

/-- The number of names. -/
def size (m : NameMap α) : Nat := m.entries.length

/-- The value under a name. -/
def get? (m : NameMap α) (name : String) : Option α :=
  (m.entries.find? (·.1 = name)).map Prod.snd

@[ext] theorem ext {m m' : NameMap α} (h : m.entries = m'.entries) : m = m' := by
  cases m
  cases m'
  simp_all

end NameMap

end RegexAutomata
