/-
# The entries of a map from names

A map that is made of pairs holds none but these pairs (`NameMap.mem_of_mem_ofList`), and if their names
are different it holds them all in order (`NameMap.entries_ofList`).  A value is found under a name
exactly if the pair of both is an entry (`NameMap.get?_eq_some_iff`).
-/
import Mathlib.Data.List.Nodup
import Mathlib.Tactic.Lemma
import RegexAutomata.File.NameMap

namespace RegexAutomata

/-- In a list without repetitions an element is found at its place. -/
lemma idxOf?_of_nodup {names : List String} (h : names.Nodup) {i : Nat} {name : String}
    (hi : names[i]? = some name) : names.idxOf? name = some i := by
  obtain ⟨hlt, rfl⟩ := List.getElem?_eq_some_iff.mp hi
  rw [List.idxOf?_eq_some_iff]
  refine ⟨hlt, rfl, fun j hj heq => ?_⟩
  exact absurd ((h.getElem_inj_iff).mp heq) (Nat.ne_of_lt hj)

namespace NameMap

variable {α : Type} {name : String} {value : α} {entries pairs : List (String × α)}

lemma put_of_not_mem (h : name ∉ entries.map Prod.fst) :
    put name value entries = entries ++ [(name, value)] := by
  induction entries with
  | nil => rfl
  | cons entry entries ih =>
    obtain ⟨n, v⟩ := entry
    rw [List.map_cons, List.mem_cons, not_or] at h
    rw [put, if_neg (Ne.symm h.1), ih h.2, List.cons_append]

lemma mem_of_mem_put {entry : String × α} (h : entry ∈ put name value entries) :
    entry = (name, value) ∨ entry ∈ entries := by
  induction entries with
  | nil => exact Or.inl (by simpa [put] using h)
  | cons first entries ih =>
    obtain ⟨n, v⟩ := first
    rw [put] at h
    split at h
    · rename_i hn
      subst hn
      rcases List.mem_cons.mp h with rfl | h
      · exact Or.inl rfl
      · exact Or.inr (List.mem_cons_of_mem _ h)
    · rcases List.mem_cons.mp h with rfl | h
      · exact Or.inr List.mem_cons_self
      · exact (ih h).imp_right (List.mem_cons_of_mem _)

lemma mem_of_mem_ofList {entry : String × α} (h : entry ∈ (ofList pairs).entries) :
    entry ∈ pairs := by
  have hfold : ∀ m : NameMap α,
      entry ∈ (pairs.foldl (fun m pair => m.insert pair.1 pair.2) m).entries →
        entry ∈ m.entries ∨ entry ∈ pairs := by
    clear h
    induction pairs with
    | nil => exact fun m h => Or.inl h
    | cons pair pairs ih =>
      intro m h
      rcases ih _ h with h | h
      · rcases mem_of_mem_put h with rfl | h
        · exact Or.inr List.mem_cons_self
        · exact Or.inl h
      · exact Or.inr (List.mem_cons_of_mem _ h)
  exact (hfold empty h).resolve_left (by simp [empty])

/-- Pairs with different names are kept as they are. -/
lemma entries_ofList (h : (pairs.map Prod.fst).Nodup) : (ofList pairs).entries = pairs := by
  have hfold : ∀ m : NameMap α, ((m.entries ++ pairs).map Prod.fst).Nodup →
      (pairs.foldl (fun m pair => m.insert pair.1 pair.2) m).entries = m.entries ++ pairs := by
    clear h
    induction pairs with
    | nil => exact fun m _ => (List.append_nil _).symm
    | cons pair pairs ih =>
      intro m h
      have hput : (m.insert pair.1 pair.2).entries = m.entries ++ [pair] := by
        refine put_of_not_mem fun hmem => ?_
        rw [List.map_append, List.nodup_append] at h
        exact h.2.2 _ hmem _ List.mem_cons_self rfl
      rw [List.foldl_cons, ih, hput, List.append_assoc, List.singleton_append]
      rwa [hput, List.append_assoc, List.singleton_append]
  exact hfold empty h

lemma ofList_entries (m : NameMap α) : ofList m.entries = m :=
  NameMap.ext (entries_ofList m.nodup)

lemma get?_eq_some_iff {m : NameMap α} : m.get? name = some value ↔ (name, value) ∈ m.entries := by
  obtain ⟨entries, hnodup⟩ := m
  rw [get?, Option.map_eq_some_iff]
  dsimp only
  constructor
  · rintro ⟨⟨n, v⟩, hfind, rfl⟩
    obtain rfl : n = name := by simpa using List.find?_some hfind
    exact List.mem_of_find?_eq_some hfind
  · intro hmem
    refine ⟨(name, value), ?_, rfl⟩
    induction entries with
    | nil => exact absurd hmem List.not_mem_nil
    | cons entry entries ih =>
      rw [List.map_cons, List.nodup_cons] at hnodup
      rcases List.mem_cons.mp hmem with rfl | hmem
      · exact List.find?_cons_of_pos (by simp)
      · have hne : entry.1 ≠ name := fun hn => hnodup.1 (hn ▸ List.mem_map_of_mem hmem)
        rw [List.find?_cons_of_neg (by simpa using hne)]
        exact ih hnodup.2 hmem

lemma get?_eq_none_iff {m : NameMap α} : m.get? name = none ↔ name ∉ m.names := by
  rw [Option.eq_none_iff_forall_ne_some, names, List.mem_map]
  simp [get?_eq_some_iff]

/-- Each name is found at the place of its entry. -/
lemma idxOf?_names (m : NameMap α) {i : Nat} (hi : i < m.entries.length) :
    m.names.idxOf? m.entries[i].1 = some i := by
  refine idxOf?_of_nodup m.nodup ?_
  rw [List.getElem?_map, List.getElem?_eq_getElem hi, Option.map_some]

end NameMap
end RegexAutomata
