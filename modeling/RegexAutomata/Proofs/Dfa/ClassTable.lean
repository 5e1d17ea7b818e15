/-
# Tables of classes

Changing entries of an array fails exactly if one of them is out of bounds (`alterAll_eq_error`,
`alterAll_eq_ok`).  So the table that gives each state its class can be made exactly if the members of all
classes are states, and then it says what the index of the classes says (`Dfa.exists_classTable`).
Refinement with checked accesses then goes through the same rounds as refinement without
(`Dfa.refineUntilSame_eq`), and comes to an end.
-/
import RegexAutomata.Dfa.Checked
import RegexAutomata.Proofs.Dfa.Rounds
import RegexAutomata.Proofs.Failure

namespace RegexAutomata

/-! ### Accesses -/

section

variable {α : Type} {xs : Array α} {i : Nat} {changes : List (Nat × (α → α))}

lemma fetch_eq_ok_iff {x : α} : fetch xs i = .ok x ↔ xs[i]? = some x := by
  rw [fetch]
  cases xs[i]? <;> simp

lemma fetch_eq_error (h : xs.size ≤ i) : fetch xs i = .error (.outOfBounds xs.size i) := by
  rw [fetch, Array.getElem?_eq_none h]

lemma alter_eq_ok {change : α → α} {x : α} (h : xs[i]? = some x) :
    alter xs i change = .ok (xs.setIfInBounds i (change x)) := by
  rw [alter, fetch_eq_ok_iff.mpr h, ok_bind]
  rfl

lemma alter_eq_error {change : α → α} (h : xs.size ≤ i) :
    alter xs i change = .error (.outOfBounds xs.size i) := by
  rw [alter, fetch_eq_error h, error_bind]

/-- An entry after some changes: those that concern it have been made in order. -/
lemma alterAll_eq_ok (h : ∀ change ∈ changes, change.1 < xs.size) : ∃ ys,
    alterAll xs changes = .ok ys ∧ ys.size = xs.size ∧ ∀ i, ys[i]? = (xs[i]?).map fun x =>
      changes.foldl (fun x change => if change.1 = i then change.2 x else x) x := by
  induction changes generalizing xs with
  | nil => exact ⟨xs, rfl, rfl, by simp⟩
  | cons change changes ih =>
    obtain ⟨hlt, hchanges⟩ := List.forall_mem_cons.mp h
    obtain ⟨ys, hys, hsize, hget⟩ :=
      @ih (xs.setIfInBounds change.1 (change.2 xs[change.1])) (by simpa using hchanges)
    refine ⟨ys, ?_, by rw [hsize, Array.size_setIfInBounds], ?_⟩
    · rw [alterAll, List.foldlM_cons, alter_eq_ok (Array.getElem?_eq_getElem hlt), ok_bind]
      exact hys
    · intro i
      rw [hget, Array.getElem?_setIfInBounds]
      by_cases hi : change.1 = i
      · subst hi
        simp [hlt]
      · simp [hi]

/-- One change that is out of bounds makes all fail. -/
lemma alterAll_eq_error (h : ∃ change ∈ changes, xs.size ≤ change.1) : ∃ change ∈ changes,
    xs.size ≤ change.1 ∧ alterAll xs changes = .error (.outOfBounds xs.size change.1) := by
  induction changes generalizing xs with
  | nil => simp at h
  | cons change changes ih =>
    rw [alterAll, List.foldlM_cons]
    rcases Nat.lt_or_ge change.1 xs.size with hlt | hge
    · have hrest : ∃ change ∈ changes, xs.size ≤ change.1 := by
        obtain ⟨change', hmem, hle⟩ := h
        rcases List.mem_cons.mp hmem with rfl | hmem
        · omega
        · exact ⟨change', hmem, hle⟩
      obtain ⟨change', hmem, hle, herror⟩ :=
        @ih (xs.setIfInBounds change.1 (change.2 xs[change.1])) (by simpa using hrest)
      rw [Array.size_setIfInBounds] at hle herror
      refine ⟨change', List.mem_cons_of_mem _ hmem, hle, ?_⟩
      rw [alter_eq_ok (Array.getElem?_eq_getElem hlt), ok_bind]
      exact herror
    · refine ⟨change, List.mem_cons_self, hge, ?_⟩
      rw [alter_eq_error hge, error_bind]

end

/-! ### The number of a class -/

lemma mem_members {P : List StateSet} {s i : Nat} : (s, i) ∈ members P ↔ ∃ C, P[i]? = some C ∧ s ∈ C := by
  simp only [members, List.mem_flatMap, List.mem_map, Prod.mk.injEq]
  constructor
  · rintro ⟨⟨C, j⟩, hC, t, ht, rfl, rfl⟩
    exact ⟨C, List.mem_zipIdx_iff_getElem?.mp hC, ht⟩
  · rintro ⟨C, hC, hs⟩
    exact ⟨(C, i), List.mem_zipIdx_iff_getElem?.mpr hC, s, hs, rfl, rfl⟩

/-- A member of a class of a set is a member of the set. -/
lemma Divides.mem_of_mem_members {P : List StateSet} {S : StateSet} (h : Divides P S)
    {member : Nat × Nat} (hm : member ∈ members P) : member.1 ∈ S := by
  obtain ⟨C, hC, hs⟩ := mem_members.mp hm
  exact h.mem_of_mem (List.mem_of_getElem? hC) hs

namespace Dfa

variable {d : Dfa} {P : List StateSet} {S : StateSet} {table : Array (Option Nat)}

/-- The index of classes is made member by member. -/
lemma getElem?_classIndex_eq_foldl (P : List StateSet) (s : Nat) : (classIndex P)[s]? =
    (members P).foldl (fun i? member => if member.1 = s then some member.2 else i?) none := by
  have hinsert : ∀ (ms : List (Nat × Nat)) (index : Std.TreeMap Nat Nat),
      (ms.foldl (fun index member => index.insert member.1 member.2) index)[s]? =
        ms.foldl (fun i? member => if member.1 = s then some member.2 else i?) index[s]? := by
    intro ms
    induction ms with
    | nil => exact fun _ => rfl
    | cons member ms ih =>
      intro index
      rw [List.foldl_cons, ih, List.foldl_cons, Std.TreeMap.getElem?_insert]
      simp only [Nat.compare_eq_eq]
  have hindex : classIndex P =
      (members P).foldl (fun index member => index.insert member.1 member.2) ∅ := by
    simp only [classIndex, members, List.foldl_flatMap, List.foldl_map]
  rw [hindex, hinsert, Std.TreeMap.getElem?_emptyc]

/-- A table with an entry for each state, which is the number of its class. -/
structure IsClassTable (d : Dfa) (P : List StateSet) (table : Array (Option Nat)) : Prop where
  size_eq : table.size = d.numStates
  getElem?_eq : ∀ s < d.numStates, table[s]? = some (classIndex P)[s]?

/-- The table of classes can be made if all members of the classes are states. -/
lemma exists_classTable (h : Divides P S) (hS : ∀ s ∈ S, s < d.numStates) :
    ∃ table, d.classTable P = .ok table ∧ d.IsClassTable P table := by
  obtain ⟨table, htable, hsize, hget⟩ := @alterAll_eq_ok _ (Array.replicate d.numStates none)
    ((members P).map fun member => (member.1, fun _ => some member.2)) (by
      intro change hchange
      obtain ⟨member, hm, rfl⟩ := List.mem_map.mp hchange
      rw [Array.size_replicate]
      exact hS _ (h.mem_of_mem_members hm))
  refine ⟨table, htable, by rw [hsize, Array.size_replicate], ?_⟩
  intro s hs
  rw [hget, Array.getElem?_replicate, if_pos hs, Option.map_some, List.foldl_map,
    getElem?_classIndex_eq_foldl]

/-- The table cannot be made if some member is no state. -/
lemma classTable_eq_error (h : Divides P S) (hS : ∃ s ∈ S, d.numStates ≤ s) : ∃ s ∈ S,
    d.numStates ≤ s ∧ d.classTable P = .error (.outOfBounds d.numStates s) := by
  obtain ⟨s, hs, hle⟩ := hS
  obtain ⟨C, hC, hsC⟩ := (h.mem_iff s).mp hs
  obtain ⟨i, hi⟩ := List.mem_iff_getElem?.mp hC
  obtain ⟨change, hmem, hle, herror⟩ := @alterAll_eq_error _ (Array.replicate d.numStates none)
    ((members P).map fun member => (member.1, fun _ => some member.2))
    ⟨_, List.mem_map_of_mem (mem_members.mpr ⟨C, hi, hsC⟩), by rwa [Array.size_replicate]⟩
  obtain ⟨member, hm, rfl⟩ := List.mem_map.mp hmem
  rw [Array.size_replicate] at hle herror
  exact ⟨member.1, h.mem_of_mem_members hm, hle, herror⟩

/-- A number that is no state has no entry, and no class either. -/
lemma IsClassTable.join_getElem?_eq (ht : d.IsClassTable P table) (h : Divides P S)
    (hS : ∀ s ∈ S, s < d.numStates) (s : Nat) : (table[s]?).join = (classIndex P)[s]? := by
  rcases Nat.lt_or_ge s d.numStates with hlt | hge
  · rw [ht.getElem?_eq s hlt, Option.join_some]
  · have hnot : s ∉ S := fun hs => absurd (hS s hs) (Nat.not_lt.mpr hge)
    rw [Array.getElem?_eq_none (ht.size_eq ▸ hge), (getElem?_classIndex_eq_none h).mpr hnot,
      Option.join_none]

/-! ### Refinement -/

lemma refineChecked_eq (h : Divides P S) (hS : ∀ s ∈ S, s < d.numStates) :
    d.refineChecked P = .ok (d.refine P) := by
  obtain ⟨table, htable, ht⟩ := exists_classTable h hS
  rw [refineChecked, htable, ok_bind]
  simp only [ht.join_getElem?_eq h hS]
  rfl

/-- The rounds end by themselves: each but the last makes more classes. -/
lemma refineUntilSame_eq {rounds : Nat} (h : Divides P S) (hS : ∀ s ∈ S, s < d.numStates)
    (hrounds : S.size < rounds + P.length) :
    d.refineUntilSame rounds P = .ok (d.refineRounds rounds P).2 := by
  induction rounds generalizing P with
  | zero =>
    have hle := h.length_le_size
    omega
  | succ rounds ih =>
    rw [refineUntilSame, refineChecked_eq h hS, ok_bind, refineRounds]
    by_cases hsame : samePartition P (d.refine P) = true
    · rw [if_pos hsame, if_pos hsame]
      rfl
    · have hlt := length_lt_length_refine h (Bool.not_eq_true _ ▸ hsame)
      have hdivides : Divides (d.refine P) S := divides_refine h
      rw [if_neg hsame, if_neg hsame]
      exact ih hdivides (by omega)

/-- The first round fails if some member of the classes is no state. -/
lemma refineUntilSame_eq_error {rounds : Nat} (h : Divides P S) (hS : ∃ s ∈ S, d.numStates ≤ s) :
    ∃ s ∈ S, d.numStates ≤ s ∧
      d.refineUntilSame (rounds + 1) P = .error (.outOfBounds d.numStates s) := by
  obtain ⟨s, hs, hle, herror⟩ := classTable_eq_error h hS
  refine ⟨s, hs, hle, ?_⟩
  rw [refineUntilSame, refineChecked, herror, error_bind, error_bind]

end Dfa
end RegexAutomata
