/-
# Partition refinement

The index of a list of classes gives each state the number of its class (`Dfa.getElem?_classIndex`).
A round of refinement divides each class by the classes to which the moves of its members lead
(`Dfa.mem_refine`), and if it does not give the same classes, it gives more
(`Dfa.length_lt_length_refine`).
-/
import RegexAutomata.Proofs.Dfa.Classes

namespace RegexAutomata
namespace Dfa

/-! ### The number of a class -/

lemma getElem?_foldl_insert (xs : List Nat) (i : Nat) (index : Std.TreeMap Nat Nat) (x : Nat) :
    (xs.foldl (fun index s => index.insert s i) index)[x]? =
      if x ∈ xs then some i else index[x]? := by
  induction xs generalizing index with
  | nil => simp
  | cons y xs ih =>
    rw [List.foldl_cons, ih, Std.TreeMap.getElem?_insert]
    simp only [Nat.compare_eq_eq, List.mem_cons]
    by_cases hx : x ∈ xs
    · rw [if_pos hx, if_pos (Or.inr hx)]
    · rw [if_neg hx]
      by_cases hy : y = x
      · rw [if_pos hy, if_pos (Or.inl hy.symm)]
      · rw [if_neg hy, if_neg (by rintro (h | h) <;> simp_all)]

lemma getElem?_classIndex_append (P : List StateSet) (C : StateSet) (x : Nat) :
    (classIndex (P ++ [C]))[x]? = if x ∈ C then some P.length else (classIndex P)[x]? := by
  simp only [classIndex, List.zipIdx_append, List.foldl_append, List.zipIdx_cons, List.zipIdx_nil,
    List.foldl_cons, List.foldl_nil, getElem?_foldl_insert, StateSet.mem_toList, Nat.zero_add]

variable {P : List StateSet} {S : StateSet}

/-- The index gives each member the number of its class, and no number to other states. -/
lemma getElem?_classIndex (h : P.Pairwise fun C D => ∀ x ∈ C, x ∉ D) {x i : Nat} :
    (classIndex P)[x]? = some i ↔ ∃ C, P[i]? = some C ∧ x ∈ C := by
  induction P using List.reverseRecOn with
  | nil => simp [classIndex]
  | append_singleton P C ih =>
    obtain ⟨hP, -, hC⟩ := List.pairwise_append.mp h
    rw [getElem?_classIndex_append]
    by_cases hx : x ∈ C
    · rw [if_pos hx, Option.some.injEq]
      constructor
      · rintro rfl
        exact ⟨C, by simp, hx⟩
      · rintro ⟨D, hD, hxD⟩
        -- `x` is in no class before `C`
        rcases Nat.lt_trichotomy i P.length with hi | hi | hi
        · rw [List.getElem?_append_left hi] at hD
          exact absurd hx (hC D (List.mem_of_getElem? hD) C (by simp) x hxD)
        · exact hi.symm
        · rw [List.getElem?_eq_none (by simp; omega)] at hD
          exact absurd hD (by simp)
    · rw [if_neg hx, ih hP]
      constructor
      · rintro ⟨D, hD, hxD⟩
        have hi := (List.getElem?_eq_some_iff.mp hD).1
        exact ⟨D, by rw [List.getElem?_append_left hi, hD], hxD⟩
      · rintro ⟨D, hD, hxD⟩
        rcases Nat.lt_or_ge i P.length with hi | hi
        · rw [List.getElem?_append_left hi] at hD
          exact ⟨D, hD, hxD⟩
        · have hDC : D ∈ [C] := by
            rw [List.getElem?_append_right hi] at hD
            exact List.mem_of_getElem? hD
          rw [List.mem_singleton] at hDC
          exact absurd (hDC ▸ hxD) hx

lemma lt_length_of_classIndex (h : P.Pairwise fun C D => ∀ x ∈ C, x ∉ D) {x i : Nat}
    (hi : (classIndex P)[x]? = some i) : i < P.length := by
  obtain ⟨C, hC, -⟩ := (getElem?_classIndex h).mp hi
  exact (List.getElem?_eq_some_iff.mp hC).1

/-- Exactly the states that are in no class have no number. -/
lemma getElem?_classIndex_eq_none (h : Divides P S) {x : Nat} :
    (classIndex P)[x]? = none ↔ x ∉ S := by
  rw [h.mem_iff x, ← not_iff_not, not_not, ← ne_eq, Option.ne_none_iff_exists']
  simp only [getElem?_classIndex h.disjoint]
  constructor
  · rintro ⟨i, C, hC, hx⟩
    exact ⟨C, List.mem_of_getElem? hC, hx⟩
  · rintro ⟨C, hC, hx⟩
    obtain ⟨i, hi⟩ := List.mem_iff_getElem?.mp hC
    exact ⟨i, C, hi, hx⟩

/-! ### One round -/

variable {d : Dfa}

lemma divides_refine (h : Divides P S) : Divides (d.refine P) S :=
  h.flatMap fun _ _ => StateSet.divides_splitBy

/-- Each new class is the part of an old class in which the moves lead to the same old classes. -/
lemma mem_refine {C : StateSet} :
    C ∈ d.refine P ↔ ∃ D ∈ P, ∃ s ∈ D, ∀ x, x ∈ C ↔
      x ∈ D ∧ d.signature (classIndex P) x = d.signature (classIndex P) s := by
  simp only [refine, List.mem_flatMap, StateSet.mem_splitBy]

lemma signature_eq_of_mem_refine {C : StateSet} (hC : C ∈ d.refine P) {x y : Nat} (hx : x ∈ C)
    (hy : y ∈ C) : d.signature (classIndex P) x = d.signature (classIndex P) y := by
  obtain ⟨D, -, s, -, hmem⟩ := mem_refine.mp hC
  rw [((hmem x).mp hx).2, ((hmem y).mp hy).2]

/-- If a round does not give the same classes, it gives more. -/
lemma length_lt_length_refine (h : Divides P S) (hne : samePartition P (d.refine P) = false) :
    P.length < (d.refine P).length := by
  have hparts : ∀ C ∈ P, Divides (C.splitBy (d.signature (classIndex P))) C :=
    fun _ _ => StateSet.divides_splitBy
  have hle : P.length ≤ (d.refine P).length := h.length_le_flatMap hparts
  rcases Nat.lt_or_eq_of_le hle with hlt | heq
  · exact hlt
  · have hself : d.refine P = P := h.flatMap_eq_self hparts heq.symm
    rw [hself] at hne
    simp [samePartition] at hne

/-! ### The first classes -/

lemma divides_initialClasses : Divides d.initialClasses d.live := by
  have hmem : ∀ C, C ∈ d.initialClasses ↔
      (C = d.live.diff d.finals ∨ C = d.live.inter d.finals) ∧ ∃ x, x ∈ C := by
    intro C
    have hempty : C.isEmpty = false ↔ ∃ x, x ∈ C := by
      rw [← Bool.not_eq_true, StateSet.isEmpty_iff]
      constructor
      · intro hne
        by_contra hno
        apply hne
        ext x
        simp only [StateSet.not_mem_empty, iff_false]
        exact fun hx => hno ⟨x, hx⟩
      · rintro ⟨x, hx⟩ rfl
        exact absurd hx (by simp)
    simp [initialClasses, hempty]
  refine ⟨?_, ?_, ?_⟩
  · intro C hC
    exact ((hmem C).mp hC).2
  · refine List.Pairwise.filter _ (List.pairwise_pair.mpr ?_)
    intro x hx hx'
    exact (StateSet.mem_diff.mp hx).2 (StateSet.mem_inter.mp hx').2
  · intro x
    constructor
    · intro hx
      by_cases hf : x ∈ d.finals
      · have hx' : x ∈ d.live.inter d.finals := StateSet.mem_inter.mpr ⟨hx, hf⟩
        exact ⟨_, (hmem _).mpr ⟨Or.inr rfl, x, hx'⟩, hx'⟩
      · have hx' : x ∈ d.live.diff d.finals := StateSet.mem_diff.mpr ⟨hx, hf⟩
        exact ⟨_, (hmem _).mpr ⟨Or.inl rfl, x, hx'⟩, hx'⟩
    · rintro ⟨C, hC, hx⟩
      rcases ((hmem C).mp hC).1 with rfl | rfl
      · exact (StateSet.mem_diff.mp hx).1
      · exact (StateSet.mem_inter.mp hx).1

lemma final_iff_of_mem_initialClasses {C : StateSet} (hC : C ∈ d.initialClasses) {x y : Nat}
    (hx : x ∈ C) (hy : y ∈ C) : x ∈ d.finals ↔ y ∈ d.finals := by
  simp only [initialClasses, List.mem_filter, List.mem_cons, List.not_mem_nil, or_false] at hC
  rcases hC.1 with rfl | rfl
  · exact iff_of_false (StateSet.mem_diff.mp hx).2 (StateSet.mem_diff.mp hy).2
  · exact iff_of_true (StateSet.mem_inter.mp hx).2 (StateSet.mem_inter.mp hy).2

end Dfa
end RegexAutomata
