/-
# Divisions of a set into classes

Refinement works on a list of classes that *divides* a set: no class is empty, no two classes meet,
and together they make up the set.  Dividing every class of such a list divides the set again
(`Divides.flatMap`), and if the number of classes stays the same, then so does the list
(`Divides.flatMap_eq_self`).  A set is never divided into more classes than it has members
(`Divides.length_le_size`), so refinement comes to an end.
-/
import Mathlib.Data.List.Induction
import Mathlib.Data.List.Perm.Subperm
import Mathlib.Tactic.Lemma
import RegexAutomata.Dfa.Partition

namespace RegexAutomata

/-- A set with a member has a least member. -/
lemma StateSet.exists_min? {C : StateSet} {x : Nat} (hx : x ∈ C) : ∃ y ∈ C, C.min? = some y := by
  cases hm : C.min? with
  | none =>
    rw [StateSet.min?, List.head?_eq_none_iff] at hm
    rw [← StateSet.mem_toList, hm] at hx
    exact absurd hx (by simp)
  | some y => exact ⟨y, (StateSet.min?_eq_some_iff.mp hm).1, rfl⟩

/-- A list of classes divides a set. -/
structure Divides (P : List StateSet) (S : StateSet) : Prop where
  exists_mem : ∀ C ∈ P, ∃ x, x ∈ C
  disjoint : P.Pairwise fun C D => ∀ x ∈ C, x ∉ D
  mem_iff : ∀ x, x ∈ S ↔ ∃ C ∈ P, x ∈ C

namespace Divides

variable {P : List StateSet} {S : StateSet}

lemma mem_of_mem (h : Divides P S) {C : StateSet} {x : Nat} (hC : C ∈ P) (hx : x ∈ C) : x ∈ S :=
  (h.mem_iff x).mpr ⟨C, hC, hx⟩

lemma tail {C : StateSet} (h : Divides (C :: P) S) : Divides P (S.diff C) := by
  have hd := List.pairwise_cons.mp h.disjoint
  refine ⟨?_, hd.2, ?_⟩
  · intro D hD
    exact h.exists_mem D (List.mem_cons_of_mem C hD)
  · intro x
    rw [StateSet.mem_diff, h.mem_iff x]
    constructor
    · rintro ⟨⟨D, hD, hx⟩, hxC⟩
      rcases List.mem_cons.mp hD with rfl | hD
      · exact absurd hx hxC
      · exact ⟨D, hD, hx⟩
    · rintro ⟨D, hD, hx⟩
      exact ⟨⟨D, List.mem_cons_of_mem C hD, hx⟩, fun hxC => hd.1 D hD x hxC hx⟩

lemma length_pos (h : Divides P S) {x : Nat} (hx : x ∈ S) : 0 < P.length := by
  obtain ⟨C, hC, -⟩ := (h.mem_iff x).mp hx
  exact List.length_pos_of_mem hC

/-- A division into one class has the set itself as its class. -/
lemma eq_singleton (h : Divides P S) (hlen : P.length = 1) : P = [S] := by
  obtain ⟨C, rfl⟩ := List.length_eq_one_iff.mp hlen
  have hCS : C = S := by
    ext x
    rw [h.mem_iff x]
    simp
  rw [hCS]

/-- There are no more classes than members: the least members of the classes are different. -/
lemma length_le_size (h : Divides P S) : P.length ≤ S.size := by
  have hleast : ∀ C ∈ P, ∃ x ∈ C, C.min? = some x := by
    intro C hC
    obtain ⟨x, hx⟩ := h.exists_mem C hC
    exact StateSet.exists_min? hx
  have hlen : (P.filterMap StateSet.min?).length = P.length := by
    rw [List.length_filterMap_eq_countP, List.countP_eq_length]
    intro C hC
    obtain ⟨x, -, hx⟩ := hleast C hC
    rw [hx, Option.isSome_some]
  have hnodup : (P.filterMap StateSet.min?).Nodup := by
    rw [List.nodup_iff_pairwise_ne, List.pairwise_filterMap]
    refine h.disjoint.imp ?_
    intro C D hCD x hx y hy hxy
    subst hxy
    exact hCD x (StateSet.min?_eq_some_iff.mp hx).1 (StateSet.min?_eq_some_iff.mp hy).1
  have hsub : P.filterMap StateSet.min? ⊆ S.toList := by
    intro x hx
    obtain ⟨C, hC, hx⟩ := List.mem_filterMap.mp hx
    exact h.mem_of_mem hC (StateSet.min?_eq_some_iff.mp hx).1
  rw [← hlen]
  exact (hnodup.subperm hsub).length_le

/-! ### Dividing the classes -/

variable {f : StateSet → List StateSet}

/-- Dividing every class divides the set. -/
lemma flatMap (h : Divides P S) (hf : ∀ C ∈ P, Divides (f C) C) : Divides (P.flatMap f) S := by
  refine ⟨?_, ?_, ?_⟩
  · intro D hD
    obtain ⟨C, hC, hD⟩ := List.mem_flatMap.mp hD
    exact (hf C hC).exists_mem D hD
  · rw [List.pairwise_flatMap]
    refine ⟨fun C hC => (hf C hC).disjoint, h.disjoint.imp_of_mem ?_⟩
    -- parts of two classes do not meet, since the classes do not
    intro C D hC hD hCD C' hC' D' hD' x hx hx'
    have hxC : x ∈ C := (hf C hC).mem_of_mem hC' hx
    have hxD : x ∈ D := (hf D hD).mem_of_mem hD' hx'
    exact hCD x hxC hxD
  · intro x
    rw [h.mem_iff x]
    constructor
    · rintro ⟨C, hC, hx⟩
      obtain ⟨D, hD, hx⟩ := ((hf C hC).mem_iff x).mp hx
      exact ⟨D, List.mem_flatMap.mpr ⟨C, hC, hD⟩, hx⟩
    · rintro ⟨D, hD, hx⟩
      obtain ⟨C, hC, hD⟩ := List.mem_flatMap.mp hD
      exact ⟨C, hC, (hf C hC).mem_of_mem hD hx⟩

/-- Dividing classes does not make them fewer. -/
lemma length_le_flatMap (h : Divides P S) (hf : ∀ C ∈ P, Divides (f C) C) :
    P.length ≤ (P.flatMap f).length := by
  induction P generalizing S with
  | nil => simp
  | cons C P ih =>
    obtain ⟨x, hx⟩ := h.exists_mem C (by simp)
    have hC := (hf C (by simp)).length_pos hx
    have hP := ih h.tail fun D hD => hf D (List.mem_cons_of_mem C hD)
    rw [List.flatMap_cons, List.length_append, List.length_cons]
    omega

/-- If dividing the classes does not make them more, then nothing has been divided. -/
lemma flatMap_eq_self (h : Divides P S) (hf : ∀ C ∈ P, Divides (f C) C)
    (hlen : (P.flatMap f).length = P.length) : P.flatMap f = P := by
  induction P generalizing S with
  | nil => rfl
  | cons C P ih =>
    obtain ⟨x, hx⟩ := h.exists_mem C (by simp)
    have hf' : ∀ D ∈ P, Divides (f D) D := fun D hD => hf D (List.mem_cons_of_mem C hD)
    have hC := (hf C (by simp)).length_pos hx
    have hP := h.tail.length_le_flatMap hf'
    rw [List.flatMap_cons, List.length_append, List.length_cons] at hlen
    -- neither the first class nor the others give more than they are
    rw [List.flatMap_cons, ih h.tail hf' (by omega), (hf C (by simp)).eq_singleton (by omega)]
    rfl

end Divides

/-! ### Dividing a set by a function -/

/-- The groups of a list of pairs are, for each first component, the second components that go with
it. -/
lemma mem_groupByKey {κ α : Type} [DecidableEq κ] {pairs : List (κ × α)} {g : List α} :
    g ∈ groupByKey pairs ↔
      ∃ k ∈ pairs.map Prod.fst, g = (pairs.filter (·.1 = k)).map Prod.snd := by
  fun_induction groupByKey pairs with
  | case1 => simp
  | case2 k a rest ih =>
    rw [@List.unattach_filter _ _ _ _ (fun p => decide (p.1 ≠ k)) (fun _ _ => rfl),
      List.unattach_attach] at ih
    have hother : ∀ k', k' ≠ k →
        ((rest.filter (·.1 ≠ k)).filter (·.1 = k')) = rest.filter (·.1 = k') := by
      intro k' hk
      rw [List.filter_filter]
      refine List.filter_congr ?_
      intro p _
      by_cases hp : p.1 = k' <;> simp [hp, hk]
    rw [List.mem_cons, ih]
    constructor
    · rintro (rfl | ⟨k', hk', rfl⟩)
      · exact ⟨k, by simp, by simp⟩
      · obtain ⟨p, hp, rfl⟩ := List.mem_map.mp hk'
        have hne : p.1 ≠ k := by simpa using (List.mem_filter.mp hp).2
        refine ⟨p.1, List.mem_map.mpr ⟨p, ?_, rfl⟩, ?_⟩
        · exact List.mem_cons_of_mem _ (List.mem_filter.mp hp).1
        · rw [hother p.1 hne, List.filter_cons_of_neg (by simpa using Ne.symm hne)]
    · rintro ⟨k', hk', rfl⟩
      by_cases hne : k' = k
      · subst hne
        exact Or.inl (by simp)
      · right
        rw [List.map_cons, List.mem_cons] at hk'
        obtain ⟨p, hp, rfl⟩ := List.mem_map.mp (hk'.resolve_left hne)
        refine ⟨p.1, List.mem_map.mpr ⟨p, List.mem_filter.mpr ⟨hp, by simpa using hne⟩, rfl⟩, ?_⟩
        rw [hother p.1 hne, List.filter_cons_of_neg (by simpa using Ne.symm hne)]

/-- If the first components are the values of a function, then no two groups meet. -/
lemma pairwise_groupByKey {κ α : Type} [DecidableEq κ] {key : α → κ} {pairs : List (κ × α)}
    (h : ∀ p ∈ pairs, p.1 = key p.2) :
    (groupByKey pairs).Pairwise fun g g' => ∀ x ∈ g, x ∉ g' := by
  fun_induction groupByKey pairs with
  | case1 => exact List.Pairwise.nil
  | case2 k a rest ih =>
    rw [@List.unattach_filter _ _ _ _ (fun p => decide (p.1 ≠ k)) (fun _ _ => rfl),
      List.unattach_attach] at ih
    have hrest : ∀ p ∈ rest, p.1 = key p.2 := fun p hp => h p (List.mem_cons_of_mem _ hp)
    refine List.pairwise_cons.mpr ⟨?_, ih ?_⟩
    · -- the members of the first group go with the key `k`, those of the others do not
      intro g hg x hx hxg
      have hxk : key x = k := by
        rcases List.mem_cons.mp hx with rfl | hx
        · exact (h (k, x) (by simp)).symm
        · obtain ⟨p, hp, rfl⟩ := List.mem_map.mp hx
          rw [← hrest p (List.mem_filter.mp hp).1]
          simpa using (List.mem_filter.mp hp).2
      obtain ⟨k', -, rfl⟩ := mem_groupByKey.mp hg
      obtain ⟨p, hp, rfl⟩ := List.mem_map.mp hxg
      have hp' := List.mem_filter.mp (List.mem_filter.mp hp).1
      have hpk : p.1 ≠ k := by simpa using hp'.2
      exact hpk ((hrest p hp'.1).trans hxk)
    · intro p hp
      exact hrest p (List.mem_filter.mp hp).1

namespace StateSet

variable {κ : Type} [DecidableEq κ] {key : Nat → κ} {S C : StateSet}

/-- The parts of a set are, for each of its members, the members with the same value. -/
lemma mem_splitBy :
    C ∈ S.splitBy key ↔ ∃ s ∈ S, ∀ x, x ∈ C ↔ x ∈ S ∧ key x = key s := by
  have hgroup : ∀ s x, x ∈ ofList (((S.toList.map fun s => (key s, s)).filter
      (·.1 = key s)).map Prod.snd) ↔ x ∈ S ∧ key x = key s := by
    intro s x
    simp only [mem_ofList, List.mem_map, List.mem_filter, decide_eq_true_eq, mem_toList]
    constructor
    · rintro ⟨p, ⟨⟨y, hy, rfl⟩, hk⟩, rfl⟩
      exact ⟨hy, hk⟩
    · rintro ⟨hx, hk⟩
      exact ⟨_, ⟨⟨x, hx, rfl⟩, hk⟩, rfl⟩
  rw [splitBy, List.mem_map]
  constructor
  · rintro ⟨g, hg, rfl⟩
    obtain ⟨k, hk, rfl⟩ := mem_groupByKey.mp hg
    simp only [List.map_map, List.mem_map, Function.comp_apply] at hk
    obtain ⟨s, hs, rfl⟩ := hk
    exact ⟨s, hs, hgroup s⟩
  · rintro ⟨s, hs, hC⟩
    refine ⟨_, mem_groupByKey.mpr ⟨key s, ?_, rfl⟩, ?_⟩
    · simp only [List.map_map, List.mem_map, Function.comp_apply]
      exact ⟨s, hs, rfl⟩
    · ext x
      rw [hgroup s x, hC x]

/-- The parts of a set divide it. -/
lemma divides_splitBy : Divides (S.splitBy key) S := by
  refine ⟨?_, ?_, ?_⟩
  · intro C hC
    obtain ⟨s, hs, hmem⟩ := mem_splitBy.mp hC
    exact ⟨s, (hmem s).mpr ⟨hs, rfl⟩⟩
  · rw [splitBy, List.pairwise_map]
    refine (@pairwise_groupByKey _ _ _ key _ ?_).imp ?_
    · intro p hp
      obtain ⟨s, -, rfl⟩ := List.mem_map.mp hp
      rfl
    · intro g g' h x hx hx'
      exact h x (mem_ofList.mp hx) (mem_ofList.mp hx')
  · intro x
    constructor
    · intro hx
      -- the part of `x` holds what has the value of `x`
      have hpart : ∀ y, y ∈ ofList (S.toList.filter fun y => key y = key x) ↔
          y ∈ S ∧ key y = key x := by
        intro y
        simp [mem_toList]
      exact ⟨_, mem_splitBy.mpr ⟨x, hx, hpart⟩, (hpart x).mpr ⟨hx, rfl⟩⟩
    · rintro ⟨C, hC, hx⟩
      obtain ⟨s, -, hmem⟩ := mem_splitBy.mp hC
      exact ((hmem x).mp hx).1

end StateSet

end RegexAutomata
