/-
# The order of the classes

The parts of a set are listed by their least members, and a round of refinement puts the parts of a
class at its place.  So the order of the classes is never decided anew: the classes in the end are in
the order in which those of every round before have been (`Dfa.ascending_of_refine`).

If a function on states keeps the order of the parts of a set and the values by which the set is divided,
then the images of the parts are the parts of the image, in the same order (`StateSet.splitBy_image`).
-/
import Mathlib.Data.List.Sort
import RegexAutomata.Proofs.Dfa.Rounds

namespace RegexAutomata

/-- From class to class along a list a function ascends. -/
def Ascending (f : Nat → Nat) (P : List StateSet) : Prop :=
  P.Pairwise fun C D => ∀ x ∈ C, ∀ y ∈ D, f x < f y

namespace StateSet

/-! ### Images -/

/-- The values of a function on the members of a set. -/
def image (f : Nat → Nat) (S : StateSet) : StateSet := ofList (S.toList.map f)

variable {κ : Type} [DecidableEq κ] {key key' : Nat → κ} {f : Nat → Nat} {S : StateSet}

@[simp] lemma mem_image {i : Nat} : i ∈ S.image f ↔ ∃ x ∈ S, f x = i := by
  simp [image, mem_toList]

lemma isEmpty_image : (S.image f).isEmpty = S.isEmpty := by
  rw [Bool.eq_iff_iff, isEmpty_iff, isEmpty_iff]
  constructor
  · intro h
    ext x
    simp only [not_mem_empty, iff_false]
    intro hx
    exact not_mem_empty (h ▸ mem_image.mpr ⟨x, hx, rfl⟩)
  · rintro rfl
    ext i
    simp

/-! ### The order of parts -/

/-- Some member of the first set is below all members of the second. -/
def Precedes (C D : StateSet) : Prop := ∃ x ∈ C, ∀ y ∈ D, x < y

instance : Std.Irrefl Precedes where
  irrefl := by
    rintro C ⟨x, hx, hlt⟩
    exact Nat.lt_irrefl x (hlt x hx)

instance : Std.Antisymm Precedes where
  antisymm := by
    rintro C D ⟨x, hx, hlt⟩ ⟨y, hy, hlt'⟩
    exact absurd (hlt y hy) (Nat.lt_asymm (hlt' x hx))

/-- The groups of an ascending list are listed by their first members. -/
lemma pairwise_precedes_groupByKey {pairs : List (κ × Nat)}
    (h : pairs.Pairwise fun p q => p.2 < q.2) :
    (groupByKey pairs).Pairwise fun g g' => ∃ x ∈ g, ∀ y ∈ g', x < y := by
  fun_induction groupByKey pairs with
  | case1 => exact List.Pairwise.nil
  | case2 k a rest ih =>
    rw [@List.unattach_filter _ _ _ _ (fun p => decide (p.1 ≠ k)) (fun _ _ => rfl),
      List.unattach_attach] at ih
    obtain ⟨hfirst, hrest⟩ := List.pairwise_cons.mp h
    refine List.pairwise_cons.mpr ⟨?_, ih (hrest.filter _)⟩
    intro g hg
    refine ⟨a, List.mem_cons_self, ?_⟩
    intro y hy
    obtain ⟨k', -, rfl⟩ := mem_groupByKey.mp hg
    obtain ⟨p, hp, rfl⟩ := List.mem_map.mp hy
    exact hfirst p (List.mem_filter.mp (List.mem_filter.mp hp).1).1

lemma pairwise_precedes_splitBy : (S.splitBy key).Pairwise Precedes := by
  rw [splitBy, List.pairwise_map]
  refine (pairwise_precedes_groupByKey (List.pairwise_map.mpr S.ascending)).imp ?_
  rintro g g' ⟨x, hx, hlt⟩
  exact ⟨x, mem_ofList.mpr hx, fun y hy => hlt y (mem_ofList.mp hy)⟩

/-- The parts of an image are the images of the parts. -/
lemma splitBy_image (hkey : ∀ x ∈ S, key' (f x) = key x)
    (hmap : ((S.splitBy key).map (image f)).Pairwise Precedes) :
    (S.image f).splitBy key' = (S.splitBy key).map (image f) := by
  refine pairwise_precedes_splitBy.eq_of_mem_iff hmap ?_
  -- both lists hold the images of the parts
  have hpart : ∀ s ∈ S, ∀ C : StateSet, (∀ x, x ∈ C ↔ x ∈ S ∧ key x = key s) →
      ∀ i, i ∈ C.image f ↔ i ∈ S.image f ∧ key' i = key' (f s) := by
    intro s hs C hC i
    rw [mem_image, mem_image, hkey s hs]
    constructor
    · rintro ⟨x, hx, rfl⟩
      obtain ⟨hxS, hxs⟩ := (hC x).mp hx
      exact ⟨⟨x, hxS, rfl⟩, by rw [hkey x hxS, hxs]⟩
    · rintro ⟨⟨x, hx, rfl⟩, hxs⟩
      exact ⟨x, (hC x).mpr ⟨hx, by rw [← hkey x hx, hxs]⟩, rfl⟩
  intro E
  rw [List.mem_map, mem_splitBy]
  constructor
  · rintro ⟨i, hi, hE⟩
    obtain ⟨s, hs, rfl⟩ := mem_image.mp hi
    obtain ⟨C, hC, hsC⟩ := (divides_splitBy.mem_iff (P := S.splitBy key) s).mp hs
    obtain ⟨t, ht, hmem⟩ := mem_splitBy.mp hC
    refine ⟨C, hC, ?_⟩
    ext i
    have hC' : ∀ x, x ∈ C ↔ x ∈ S ∧ key x = key s := by
      intro x
      rw [hmem x, ((hmem s).mp hsC).2]
    rw [hpart s hs C hC' i, hE i]
  · rintro ⟨C, hC, rfl⟩
    obtain ⟨s, hs, hmem⟩ := mem_splitBy.mp hC
    exact ⟨f s, mem_image.mpr ⟨s, hs, rfl⟩, hpart s hs C hmem⟩

end StateSet

/-! ### Rounds of refinement -/

namespace Ascending

variable {f : Nat → Nat} {P : List StateSet} {S : StateSet}

/-- The images of classes along which a function ascends do not meet. -/
lemma disjoint_image (h : Ascending f P) :
    (P.map (StateSet.image f)).Pairwise fun C D => ∀ i ∈ C, i ∉ D := by
  refine List.pairwise_map.mpr (List.Pairwise.imp ?_ h)
  intro C D hCD i hi hi'
  obtain ⟨x, hx, rfl⟩ := StateSet.mem_image.mp hi
  obtain ⟨y, hy, hxy⟩ := StateSet.mem_image.mp hi'
  exact absurd hxy (Nat.ne_of_gt (hCD x hx y hy))

/-- The images of classes along which a function ascends are in the order of the classes. -/
lemma pairwise_precedes_image (h : Ascending f P) (hP : Divides P S) :
    (P.map (StateSet.image f)).Pairwise StateSet.Precedes := by
  refine List.pairwise_map.mpr (List.Pairwise.imp_of_mem ?_ h)
  intro C D hC _ hCD
  obtain ⟨x, hx⟩ := hP.exists_mem C hC
  refine ⟨f x, StateSet.mem_image.mpr ⟨x, hx, rfl⟩, ?_⟩
  intro i hi
  obtain ⟨y, hy, rfl⟩ := StateSet.mem_image.mp hi
  exact hCD x hx y hy

end Ascending

namespace Dfa

variable {d : Dfa} {P : List StateSet} {f : Nat → Nat}

/-- What ascends along the classes after a round ascends along the parts of each class. -/
lemma ascending_splitBy_of_refine (h : Ascending f (d.refine P)) {C : StateSet} (hC : C ∈ P) :
    Ascending f (C.splitBy (d.signature (classIndex P))) :=
  (List.pairwise_flatMap.mp h).1 C hC

/-- What ascends along the classes after a round ascends along the classes before it. -/
lemma ascending_of_refine (h : Ascending f (d.refine P)) : Ascending f P := by
  refine List.Pairwise.imp ?_ (List.pairwise_flatMap.mp h).2
  intro C D hCD x hx y hy
  have hparts : ∀ E, Divides (E.splitBy (d.signature (classIndex P))) E :=
    fun _ => StateSet.divides_splitBy
  obtain ⟨C', hC', hx⟩ := ((hparts C).mem_iff x).mp hx
  obtain ⟨D', hD', hy⟩ := ((hparts D).mem_iff y).mp hy
  exact hCD C' hC' D' hD' x hx y hy

lemma ascending_of_iterate_refine {n : Nat} (h : Ascending f (d.refine^[n] P)) {j : Nat}
    (hj : j ≤ n) : Ascending f (d.refine^[j] P) := by
  induction n with
  | zero => exact Nat.le_zero.mp hj ▸ h
  | succ n ih =>
    rcases Nat.lt_or_eq_of_le hj with hlt | rfl
    · rw [Function.iterate_succ_apply'] at h
      exact ih (ascending_of_refine h) (Nat.le_of_lt_succ hlt)
    · exact h

end Dfa
end RegexAutomata
