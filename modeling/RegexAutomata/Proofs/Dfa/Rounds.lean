/-
# The end of partition refinement

Refinement begins with the live states, divided into those that are not final and those that are, and
divides the classes until a round changes nothing.  Each round before makes more classes
(`Dfa.EndsAfter`), so there are always enough rounds.  The classes in the end are those after some number
of rounds, and one more round leaves them as they are (`Dfa.exists_refinement_eq_iterate`).  Any number of rounds after which nothing changes leads to the same
classes (`Dfa.refinement_eq_iterate`).

In the end the members of one class agree on being final, and they agree, for each symbol, on the class
to which they move (`Dfa.stable_refinement`).
-/
import Mathlib.Logic.Function.Iterate
import RegexAutomata.Proofs.Dfa.Refinement

namespace RegexAutomata
namespace Dfa

variable {d : Dfa} {P : List StateSet} {S : StateSet}

/-- A round gives the same classes in some order only if it gives the same list of classes. -/
lemma samePartition_refine_iff (h : Divides P S) :
    samePartition P (d.refine P) = true ↔ d.refine P = P := by
  constructor
  · intro hsame
    rw [samePartition, Bool.and_eq_true, beq_iff_eq] at hsame
    exact h.flatMap_eq_self (fun _ _ => StateSet.divides_splitBy) hsame.1.symm
  · intro hself
    simp [samePartition, hself]

lemma divides_iterate_refine (h : Divides P S) (n : Nat) : Divides (d.refine^[n] P) S := by
  induction n with
  | zero => exact h
  | succ n ih =>
    rw [Function.iterate_succ_apply']
    exact divides_refine ih

/-! ### The number of rounds -/

/-- The first `k` rounds make more classes, and the next one leaves the classes as they are. -/
structure EndsAfter (d : Dfa) (P : List StateSet) (k : Nat) : Prop where
  length_lt : ∀ j < k, (d.refine^[j] P).length < (d.refine^[j + 1] P).length
  refine_eq : d.refine (d.refine^[k] P) = d.refine^[k] P

lemma endsAfter_zero (h : d.refine P = P) : d.EndsAfter P 0 :=
  ⟨fun _ hj => absurd hj (Nat.not_lt_zero _), h⟩

lemma EndsAfter.succ {k : Nat} (h : d.EndsAfter (d.refine P) k) (hlt : P.length < (d.refine P).length) :
    d.EndsAfter P (k + 1) where
  length_lt := by
    intro j hj
    cases j with
    | zero => exact hlt
    | succ j => exact h.length_lt j (Nat.lt_of_succ_lt_succ hj)
  refine_eq := h.refine_eq

/-- Refinement ends: there cannot be more classes than members. -/
lemma exists_endsAfter (h : Divides P S) : ∃ k, d.EndsAfter P k := by
  induction hm : S.size - P.length using Nat.strongRecOn generalizing P with
  | ind m ih =>
    subst hm
    by_cases hsame : samePartition P (d.refine P) = true
    · exact ⟨0, endsAfter_zero ((samePartition_refine_iff h).mp hsame)⟩
    · have hlt := length_lt_length_refine h (Bool.not_eq_true _ ▸ hsame)
      have hdivides : Divides (d.refine P) S := divides_refine h
      have hle := hdivides.length_le_size
      obtain ⟨k, hk⟩ := ih (S.size - (d.refine P).length) (by omega) hdivides rfl
      exact ⟨k + 1, hk.succ hlt⟩

namespace EndsAfter

variable {k : Nat}

/-- Each round but the last makes a class more, and the last none. -/
lemma samePartition_iff (h : d.EndsAfter P k) (hP : Divides P S) {j : Nat} (hj : j ≤ k) :
    samePartition (d.refine^[j] P) (d.refine (d.refine^[j] P)) = true ↔ j = k := by
  rw [samePartition_refine_iff (divides_iterate_refine hP j)]
  constructor
  · intro hself
    by_contra hne
    have hlt := h.length_lt j (by omega)
    rw [Function.iterate_succ_apply', hself] at hlt
    exact Nat.lt_irrefl _ hlt
  · rintro rfl
    exact h.refine_eq

lemma length_add_le (h : d.EndsAfter P k) {j : Nat} (hj : j ≤ k) :
    P.length + j ≤ (d.refine^[j] P).length := by
  induction j with
  | zero => exact Nat.le_refl _
  | succ j ih =>
    have hle := ih (by omega)
    have hlt := h.length_lt j (by omega)
    omega

/-- With the last round there are no more rounds than members, or there is one. -/
lemma succ_le_max (h : d.EndsAfter P k) (hP : Divides P S) : k + 1 ≤ max 1 S.size := by
  cases hk : k with
  | zero => exact Nat.le_max_left _ _
  | succ j =>
    -- there is a class to begin with, since without classes no round changes anything
    have hpos : 0 < P.length := by
      have hlt := h.length_lt 0 (by omega)
      cases P with
      | nil => exact absurd hlt (Nat.lt_irrefl _)
      | cons C P => exact Nat.succ_pos _
    have hle := h.length_add_le (Nat.le_refl k)
    have hsize := (divides_iterate_refine (d := d) hP k).length_le_size
    omega

/-- The rounds are run through, and their numbers of classes are counted. -/
lemma refineRounds_eq (h : d.EndsAfter P k) (hP : Divides P S) {rounds : Nat} (hk : k < rounds) :
    d.refineRounds rounds P =
      ((List.range (k + 1)).map fun j => (d.refine^[j + 1] P).length, d.refine^[k] P) := by
  induction rounds generalizing P k with
  | zero => exact absurd hk (Nat.not_lt_zero _)
  | succ rounds ih =>
    have hsame := h.samePartition_iff hP (Nat.zero_le k)
    rw [Function.iterate_zero_apply] at hsame
    rw [refineRounds]
    cases k with
    | zero =>
      rw [if_pos (hsame.mpr rfl)]
      rfl
    | succ k =>
      have hrest : d.EndsAfter (d.refine P) k :=
        ⟨fun j hj => h.length_lt (j + 1) (by omega), h.refine_eq⟩
      rw [if_neg (fun hs => absurd (hsame.mp hs) (by omega)), ih hrest (divides_refine hP) (by omega),
        List.range_succ_eq_map (n := k + 1), List.map_cons, List.map_map]
      rfl

end EndsAfter

/-- Enough rounds end with classes that one more round leaves as they are. -/
lemma exists_endsAfter_refinement (d : Dfa) : ∃ k, d.EndsAfter d.initialClasses k ∧ d.refinement =
    ((List.range (k + 1)).map fun j => (d.refine^[j + 1] d.initialClasses).length,
      d.refine^[k] d.initialClasses) := by
  have hdivides : Divides d.initialClasses d.live := divides_initialClasses
  obtain ⟨k, hk⟩ := exists_endsAfter (d := d) hdivides
  have hle := hk.succ_le_max hdivides
  exact ⟨k, hk, hk.refineRounds_eq hdivides (by omega)⟩

lemma exists_refinement_eq_iterate (d : Dfa) :
    ∃ n, d.refinement.2 = d.refine^[n] d.initialClasses ∧
      d.refine d.refinement.2 = d.refinement.2 := by
  obtain ⟨k, hk, heq⟩ := d.exists_endsAfter_refinement
  rw [heq]
  exact ⟨k, rfl, hk.refine_eq⟩

/-- Classes that a round leaves as they are stay as they are. -/
lemma iterate_refine_eq_of_le {m n : Nat} (hmn : m ≤ n)
    (hm : d.refine (d.refine^[m] P) = d.refine^[m] P) : d.refine^[n] P = d.refine^[m] P := by
  have hsplit : n = (n - m) + m := by omega
  rw [hsplit, Function.iterate_add_apply, Function.iterate_fixed hm]

lemma refinement_eq_iterate {n : Nat}
    (hn : d.refine (d.refine^[n] d.initialClasses) = d.refine^[n] d.initialClasses) :
    d.refinement.2 = d.refine^[n] d.initialClasses := by
  obtain ⟨m, hm, hfixed⟩ := d.exists_refinement_eq_iterate
  rw [hm] at hfixed
  rw [hm]
  rcases Nat.le_total m n with hmn | hnm
  · exact (iterate_refine_eq_of_le hmn hfixed).symm
  · exact iterate_refine_eq_of_le hnm hn

/-- What holds of the first classes and is kept by every round holds of the classes in the end. -/
lemma refinement_induction {motive : List StateSet → Prop} (hinit : motive d.initialClasses)
    (hstep : ∀ P, Divides P d.live → motive P → motive (d.refine P)) : motive d.refinement.2 := by
  obtain ⟨n, hn, -⟩ := d.exists_refinement_eq_iterate
  rw [hn]
  clear hn
  induction n with
  | zero => exact hinit
  | succ n ih =>
    rw [Function.iterate_succ_apply']
    exact hstep _ (divides_iterate_refine divides_initialClasses n) ih

/-! ### Stable classes -/

/-- Classes that refinement leaves alone: they divide a set, members of one class agree on being
final, and they agree on the classes to which their moves lead. -/
structure Stable (d : Dfa) (P : List StateSet) (S : StateSet) : Prop where
  divides : Divides P S
  final_iff : ∀ C ∈ P, ∀ x ∈ C, ∀ y ∈ C, x ∈ d.finals ↔ y ∈ d.finals
  signature_eq : ∀ C ∈ P, ∀ x ∈ C, ∀ y ∈ C,
    d.signature (classIndex P) x = d.signature (classIndex P) y

/-- Refinement ends with stable classes of the live states. -/
lemma stable_refinement (d : Dfa) : d.Stable d.refinement.2 d.live := by
  obtain ⟨n, hn, hfixed⟩ := d.exists_refinement_eq_iterate
  refine ⟨?_, ?_, ?_⟩
  · rw [hn]
    exact divides_iterate_refine divides_initialClasses n
  · refine refinement_induction (motive := fun P => ∀ C ∈ P, ∀ x ∈ C, ∀ y ∈ C,
      x ∈ d.finals ↔ y ∈ d.finals)
      (fun _ hC _ hx _ hy => final_iff_of_mem_initialClasses hC hx hy) ?_
    intro P _ hfinal C hC x hx y hy
    obtain ⟨D, hD, s, -, hmem⟩ := mem_refine.mp hC
    exact hfinal D hD x ((hmem x).mp hx).1 y ((hmem y).mp hy).1
  · -- the classes are those that one more round makes
    intro C hC x hx y hy
    exact signature_eq_of_mem_refine (hfixed.symm ▸ hC) hx hy

end Dfa
end RegexAutomata
