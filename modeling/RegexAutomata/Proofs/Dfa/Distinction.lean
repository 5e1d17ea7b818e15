/-
# States that words tell apart

Two states are *apart* if some word is accepted from one of them and not from the other.  If a final state
can be reached from every live state (`Dfa.Trim`), then a run from a live state is lost exactly if none of
its continuations is accepted (`Dfa.Trim.lost_iff`), so live states that are not apart are
indistinguishable.  Hence refinement only ever divides states that are apart (`Dfa.separates_refinement`).
-/
import RegexAutomata.Proofs.Dfa.Indistinguishability

namespace RegexAutomata
namespace Dfa

/-- A word leads from a state to a final state. -/
def AcceptsFrom (d : Dfa) (s : Nat) (u : List Nat) : Prop := ∃ t, d.walk s u = some t ∧ t ∈ d.finals

/-- Some word of symbol ids is accepted from one of two states and not from the other. -/
def Apart (d : Dfa) (s t : Nat) : Prop :=
  ∃ u, (∀ a ∈ u, a ∈ d.alphabet.ids) ∧ ¬(d.AcceptsFrom s u ↔ d.AcceptsFrom t u)

/-- From every live state some word of symbol ids is accepted. -/
def Trim (d : Dfa) : Prop :=
  ∀ s ∈ d.live, ∃ u, (∀ a ∈ u, a ∈ d.alphabet.ids) ∧ d.AcceptsFrom s u

variable {d : Dfa} {p q s t : Nat} {u v : List Nat}

lemma Apart.symm (h : d.Apart s t) : d.Apart t s := by
  obtain ⟨u, hu, hne⟩ := h
  exact ⟨u, hu, fun h => hne h.symm⟩

/-- What is accepted after a word is what is accepted from the state to which the word leads. -/
lemma acceptsFrom_append_iff (hwalk : d.walk s u = some t) :
    d.AcceptsFrom s (u ++ v) ↔ d.AcceptsFrom t v := by
  rw [AcceptsFrom, walk_append, hwalk, Option.bind_some, AcceptsFrom]

lemma acceptsWord_append_iff (hrun : d.run u = some s) :
    d.AcceptsWord (u ++ v) ↔ d.AcceptsFrom s v := by
  obtain ⟨start, hstart, hwalk⟩ := Option.bind_eq_some_iff.mp hrun
  rw [← acceptsFrom_append_iff hwalk, AcceptsWord, run, hstart, Option.bind_some, AcceptsFrom]

lemma DeadAbsorbs.not_acceptsFrom (h : d.DeadAbsorbs) (hs : d.dead? = some s)
    (hu : ∀ a ∈ u, a ∈ d.alphabet.ids) : ¬d.AcceptsFrom s u := by
  rintro ⟨t, hw, hfinal⟩
  exact h.not_mem_finals s hs (h.walk_eq hs hu hw ▸ hfinal)

/-! ### Live states that are not apart -/

/-- A run from a live state is lost exactly if none of its continuations is accepted. -/
lemma Trim.lost_iff (htrim : d.Trim) (hd : d.DeadAbsorbs) (hp : p ∈ d.live)
    (hu : ∀ a ∈ u, a ∈ d.alphabet.ids) :
    d.Lost p u ↔ ∀ v, (∀ a ∈ v, a ∈ d.alphabet.ids) → ¬d.AcceptsFrom p (u ++ v) := by
  constructor
  · rintro (hstuck | ⟨w, ⟨rest, rfl⟩, t, ht, hwalk⟩) v hv
    · rintro ⟨t, ht, -⟩
      rw [walk_append, hstuck, Option.bind_none] at ht
      exact absurd ht (by simp)
    · rw [List.append_assoc, acceptsFrom_append_iff hwalk]
      have hrest := (List.forall_mem_append.mp hu).2
      exact hd.not_acceptsFrom ht (List.forall_mem_append.mpr ⟨hrest, hv⟩)
  · intro hnone
    by_contra hlost
    obtain ⟨s, hs, hwalk⟩ := exists_live_of_not_lost hp hu hlost
    obtain ⟨v, hv, haccepts⟩ := htrim s hs
    exact hnone v hv ((acceptsFrom_append_iff hwalk).mpr haccepts)

lemma Trim.indistinguishable (htrim : d.Trim) (hd : d.DeadAbsorbs) (hp : p ∈ d.live) (hq : q ∈ d.live)
    (h : ¬d.Apart p q) : d.Indistinguishable p q := by
  have haccepts : ∀ u, (∀ a ∈ u, a ∈ d.alphabet.ids) → (d.AcceptsFrom p u ↔ d.AcceptsFrom q u) := by
    intro u hu
    by_contra hne
    exact h ⟨u, hu, hne⟩
  intro u hu
  have hlost : d.Lost p u ↔ d.Lost q u := by
    rw [htrim.lost_iff hd hp hu, htrim.lost_iff hd hq hu]
    exact forall₂_congr fun v hv =>
      not_congr (haccepts (u ++ v) (List.forall_mem_append.mpr ⟨hu, hv⟩))
  refine ⟨hlost, fun hnot => ?_⟩
  obtain ⟨s, -, hs⟩ := exists_live_of_not_lost hp hu hnot
  obtain ⟨t, -, ht⟩ := exists_live_of_not_lost hq hu (mt hlost.mpr hnot)
  have hfinal := haccepts u hu
  simp only [AcceptsFrom, hs, ht, Option.some.injEq, exists_eq_left'] at hfinal
  exact ⟨s, t, hs, ht, hfinal⟩

/-! ### Refinement divides states that are apart -/

variable {P : List StateSet} {x y : Nat}

/-- States of different classes are apart. -/
def Separates (d : Dfa) (P : List StateSet) : Prop :=
  P.Pairwise fun C D => ∀ x ∈ C, ∀ y ∈ D, d.Apart x y

lemma Separates.apart (h : d.Separates P) {i j : Nat} {C D : StateSet} (hC : P[i]? = some C)
    (hD : P[j]? = some D) (hij : i ≠ j) (hx : x ∈ C) (hy : y ∈ D) : d.Apart x y := by
  obtain ⟨hi, rfl⟩ := List.getElem?_eq_some_iff.mp hC
  obtain ⟨hj, rfl⟩ := List.getElem?_eq_some_iff.mp hD
  rcases Nat.lt_or_gt_of_ne hij with hlt | hgt
  · exact List.pairwise_iff_getElem.mp h i j hi hj hlt x hx y hy
  · exact (List.pairwise_iff_getElem.mp h j i hj hi hgt y hy x hx).symm

/-- Refinement ends with classes whose states are apart: if two states were not, they would be
indistinguishable and hence in one class. -/
lemma separates_refinement (htrim : d.Trim) (hd : d.DeadAbsorbs) : d.Separates d.refinement.2 := by
  have hdivides : Divides d.refinement.2 d.live := (stable_refinement d).divides
  refine hdivides.disjoint.imp_of_mem ?_
  intro C D hC hD hCD x hx y hy
  by_contra hapart
  have hlivex : x ∈ d.live := hdivides.mem_of_mem hC hx
  have hlivey : y ∈ d.live := hdivides.mem_of_mem hD hy
  have hxy : d.Indistinguishable x y := htrim.indistinguishable hd hlivex hlivey hapart
  exact hCD y (gathers_refinement C hC x hx y hlivey hxy) hy

end Dfa
end RegexAutomata
