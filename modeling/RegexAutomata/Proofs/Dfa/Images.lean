/-
# Automata that mirror each other

A function from the states of one automaton to those of another makes the second *mirror* the first if it
takes the live states to the live states, the final ones to final ones and each move between live states
to a move (`Dfa.Mirrors`).  It may join states.

If the function also keeps the order of the classes (`Dfa.Keeps`), refinement of the second automaton goes
through the same rounds as refinement of the first, and its classes are the images of those of the first,
in the same order (`Dfa.Mirrors.refinement_image`).
-/
import RegexAutomata.Proofs.Dfa.Order
import RegexAutomata.Proofs.Dfa.Reachability

namespace RegexAutomata
namespace Dfa

variable {f : Nat → Nat} {d e : Dfa} {P : List StateSet} {S : StateSet} {x : Nat}

/-! ### The order of images -/

/-- The images of classes do not meet, and those of the parts of a class are in the order of the
parts. -/
structure Keeps (f : Nat → Nat) (d : Dfa) (P : List StateSet) : Prop where
  disjoint : (P.map (StateSet.image f)).Pairwise fun C D => ∀ i ∈ C, i ∉ D
  precedes : ∀ C ∈ P,
    ((C.splitBy (d.signature (classIndex P))).map (StateSet.image f)).Pairwise StateSet.Precedes

lemma keeps_of_ascending (h : Ascending f (d.refine P)) : Keeps f d P where
  disjoint := (ascending_of_refine h).disjoint_image
  precedes := fun _ hC =>
    (ascending_splitBy_of_refine h hC).pairwise_precedes_image StateSet.divides_splitBy

lemma keeps_of_lt (hP : Divides P S) (h : ∀ x ∈ S, ∀ y ∈ S, x < y → f x < f y) : Keeps f d P where
  disjoint := by
    refine List.pairwise_map.mpr (hP.disjoint.imp_of_mem ?_)
    intro C D hC hD hCD i hi hi'
    obtain ⟨x, hx, rfl⟩ := StateSet.mem_image.mp hi
    obtain ⟨y, hy, hxy⟩ := StateSet.mem_image.mp hi'
    have hxS := hP.mem_of_mem hC hx
    have hyS := hP.mem_of_mem hD hy
    rcases Nat.lt_trichotomy x y with hlt | rfl | hlt
    · exact Nat.ne_of_gt (h x hxS y hyS hlt) hxy
    · exact hCD x hx hy
    · exact Nat.ne_of_lt (h y hyS x hxS hlt) hxy
  precedes := by
    intro C hC
    refine List.pairwise_map.mpr (StateSet.pairwise_precedes_splitBy.imp_of_mem ?_)
    rintro D E hD hE ⟨x, hx, hlt⟩
    have hmem : ∀ {G}, G ∈ C.splitBy (d.signature (classIndex P)) → ∀ y ∈ G, y ∈ S :=
      fun hG y hy => hP.mem_of_mem hC (StateSet.divides_splitBy.mem_of_mem hG hy)
    refine ⟨f x, StateSet.mem_image.mpr ⟨x, hx, rfl⟩, ?_⟩
    intro i hi
    obtain ⟨y, hy, rfl⟩ := StateSet.mem_image.mp hi
    exact h x (hmem hD x hx) y (hmem hE y hy) (hlt y hy)

/-- The image of a state is in the class with the number of its class. -/
lemma Keeps.getElem?_classIndex_image (h : Keeps f d P) (hP : Divides P S) (hx : x ∈ S) :
    (classIndex (P.map (StateSet.image f)))[f x]? = (classIndex P)[x]? := by
  obtain ⟨C, hC, hxC⟩ := (hP.mem_iff x).mp hx
  obtain ⟨i, hi⟩ := List.mem_iff_getElem?.mp hC
  rw [(getElem?_classIndex hP.disjoint).mpr ⟨C, hi, hxC⟩]
  refine (getElem?_classIndex h.disjoint).mpr ⟨C.image f, ?_, ?_⟩
  · rw [List.getElem?_map, hi, Option.map_some]
  · exact StateSet.mem_image.mpr ⟨x, hxC, rfl⟩

/-- The image of a division divides the image. -/
lemma Keeps.divides_image (h : Keeps f d P) (hP : Divides P S) :
    Divides (P.map (StateSet.image f)) (S.image f) := by
  refine ⟨?_, h.disjoint, ?_⟩
  · intro C hC
    obtain ⟨D, hD, rfl⟩ := List.mem_map.mp hC
    obtain ⟨x, hx⟩ := hP.exists_mem D hD
    exact ⟨f x, StateSet.mem_image.mpr ⟨x, hx, rfl⟩⟩
  · intro i
    simp only [StateSet.mem_image, List.mem_map, hP.mem_iff]
    constructor
    · rintro ⟨x, ⟨C, hC, hx⟩, rfl⟩
      exact ⟨_, ⟨C, hC, rfl⟩, StateSet.mem_image.mpr ⟨x, hx, rfl⟩⟩
    · rintro ⟨_, ⟨C, hC, rfl⟩, hi⟩
      obtain ⟨x, hx, rfl⟩ := StateSet.mem_image.mp hi
      exact ⟨x, ⟨C, hC, hx⟩, rfl⟩

/-! ### Refinement of a mirrored automaton -/

/-- One automaton has the live states of another, as they are renamed and joined by a function, and the
moves between them. -/
structure Mirrors (f : Nat → Nat) (d e : Dfa) : Prop where
  alphabet_eq : e.alphabet = d.alphabet
  live_eq : e.live = d.live.image f
  final_iff : ∀ x ∈ d.live, f x ∈ e.finals ↔ x ∈ d.finals
  step_of_live : ∀ x ∈ d.live, ∀ a ∈ d.alphabet.ids, ∀ y ∈ d.live, d.step x a = some y →
    e.step (f x) a = some (f y)
  step_of_not_live : ∀ x ∈ d.live, ∀ a ∈ d.alphabet.ids, (∀ y ∈ d.live, d.step x a ≠ some y) →
    ∀ j ∈ e.live, e.step (f x) a ≠ some j

namespace Mirrors

/-- In the beginning the classes are the images of those of the first automaton. -/
lemma initialClasses_image (h : Mirrors f d e) :
    e.initialClasses = d.initialClasses.map (StateSet.image f) := by
  have hdiff : e.live.diff e.finals = (d.live.diff d.finals).image f := by
    ext i
    simp only [h.live_eq, StateSet.mem_diff, StateSet.mem_image]
    constructor
    · rintro ⟨⟨x, hx, rfl⟩, hfinal⟩
      exact ⟨x, ⟨hx, mt (h.final_iff x hx).mpr hfinal⟩, rfl⟩
    · rintro ⟨x, ⟨hx, hfinal⟩, rfl⟩
      exact ⟨⟨x, hx, rfl⟩, mt (h.final_iff x hx).mp hfinal⟩
  have hinter : e.live.inter e.finals = (d.live.inter d.finals).image f := by
    ext i
    simp only [h.live_eq, StateSet.mem_inter, StateSet.mem_image]
    constructor
    · rintro ⟨⟨x, hx, rfl⟩, hfinal⟩
      exact ⟨x, ⟨hx, (h.final_iff x hx).mp hfinal⟩, rfl⟩
    · rintro ⟨x, ⟨hx, hfinal⟩, rfl⟩
      exact ⟨⟨x, hx, rfl⟩, (h.final_iff x hx).mpr hfinal⟩
  have hempty : ((!·.isEmpty) ∘ StateSet.image f) = fun C : StateSet => !C.isEmpty := by
    funext C
    rw [Function.comp_apply, StateSet.isEmpty_image]
  rw [initialClasses, initialClasses, hdiff, hinter]
  show List.filter _ (List.map _ [_, _]) = _
  rw [List.filter_map, hempty]

/-- The moves of an image lead to the images of the classes to which the moves of the state lead. -/
lemma bind_classIndex_image (h : Mirrors f d e) (hP : Divides P d.live) (hkeeps : Keeps f d P)
    (hx : x ∈ d.live) {a : Nat} (ha : a ∈ d.alphabet.ids) :
    (e.step (f x) a).bind ((classIndex (P.map (StateSet.image f)))[·]?) =
      (d.step x a).bind ((classIndex P)[·]?) := by
  by_cases hlive : ∃ y ∈ d.live, d.step x a = some y
  · obtain ⟨y, hy, hstep⟩ := hlive
    rw [hstep, h.step_of_live x hx a ha y hy hstep, Option.bind_some, Option.bind_some,
      hkeeps.getElem?_classIndex_image hP hy]
  · have hnone : (d.step x a).bind ((classIndex P)[·]?) = none := by
      rw [Option.bind_eq_none_iff]
      intro y hstep
      exact (getElem?_classIndex_eq_none hP).mpr fun hy => hlive ⟨y, hy, hstep⟩
    rw [hnone, Option.bind_eq_none_iff]
    intro j hj
    refine (getElem?_classIndex_eq_none (hkeeps.divides_image hP)).mpr fun hmem => ?_
    exact h.step_of_not_live x hx a ha (fun y hy hstep => hlive ⟨y, hy, hstep⟩) j
      (h.live_eq ▸ hmem) hj

/-- A round divides the images of classes into the images of their parts. -/
lemma refine_image (h : Mirrors f d e) (hP : Divides P d.live) (hkeeps : Keeps f d P) :
    e.refine (P.map (StateSet.image f)) = (d.refine P).map (StateSet.image f) := by
  rw [refine, refine, List.flatMap_map, List.map_flatMap]
  refine List.flatMap_congr ?_
  intro C hC
  refine StateSet.splitBy_image ?_ (hkeeps.precedes C hC)
  intro x hx
  rw [signature, h.alphabet_eq]
  exact List.map_congr_left fun a ha =>
    h.bind_classIndex_image hP hkeeps (hP.mem_of_mem hC hx) ha

/-- If the order of the classes is kept in all rounds, refinement ends with the images of the
classes. -/
lemma refinement_image (h : Mirrors f d e) {n : Nat} (hn : d.refinement.2 = d.refine^[n] d.initialClasses)
    (hfixed : d.refine d.refinement.2 = d.refinement.2)
    (hkeeps : ∀ j ≤ n, Keeps f d (d.refine^[j] d.initialClasses)) :
    e.refinement.2 = d.refinement.2.map (StateSet.image f) := by
  have hdivides : ∀ j, Divides (d.refine^[j] d.initialClasses) d.live :=
    divides_iterate_refine divides_initialClasses
  have hround : ∀ j ≤ n, e.refine^[j] e.initialClasses =
      (d.refine^[j] d.initialClasses).map (StateSet.image f) := by
    intro j hj
    induction j with
    | zero => exact h.initialClasses_image
    | succ j ih =>
      have hj' := Nat.le_of_succ_le hj
      rw [Function.iterate_succ_apply', Function.iterate_succ_apply', ih hj']
      exact h.refine_image (hdivides j) (hkeeps j hj')
  have hlast := hround n (Nat.le_refl n)
  rw [hn, ← hlast]
  refine refinement_eq_iterate ?_
  rw [hlast, h.refine_image (hdivides n) (hkeeps n (Nat.le_refl n)), ← hn, hfixed]

end Mirrors

end Dfa
end RegexAutomata
