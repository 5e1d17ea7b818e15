/-
# Renumbering the live states

An automaton may be another one with its live states *renumbered*: they are in the same order and keep
their labels, and nothing but the dead state is anywhere else (`Dfa.Renumbers`).  The classes that are
found by minimization are numbered in the order of their discovery and represented by their least members,
so they only depend on the order of the live states.  Hence both automata have the same minimized
automaton, apart from the sets of states that its states stand for (`Dfa.Renumbers.minimize_eq`).
-/
import RegexAutomata.Proofs.Names

namespace RegexAutomata

variable {f : Nat → Nat}

/-- A function that keeps the order of the members keeps the least one. -/
lemma StateSet.min?_image {S : StateSet} (h : ∀ x ∈ S, ∀ y ∈ S, x < y → f x < f y) :
    (S.image f).min? = S.min?.map f := by
  cases hmin : S.min? with
  | none =>
    rw [Option.map_none, Option.eq_none_iff_forall_ne_some]
    intro i hi
    obtain ⟨x, hx, -⟩ := mem_image.mp (min?_eq_some_iff.mp hi).1
    obtain ⟨y, -, hy⟩ := exists_min? hx
    exact absurd (hmin.symm.trans hy) (by simp)
  | some x =>
    obtain ⟨hx, hle⟩ := min?_eq_some_iff.mp hmin
    refine min?_eq_some_iff.mpr ⟨mem_image.mpr ⟨x, hx, rfl⟩, ?_⟩
    intro i hi
    obtain ⟨y, hy, rfl⟩ := mem_image.mp hi
    rcases Nat.lt_or_eq_of_le (hle y hy) with hlt | rfl
    · exact Nat.le_of_lt (h x hx y hy hlt)
    · exact Nat.le_refl _

namespace Dfa

variable {d e : Dfa} {P : List StateSet} {i a : Nat}

lemma mem_of_representative? {r : Nat} (h : representative? P i = some r) :
    ∃ C, P[i]? = some C ∧ r ∈ C := by
  obtain ⟨C, hC, hr⟩ := Option.bind_eq_some_iff.mp h
  exact ⟨C, hC, (StateSet.min?_eq_some_iff.mp hr).1⟩

/-- What the states stand for is not written. -/
lemma text_eq_of_mapping? (d : Dfa) (mapping? : Option (List StateSet)) :
    { d with mapping? := mapping? }.text = d.text := rfl

/-- One automaton is another with its live states renumbered in the same order. -/
structure Renumbers (f : Nat → Nat) (d e : Dfa) : Prop extends Mirrors f d e where
  lt_of_lt : ∀ x ∈ d.live, ∀ y ∈ d.live, x < y → f x < f y
  labelOf_eq : ∀ x ∈ d.live, e.labelOf (f x) = d.labelOf x
  start_of_live : ∀ x ∈ d.live, d.start? = some x → e.start? = some (f x)
  start_of_not_live : (∀ x ∈ d.live, d.start? ≠ some x) → ∀ j ∈ e.live, e.start? ≠ some j

namespace Renumbers

/-- Refinement ends with the same classes, renumbered. -/
lemma refinement_eq (h : Renumbers f d e) :
    e.refinement.2 = d.refinement.2.map (StateSet.image f) := by
  obtain ⟨n, hn, hfixed⟩ := d.exists_refinement_eq_iterate
  exact h.refinement_image hn hfixed fun j _ =>
    keeps_of_lt (divides_iterate_refine divides_initialClasses j) h.lt_of_lt

/-! ### The quotient -/

lemma representative?_image (h : Renumbers f d e) (hP : Divides P d.live) (i : Nat) :
    representative? (P.map (StateSet.image f)) i = (representative? P i).map f := by
  rw [representative?, representative?, List.getElem?_map]
  cases hC : P[i]? with
  | none => rfl
  | some C =>
    have hlive : ∀ x ∈ C, x ∈ d.live := fun x hx =>
      hP.mem_of_mem (List.mem_of_getElem? hC) hx
    exact StateSet.min?_image fun x hx y hy => h.lt_of_lt x (hlive x hx) y (hlive y hy)

lemma moveClass?_image (h : Renumbers f d e) (hP : Divides P d.live) (ha : a ∈ d.alphabet.ids) :
    e.moveClass? (P.map (StateSet.image f)) i a = d.moveClass? P i a := by
  rw [moveClass?, moveClass?, h.representative?_image hP]
  cases hr : representative? P i with
  | none => rfl
  | some r =>
    obtain ⟨C, hC, hmem⟩ := mem_of_representative? hr
    have hlive : r ∈ d.live := hP.mem_of_mem (List.mem_of_getElem? hC) hmem
    exact h.bind_classIndex_image hP (keeps_of_lt hP h.lt_of_lt) hlive ha

lemma startClass?_image (h : Renumbers f d e) (hP : Divides P d.live) :
    e.start?.bind ((classIndex (P.map (StateSet.image f)))[·]?) =
      d.start?.bind ((classIndex P)[·]?) := by
  have hkeeps : Keeps f d P := keeps_of_lt hP h.lt_of_lt
  by_cases hlive : ∃ x ∈ d.live, d.start? = some x
  · obtain ⟨x, hx, hstart⟩ := hlive
    rw [hstart, h.start_of_live x hx hstart, Option.bind_some, Option.bind_some,
      hkeeps.getElem?_classIndex_image hP hx]
  · have hnone : d.start?.bind ((classIndex P)[·]?) = none := by
      rw [Option.bind_eq_none_iff]
      intro x hstart
      exact (getElem?_classIndex_eq_none hP).mpr fun hx => hlive ⟨x, hx, hstart⟩
    rw [hnone, Option.bind_eq_none_iff]
    intro j hj
    refine (getElem?_classIndex_eq_none (hkeeps.divides_image hP)).mpr fun hmem => ?_
    exact h.start_of_not_live (fun x hx hstart => hlive ⟨x, hx, hstart⟩) j (h.live_eq ▸ hmem) hj

lemma dead?_quotient_image (h : Renumbers f d e) (hP : Divides P d.live) :
    (e.quotient (P.map (StateSet.image f))).dead? = (d.quotient P).dead? := by
  have hneeds : (e.quotient (P.map (StateSet.image f))).dead? = some P.length ↔
      (d.quotient P).dead? = some P.length := by
    have hdead := dead?_quotient (d := e) (P := P.map (StateSet.image f))
    rw [List.length_map, h.startClass?_image hP, h.alphabet_eq] at hdead
    rw [hdead, dead?_quotient]
    refine or_congr_right (exists_congr fun i => and_congr_right fun _ => ?_)
    refine exists_congr fun a => and_congr_right fun ha => ?_
    rw [h.moveClass?_image hP ha]
  ext i
  constructor
  · intro hi
    obtain rfl : i = P.length := by simpa using eq_of_dead?_quotient hi
    exact hneeds.mp hi
  · intro hi
    obtain rfl := eq_of_dead?_quotient hi
    exact hneeds.mpr hi

lemma numStates_quotient_image (h : Renumbers f d e) (hP : Divides P d.live) :
    (e.quotient (P.map (StateSet.image f))).numStates = (d.quotient P).numStates := by
  rw [numStates_quotient, numStates_quotient (P := P), h.dead?_quotient_image hP, List.length_map]

lemma start?_quotient_image (h : Renumbers f d e) (hP : Divides P d.live) :
    (e.quotient (P.map (StateSet.image f))).start? = (d.quotient P).start? := by
  rw [start?_quotient, start?_quotient, classOf, classOf, h.startClass?_image hP, List.length_map]

lemma finals_quotient_image (h : Renumbers f d e) (hP : Divides P d.live) :
    (e.quotient (P.map (StateSet.image f))).finals = (d.quotient P).finals := by
  ext i
  rw [mem_finals_quotient, mem_finals_quotient, List.getElem?_map]
  have hfinal : ∀ {C}, P[i]? = some C → ∀ x ∈ C, f x ∈ e.finals ↔ x ∈ d.finals := fun hC x hx =>
    h.final_iff x (hP.mem_of_mem (List.mem_of_getElem? hC) hx)
  constructor
  · rintro ⟨D, hD, j, hj, hmem⟩
    obtain ⟨C, hC, rfl⟩ := Option.map_eq_some_iff.mp hD
    obtain ⟨x, hx, rfl⟩ := StateSet.mem_image.mp hj
    exact ⟨C, hC, x, hx, (hfinal hC x hx).mp hmem⟩
  · rintro ⟨C, hC, x, hx, hmem⟩
    exact ⟨_, Option.map_eq_some_iff.mpr ⟨C, hC, rfl⟩, f x, StateSet.mem_image.mpr ⟨x, hx, rfl⟩,
      (hfinal hC x hx).mpr hmem⟩

lemma table_quotient_image (h : Renumbers f d e) (hP : Divides P d.live) :
    (e.quotient (P.map (StateSet.image f))).table = (d.quotient P).table := by
  rw [table_quotient, table_quotient (P := P), h.numStates_quotient_image hP, h.alphabet_eq,
    List.length_map]
  refine Table.tabulate_congr fun i _ a ha => ?_
  rw [h.moveClass?_image hP ha]

lemma labels_quotient_image (h : Renumbers f d e) (hP : Divides P d.live) :
    (e.quotient (P.map (StateSet.image f))).labels = (d.quotient P).labels := by
  rw [labels_quotient, labels_quotient (P := P), h.numStates_quotient_image hP]
  refine congrArg List.toArray (List.map_congr_left fun i _ => ?_)
  rw [h.representative?_image hP]
  cases hr : representative? P i with
  | none => rfl
  | some r =>
    obtain ⟨C, hC, hmem⟩ := mem_of_representative? hr
    exact h.labelOf_eq r (hP.mem_of_mem (List.mem_of_getElem? hC) hmem)

/-- The minimized automata differ at most in what their states stand for. -/
lemma minimize_eq (h : Renumbers f d e) (hd : ¬(d.numStates = 0 ∨ d.start? = none))
    (he : ¬(e.numStates = 0 ∨ e.start? = none)) :
    e.minimize = { d.minimize with mapping? := e.minimize.mapping? } := by
  have hP := (stable_refinement d).divides
  rw [minimize_eq_quotient hd, minimize_eq_quotient he, h.refinement_eq]
  exact Dfa.ext (h.numStates_quotient_image hP) (h.start?_quotient_image hP)
    (h.finals_quotient_image hP) (h.dead?_quotient_image hP) h.alphabet_eq
    (h.table_quotient_image hP) rfl (h.labels_quotient_image hP)

lemma text_minimize_eq (h : Renumbers f d e) (hd : ¬(d.numStates = 0 ∨ d.start? = none))
    (he : ¬(e.numStates = 0 ∨ e.start? = none)) : e.minimize.text = d.minimize.text := by
  rw [h.minimize_eq hd he, text_eq_of_mapping?]

end Renumbers

/-! ### Automata without live states -/

/-- Without live states there is only the dead state, which has no record. -/
lemma toFile_minimize_of_live_empty (hlive : ∀ s, s ∉ d.live)
    (hd : ¬(d.numStates = 0 ∨ d.start? = none)) : d.minimize.toFile = ⟨deadName, .empty⟩ := by
  have hclasses : d.refinement.2 = [] := by
    rw [List.eq_nil_iff_forall_not_mem]
    intro C hC
    obtain ⟨x, hx⟩ := (stable_refinement d).divides.exists_mem C hC
    exact hlive x ((stable_refinement d).divides.mem_of_mem hC hx)
  have hstart : d.start?.bind ((classIndex [])[·]?) = none := by
    cases d.start? <;> simp [classIndex]
  have hdead : (d.quotient []).dead? = some 0 := dead?_quotient.mpr (Or.inl hstart)
  have hnum : (d.quotient []).numStates = 1 := by simp [numStates_quotient, hdead]
  have hstart' : (d.quotient []).start? = some 0 := by
    rw [start?_quotient, classOf, hstart]
    rfl
  have hrecorded : (d.quotient []).recordedStates = [] := by simp [recordedStates, hdead, hnum]
  rw [minimize_eq_quotient hd, hclasses, toFile_eq, hstart', hrecorded, Option.map_some,
    Option.getD_some, stateName_of_dead hdead]
  rfl

end Dfa
end RegexAutomata
