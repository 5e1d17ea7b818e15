/-
# The emission of the moves of classes

The states are visited in order, and the first state of a class that is visited is its least member.  So
when the states below some number have been visited, exactly the classes whose least members are below it
have emitted their moves, which are those of the least member, and exactly the classes with a final state
below it are known to be final (`Dfa.Emitted`).  This is kept by every visit (`Dfa.Emitted.visit`), and in
the end the moves and final states of the quotient have been found.

No access of the construction is out of bounds if the members of the classes, the ends of their moves and
the start state are states, and every state has a label.  The result is then the quotient
(`Dfa.quotientChecked_eq`).
-/
import RegexAutomata.Proofs.Dfa.ClassTable
import RegexAutomata.Proofs.Dfa.Idempotence

namespace RegexAutomata
namespace Dfa

variable {d : Dfa} {P : List StateSet} {S : StateSet} {table : Array (Option Nat)} {k : Nat}
  {e : Emission}

/-! ### Visiting the states -/

/-- What is known of the classes when the states below a number have been visited. -/
structure Emitted (d : Dfa) (P : List StateSet) (k : Nat) (e : Emission) : Prop where
  size_rows : e.rows.size = P.length
  row_eq : ∀ i < P.length, e.rows[i]? = some (if (representative? P i).any (· < k) then
    some (d.alphabet.ids.map (d.moveClass? P i)) else none)
  mem_finals : ∀ i, i ∈ e.finals ↔ ∃ C, P[i]? = some C ∧ ∃ s ∈ C, s < k ∧ s ∈ d.finals

lemma emitted_zero : d.Emitted P 0 ⟨Array.replicate P.length none, ∅⟩ where
  size_rows := Array.size_replicate
  row_eq := by
    intro i hi
    cases representative? P i <;> simp [hi]
  mem_finals := by simp

/-- The least member of a class comes first. -/
lemma representative_le {i r s : Nat} {C : StateSet} (hC : P[i]? = some C) (hs : s ∈ C)
    (hr : representative? P i = some r) : r ≤ s := by
  rw [representative?, hC, Option.bind_some] at hr
  exact (StateSet.min?_eq_some_iff.mp hr).2 s hs

lemma mem_of_representative {i r : Nat} {C : StateSet} (hC : P[i]? = some C)
    (hr : representative? P i = some r) : r ∈ C := by
  rw [representative?, hC, Option.bind_some] at hr
  exact (StateSet.min?_eq_some_iff.mp hr).1

/-- Visiting a state that does not represent a class does not change which classes have been met. -/
lemma any_representative_succ {i : Nat} (hne : representative? P i ≠ some k) :
    (representative? P i).any (· < k + 1) = (representative? P i).any (· < k) := by
  cases hr : representative? P i with
  | none => rfl
  | some r =>
    have hrk : r ≠ k := fun heq => hne (heq ▸ hr)
    simp only [Option.any_some, decide_eq_decide]
    omega

lemma exists_mem_lt_succ {C : StateSet} {p : Nat → Prop} :
    (∃ s ∈ C, s < k + 1 ∧ p s) ↔ (∃ s ∈ C, s < k ∧ p s) ∨ k ∈ C ∧ p k := by
  simp only [Nat.lt_succ_iff_lt_or_eq]
  grind

namespace Emitted

/-- A state without a class changes nothing. -/
lemma visit_of_none (he : d.Emitted P k e) (h : P.Pairwise fun C D => ∀ x ∈ C, x ∉ D)
    (hk : (classIndex P)[k]? = none) : d.Emitted P (k + 1) e where
  size_rows := he.size_rows
  row_eq := by
    intro i hi
    rw [he.row_eq i hi, any_representative_succ]
    intro hr
    have hC : P[i]? = some P[i] := List.getElem?_eq_getElem hi
    rw [(getElem?_classIndex h).mpr ⟨_, hC, mem_of_representative hC hr⟩] at hk
    exact absurd hk (by simp)
  mem_finals := by
    intro i
    rw [he.mem_finals i]
    refine exists_congr fun C => and_congr_right fun hC => ?_
    have hkC : k ∉ C := by
      intro hkC
      rw [(getElem?_classIndex h).mpr ⟨C, hC, hkC⟩] at hk
      exact absurd hk (by simp)
    rw [exists_mem_lt_succ, or_iff_left fun hmem => hkC hmem.1]

section

variable {i : Nat} (he : d.Emitted P k e) (h : P.Pairwise fun C D => ∀ x ∈ C, x ∉ D)
  (hk : (classIndex P)[k]? = some i)

include he h hk

/-- A final state makes its class final. -/
lemma mem_finals_succ (j : Nat) : j ∈ (if k ∈ d.finals then e.finals.insert i else e.finals) ↔
    ∃ C, P[j]? = some C ∧ ∃ s ∈ C, s < k + 1 ∧ s ∈ d.finals := by
  have hclass : ∀ C, P[j]? = some C → (k ∈ C ↔ j = i) := by
    intro C hC
    constructor
    · intro hkC
      rw [(getElem?_classIndex h).mpr ⟨C, hC, hkC⟩, Option.some.injEq] at hk
      exact hk
    · rintro rfl
      obtain ⟨D, hD, hkD⟩ := (getElem?_classIndex h).mp hk
      obtain rfl := Option.some.inj (hC.symm.trans hD)
      exact hkD
  have hmem : j ∈ (if k ∈ d.finals then e.finals.insert i else e.finals) ↔
      j ∈ e.finals ∨ j = i ∧ k ∈ d.finals := by
    split
    · rename_i hfinal
      rw [StateSet.mem_insert, or_comm, and_iff_left hfinal]
    · rename_i hfinal
      rw [or_iff_left fun hji => hfinal hji.2]
  rw [hmem, he.mem_finals j]
  constructor
  · rintro (⟨C, hC, s, hs, hlt, hfinal⟩ | ⟨rfl, hfinal⟩)
    · exact ⟨C, hC, s, hs, Nat.lt_succ_of_lt hlt, hfinal⟩
    · obtain ⟨C, hC, hkC⟩ := (getElem?_classIndex h).mp hk
      exact ⟨C, hC, k, hkC, Nat.lt_succ_self k, hfinal⟩
  · rintro ⟨C, hC, hs⟩
    rcases exists_mem_lt_succ.mp hs with hs | ⟨hkC, hfinal⟩
    · exact Or.inl ⟨C, hC, hs⟩
    · exact Or.inr ⟨(hclass C hC).mp hkC, hfinal⟩

/-- No other class is represented by the state. -/
lemma row_eq_of_ne {j : Nat} (hj : j < P.length) (hji : j ≠ i) : e.rows[j]? =
    some (if (representative? P j).any (· < k + 1) then
      some (d.alphabet.ids.map (d.moveClass? P j)) else none) := by
  rw [he.row_eq j hj, any_representative_succ]
  intro hr
  have hC : P[j]? = some P[j] := List.getElem?_eq_getElem hj
  rw [(getElem?_classIndex h).mpr ⟨_, hC, mem_of_representative hC hr⟩, Option.some.injEq] at hk
  exact hji hk

/-- A class that has been met keeps its moves. -/
lemma visit_of_lt {r : Nat} (hr : representative? P i = some r) (hlt : r < k) :
    d.Emitted P (k + 1)
      { e with finals := if k ∈ d.finals then e.finals.insert i else e.finals } where
  size_rows := he.size_rows
  row_eq := by
    intro j hj
    by_cases hji : j = i
    · subst hji
      rw [he.row_eq j hj, any_representative_succ]
      rw [hr, ne_eq, Option.some.injEq]
      omega
    · exact he.row_eq_of_ne h hk hj hji
  mem_finals := he.mem_finals_succ h hk

/-- A class that is met for the first time gets the moves of the state. -/
lemma visit_of_eq (hr : representative? P i = some k) : d.Emitted P (k + 1)
    ⟨e.rows.setIfInBounds i (some (d.alphabet.ids.map (d.moveClass? P i))),
      if k ∈ d.finals then e.finals.insert i else e.finals⟩ where
  size_rows := by rw [Array.size_setIfInBounds, he.size_rows]
  row_eq := by
    intro j hj
    rw [Array.getElem?_setIfInBounds]
    by_cases hji : i = j
    · subst hji
      rw [if_pos rfl, if_pos (he.size_rows ▸ hj), hr]
      simp
    · rw [if_neg hji]
      exact he.row_eq_of_ne h hk hj (Ne.symm hji)
  mem_finals := he.mem_finals_succ h hk

end

end Emitted

/-- The class of a destination is found if the destination is a state. -/
lemma targetClass_eq (ht : d.IsClassTable P table) {s a : Nat}
    (hs : ∀ t, d.step s a = some t → t < d.numStates) :
    d.targetClass table s a = .ok ((d.step s a).bind ((classIndex P)[·]?)) := by
  rw [targetClass]
  cases hstep : d.step s a with
  | none => rfl
  | some t => exact fetch_eq_ok_iff.mpr (ht.getElem?_eq t (hs t hstep))

lemma mapM_targetClass (ht : d.IsClassTable P table) {s : Nat}
    (hs : ∀ a ∈ d.alphabet.ids, ∀ t, d.step s a = some t → t < d.numStates) :
    d.alphabet.ids.mapM (d.targetClass table s) =
      .ok (d.alphabet.ids.map fun a => (d.step s a).bind ((classIndex P)[·]?)) := by
  rw [mapM_eq_ok_iff, List.forall₂_map_right_iff, List.forall₂_same]
  exact fun a ha => targetClass_eq ht (hs a ha)

/-- Every visit finds what there is to be found at a state. -/
lemma Emitted.visit (he : d.Emitted P k e) (h : Divides P S) (ht : d.IsClassTable P table)
    (hS : ∀ s ∈ S, ∀ a ∈ d.alphabet.ids, ∀ t, d.step s a = some t → t < d.numStates)
    (hk : k < d.numStates) : ∃ e', d.visit table e k = .ok e' ∧ d.Emitted P (k + 1) e' := by
  rw [Dfa.visit, fetch_eq_ok_iff.mpr (ht.getElem?_eq k hk), ok_bind]
  cases hclass : (classIndex P)[k]? with
  | none => exact ⟨e, rfl, he.visit_of_none h.disjoint hclass⟩
  | some i =>
    obtain ⟨C, hC, hkC⟩ := (getElem?_classIndex h.disjoint).mp hclass
    have hi : i < P.length := (List.getElem?_eq_some_iff.mp hC).1
    obtain ⟨r, -, hr⟩ := exists_representative h hC
    have hrow := he.row_eq i hi
    rw [hr, Option.any_some] at hrow
    simp only [fetch_eq_ok_iff.mpr hrow, ok_bind]
    rcases Nat.lt_or_eq_of_le (representative_le hC hkC hr) with hlt | rfl
    · refine ⟨_, ?_, he.visit_of_lt h.disjoint hclass hr hlt⟩
      simp only [hlt, decide_true, if_true]
      rfl
    · refine ⟨_, ?_, he.visit_of_eq h.disjoint hclass hr⟩
      have hmoves : (d.alphabet.ids.map fun a => (d.step r a).bind ((classIndex P)[·]?)) =
          d.alphabet.ids.map (d.moveClass? P i) := by
        refine List.map_congr_left fun a _ => ?_
        rw [moveClass?, hr, Option.bind_some]
      have hmapM := mapM_targetClass ht (hS r (h.mem_of_mem (List.mem_of_getElem? hC) hkC))
      simp only [Nat.lt_irrefl, decide_false, hmapM, hmoves, ok_bind, alter_eq_ok hrow]
      rfl

/-- Visiting all states finds what there is to be found. -/
lemma exists_emit (h : Divides P S) (ht : d.IsClassTable P table)
    (hS : ∀ s ∈ S, ∀ a ∈ d.alphabet.ids, ∀ t, d.step s a = some t → t < d.numStates) :
    ∃ e, d.emit table P.length = .ok e ∧ d.Emitted P d.numStates e := by
  have hprefix : ∀ n ≤ d.numStates, ∃ e, (List.range n).foldlM (d.visit table)
      ⟨Array.replicate P.length none, ∅⟩ = .ok e ∧ d.Emitted P n e := by
    intro n
    induction n with
    | zero => exact fun _ => ⟨_, rfl, emitted_zero⟩
    | succ n ih =>
      intro hn
      obtain ⟨e, hfold, he⟩ := ih (by omega)
      obtain ⟨e', hvisit, he'⟩ := he.visit h ht hS hn
      refine ⟨e', ?_, he'⟩
      rw [List.range_succ, List.foldlM_append, hfold, ok_bind, List.foldlM_cons, hvisit]
      rfl
  exact hprefix d.numStates (Nat.le_refl _)

namespace Emitted

variable (he : d.Emitted P d.numStates e)

include he

/-- In the end each class has emitted its moves. -/
lemma target?_eq (h : Divides P S) (hS : ∀ s ∈ S, s < d.numStates) {i a : Nat} (hi : i ≤ P.length)
    (ha : a ∈ d.alphabet.ids) : e.target? i a = d.moveClass? P i a := by
  rcases Nat.lt_or_eq_of_le hi with hlt | rfl
  · obtain ⟨r, hrC, hr⟩ := exists_representative h (List.getElem?_eq_getElem hlt)
    have hrS : r < d.numStates := hS r (h.mem_of_mem (List.getElem_mem hlt) hrC)
    have hsize : a < d.alphabet.size := Alphabet.mem_ids.mp ha
    rw [Emission.target?, he.row_eq i hlt, hr]
    simp [hrS, Alphabet.ids, hsize]
  · rw [Emission.target?, Array.getElem?_eq_none (Nat.le_of_eq he.size_rows), moveClass?_length]
    rfl

lemma finals_eq (h : Divides P S) (hS : ∀ s ∈ S, s < d.numStates) :
    e.finals = (d.quotient P).finals := by
  ext i
  rw [he.mem_finals i, mem_finals_quotient]
  refine exists_congr fun C => and_congr_right fun hC => exists_congr fun s => and_congr_right fun hs => ?_
  exact and_iff_right (hS s (h.mem_of_mem (List.mem_of_getElem? hC) hs))

end Emitted

/-! ### The fields of the quotient -/

lemma mapM_classLabel (h : Divides P S) (hS : ∀ s ∈ S, s < d.labels.size) :
    (List.range P.length).mapM (d.classLabel P) = .ok ((List.range P.length).map fun i =>
      (representative? P i).elim i fun s => (d.labels[s]?).getD s) := by
  rw [mapM_eq_ok_iff, List.forall₂_map_right_iff, List.forall₂_same]
  intro i hi
  have hi' : i < P.length := List.mem_range.mp hi
  obtain ⟨r, hrC, hr⟩ := exists_representative h (List.getElem?_eq_getElem hi')
  have hlt := hS r (h.mem_of_mem (List.getElem_mem hi') hrC)
  rw [classLabel, hr, Option.elim_some, Array.getElem?_eq_getElem hlt, Option.getD_some]
  exact fetch_eq_ok_iff.mpr (Array.getElem?_eq_getElem hlt)

lemma startClass_eq (ht : d.IsClassTable P table) (hstart : ∀ s, d.start? = some s → s < d.numStates) :
    d.startClass table = .ok (d.start?.bind ((classIndex P)[·]?)) := by
  rw [startClass]
  cases hs : d.start? with
  | none => rfl
  | some s => exact fetch_eq_ok_iff.mpr (ht.getElem?_eq s (hstart s hs))

lemma mem_foldl_union {f : Nat → StateSet} {i x : Nat} {ms : List (Nat × Nat)} {T : StateSet} :
    x ∈ ms.foldl (fun T member => if member.2 = i then T.union (f member.1) else T) T ↔
      x ∈ T ∨ ∃ s, (s, i) ∈ ms ∧ x ∈ f s := by
  induction ms generalizing T with
  | nil => simp
  | cons member ms ih =>
    obtain ⟨t, j⟩ := member
    rw [List.foldl_cons, ih]
    by_cases hji : j = i
    · subst hji
      simp only [if_true, StateSet.mem_union, List.mem_cons, Prod.mk.injEq, and_true, or_and_right,
        exists_or, exists_eq_left, or_assoc]
    · simp only [hji, if_false, List.mem_cons, Prod.mk.injEq, Ne.symm hji, and_false, false_or]

lemma classMapping_eq {count : Nat} (hcount : P.length ≤ count) : d.classMapping P count =
    .ok (d.mapping?.map fun mapping => (List.range count).map fun i =>
      StateSet.unions ((P.getD i ∅).toList.map (mapping.getD · ∅))) := by
  rw [classMapping]
  cases d.mapping? with
  | none => rfl
  | some mapping =>
    obtain ⟨sets, hsets, hsize, hget⟩ := @alterAll_eq_ok StateSet (Array.replicate count ∅)
      ((members P).map fun member => (member.2, fun T => T.union (mapping.getD member.1 ∅))) (by
        intro change hchange
        obtain ⟨⟨s, i⟩, hm, rfl⟩ := List.mem_map.mp hchange
        obtain ⟨C, hC, -⟩ := mem_members.mp hm
        rw [Array.size_replicate]
        exact Nat.lt_of_lt_of_le (List.getElem?_eq_some_iff.mp hC).1 hcount)
    have hlist : sets.toList = (List.range count).map fun i =>
        StateSet.unions ((P.getD i ∅).toList.map (mapping.getD · ∅)) := by
      refine List.ext_getElem? fun i => ?_
      rw [Array.getElem?_toList, hget, Array.getElem?_replicate, List.getElem?_map]
      simp only [List.foldl_map]
      by_cases hi : i < count
      · rw [if_pos hi, List.getElem?_range hi, Option.map_some, Option.map_some, Option.some.injEq]
        ext x
        have hclass : P.getD i ∅ = (P[i]?).getD ∅ := List.getD_eq_getElem?_getD
        rw [mem_foldl_union (f := (mapping.getD · ∅)), StateSet.mem_unions_map, hclass]
        simp only [StateSet.not_mem_empty, false_or, mem_members, StateSet.mem_toList]
        cases P[i]? <;> simp
      · rw [if_neg hi, List.getElem?_eq_none (by simpa using hi), Option.map_none, Option.map_none]
    simp only [hsets, ok_bind, hlist]
    rfl

lemma isSome_dead?_quotient :
    (d.quotient P).dead?.isSome = true ↔ (d.quotient P).dead? = some P.length := by
  constructor
  · intro hsome
    obtain ⟨i, hi⟩ := Option.isSome_iff_exists.mp hsome
    rw [hi, eq_of_dead?_quotient hi]
  · exact Option.isSome_of_eq_some

lemma dead?_quotient_eq : (d.quotient P).dead? =
    if (d.quotient P).dead?.isSome = true then some P.length else none := by
  split
  · rename_i hsome
    exact isSome_dead?_quotient.mp hsome
  · rename_i hnone
    rwa [Bool.not_eq_true, Option.isSome_eq_false_iff, Option.isNone_iff_eq_none] at hnone

/-- The classes have the labels of their least members, and the dead state has its own. -/
lemma labels_quotient_eq : (d.quotient P).labels = ((List.range P.length).map (fun i =>
    (representative? P i).elim i fun s => (d.labels[s]?).getD s) ++
      if (d.quotient P).dead?.isSome = true then [P.length] else []).toArray := by
  rw [labels_quotient, numStates_quotient]
  split
  · rw [List.range_succ, List.map_append, List.map_singleton, representative?_length, Option.elim_none]
  · rw [List.append_nil]

namespace Emitted

variable (he : d.Emitted P d.numStates e)

include he

/-- Some class or the start state needs a dead state exactly if the quotient has one. -/
lemma needsDead_eq (h : Divides P S) (hS : ∀ s ∈ S, s < d.numStates) :
    ((d.start?.bind ((classIndex P)[·]?)).isNone || (List.range P.length).any fun i =>
      d.alphabet.ids.any fun a => (e.target? i a).isNone) = (d.quotient P).dead?.isSome := by
  rw [Bool.eq_iff_iff, isSome_dead?_quotient, dead?_quotient]
  simp only [Bool.or_eq_true, List.any_eq_true, Option.isNone_iff_eq_none, List.mem_range]
  refine or_congr_right (exists_congr fun i => and_congr_right fun hi => ?_)
  refine exists_congr fun a => and_congr_right fun ha => ?_
  rw [he.target?_eq h hS (Nat.le_of_lt hi) ha]

lemma table_eq (h : Divides P S) (hS : ∀ s ∈ S, s < d.numStates) :
    Table.tabulate (List.range (d.quotient P).numStates) d.alphabet.ids
      (fun i a => (e.target? i a).getD P.length) = (d.quotient P).table := by
  rw [table_quotient]
  refine Table.tabulate_congr ?_
  intro i hi a ha
  rw [he.target?_eq h hS ?_ ha]
  rcases lt_numStates_quotient.mp (List.mem_range.mp hi) with hlt | ⟨heq, -⟩
  · exact Nat.le_of_lt hlt
  · exact Nat.le_of_eq heq

end Emitted

/-- If no access is out of bounds the construction makes the quotient. -/
lemma quotientChecked_eq (h : Divides P S) (hS : ∀ s ∈ S, s < d.numStates)
    (hmoves : ∀ s ∈ S, ∀ a ∈ d.alphabet.ids, ∀ t, d.step s a = some t → t < d.numStates)
    (hstart : ∀ s, d.start? = some s → s < d.numStates) (hlabels : d.labels.size = d.numStates) :
    d.quotientChecked P = .ok (d.quotient P) := by
  obtain ⟨table, htable, ht⟩ := exists_classTable h hS
  obtain ⟨e, hemit, he⟩ := exists_emit h ht hmoves
  have hcount : P.length ≤ (d.quotient P).numStates := by
    rw [numStates_quotient]
    split <;> omega
  simp only [quotientChecked, htable, ok_bind, mapM_classLabel h (hlabels ▸ hS),
    startClass_eq ht hstart, hemit, he.needsDead_eq h hS, ← numStates_quotient, classMapping_eq hcount]
  exact congrArg Except.ok (Dfa.ext rfl rfl (he.finals_eq h hS) dead?_quotient_eq.symm rfl
    (he.table_eq h hS) mapping?_quotient.symm labels_quotient_eq.symm)

end Dfa
end RegexAutomata
