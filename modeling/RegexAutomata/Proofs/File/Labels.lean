/-
# The labels of the states of a file

States with different names get different labels (`Dfa.nodup_labelsOfNames`), and a name that is made of
a label gets this label back (`Dfa.getElem?_labelsOfNames`).

The names that are made of the labels give the same labels again (`Dfa.labelsOfNames_map_nameOfLabel`).
Only a label of more than 32 bits is not found in its name.  Such a label is only given when all smaller
numbers are in use, so the states that have one get the same ones again, in order.
-/
import Mathlib.Data.List.Nodup
import Mathlib.Data.List.Perm.Subperm
import RegexAutomata.File.Deterministic
import RegexAutomata.Proofs.Failure

namespace RegexAutomata
namespace Dfa

/-! ### Own labels and free ones -/

variable {own : List (Option Nat)} {free low high : List Nat} {bound x : Nat}

@[simp] lemma length_assignLabels : (assignLabels own free).length = own.length := by
  induction own generalizing free with
  | nil => rfl
  | cons label? own ih => cases label? <;> simp [assignLabels, ih]

/-- A state with a label of its own keeps it. -/
lemma getElem?_assignLabels {i : Nat} (h : own[i]? = some (some x)) :
    (assignLabels own free)[i]? = some x := by
  induction own generalizing free i with
  | nil => exact absurd h (by simp)
  | cons label? own ih =>
    cases i with
    | zero =>
      obtain rfl : label? = some x := by simpa using h
      rfl
    | succ i =>
      rw [List.getElem?_cons_succ] at h
      cases label? with
      | none =>
        rw [assignLabels, List.getElem?_cons_succ]
        exact ih h
      | some label =>
        rw [assignLabels, List.getElem?_cons_succ]
        exact ih h

lemma mem_assignLabels_of_mem (h : some x ∈ own) : x ∈ assignLabels own free := by
  obtain ⟨i, hi⟩ := List.mem_iff_getElem?.mp h
  exact List.mem_of_getElem? (getElem?_assignLabels hi)

/-- With enough free labels, a label is a state's own or a free one. -/
lemma mem_of_mem_assignLabels (hfree : own.count none ≤ free.length)
    (h : x ∈ assignLabels own free) : some x ∈ own ∨ x ∈ free := by
  induction own generalizing free with
  | nil => exact absurd h (by simp [assignLabels])
  | cons label? own ih =>
    cases label? with
    | some label =>
      rw [assignLabels] at h
      rcases List.mem_cons.mp h with rfl | h
      · exact Or.inl List.mem_cons_self
      · rw [List.count_cons_of_ne (by simp)] at hfree
        exact (ih hfree h).imp_left (List.mem_cons_of_mem _)
    | none =>
      rw [List.count_cons_self] at hfree
      cases free with
      | nil => exact absurd hfree (by simp)
      | cons y free =>
        rw [List.length_cons, Nat.add_le_add_iff_right] at hfree
        rw [assignLabels, List.headD_cons, List.tail_cons] at h
        rcases List.mem_cons.mp h with rfl | h
        · exact Or.inr List.mem_cons_self
        · exact (ih hfree h).imp (List.mem_cons_of_mem _) (List.mem_cons_of_mem _)

/-- Different own labels, and enough free ones that are different from them and from each other, make
different labels. -/
lemma nodup_assignLabels (hown : (own.filterMap id).Nodup) (hnodup : free.Nodup)
    (hdisjoint : ∀ y ∈ free, some y ∉ own) (hfree : own.count none ≤ free.length) :
    (assignLabels own free).Nodup := by
  induction own generalizing free with
  | nil => exact List.nodup_nil
  | cons label? own ih =>
    cases label? with
    | some label =>
      rw [List.filterMap_cons_some (id_eq (some label)), List.nodup_cons] at hown
      rw [List.count_cons_of_ne (by simp)] at hfree
      have hdisjoint' : ∀ y ∈ free, some y ∉ own := fun y hy hmem =>
        hdisjoint y hy (List.mem_cons_of_mem _ hmem)
      rw [assignLabels, List.nodup_cons]
      refine ⟨fun hmem => ?_, ih hown.2 hnodup hdisjoint' hfree⟩
      rcases mem_of_mem_assignLabels hfree hmem with hmem | hmem
      · exact hown.1 (List.mem_filterMap.mpr ⟨_, hmem, rfl⟩)
      · exact hdisjoint label hmem List.mem_cons_self
    | none =>
      rw [List.filterMap_cons_none (id_eq none)] at hown
      rw [List.count_cons_self] at hfree
      cases free with
      | nil => exact absurd hfree (by simp)
      | cons y free =>
        rw [List.length_cons, Nat.add_le_add_iff_right] at hfree
        obtain ⟨hy, hnodup⟩ := List.nodup_cons.mp hnodup
        have hdisjoint' : ∀ z ∈ free, some z ∉ own := fun z hz hmem =>
          hdisjoint z (List.mem_cons_of_mem _ hz) (List.mem_cons_of_mem _ hmem)
        rw [assignLabels, List.headD_cons, List.tail_cons, List.nodup_cons]
        refine ⟨fun hmem => ?_, ih hown hnodup hdisjoint' hfree⟩
        rcases mem_of_mem_assignLabels hfree hmem with hmem | hmem
        · exact hdisjoint y List.mem_cons_self (List.mem_cons_of_mem _ hmem)
        · exact hy hmem

/-- The labels that no state owns, among as many numbers as there are states. -/
def freeLabels (own : List (Option Nat)) : List Nat :=
  (List.range own.length).filter fun label => !own.contains (some label)

lemma mem_freeLabels : x ∈ freeLabels own ↔ x < own.length ∧ some x ∉ own := by
  rw [freeLabels, List.mem_filter, List.mem_range, Bool.not_eq_true', ← Bool.not_eq_true,
    List.contains_iff_mem]

lemma pairwise_lt_freeLabels : (freeLabels own).Pairwise (· < ·) :=
  List.pairwise_lt_range.filter _

/-- There are enough free labels. -/
lemma count_none_le_length_freeLabels (own : List (Option Nat)) :
    own.count none ≤ (freeLabels own).length := by
  have hown : own.length = own.count none + (own.filterMap id).length := by
    induction own with
    | nil => rfl
    | cons label? own ih => cases label? <;> simp [ih] <;> omega
  have htaken : ((List.range own.length).filter fun label => own.contains (some label)).length ≤
      (own.filterMap id).length := by
    refine (List.Nodup.subperm (List.nodup_range.filter _) ?_).length_le
    intro label hlabel
    have hmem : some label ∈ own := List.contains_iff_mem.mp (List.mem_filter.mp hlabel).2
    exact List.mem_filterMap.mpr ⟨_, hmem, rfl⟩
  have hall := List.length_eq_length_filter_add (l := List.range own.length)
    fun label => own.contains (some label)
  rw [List.length_range] at hall
  rw [freeLabels]
  omega

/-! ### Labels of names -/

lemma labelOfName?_nameOfLabel (label : Nat) :
    labelOfName? (nameOfLabel label) = if label < 4294967296 then some label else none := by
  split
  · rename_i hlt
    exact labelOfName?_eq_some_iff.mpr ⟨rfl, hlt⟩
  · rename_i hge
    rw [Option.eq_none_iff_forall_ne_some]
    intro l hl
    obtain ⟨hname, hlt⟩ := labelOfName?_eq_some_iff.mp hl
    exact hge (nameOfLabel_injective hname ▸ hlt)

variable {names : List String}

lemma labelsOfNames_eq (names : List String) : labelsOfNames names =
    assignLabels (names.map labelOfName?) (freeLabels (names.map labelOfName?)) := by
  rw [labelsOfNames, freeLabels, List.length_map]
  refine congrArg _ (List.filter_congr fun label _ => ?_)
  rw [Bool.eq_iff_iff, decide_eq_true_eq, Bool.not_eq_true', ← Bool.not_eq_true, List.contains_iff_mem]

@[simp] lemma length_labelsOfNames : (labelsOfNames names).length = names.length := by
  rw [labelsOfNames_eq, length_assignLabels, List.length_map]

lemma getElem?_labelsOfNames {i : Nat} (hx : x < 4294967296)
    (h : names[i]? = some (nameOfLabel x)) : (labelsOfNames names)[i]? = some x := by
  refine getElem?_assignLabels ?_
  rw [List.getElem?_map, h, Option.map_some, labelOfName?_nameOfLabel, if_pos hx]

lemma nodup_labelsOfNames (h : names.Nodup) : (labelsOfNames names).Nodup := by
  rw [labelsOfNames_eq]
  refine nodup_assignLabels ?_ pairwise_lt_freeLabels.nodup (fun _ hy => (mem_freeLabels.mp hy).2)
    (count_none_le_length_freeLabels _)
  rw [List.filterMap_map]
  refine h.filterMap ?_
  intro name name' label hlabel hlabel'
  rw [(labelOfName?_eq_some_iff.mp hlabel).1, (labelOfName?_eq_some_iff.mp hlabel').1]

/-! ### Labels of labels -/

lemma assignLabels_map_some (labels : List Nat) : assignLabels (labels.map some) free = labels := by
  induction labels with
  | nil => rfl
  | cons label labels ih => rw [List.map_cons, assignLabels, ih]

/-- If the labels below a bound count as own and those from the bound on are given out again, every
state gets its label again. -/
lemma assignLabels_assignLabels (hown : ∀ y, some y ∈ own → y < bound) (hlow : ∀ y ∈ low, y < bound)
    (hhigh : ∀ y ∈ high, bound ≤ y) (hbound : 0 < bound) :
    assignLabels ((assignLabels own (low ++ high)).map fun y => if y < bound then some y else none)
      high = assignLabels own (low ++ high) := by
  induction own generalizing low high with
  | nil => rfl
  | cons label? own ih =>
    have hown' : ∀ y, some y ∈ own → y < bound := fun y hy => hown y (List.mem_cons_of_mem _ hy)
    cases label? with
    | some label =>
      rw [assignLabels, List.map_cons, if_pos (hown label List.mem_cons_self), assignLabels,
        ih hown' hlow hhigh]
    | none =>
      cases low with
      | cons y low =>
        obtain ⟨hy, hlow⟩ := List.forall_mem_cons.mp hlow
        rw [assignLabels, List.cons_append, List.headD_cons, List.tail_cons, List.map_cons, if_pos hy,
          assignLabels, ih hown' hlow hhigh]
      | nil =>
        cases high with
        | nil =>
          rw [List.append_nil, assignLabels, List.headD_nil, List.tail_nil, List.map_cons,
            if_pos hbound, assignLabels]
          exact congrArg (0 :: ·) (ih hown' hlow hhigh)
        | cons y high =>
          obtain ⟨hy, hhigh⟩ := List.forall_mem_cons.mp hhigh
          have hrest := ih hown' hlow hhigh
          rw [List.nil_append] at hrest ⊢
          rw [assignLabels, List.headD_cons, List.tail_cons, List.map_cons, if_neg (by omega),
            assignLabels, List.headD_cons, List.tail_cons, hrest]

/-- If a label from the bound on is given, then all free labels below it are given too. -/
lemma mem_assignLabels_of_low (hown : ∀ y, some y ∈ own → y < bound) (hlow : ∀ y ∈ low, y < bound)
    (hhigh : ∃ y ∈ assignLabels own (low ++ high), bound ≤ y) (hx : x ∈ low) :
    x ∈ assignLabels own (low ++ high) := by
  induction own generalizing low with
  | nil =>
    obtain ⟨y, hy, -⟩ := hhigh
    exact absurd hy (by simp [assignLabels])
  | cons label? own ih =>
    have hown' : ∀ y, some y ∈ own → y < bound := fun y hy => hown y (List.mem_cons_of_mem _ hy)
    obtain ⟨y, hy, hle⟩ := hhigh
    cases label? with
    | some label =>
      rw [assignLabels] at hy ⊢
      have hlabel := hown label List.mem_cons_self
      rcases List.mem_cons.mp hy with rfl | hy
      · omega
      · exact List.mem_cons_of_mem _ (ih hown' hlow ⟨y, hy, hle⟩ hx)
    | none =>
      cases low with
      | nil => exact absurd hx (by simp)
      | cons z low =>
        obtain ⟨hz, hlow⟩ := List.forall_mem_cons.mp hlow
        rw [assignLabels, List.cons_append, List.headD_cons, List.tail_cons] at hy ⊢
        rcases List.mem_cons.mp hy with rfl | hy
        · omega
        · rcases List.mem_cons.mp hx with rfl | hx
          · exact List.mem_cons_self
          · exact List.mem_cons_of_mem _ (ih hown' hlow ⟨y, hy, hle⟩ hx)

/-- The free labels are those below a bound, and behind them all numbers from the bound on. -/
lemma freeLabels_eq_append (hown : ∀ y, some y ∈ own → y < bound) : freeLabels own =
    (freeLabels own).filter (· < bound) ++ (List.range own.length).filter (bound ≤ ·) := by
  refine StateSet.eq_of_ascending pairwise_lt_freeLabels ?_ ?_
  · refine List.pairwise_append.mpr
      ⟨pairwise_lt_freeLabels.filter _, List.pairwise_lt_range.filter _, ?_⟩
    intro y hy z hz
    have hy' := (List.mem_filter.mp hy).2
    have hz' := (List.mem_filter.mp hz).2
    simp only [decide_eq_true_eq] at hy' hz'
    omega
  · intro y
    simp only [List.mem_append, List.mem_filter, List.mem_range, decide_eq_true_eq, mem_freeLabels]
    constructor
    · rintro ⟨hlt, hnot⟩
      rcases Nat.lt_or_ge y bound with hy | hy
      · exact Or.inl ⟨⟨hlt, hnot⟩, hy⟩
      · exact Or.inr ⟨hlt, hy⟩
    · rintro (⟨h, -⟩ | ⟨hlt, hy⟩)
      · exact h
      · exact ⟨hlt, fun hmem => absurd (hown y hmem) (Nat.not_lt.mpr hy)⟩

/-- Labels below a bound count as own, and if there are others, all numbers below the bound are in use:
then the free labels are those from the bound on, and every state gets its label again. -/
lemma assignLabels_again (hown : ∀ y, some y ∈ own → y < bound) (hbound : 0 < bound) {labels : List Nat}
    (hlabels : labels = assignLabels own (freeLabels own)) {again : List (Option Nat)}
    (hagain : again = labels.map fun y => if y < bound then some y else none) :
    assignLabels again (freeLabels again) = labels := by
  by_cases hhigh : ∃ y ∈ labels, bound ≤ y
  · have hlow : ∀ y ∈ (freeLabels own).filter (· < bound), y < bound := by
      intro y hy
      simpa using (List.mem_filter.mp hy).2
    have hlength : again.length = own.length := by
      rw [hagain, hlabels, List.length_map, length_assignLabels]
    have hmem : ∀ y, some y ∈ again ↔ y ∈ labels ∧ y < bound := by
      intro y
      rw [hagain, List.mem_map]
      simp
    rw [freeLabels_eq_append hown] at hlabels
    have hfree : freeLabels again = (List.range own.length).filter (bound ≤ ·) := by
      rw [freeLabels, hlength]
      refine List.filter_congr fun y hy => ?_
      rw [Bool.eq_iff_iff, decide_eq_true_eq, Bool.not_eq_true', ← Bool.not_eq_true,
        List.contains_iff_mem, hmem]
      constructor
      · intro hnot
        by_contra hlt
        have hlt := Nat.lt_of_not_le hlt
        -- a number below the bound is in use: it is owned, or it was free
        refine hnot ⟨?_, hlt⟩
        rw [hlabels]
        by_cases hy' : some y ∈ own
        · exact mem_assignLabels_of_mem hy'
        · refine mem_assignLabels_of_low hown hlow (hlabels ▸ hhigh) ?_
          exact List.mem_filter.mpr
            ⟨mem_freeLabels.mpr ⟨List.mem_range.mp hy, hy'⟩, decide_eq_true hlt⟩
      · exact fun hle hmem => absurd hmem.2 (Nat.not_lt.mpr hle)
    have hhigh' : ∀ y ∈ (List.range own.length).filter (bound ≤ ·), bound ≤ y := by
      intro y hy
      simpa using (List.mem_filter.mp hy).2
    rw [hfree, hagain, hlabels]
    exact assignLabels_assignLabels hown hlow hhigh' hbound
  · have hall : again = labels.map some := by
      rw [hagain]
      refine List.map_congr_left fun y hy => if_pos ?_
      by_contra hge
      exact hhigh ⟨y, hy, Nat.le_of_not_lt hge⟩
    rw [hall, assignLabels_map_some]

/-- The names made of labels give the labels again. -/
lemma labelsOfNames_map_nameOfLabel (names : List String) :
    labelsOfNames ((labelsOfNames names).map nameOfLabel) = labelsOfNames names := by
  have hown : ∀ y, some y ∈ names.map labelOfName? → y < 4294967296 := by
    intro y hy
    obtain ⟨name, -, hname⟩ := List.mem_map.mp hy
    exact (labelOfName?_eq_some_iff.mp hname).2
  rw [labelsOfNames_eq ((labelsOfNames names).map nameOfLabel)]
  refine assignLabels_again hown (by decide) (labelsOfNames_eq names) ?_
  rw [List.map_map]
  exact List.map_congr_left fun y _ => labelOfName?_nameOfLabel y

end Dfa
end RegexAutomata
