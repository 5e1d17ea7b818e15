/-
# Finite sets of states

States are natural numbers, and a set of states is kept as the strictly ascending list of
its members.  Each set has exactly one such list, so two sets are equal exactly when they
have the same members, and a set can be looked up by value.

Every operation comes with its law on membership (`mem_insert`, `mem_union`, …), and
`StateSet.ext` reduces equality to membership.
-/

namespace RegexAutomata

/-- A finite set of states. -/
structure StateSet where
  /-- The members in ascending order. -/
  toList : List Nat
  /-- Each member is smaller than the next. -/
  ascending : toList.Pairwise (· < ·)
deriving DecidableEq

namespace StateSet

/-! ### Ascending lists -/

/-- Put a number at its place in an ascending list that may contain it already. -/
def place (x : Nat) : List Nat → List Nat
  | [] => [x]
  | y :: ys =>
    if x < y then x :: y :: ys
    else if y < x then y :: place x ys
    else y :: ys

theorem mem_place {x z : Nat} {ys : List Nat} : z ∈ place x ys ↔ z = x ∨ z ∈ ys := by
  induction ys with
  | nil => simp [place]
  | cons y ys ih =>
    simp only [place]
    split
    · simp
    · split
      · simp only [List.mem_cons, ih]
        exact or_left_comm
      · have hxy : x = y := by omega
        subst hxy
        simp

theorem ascending_place (x : Nat) {ys : List Nat} (h : ys.Pairwise (· < ·)) :
    (place x ys).Pairwise (· < ·) := by
  induction ys with
  | nil => simp [place]
  | cons y ys ih =>
    have hy := List.pairwise_cons.mp h
    simp only [place]
    split
    · rename_i hlt
      refine List.pairwise_cons.mpr ⟨fun z hz => ?_, h⟩
      rcases List.mem_cons.mp hz with rfl | hz
      · exact hlt
      · exact Nat.lt_trans hlt (hy.1 z hz)
    · split
      · rename_i hlt
        refine List.pairwise_cons.mpr ⟨fun z hz => ?_, ih hy.2⟩
        rcases mem_place.mp hz with rfl | hz
        · exact hlt
        · exact hy.1 z hz
      · exact h

/-- The members of two ascending lists in ascending order, each once. -/
def merge : List Nat → List Nat → List Nat
  | [], ys => ys
  | x :: xs, [] => x :: xs
  | x :: xs, y :: ys =>
    if x < y then x :: merge xs (y :: ys)
    else if y < x then y :: merge (x :: xs) ys
    else x :: merge xs ys
termination_by xs ys => xs.length + ys.length

theorem mem_merge {z : Nat} {xs ys : List Nat} : z ∈ merge xs ys ↔ z ∈ xs ∨ z ∈ ys := by
  fun_induction merge xs ys with
  | case1 ys => simp
  | case2 x xs => simp
  | case3 x xs y ys h ih => simp [ih, or_assoc]
  | case4 x xs y ys h h' ih => simp only [List.mem_cons, ih]; grind
  | case5 x xs y ys h h' ih =>
    have hxy : x = y := by omega
    simp only [List.mem_cons, ih, hxy]
    grind

theorem ascending_merge {xs ys : List Nat} (hx : xs.Pairwise (· < ·)) (hy : ys.Pairwise (· < ·)) :
    (merge xs ys).Pairwise (· < ·) := by
  fun_induction merge xs ys with
  | case1 ys => exact hy
  | case2 x xs => exact hx
  | case3 x xs y ys h ih =>
    have hx' := List.pairwise_cons.mp hx
    refine List.pairwise_cons.mpr ⟨fun z hz => ?_, ih hx'.2 hy⟩
    rcases mem_merge.mp hz with hz | hz
    · exact hx'.1 z hz
    · rcases List.mem_cons.mp hz with rfl | hz
      · exact h
      · exact Nat.lt_trans h ((List.pairwise_cons.mp hy).1 z hz)
  | case4 x xs y ys h h' ih =>
    have hy' := List.pairwise_cons.mp hy
    refine List.pairwise_cons.mpr ⟨fun z hz => ?_, ih hx hy'.2⟩
    rcases mem_merge.mp hz with hz | hz
    · rcases List.mem_cons.mp hz with rfl | hz
      · exact h'
      · exact Nat.lt_trans h' ((List.pairwise_cons.mp hx).1 z hz)
    · exact hy'.1 z hz
  | case5 x xs y ys h h' ih =>
    have hx' := List.pairwise_cons.mp hx
    have hy' := List.pairwise_cons.mp hy
    have hxy : x = y := by omega
    refine List.pairwise_cons.mpr ⟨fun z hz => ?_, ih hx'.2 hy'.2⟩
    rcases mem_merge.mp hz with hz | hz
    · exact hx'.1 z hz
    · exact hxy ▸ hy'.1 z hz

/-- Two ascending lists with the same members are equal. -/
theorem eq_of_ascending {xs ys : List Nat} (hx : xs.Pairwise (· < ·)) (hy : ys.Pairwise (· < ·))
    (h : ∀ z, z ∈ xs ↔ z ∈ ys) : xs = ys := by
  induction xs generalizing ys with
  | nil =>
    cases ys with
    | nil => rfl
    | cons y ys => exact absurd ((h y).mpr (by simp)) (by simp)
  | cons x xs ih =>
    cases ys with
    | nil => exact absurd ((h x).mp (by simp)) (by simp)
    | cons y ys =>
      have hx' := List.pairwise_cons.mp hx
      have hy' := List.pairwise_cons.mp hy
      have hxy : x = y := by
        rcases List.mem_cons.mp ((h x).mp (by simp)) with e | hm
        · exact e
        rcases List.mem_cons.mp ((h y).mpr (by simp)) with e | hm'
        · exact e.symm
        exact absurd (hx'.1 y hm') (Nat.lt_asymm (hy'.1 x hm))
      subst hxy
      refine congrArg (x :: ·) (ih hx'.2 hy'.2 fun z => ?_)
      constructor
      · intro hz
        rcases List.mem_cons.mp ((h z).mp (List.mem_cons_of_mem _ hz)) with rfl | hz'
        · exact absurd (hx'.1 z hz) (Nat.lt_irrefl z)
        · exact hz'
      · intro hz
        rcases List.mem_cons.mp ((h z).mpr (List.mem_cons_of_mem _ hz)) with rfl | hz'
        · exact absurd (hy'.1 z hz) (Nat.lt_irrefl z)
        · exact hz'

/-! ### Operations -/

/-- The set without members. -/
def empty : StateSet := ⟨[], List.Pairwise.nil⟩

instance : EmptyCollection StateSet := ⟨empty⟩

instance : Inhabited StateSet := ⟨∅⟩

instance : Membership Nat StateSet := ⟨fun S x => x ∈ S.toList⟩

instance (x : Nat) (S : StateSet) : Decidable (x ∈ S) :=
  inferInstanceAs (Decidable (x ∈ S.toList))

instance : Hashable StateSet := ⟨fun S => hash S.toList⟩

/-- The set with one member. -/
def singleton (x : Nat) : StateSet := ⟨[x], List.pairwise_singleton _ x⟩

/-- The set with one member more. -/
def insert (S : StateSet) (x : Nat) : StateSet := ⟨place x S.toList, ascending_place x S.ascending⟩

/-- The set without one of its members. -/
def erase (S : StateSet) (x : Nat) : StateSet :=
  ⟨S.toList.filter (· ≠ x), S.ascending.filter _⟩

/-- The set of the numbers in a list. -/
def ofList (xs : List Nat) : StateSet := xs.foldr (fun x S => S.insert x) ∅

/-- The members of either set. -/
def union (S T : StateSet) : StateSet :=
  ⟨merge S.toList T.toList, ascending_merge S.ascending T.ascending⟩

/-- The members of both sets. -/
def inter (S T : StateSet) : StateSet := ⟨S.toList.filter (· ∈ T), S.ascending.filter _⟩

/-- The members of the first set that are not in the second. -/
def diff (S T : StateSet) : StateSet := ⟨S.toList.filter (· ∉ T), S.ascending.filter _⟩

/-- The members of any set in a list. -/
def unions (Ss : List StateSet) : StateSet := Ss.foldr union ∅

/-- The number of members. -/
def size (S : StateSet) : Nat := S.toList.length

/-- Whether the set has no member. -/
def isEmpty (S : StateSet) : Bool := S.toList.isEmpty

/-- The least member. -/
def min? (S : StateSet) : Option Nat := S.toList.head?

/-- Whether two sets have a member in common. -/
def intersects (S T : StateSet) : Bool := S.toList.any (· ∈ T)

/-- The members between braces, separated by commas: `{1, 3}`. -/
def text (S : StateSet) : String :=
  "\x7b" ++ ", ".intercalate (S.toList.map Nat.repr) ++ "\x7d"

/-! ### Laws -/

theorem mem_toList {S : StateSet} {x : Nat} : x ∈ S.toList ↔ x ∈ S := Iff.rfl

/-- Sets with the same members are equal. -/
@[ext] theorem ext {S T : StateSet} (h : ∀ x, x ∈ S ↔ x ∈ T) : S = T := by
  obtain ⟨xs, hxs⟩ := S
  obtain ⟨ys, hys⟩ := T
  have : xs = ys := eq_of_ascending hxs hys h
  subst this
  rfl

@[simp] theorem not_mem_empty {x : Nat} : x ∉ (∅ : StateSet) := by
  intro h
  cases h

@[simp] theorem mem_singleton {x y : Nat} : x ∈ singleton y ↔ x = y := by
  rw [← mem_toList, singleton, List.mem_singleton]

@[simp] theorem mem_insert {S : StateSet} {x y : Nat} : x ∈ S.insert y ↔ x = y ∨ x ∈ S := by
  rw [← mem_toList, insert, mem_place, mem_toList]

@[simp] theorem mem_erase {S : StateSet} {x y : Nat} : x ∈ S.erase y ↔ x ∈ S ∧ x ≠ y := by
  rw [← mem_toList, erase]
  simp [mem_toList]

@[simp] theorem mem_ofList {xs : List Nat} {x : Nat} : x ∈ ofList xs ↔ x ∈ xs := by
  induction xs with
  | nil => simp [ofList]
  | cons y ys ih => simp only [ofList, List.foldr_cons, mem_insert, List.mem_cons] at ih ⊢; rw [ih]

@[simp] theorem mem_union {S T : StateSet} {x : Nat} : x ∈ S.union T ↔ x ∈ S ∨ x ∈ T := by
  rw [← mem_toList, union, mem_merge, mem_toList, mem_toList]

@[simp] theorem mem_inter {S T : StateSet} {x : Nat} : x ∈ S.inter T ↔ x ∈ S ∧ x ∈ T := by
  rw [← mem_toList, inter]
  simp [mem_toList]

@[simp] theorem mem_diff {S T : StateSet} {x : Nat} : x ∈ S.diff T ↔ x ∈ S ∧ x ∉ T := by
  rw [← mem_toList, diff]
  simp [mem_toList]

@[simp] theorem mem_unions {Ss : List StateSet} {x : Nat} : x ∈ unions Ss ↔ ∃ S ∈ Ss, x ∈ S := by
  induction Ss with
  | nil => simp [unions]
  | cons S Ss ih =>
    simp only [unions, List.foldr_cons, mem_union, List.mem_cons, exists_eq_or_imp] at ih ⊢
    rw [ih]

theorem mem_unions_map {α : Type} {xs : List α} {f : α → StateSet} {x : Nat} :
    x ∈ unions (xs.map f) ↔ ∃ a ∈ xs, x ∈ f a := by
  rw [mem_unions]
  constructor
  · rintro ⟨S, hS, hx⟩
    obtain ⟨a, ha, rfl⟩ := List.mem_map.mp hS
    exact ⟨a, ha, hx⟩
  · rintro ⟨a, ha, hx⟩
    exact ⟨f a, List.mem_map.mpr ⟨a, ha, rfl⟩, hx⟩

@[simp] theorem isEmpty_iff {S : StateSet} : S.isEmpty = true ↔ S = ∅ := by
  constructor
  · intro h
    ext x
    rw [← mem_toList, List.isEmpty_iff.mp h]
    simp
  · rintro rfl
    rfl

theorem isEmpty_eq_false_iff {S : StateSet} : S.isEmpty = false ↔ ∃ x, x ∈ S := by
  rw [isEmpty, List.isEmpty_eq_false_iff_exists_mem]
  rfl

@[simp] theorem intersects_iff {S T : StateSet} :
    S.intersects T = true ↔ ∃ x, x ∈ S ∧ x ∈ T := by
  simp [intersects, mem_toList]

/-- The least member is a member, and no member is smaller. -/
theorem min?_eq_some_iff {S : StateSet} {x : Nat} :
    S.min? = some x ↔ x ∈ S ∧ ∀ y ∈ S, x ≤ y := by
  obtain ⟨xs, hxs⟩ := S
  cases xs with
  | nil => simp [min?, ← mem_toList]
  | cons z zs =>
    have hz := (List.pairwise_cons.mp hxs).1
    simp only [min?, List.head?_cons, Option.some.injEq, ← mem_toList, List.mem_cons]
    constructor
    · rintro rfl
      refine ⟨Or.inl rfl, ?_⟩
      rintro y (rfl | hy)
      · exact Nat.le_refl _
      · exact Nat.le_of_lt (hz y hy)
    · rintro ⟨rfl | hx, hle⟩
      · rfl
      · exact absurd (hle z (Or.inl rfl)) (Nat.not_le.mpr (hz x hx))

/-! ### Order -/

/-- Sets are ordered by their lists of members, place by place. -/
instance : Ord StateSet := ⟨fun S T => compare S.toList T.toList⟩

theorem compare_toList (S T : StateSet) : compare S T = compare S.toList T.toList := rfl

instance : Std.TransOrd StateSet where
  eq_swap := by
    intro S T
    rw [compare_toList, compare_toList]
    exact Std.OrientedCmp.eq_swap
  isLE_trans := by
    intro S T U h h'
    rw [compare_toList] at h h' ⊢
    exact Std.TransCmp.isLE_trans h h'

instance : Std.LawfulEqOrd StateSet where
  compare_self := by
    intro S
    rw [compare_toList]
    exact Std.ReflCmp.compare_self
  eq_of_compare := by
    intro S T h
    rw [compare_toList] at h
    have hl := Std.LawfulEqCmp.eq_of_compare h
    obtain ⟨xs, hxs⟩ := S
    obtain ⟨ys, hys⟩ := T
    subst hl
    rfl

end StateSet

end RegexAutomata
