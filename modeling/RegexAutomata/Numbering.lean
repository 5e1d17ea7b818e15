/-
# Numberings

A numbering holds values, each once, in the order in which they were added, and gives each the
number of its place: `0, 1, 2, …`.  The values are also kept as keys of a search tree, so that the
number of a value is found without going through all of them.

`Numbering.number?_eq_some_iff` says that the tree and the list agree, and
`Numbering.toList_insert` says what adding a value does.
-/
import Std.Data.TreeMap

namespace RegexAutomata

/-- Different values, numbered in order. -/
structure Numbering (α : Type) [Ord α] where
  /-- The values; the one at place `i` has the number `i`. -/
  values : Array α
  /-- The number of each value. -/
  index : Std.TreeMap α Nat
  /-- The index has each value under the number of its place, and nothing else. -/
  agree : ∀ (x : α) (i : Nat), index[x]? = some i ↔ values[i]? = some x

namespace Numbering

variable {α : Type} [Ord α]

/-- The values in order. -/
def toList (N : Numbering α) : List α := N.values.toList

/-- The number of values. -/
def size (N : Numbering α) : Nat := N.values.size

/-- The value with a given number. -/
def value? (N : Numbering α) (i : Nat) : Option α := N.values[i]?

/-- The number of a value. -/
def number? (N : Numbering α) (x : α) : Option Nat := N.index[x]?

/-- The number that a value has, or would be given by `insert`. -/
def numberOf (N : Numbering α) (x : α) : Nat := (N.number? x).getD N.size

@[simp] theorem length_toList (N : Numbering α) : N.toList.length = N.size := rfl

@[simp] theorem getElem?_toList (N : Numbering α) (i : Nat) : N.toList[i]? = N.value? i := by
  simp [toList, value?]

/-- The number of a value is the number of its place. -/
theorem number?_eq_some_iff {N : Numbering α} {x : α} {i : Nat} :
    N.number? x = some i ↔ N.value? i = some x :=
  N.agree x i

theorem mem_toList_iff {N : Numbering α} {x : α} : x ∈ N.toList ↔ ∃ i, N.value? i = some x := by
  simp only [List.mem_iff_getElem?, getElem?_toList]

/-- A value has a number exactly if it is there. -/
theorem isSome_number? {N : Numbering α} {x : α} : (N.number? x).isSome = true ↔ x ∈ N.toList := by
  simp only [Option.isSome_iff_exists, number?_eq_some_iff, mem_toList_iff]

/-- Different numbers have different values. -/
theorem eq_of_value? {N : Numbering α} {x : α} {i j : Nat} (hi : N.value? i = some x)
    (hj : N.value? j = some x) : i = j := by
  rw [← number?_eq_some_iff] at hi hj
  rw [hi, Option.some.injEq] at hj
  exact hj

/-- No value appears twice. -/
theorem nodup_toList (N : Numbering α) : N.toList.Nodup := by
  rw [List.nodup_iff_pairwise_ne, List.pairwise_iff_getElem]
  intro i j hi hj hij he
  have hx := List.getElem?_eq_getElem hi
  have hy := List.getElem?_eq_getElem hj
  rw [← he] at hy
  rw [getElem?_toList] at hx hy
  exact Nat.ne_of_lt hij (eq_of_value? hx hy)

/-- A value that is there has a number, and `numberOf` finds it. -/
theorem value?_numberOf {N : Numbering α} {x : α} (h : x ∈ N.toList) :
    N.value? (N.numberOf x) = some x := by
  obtain ⟨i, hi⟩ := Option.isSome_iff_exists.mp (isSome_number?.mpr h)
  rw [numberOf, hi, Option.getD_some]
  exact number?_eq_some_iff.mp hi

theorem numberOf_eq {N : Numbering α} {i : Nat} {x : α} (h : N.value? i = some x) :
    N.numberOf x = i := by
  rw [numberOf, number?_eq_some_iff.mpr h, Option.getD_some]

theorem lt_size_of_value? {N : Numbering α} {i : Nat} {x : α} (h : N.value? i = some x) :
    i < N.size :=
  (Array.getElem?_eq_some_iff.mp h).1

theorem exists_value? {N : Numbering α} {i : Nat} (h : i < N.size) : ∃ x, N.value? i = some x :=
  ⟨_, Array.getElem?_eq_getElem h⟩

/-! ### Adding values -/

variable [Std.TransOrd α]

/-- The numbering without values. -/
def empty : Numbering α := ⟨#[], ∅, by simp⟩

instance : Inhabited (Numbering α) := ⟨empty⟩

@[simp] theorem toList_empty : (empty : Numbering α).toList = [] := rfl

variable [Std.LawfulEqOrd α]

/-- Add a value at the end, unless it is there already. -/
def insert (N : Numbering α) (x : α) : Numbering α :=
  if h : (N.number? x).isSome then N
  else
    { values := N.values.push x
      index := N.index.insert x N.values.size
      agree := by
        intro y i
        have hx : N.index[x]? = none := by simpa [number?] using h
        rw [Std.TreeMap.getElem?_insert, Array.getElem?_push]
        by_cases hy : x = y
        · subst hy
          have hnot : N.values[i]? ≠ some x := by rw [Ne, ← N.agree, hx]; simp
          simp only [Std.ReflCmp.compare_self, ↓reduceIte, Option.some.injEq]
          constructor
          · rintro rfl
            simp
          · intro hi
            split at hi
            · rename_i h'
              exact h'.symm
            · exact absurd hi hnot
        · have hcmp : compare x y ≠ .eq := fun e => hy (Std.LawfulEqOrd.eq_of_compare e)
          rw [if_neg hcmp, N.agree]
          split
          · rename_i hi
            subst hi
            simp [hy]
          · rfl }

/-- The numbering of the values in a list, in the order of their first appearance. -/
def ofList (xs : List α) : Numbering α := xs.foldl insert empty

theorem toList_insert [DecidableEq α] (N : Numbering α) (x : α) :
    (N.insert x).toList = if x ∈ N.toList then N.toList else N.toList ++ [x] := by
  by_cases h : x ∈ N.toList
  · rw [if_pos h, insert, dif_pos (isSome_number?.mpr h)]
  · rw [if_neg h, insert, dif_neg (fun h' => h (isSome_number?.mp h'))]
    simp [toList]

@[simp] theorem mem_insert {N : Numbering α} {x y : α} :
    y ∈ (N.insert x).toList ↔ y ∈ N.toList ∨ y = x := by
  by_cases h : x ∈ N.toList
  · rw [insert, dif_pos (isSome_number?.mpr h)]
    constructor
    · exact Or.inl
    · rintro (h' | rfl) <;> assumption
  · rw [insert, dif_neg (fun h' => h (isSome_number?.mp h'))]
    simp [toList]

theorem insert_eq_self {N : Numbering α} {x : α} (h : x ∈ N.toList) : N.insert x = N := by
  rw [insert, dif_pos (isSome_number?.mpr h)]

/-- A new value gets the next number. -/
theorem size_insert_of_not_mem [DecidableEq α] {N : Numbering α} {x : α} (h : x ∉ N.toList) :
    (N.insert x).size = N.size + 1 := by
  rw [← length_toList, toList_insert, if_neg h, List.length_append, length_toList, List.length_singleton]

theorem value?_insert_size [DecidableEq α] {N : Numbering α} {x : α} (h : x ∉ N.toList) :
    (N.insert x).value? N.size = some x := by
  rw [← getElem?_toList, toList_insert, if_neg h, ← length_toList, List.getElem?_concat_length]

/-- Adding a value leaves the numbers of the others alone. -/
theorem value?_insert_of_lt [DecidableEq α] {N : Numbering α} {i : Nat} {y : α} (hi : i < N.size) :
    (N.insert y).value? i = N.value? i := by
  rw [← getElem?_toList, toList_insert]
  split
  · rw [getElem?_toList]
  · have hi' : i < N.toList.length := hi
    rw [List.getElem?_append_left hi', getElem?_toList]

theorem value?_insert [DecidableEq α] {N : Numbering α} {i : Nat} {x y : α}
    (h : N.value? i = some x) : (N.insert y).value? i = some x := by
  rw [value?_insert_of_lt (lt_size_of_value? h), h]

/-- After a new value has been added, the values are those there were and the new one, with the next number. -/
theorem value?_insert_eq_some_iff [DecidableEq α] {N : Numbering α} {i : Nat} {x y : α} (h : y ∉ N.toList) :
    (N.insert y).value? i = some x ↔ N.value? i = some x ∨ i = N.size ∧ y = x := by
  by_cases hi : i < N.size
  · rw [value?_insert_of_lt hi]
    exact (or_iff_left fun hx => Nat.ne_of_lt hi hx.1).symm
  · constructor
    · intro hx
      have hlt := lt_size_of_value? hx
      rw [size_insert_of_not_mem h] at hlt
      obtain rfl : i = N.size := by omega
      rw [value?_insert_size h, Option.some.injEq] at hx
      exact Or.inr ⟨rfl, hx⟩
    · rintro (hx | ⟨rfl, rfl⟩)
      · exact value?_insert hx
      · exact value?_insert_size h

theorem value?_foldl_insert [DecidableEq α] {N : Numbering α} {xs : List α} {i : Nat} {x : α}
    (h : N.value? i = some x) : (xs.foldl insert N).value? i = some x := by
  induction xs generalizing N with
  | nil => exact h
  | cons y xs ih => exact ih (value?_insert h)

theorem value?_foldl_insert_of_lt [DecidableEq α] {N : Numbering α} {xs : List α} {i : Nat}
    (hi : i < N.size) : (xs.foldl insert N).value? i = N.value? i := by
  obtain ⟨x, hx⟩ := exists_value? hi
  rw [value?_foldl_insert hx, hx]

theorem toList_ofList_singleton [DecidableEq α] (x : α) : (ofList [x]).toList = [x] := by
  rw [ofList, List.foldl_cons, List.foldl_nil, toList_insert, toList_empty, if_neg List.not_mem_nil,
    List.nil_append]

theorem mem_foldl_insert {N : Numbering α} {xs : List α} {y : α} :
    y ∈ (xs.foldl insert N).toList ↔ y ∈ N.toList ∨ y ∈ xs := by
  induction xs generalizing N with
  | nil => simp
  | cons x xs ih => rw [List.foldl_cons, ih, mem_insert, List.mem_cons, or_assoc]

end Numbering

end RegexAutomata
