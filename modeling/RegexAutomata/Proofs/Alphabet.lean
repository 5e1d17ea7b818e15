/-
# Alphabets and their labels

The symbols of an alphabet have different labels (`Alphabet.nodup_labels`).  An alphabet that is made of
a list has the symbols of the list (`Alphabet.mem_symbols_ofList`), and repeating the symbols of an
alphabet gives the alphabet (`Alphabet.ofList_repeated`).

A range may be built with its ends the wrong way round.  Such a symbol admits no character
(`Symbol.exists_admits_iff`), and it is not read back from its label (`Symbol.ofLabel?_label_iff`).
-/
import Mathlib.Data.List.Nodup
import Mathlib.Data.List.Induction
import Mathlib.Tactic.Lemma
import RegexAutomata.Alphabet

namespace RegexAutomata

lemma Symbol.label_injective {a b : Symbol} (h : a.label = b.label) : a = b :=
  spelling_injective (by rw [← toList_label, h, toList_label])

/-- A text that is read as a symbol is the label of the symbol. -/
lemma Symbol.ofLabel?_eq_some {label : String} {a : Symbol} (h : ofLabel? label = some a) :
    a.label = label := by
  have hspelling : ∀ chars, ofSpelling? chars = some a → a.spelling = chars := by
    intro chars hchars
    unfold ofSpelling? at hchars
    split at hchars
    · rw [← Option.some.inj hchars, spelling]
    · obtain ⟨-, ha⟩ := Option.ite_none_right_eq_some.mp hchars
      rw [← Option.some.inj ha, spelling]
    · exact absurd hchars (by simp)
  rw [← String.toList_inj, toList_label, hspelling _ h]

/-! ### Symbols in order -/

/-- The ends of a range are in order. -/
def Symbol.InOrder : Symbol → Prop
  | literal _ => True
  | range lo hi => lo ≤ hi

instance (a : Symbol) : Decidable a.InOrder :=
  match a with
  | .literal _ => inferInstanceAs (Decidable True)
  | .range lo hi => inferInstanceAs (Decidable (lo ≤ hi))

lemma Symbol.exists_admits_iff {a : Symbol} : (∃ x, a.admits x = true) ↔ a.InOrder := by
  cases a with
  | literal c => exact iff_of_true ⟨c, (admits_literal c c).mpr rfl⟩ trivial
  | range lo hi =>
    constructor
    · rintro ⟨x, hx⟩
      obtain ⟨hlo, hhi⟩ := (admits_range lo hi x).mp hx
      exact Char.le_trans hlo hhi
    · exact fun h => ⟨lo, (admits_range lo hi lo).mpr ⟨Char.le_refl lo, h⟩⟩

lemma Symbol.ofLabel?_label_iff {a : Symbol} : ofLabel? a.label = some a ↔ a.InOrder := by
  rw [ofLabel?, toList_label]
  cases a with
  | literal c => exact iff_of_true rfl trivial
  | range lo hi =>
    rw [spelling, ofSpelling?, Option.ite_none_right_eq_some, InOrder]
    exact and_iff_left rfl

namespace Alphabet

variable {A : Alphabet} {a : Nat} {xs : List Symbol}

/-- All ranges of an alphabet have their ends in order. -/
def InOrder (A : Alphabet) : Prop := ∀ a ∈ A.symbols, a.InOrder

instance (A : Alphabet) : Decidable A.InOrder :=
  inferInstanceAs (Decidable (∀ a ∈ A.symbols, a.InOrder))

/-! ### Labels -/

lemma label_symbol (ha : a < A.symbols.length) : A.label (.symbol a) = A.symbols[a].label := by
  rw [label, symbol?, List.getElem?_eq_getElem ha]

lemma map_label_ids (A : Alphabet) :
    (A.ids.map fun a => A.label (.symbol a)) = A.symbols.map Symbol.label := by
  refine List.ext_getElem (by simp [ids, size]) ?_
  intro i hi hi'
  rw [List.length_map] at hi'
  simp only [List.getElem_map, ids, List.getElem_range, label_symbol hi']

lemma nodup_labels (A : Alphabet) : (A.symbols.map Symbol.label).Nodup :=
  A.nodup.map fun _ _ h => Symbol.label_injective h

/-! ### Symbols of a list -/

/-- Adding symbols that are there already changes nothing. -/
lemma foldl_insert_of_subset (h : ∀ a ∈ xs, a ∈ A.symbols) : xs.foldl insert A = A := by
  induction xs with
  | nil => rfl
  | cons a xs ih =>
    obtain ⟨ha, hxs⟩ := List.forall_mem_cons.mp h
    have hself : A.insert a = A := dif_pos ha
    rw [List.foldl_cons, hself, ih hxs]

lemma symbols_foldl_insert (h : (A.symbols ++ xs).Nodup) :
    (xs.foldl insert A).symbols = A.symbols ++ xs := by
  induction xs generalizing A with
  | nil => exact (List.append_nil _).symm
  | cons a xs ih =>
    have ha : a ∉ A.symbols := fun hmem =>
      (List.nodup_append.mp h).2.2 a hmem a List.mem_cons_self rfl
    have hinsert : (A.insert a).symbols = A.symbols ++ [a] := by rw [symbols_insert, if_neg ha]
    rw [List.foldl_cons, ih, hinsert, List.append_assoc, List.singleton_append]
    rwa [hinsert, List.append_assoc, List.singleton_append]

/-- An alphabet is the list of its symbols. -/
lemma eq_of_symbols_eq {B : Alphabet} (h : A.symbols = B.symbols) : A = B := by
  cases A
  cases B
  simp_all

/-- The symbols of an alphabet make up the alphabet. -/
lemma ofList_symbols (A : Alphabet) : ofList A.symbols = A :=
  eq_of_symbols_eq (symbols_foldl_insert A.nodup)

lemma mem_symbols_foldl_insert {a : Symbol} :
    a ∈ (xs.foldl insert A).symbols ↔ a ∈ A.symbols ∨ a ∈ xs := by
  induction xs generalizing A with
  | nil => simp
  | cons b xs ih => rw [List.foldl_cons, ih, mem_insert, List.mem_cons, or_assoc]

/-- The symbols that are added to an alphabet are those of a list. -/
lemma mem_symbols_ofList {a : Symbol} : a ∈ (ofList xs).symbols ↔ a ∈ xs :=
  mem_symbols_foldl_insert.trans (by simp)

lemma eraseDups_append_singleton {β : Type} [DecidableEq β] (ys : List β) (b : β) :
    (ys ++ [b]).eraseDups = if b ∈ ys then ys.eraseDups else ys.eraseDups ++ [b] := by
  rw [List.eraseDups_append]
  split
  · rename_i h
    simp [List.removeAll, h]
  · rename_i h
    simp [List.removeAll, List.eraseDups_cons, h]

/-- The symbols of a list make up an alphabet in the order of their first occurrence. -/
lemma symbols_ofList (xs : List Symbol) : (ofList xs).symbols = xs.eraseDups := by
  induction xs using List.reverseRecOn with
  | nil => rfl
  | append_singleton xs a ih =>
    have hstep : ofList (xs ++ [a]) = (ofList xs).insert a := by
      rw [ofList, List.foldl_append]
      rfl
    rw [hstep, symbols_insert, eraseDups_append_singleton, ih]
    simp only [List.mem_eraseDups]

/-- The labels of the symbols of a list stand in the order of their first occurrence. -/
lemma map_label_symbols_ofList (xs : List Symbol) :
    (ofList xs).symbols.map Symbol.label = (xs.map Symbol.label).eraseDups := by
  rw [symbols_ofList]
  induction xs using List.reverseRecOn with
  | nil => rfl
  | append_singleton xs a ih =>
    have hmem : a.label ∈ xs.map Symbol.label ↔ a ∈ xs :=
      List.mem_map_of_injective fun _ _ => Symbol.label_injective
    rw [List.map_append, List.map_singleton, eraseDups_append_singleton, eraseDups_append_singleton, ← ih]
    simp only [hmem]
    split
    · rfl
    · rw [List.map_append, List.map_singleton]

/-- Each symbol of an alphabet has one id. -/
lemma symbol?_eq_some_iff {a : Symbol} {id : Nat} (ha : a ∈ A.symbols) :
    A.symbol? id = some a ↔ id = A.idOf a := by
  rw [symbol?, idOf]
  constructor
  · intro h
    obtain ⟨hlt, rfl⟩ := List.getElem?_eq_some_iff.mp h
    exact (A.nodup.idxOf_getElem id hlt).symm
  · rintro rfl
    rw [List.getElem?_eq_getElem (List.idxOf_lt_length_of_mem ha), List.getElem_idxOf]

/-- New symbols are added behind the others. -/
lemma exists_symbols_foldl_insert (A : Alphabet) (xs : List Symbol) :
    ∃ new, (xs.foldl insert A).symbols = A.symbols ++ new := by
  induction xs generalizing A with
  | nil => exact ⟨[], (List.append_nil _).symm⟩
  | cons a xs ih =>
    obtain ⟨new, hnew⟩ := ih (A.insert a)
    rw [List.foldl_cons, hnew, symbols_insert]
    split
    · exact ⟨new, rfl⟩
    · exact ⟨a :: new, by simp⟩

/-- Adding a symbol many times adds it once. -/
lemma foldl_insert_const {β : Type} {ys : List β} (h : ys ≠ []) (A : Alphabet) (a : Symbol) :
    (ys.map fun _ => a).foldl insert A = A.insert a := by
  cases ys with
  | nil => exact absurd rfl h
  | cons y ys =>
    rw [List.map_cons, List.foldl_cons]
    refine foldl_insert_of_subset fun b hb => ?_
    obtain ⟨_, -, rfl⟩ := List.mem_map.mp hb
    exact mem_insert.mpr (Or.inr rfl)

/-- Repeating the symbols of an alphabet gives the alphabet. -/
lemma ofList_repeated {n : Nat} (h : n = 0 → A.symbols = []) :
    ofList ((List.range n).flatMap fun _ => A.symbols) = A := by
  cases n with
  | zero =>
    have hempty := ofList_symbols A
    rwa [h rfl] at hempty
  | succ n =>
    rw [List.range_succ_eq_map, List.flatMap_cons, ofList, List.foldl_append]
    have hself : A.symbols.foldl insert empty = A := ofList_symbols A
    rw [hself]
    refine foldl_insert_of_subset ?_
    intro a ha
    obtain ⟨_, -, ha⟩ := List.mem_flatMap.mp ha
    exact ha

/-- Adding the symbols of a list does the same if they are put into the order of an alphabet that only
has more symbols behind those that are known afterwards. -/
lemma foldl_insert_filter {B : Alphabet} {rest : List Symbol}
    (h : B.symbols = (xs.foldl insert A).symbols ++ rest) :
    (B.symbols.filter (· ∈ xs)).foldl insert A = xs.foldl insert A := by
  obtain ⟨new, hnew⟩ := exists_symbols_foldl_insert A xs
  have hnodup := (xs.foldl insert A).nodup
  have hknown : ∀ a ∈ rest, a ∉ xs := fun a ha hmem =>
    (List.nodup_append.mp (h ▸ B.nodup)).2.2 a (mem_symbols_foldl_insert.mpr (Or.inr hmem)) a ha rfl
  have hadded : ∀ a ∈ new, a ∈ xs := by
    intro a ha
    rw [hnew] at hnodup
    have hmem : a ∈ (xs.foldl insert A).symbols := hnew ▸ List.mem_append_right _ ha
    refine (mem_symbols_foldl_insert.mp hmem).resolve_left fun hold => ?_
    exact (List.nodup_append.mp hnodup).2.2 a hold a ha rfl
  -- of the old symbols any may be in the list, of the new ones all are, of the rest none
  have hold : ∀ a ∈ A.symbols.filter (· ∈ xs), a ∈ A.symbols := fun a ha => (List.mem_filter.mp ha).1
  have hnew' : new.filter (· ∈ xs) = new := List.filter_eq_self.mpr (by simpa using hadded)
  have hrest : rest.filter (· ∈ xs) = [] := List.filter_eq_nil_iff.mpr (by simpa using hknown)
  have hfilter : B.symbols.filter (· ∈ xs) = A.symbols.filter (· ∈ xs) ++ new := by
    rw [h, hnew, List.filter_append, List.filter_append, hnew', hrest, List.append_nil]
  rw [hfilter, List.foldl_append, foldl_insert_of_subset hold]
  exact eq_of_symbols_eq (by rw [symbols_foldl_insert (hnew ▸ hnodup), hnew])

/-- If lists of symbols make up an alphabet, they do so too when each is put into the order of the
alphabet. -/
lemma ofList_flatMap_filter {B : Alphabet} {xss : List (List Symbol)} (h : ofList xss.flatten = B) :
    ofList (xss.flatMap fun xs => B.symbols.filter (· ∈ xs)) = B := by
  have hfold : ∀ A : Alphabet, xss.foldl (fun A xs => xs.foldl insert A) A = B →
      xss.foldl (fun A xs => (B.symbols.filter (· ∈ xs)).foldl insert A) A = B := by
    clear h
    induction xss with
    | nil => exact fun A h => h
    | cons xs xss ih =>
      intro A h
      have hrest : ∃ rest, B.symbols = (xs.foldl insert A).symbols ++ rest := by
        rw [List.foldl_cons, ← List.foldl_flatten] at h
        exact h ▸ exists_symbols_foldl_insert _ _
      obtain ⟨rest, hrest⟩ := hrest
      rw [List.foldl_cons, foldl_insert_filter hrest]
      exact ih _ h
  rw [ofList, List.foldl_flatMap]
  exact hfold empty (by rw [← List.foldl_flatten]; exact h)

end Alphabet
end RegexAutomata
