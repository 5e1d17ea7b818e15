/-
# Alphabets

An alphabet lists the symbols of an automaton, each once, in the order in which they first
appeared.  The place of a symbol in the list is its *id*, and moves carry ids in place of
symbols.  A move may also carry no symbol at all, so the label of a move is a symbol id or
epsilon.
-/
import RegexAutomata.Symbol

namespace RegexAutomata

/-- What a move of a nondeterministic automaton carries: a symbol, given by its id, or
nothing. -/
inductive Label where
  /-- The symbol with this id. -/
  | symbol (id : Nat)
  /-- No symbol: the move reads no character. -/
  | epsilon
deriving DecidableEq, Repr

/-- The text that stands for epsilon in files. -/
def epsilonLabel : String := "EPSILON"

/-- The symbols of an automaton in the order of their first appearance. -/
structure Alphabet where
  /-- The symbols; the one at place `i` has the id `i`. -/
  symbols : List Symbol
  /-- No symbol appears twice. -/
  nodup : symbols.Nodup
deriving DecidableEq

namespace Alphabet

/-- The alphabet without symbols. -/
def empty : Alphabet := ⟨[], List.nodup_nil⟩

instance : Inhabited Alphabet := ⟨empty⟩

/-- The number of symbols. -/
def size (A : Alphabet) : Nat := A.symbols.length

/-- The ids of all symbols, in order. -/
def ids (A : Alphabet) : List Nat := List.range A.size

/-- The symbol with a given id. -/
def symbol? (A : Alphabet) (id : Nat) : Option Symbol := A.symbols[id]?

/-- The id of a symbol of the alphabet. -/
def id? (A : Alphabet) (s : Symbol) : Option Nat := A.symbols.idxOf? s

/-- The id that a symbol has, or would be given by `insert`. -/
def idOf (A : Alphabet) (s : Symbol) : Nat := A.symbols.idxOf s

/-- Add a symbol at the end, unless the alphabet has it already. -/
def insert (A : Alphabet) (s : Symbol) : Alphabet :=
  if h : s ∈ A.symbols then A
  else ⟨A.symbols ++ [s], by
    rw [List.nodup_append]
    exact ⟨A.nodup, by simp, by rintro a ha b hb rfl; simp at hb; exact h (hb ▸ ha)⟩⟩

/-- The alphabet with the symbols of a list, in the order of their first appearance. -/
def ofList (symbols : List Symbol) : Alphabet := symbols.foldl insert empty

/-- The ids of the symbols that admit a character, in order. -/
def matching (A : Alphabet) (x : Char) : List Nat :=
  A.ids.filter fun id => (A.symbol? id).any (·.admits x)

/-- The text of a label.  An id that no symbol has is written with a number sign. -/
def label (A : Alphabet) : Label → String
  | .epsilon => epsilonLabel
  | .symbol id =>
    match A.symbol? id with
    | some s => s.label
    | none => "#" ++ id.repr

/-! ### Laws -/

@[simp] theorem symbols_empty : empty.symbols = [] := rfl

@[simp] theorem mem_ids {A : Alphabet} {id : Nat} : id ∈ A.ids ↔ id < A.size := by
  simp [ids]

theorem symbols_insert (A : Alphabet) (s : Symbol) :
    (A.insert s).symbols = if s ∈ A.symbols then A.symbols else A.symbols ++ [s] := by
  unfold insert
  split <;> rfl

@[simp] theorem mem_insert {A : Alphabet} {s t : Symbol} :
    t ∈ (A.insert s).symbols ↔ t ∈ A.symbols ∨ t = s := by
  rw [symbols_insert]
  split
  · constructor
    · exact Or.inl
    · rintro (h | rfl) <;> assumption
  · simp

/-- The id given by `insert` is the place of the symbol afterwards. -/
theorem symbol?_insert_idOf (A : Alphabet) (s : Symbol) :
    (A.insert s).symbol? (A.idOf s) = some s := by
  unfold symbol? idOf
  rw [symbols_insert]
  split
  · rename_i h
    rw [List.getElem?_eq_getElem (List.idxOf_lt_length_of_mem h), List.getElem_idxOf]
  · rename_i h
    rw [List.idxOf_eq_length h]
    simp

theorem idOf_lt_size_insert (A : Alphabet) (s : Symbol) : A.idOf s < (A.insert s).size :=
  (List.getElem?_eq_some_iff.mp (A.symbol?_insert_idOf s)).1

theorem size_le_size_insert (A : Alphabet) (s : Symbol) : A.size ≤ (A.insert s).size := by
  unfold size
  rw [symbols_insert]
  split
  · exact Nat.le_refl _
  · simp

/-- The id that a symbol is given is the only one that can be new. -/
theorem mem_ids_insert {A : Alphabet} {s : Symbol} {id : Nat} :
    id ∈ (A.insert s).ids ↔ id ∈ A.ids ∨ id = A.idOf s := by
  simp only [mem_ids, size, idOf, symbols_insert]
  split
  · rename_i h
    have hlt := List.idxOf_lt_length_of_mem h
    omega
  · rename_i h
    rw [List.idxOf_eq_length h, List.length_append, List.length_singleton]
    omega

/-- Adding a symbol leaves the ids of the others alone. -/
theorem symbol?_insert_of_lt {A : Alphabet} {s : Symbol} {id : Nat} (h : id < A.size) :
    (A.insert s).symbol? id = A.symbol? id := by
  unfold symbol?
  rw [symbols_insert]
  split
  · rfl
  · exact List.getElem?_append_left h

theorem mem_matching {A : Alphabet} {x : Char} {id : Nat} :
    id ∈ A.matching x ↔ ∃ s, A.symbol? id = some s ∧ s.admits x = true := by
  simp only [matching, List.mem_filter, mem_ids, Option.any_eq_true_iff_get]
  constructor
  · rintro ⟨-, h, hm⟩
    exact ⟨_, (Option.some_get h).symm, hm⟩
  · rintro ⟨s, hs, hm⟩
    have hlt : id < A.symbols.length := (List.getElem?_eq_some_iff.mp hs).1
    exact ⟨hlt, by simp [hs], by simpa [hs] using hm⟩

end Alphabet

end RegexAutomata
