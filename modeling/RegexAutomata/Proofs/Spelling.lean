/-
# Words of symbol ids

An automaton reads a string through its symbols: each character is read by some symbol that admits
it, so reading a string is reading a word of symbol ids that *spells* it.  The symbols of an alphabet
may overlap, and then one string is spelled by several words.
-/
import Mathlib.Data.List.Forall2
import RegexAutomata.Alphabet

namespace RegexAutomata
namespace Alphabet

/-- The symbols of a word admit the characters of a string, one after the other. -/
def Spells (A : Alphabet) (u : List Nat) (w : List Char) : Prop :=
  List.Forall₂ (fun a x => a ∈ A.matching x) u w

variable {A : Alphabet}

@[simp] lemma spells_nil_right {u : List Nat} : A.Spells u [] ↔ u = [] := by
  simp [Spells]

@[simp] lemma spells_cons_right {u : List Nat} {x : Char} {w : List Char} :
    A.Spells u (x :: w) ↔ ∃ a v, a ∈ A.matching x ∧ A.Spells v w ∧ u = a :: v := by
  constructor
  · intro h
    cases h with
    | cons ha hv => exact ⟨_, _, ha, hv, rfl⟩
  · rintro ⟨a, v, ha, hv, rfl⟩
    exact List.Forall₂.cons ha hv

lemma lt_size_of_mem_matching {x : Char} {a : Nat} (h : a ∈ A.matching x) : a < A.size := by
  obtain ⟨s, hs, -⟩ := mem_matching.mp h
  exact (List.getElem?_eq_some_iff.mp hs).1

/-- A word that spells a string is made of ids of the alphabet. -/
lemma Spells.mem_ids {u : List Nat} {w : List Char} (h : A.Spells u w) : ∀ a ∈ u, a ∈ A.ids := by
  induction h with
  | nil => simp
  | cons ha _ ih =>
    intro b hb
    rcases List.mem_cons.mp hb with rfl | hb
    · exact Alphabet.mem_ids.mpr (lt_size_of_mem_matching ha)
    · exact ih b hb

end Alphabet
end RegexAutomata
