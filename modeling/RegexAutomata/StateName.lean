/-
# Names of states

In a file a state goes by a name.  The dead state of a deterministic automaton has a name of its
own, and any other state is named by a number, its label.  `labelOfName?` finds the label in a
name; it takes only names that `nameOfLabel` makes, from labels that fit in 32 bits
(`labelOfName?_eq_some_iff`).
-/

namespace RegexAutomata

/-- The name of the dead state. -/
def deadName : String := "PHI"

/-- The name made of a label. -/
def nameOfLabel (label : Nat) : String := "S" ++ label.repr

/-- The label that a name is made of, written without leading zeros and below 2^32. -/
def labelOfName? (name : String) : Option Nat :=
  match name.toList with
  | 'S' :: digits =>
    let label := Nat.ofDigitChars 10 digits 0
    if Nat.toDigits 10 label = digits ∧ label < 4294967296 then some label else none
  | _ => none

theorem toList_nameOfLabel (label : Nat) :
    (nameOfLabel label).toList = 'S' :: Nat.toDigits 10 label := by
  rw [nameOfLabel, String.toList_append, Nat.toList_repr]
  rfl

theorem nameOfLabel_injective {m n : Nat} (h : nameOfLabel m = nameOfLabel n) : m = n := by
  have h' := congrArg String.toList h
  rw [toList_nameOfLabel, toList_nameOfLabel, List.cons.injEq] at h'
  have h'' := congrArg (Nat.ofDigitChars 10 · 0) h'.2
  simpa [Nat.ofDigitChars_ten_toDigits] using h''

theorem nameOfLabel_ne_deadName (label : Nat) : nameOfLabel label ≠ deadName := by
  intro h
  have h' := congrArg String.toList h
  rw [toList_nameOfLabel] at h'
  exact absurd (List.cons.inj h').1 (by decide)

theorem labelOfName?_eq_some_iff {name : String} {label : Nat} :
    labelOfName? name = some label ↔ name = nameOfLabel label ∧ label < 4294967296 := by
  constructor
  · intro h
    unfold labelOfName? at h
    split at h
    · rename_i digits hname
      dsimp only at h
      split at h
      · rename_i hd
        obtain rfl := Option.some.inj h
        refine ⟨String.toList_inj.mp ?_, hd.2⟩
        rw [hname, toList_nameOfLabel, hd.1]
      · exact absurd h (by simp)
    · exact absurd h (by simp)
  · rintro ⟨rfl, hlt⟩
    unfold labelOfName?
    simp only [toList_nameOfLabel, Nat.ofDigitChars_ten_toDigits, true_and]
    rw [if_pos hlt]

end RegexAutomata
