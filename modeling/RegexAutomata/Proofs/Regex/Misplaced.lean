/-
# The leftmost place that is at fault

The check of the operators and the reading of a class look at the places of a text from the left and stop at
the first that is at fault.  `Leftmost` says that a fault is that of the first such place.

What the faults are is said apart from the two passes: `Place.Misplaced` for the characters of a whole text, and
`Place.NotInClass` for those between the brackets of a class.
-/
import RegexAutomata.Proofs.Regex.ClassBody

namespace RegexAutomata
namespace Regex

/-- A fault is that of the first place that does not fit, where the places are numbered from a position
on. -/
def Leftmost (fits : Place → Prop) (fault : Place → Nat → RegexError → Prop) (position : Nat)
    (ps : List Place) (e : RegexError) : Prop :=
  ∃ i p, ps[i]? = some p ∧ fault p (position + i) e ∧ ∀ j < i, ∀ q, ps[j]? = some q → fits q

section
variable {fits : Place → Prop} {fault : Place → Nat → RegexError → Prop} {position : Nat} {p : Place}
  {ps : List Place} {e : RegexError}

@[simp] lemma not_leftmost_nil : ¬Leftmost fits fault position [] e := by
  rintro ⟨i, p, hp, -⟩
  exact absurd hp (by simp)

/-- If the first place fits, the fault is that of a later one. -/
lemma leftmost_cons_of_fits (hfits : fits p) (hfault : ¬fault p position e) :
    Leftmost fits fault position (p :: ps) e ↔ Leftmost fits fault (position + 1) ps e := by
  constructor
  · rintro ⟨_ | i, q, hq, he, hbefore⟩
    · obtain rfl := Option.some.inj hq
      exact absurd he hfault
    · refine ⟨i, q, hq, ?_, fun j hj => hbefore (j + 1) (Nat.succ_lt_succ hj)⟩
      rwa [Nat.add_assoc, Nat.add_comm 1 i]
  · rintro ⟨i, q, hq, he, hbefore⟩
    refine ⟨i + 1, q, hq, ?_, ?_⟩
    · rwa [Nat.add_comm i 1, ← Nat.add_assoc]
    · rintro (_ | j) hj r hr
      · obtain rfl := Option.some.inj hr
        exact hfits
      · exact hbefore j (Nat.lt_of_succ_lt_succ hj) r hr

/-- If the first place does not fit, the fault is its own. -/
lemma leftmost_cons_of_not_fits (hfits : ¬fits p) :
    Leftmost fits fault position (p :: ps) e ↔ fault p position e := by
  constructor
  · rintro ⟨_ | i, q, hq, he, hbefore⟩
    · obtain rfl := Option.some.inj hq
      exact he
    · exact absurd (hbefore 0 (Nat.succ_pos i) p rfl) hfits
  · exact fun he => ⟨0, p, rfl, he, fun j hj => absurd hj (Nat.not_lt_zero j)⟩

end

/-! ### Operators out of place -/

/-- The faults of a place in a text: a blank, an operator at the beginning, a repetition after an operator or
an opening bracket, and a `|` at the end, after `|` or an opening bracket, or before an operator or a closing
bracket. -/
inductive Place.Misplaced : Place → Nat → RegexError → Prop
  | blank {before after : Option Char} {c : Char} {i : Nat} (hc : isBlank c = true) :
    Misplaced ⟨before, c, after⟩ i (.blank i)
  | leading {after : Option Char} {c : Char} {i : Nat} (hc : isOperator c = true) :
    Misplaced ⟨none, c, after⟩ i (.leadingOperator c)
  | repetition {after : Option Char} {b c : Char} {i : Nat} (hc : isRepetition c = true)
    (hb : isOperator b = true ∨ isOpening b = true) : Misplaced ⟨some b, c, after⟩ i (.unaryOperand c i)
  | trailing {b : Char} {i : Nat} : Misplaced ⟨some b, '|', none⟩ i (.trailingOperator '|')
  | alternation {a b : Char} {i : Nat}
    (h : b = '|' ∨ isOpening b = true ∨ isOperator a = true ∨ isClosing a = true) :
    Misplaced ⟨some b, '|', some a⟩ i (.binaryOperands '|' i)

variable {before after : Option Char} {c : Char} {cs : List Char} {position : Nat} {e : RegexError}

lemma faultAt_of_isRepetition (hc : isRepetition c = true) :
    faultAt before c after position = repetitionFault before c position := by
  have hc' : c = '*' ∨ c = '+' := by simpa [isRepetition] using hc
  rcases hc' with rfl | rfl <;> rfl

lemma faultAt_bar : faultAt before '|' after position = alternationFault before '|' after position := rfl

lemma misplaced_of_faultAt (h : faultAt before c after position = some e) :
    Place.Misplaced ⟨before, c, after⟩ position e := by
  rw [faultAt] at h
  split at h
  · rename_i hblank
    obtain rfl := Option.some.inj h
    exact .blank hblank
  split at h
  · rename_i hrep
    cases before with
    | none =>
      obtain rfl := Option.some.inj h
      exact .leading (by simp [isOperator, hrep])
    | some b =>
      simp only [repetitionFault, Option.ite_none_right_eq_some, Option.some.injEq, Bool.or_eq_true] at h
      obtain ⟨hb, rfl⟩ := h
      exact .repetition hrep hb
  split at h
  · rename_i hbar
    obtain rfl := beq_iff_eq.mp hbar
    cases before with
    | none =>
      obtain rfl := Option.some.inj h
      exact .leading rfl
    | some b =>
      cases after with
      | none =>
        obtain rfl := Option.some.inj h
        exact .trailing
      | some a =>
        simp only [alternationFault, Option.ite_none_right_eq_some, Option.some.injEq, Bool.or_eq_true,
          beq_iff_eq, or_assoc] at h
        obtain ⟨hba, rfl⟩ := h
        exact .alternation hba
  · exact absurd h (by simp)

/-- The three checks of a place do not hide one another's faults. -/
lemma Place.Misplaced.faultAt_eq (h : Place.Misplaced ⟨before, c, after⟩ position e) :
    faultAt before c after position = some e := by
  cases h with
  | blank hc => rw [faultAt, if_pos hc]
  | leading hc =>
    rw [isOperator, Bool.or_eq_true, beq_iff_eq] at hc
    rcases hc with hrep | rfl
    · exact faultAt_of_isRepetition hrep
    · rfl
  | repetition hc hb =>
    rw [faultAt_of_isRepetition hc]
    exact if_pos (by rwa [Bool.or_eq_true])
  | trailing => rfl
  | alternation h =>
    rw [faultAt_bar]
    exact if_pos (by simpa [or_assoc] using h)

lemma faultAt_eq_some_iff :
    faultAt before c after position = some e ↔ Place.Misplaced ⟨before, c, after⟩ position e :=
  ⟨misplaced_of_faultAt, Place.Misplaced.faultAt_eq⟩

lemma firstFault_eq_some_iff : firstFault before position cs = some e ↔
    Leftmost Place.Fits Place.Misplaced position (places before cs none) e := by
  induction cs generalizing before position with
  | nil => simp [firstFault]
  | cons c cs ih =>
    rw [firstFault, places_cons, Option.or_none]
    cases h : faultAt before c cs.head? position with
    | none =>
      have hfault : ¬Place.Misplaced ⟨before, c, cs.head?⟩ position e := by
        rw [← faultAt_eq_some_iff, h]
        simp
      rw [leftmost_cons_of_fits (faultAt_eq_none_iff.mp h) hfault, ← ih]
    | some fault =>
      have hfits : ¬Place.Fits ⟨before, c, cs.head?⟩ := fun hfits =>
        absurd ((faultAt_eq_none_iff.mpr hfits).symm.trans h) (by simp)
      rw [leftmost_cons_of_not_fits hfits, ← faultAt_eq_some_iff, h]

/-- A text is refused by the check of the operators if it is empty, or else for the first of its characters
that is out of place. -/
lemma checkPlacement_eq_error_iff : checkPlacement cs = .error e ↔
    cs = [] ∧ e = .empty ∨ Leftmost Place.Fits Place.Misplaced 0 (places none cs none) e := by
  rw [← firstFault_eq_some_iff]
  cases cs with
  | nil => simp [checkPlacement, firstFault, eq_comm]
  | cons c cs =>
    simp only [checkPlacement, List.isEmpty_cons]
    cases firstFault none 0 (c :: cs) <;> simp

/-! ### Characters out of place in a class -/

/-- The characters between brackets are refused for the first that is out of place. -/
lemma classSymbols_eq_error_iff : classSymbols before position cs = .error e ↔
    Leftmost Place.InClass Place.NotInClass position (places before cs none) e := by
  induction cs generalizing before position with
  | nil => simp [classSymbols]
  | cons c cs ih =>
    rw [places_cons, Option.or_none]
    rcases Place.inClass_or_notInClass ⟨before, c, cs.head?⟩ position with hin | ⟨e', hout⟩
    · rw [leftmost_cons_of_fits hin fun hout => hout.not_inClass hin, classSymbols_cons_of_inClass hin,
        map_eq_error_iff, ih]
    · rw [leftmost_cons_of_not_fits hout.not_inClass]
      constructor
      · intro h
        obtain rfl := Except.error.inj ((classSymbols_cons_of_notInClass hout).symm.trans h)
        exact hout
      · exact classSymbols_cons_of_notInClass

end Regex
end RegexAutomata
