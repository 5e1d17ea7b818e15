/-
# Characters and their neighbours

Two of the passes over an expression judge each character by the characters next to it: the check of
the operators, and the reading of a class.  A *place* is a character with its neighbours, and each of
the two passes succeeds exactly if no place is at fault.
-/
import Mathlib.Tactic.Lemma
import RegexAutomata.Regex.Placement
import RegexAutomata.Symbol

namespace RegexAutomata
namespace Regex

/-- A character of a text with the characters before and after it. -/
structure Place where
  before : Option Char
  char : Char
  after : Option Char

/-- The places of a text that stands between two characters. -/
def places (before : Option Char) : List Char → Option Char → List Place
  | [], _ => []
  | c :: rest, after => ⟨before, c, rest.head?.or after⟩ :: places (some c) rest after

variable {before after : Option Char} {cs ds : List Char} {p : Place}

@[simp] lemma places_nil : places before [] after = [] := rfl

@[simp] lemma places_cons {c : Char} :
    places before (c :: cs) after =
      ⟨before, c, cs.head?.or after⟩ :: places (some c) cs after := rfl

lemma places_append :
    places before (cs ++ ds) after =
      places before cs (ds.head?.or after) ++ places (cs.getLast?.or before) ds after := by
  induction cs generalizing before with
  | nil => simp
  | cons c cs ih =>
    rw [List.cons_append, places_cons, places_cons, ih, List.head?_append, Option.or_assoc,
      List.getLast?_cons, List.cons_append, Option.some_or]
    cases cs.getLast? <;> rfl

/-- The places of a text are its characters with what stands to the left and to the right. -/
lemma mem_places_iff :
    p ∈ places before cs after ↔ ∃ u v, cs = u ++ p.char :: v ∧
      p.before = u.getLast?.or before ∧ p.after = v.head?.or after := by
  constructor
  · intro h
    induction cs generalizing before with
    | nil => simp at h
    | cons c cs ih =>
      rcases List.mem_cons.mp h with rfl | h
      · exact ⟨[], cs, rfl, rfl, rfl⟩
      · obtain ⟨u, v, rfl, hb, ha⟩ := ih h
        refine ⟨c :: u, v, rfl, ?_, ha⟩
        rw [hb, List.getLast?_cons]
        cases u.getLast? <;> rfl
  · rintro ⟨u, v, rfl, hb, ha⟩
    rw [places_append]
    refine List.mem_append_right _ ?_
    rw [places_cons, ← hb, ← ha]
    exact List.mem_cons_self

lemma mem_places_none_iff :
    p ∈ places none cs none ↔
      ∃ u v, cs = u ++ p.char :: v ∧ p.before = u.getLast? ∧ p.after = v.head? := by
  simp only [mem_places_iff, Option.or_none]

/-! ### Operators in their places -/

/-- A character is no blank, and if it is an operator, it stands where operators may stand. -/
structure Place.Fits (p : Place) : Prop where
  not_blank : isBlank p.char = false
  repetition : isRepetition p.char = true →
    ∃ b, p.before = some b ∧ isOperator b = false ∧ isOpening b = false
  alternation : p.char = '|' → ∃ b a, p.before = some b ∧ p.after = some a ∧
    b ≠ '|' ∧ isOpening b = false ∧ isOperator a = false ∧ isClosing a = false

lemma repetitionFault_eq_none_iff {c : Char} {position : Nat} :
    repetitionFault before c position = none ↔
      ∃ b, before = some b ∧ isOperator b = false ∧ isOpening b = false := by
  cases before with
  | none => simp [repetitionFault]
  | some b => simp [repetitionFault]

lemma alternationFault_eq_none_iff {c : Char} {position : Nat} :
    alternationFault before c after position = none ↔ ∃ b a, before = some b ∧ after = some a ∧
      b ≠ '|' ∧ isOpening b = false ∧ isOperator a = false ∧ isClosing a = false := by
  cases before with
  | none => simp [alternationFault]
  | some b =>
    cases after with
    | none => simp [alternationFault]
    | some a => simp [alternationFault, and_assoc]

lemma faultAt_eq_none_iff {c : Char} {position : Nat} :
    faultAt before c after position = none ↔ Place.Fits ⟨before, c, after⟩ := by
  rw [faultAt]
  split
  · rename_i hblank
    constructor
    · intro h
      exact absurd h (by simp)
    · intro h
      exact absurd (h.not_blank.symm.trans hblank) (by simp)
  · rename_i hblank
    rw [Bool.not_eq_true] at hblank
    split
    · rename_i hrep
      have hbar : c ≠ '|' := by
        rintro rfl
        exact absurd hrep (by decide)
      rw [repetitionFault_eq_none_iff]
      constructor
      · intro h
        exact ⟨hblank, fun _ => h, fun hc => absurd hc hbar⟩
      · intro h
        exact h.repetition hrep
    · rename_i hrep
      split
      · rename_i hbar
        rw [alternationFault_eq_none_iff]
        constructor
        · intro h
          exact ⟨hblank, fun hc => absurd hc hrep, fun _ => h⟩
        · intro h
          exact h.alternation (beq_iff_eq.mp hbar)
      · -- neither a blank nor an operator: nothing is asked of the neighbours
        rename_i hbar
        have hfits : Place.Fits ⟨before, c, after⟩ :=
          ⟨hblank, fun hc => absurd hc hrep, fun hc => absurd (beq_iff_eq.mpr hc) hbar⟩
        exact iff_of_true rfl hfits

lemma firstFault_eq_none_iff {position : Nat} :
    firstFault before position cs = none ↔ ∀ p ∈ places before cs none, p.Fits := by
  induction cs generalizing before position with
  | nil => simp [firstFault]
  | cons c cs ih =>
    rw [firstFault, places_cons, List.forall_mem_cons, Option.or_none, ← faultAt_eq_none_iff,
      ← @ih (some c) (position + 1)]
    cases faultAt before c cs.head? position <;> simp

/-- The check of the operators passes if there is a text and all its characters are in their
places. -/
lemma checkPlacement_eq_ok_iff :
    checkPlacement cs = .ok () ↔ cs ≠ [] ∧ ∀ p ∈ places none cs none, p.Fits := by
  rw [← @firstFault_eq_none_iff none cs 0]
  cases cs with
  | nil => simp [checkPlacement]
  | cons c cs =>
    simp only [checkPlacement, List.isEmpty_cons]
    cases firstFault none 0 (c :: cs) <;> simp

/-- What is said of the neighbours of a character does not change if more neighbours come to the ends of
the text. -/
lemma fits_of_fits_none (h : ∀ p ∈ places none cs none, p.Fits) (hp : p ∈ places before cs after) :
    p.Fits := by
  obtain ⟨u, v, hcs, hb, ha⟩ := mem_places_iff.mp hp
  obtain ⟨hblank, hrepetition, halternation⟩ :=
    h ⟨u.getLast?, p.char, v.head?⟩ (mem_places_none_iff.mpr ⟨u, v, hcs, rfl, rfl⟩)
  simp only at hblank hrepetition halternation
  refine ⟨hblank, ?_, ?_⟩
  · intro hc
    obtain ⟨b, hu, hb'⟩ := hrepetition hc
    exact ⟨b, by rw [hb, hu, Option.some_or], hb'⟩
  · intro hc
    obtain ⟨b, a, hu, hv, hba⟩ := halternation hc
    exact ⟨b, a, by rw [hb, hu, Option.some_or], by rw [ha, hv, Option.some_or], hba⟩

/-! ### Literals -/

lemma ne_of_isLiteral {c d : Char} (hc : isLiteral c = true) (hd : isLiteral d = false) : c ≠ d := by
  rintro rfl
  exact absurd (hc.symm.trans hd) (by simp)

/-- Literals are printable characters of ASCII. -/
lemma toNat_of_isLiteral {c : Char} (h : isLiteral c = true) : 0x21 ≤ c.toNat ∧ c.toNat ≤ 0x7E := by
  rw [isLiteral, Bool.or_eq_true] at h
  rcases h with h | h
  · have hranges : (decide ('A'.val ≤ c.val ∧ c.val ≤ 'Z'.val) ||
        (decide ('a'.val ≤ c.val) && decide (c.val ≤ 'z'.val)) ||
        (decide ('0'.val ≤ c.val) && decide (c.val ≤ '9'.val))) = true := h
    simp only [Bool.or_eq_true, Bool.and_eq_true, decide_eq_true_eq, UInt32.le_iff_toNat_le,
      Char.reduceVal, UInt32.reduceToNat] at hranges
    show 0x21 ≤ c.val.toNat ∧ c.val.toNat ≤ 0x7E
    omega
  · simp only [List.contains_eq_mem, List.mem_cons, List.not_mem_nil, or_false,
      decide_eq_true_eq] at h
    rcases h with rfl | rfl | rfl | rfl | rfl | rfl | rfl | rfl | rfl | rfl | rfl | rfl | rfl | rfl |
      rfl | rfl | rfl | rfl | rfl <;> decide

lemma isBlank_of_isLiteral {c : Char} (h : isLiteral c = true) : isBlank c = false := by
  have hc := toNat_of_isLiteral h
  simp only [isBlank, whiteSpace, List.any_cons, List.any_nil, Bool.or_eq_false_iff,
    Bool.and_eq_false_iff, decide_eq_false_iff_not, and_true]
  omega

lemma isOperator_of_isLiteral {c : Char} (h : isLiteral c = true) : isOperator c = false := by
  simp only [isOperator, isRepetition, Bool.or_eq_false_iff, beq_eq_false_iff_ne]
  exact ⟨⟨ne_of_isLiteral h rfl, ne_of_isLiteral h rfl⟩,
    ne_of_isLiteral h rfl⟩

lemma isOpening_of_isLiteral {c : Char} (h : isLiteral c = true) : isOpening c = false := by
  simp only [isOpening, Bool.or_eq_false_iff, beq_eq_false_iff_ne]
  exact ⟨ne_of_isLiteral h rfl, ne_of_isLiteral h rfl⟩

lemma isClosing_of_isLiteral {c : Char} (h : isLiteral c = true) : isClosing c = false := by
  simp only [isClosing, Bool.or_eq_false_iff, beq_eq_false_iff_ne]
  exact ⟨ne_of_isLiteral h rfl, ne_of_isLiteral h rfl⟩

/-- A character that is neither blank nor an operator may stand anywhere. -/
lemma Place.fits_of_isOperator {c : Char} (hblank : isBlank c = false) (hc : isOperator c = false) :
    Place.Fits ⟨before, c, after⟩ := by
  rw [isOperator, Bool.or_eq_false_iff, beq_eq_false_iff_ne] at hc
  exact ⟨hblank, fun h => absurd (h.symm.trans hc.1) (by simp), fun h => absurd h hc.2⟩

lemma Place.fits_repetition {b c : Char} (hc : isRepetition c = true) (hb : isOperator b = false)
    (hb' : isOpening b = false) : Place.Fits ⟨some b, c, after⟩ := by
  have hc' : c = '*' ∨ c = '+' := by simpa [isRepetition] using hc
  refine ⟨?_, fun _ => ⟨b, rfl, hb, hb'⟩, ?_⟩
  · rcases hc' with rfl | rfl <;> rfl
  · rintro rfl
    exact absurd hc (by decide)

lemma Place.fits_alternation {a b : Char} (hb : b ≠ '|') (hb' : isOpening b = false)
    (ha : isOperator a = false) (ha' : isClosing a = false) :
    Place.Fits ⟨some b, '|', some a⟩ := by
  refine ⟨rfl, ?_, fun _ => ⟨b, a, rfl, rfl, hb, hb', ha, ha'⟩⟩
  intro h
  have hbar : isRepetition '|' = true := h
  exact absurd hbar (by decide)

end Regex
end RegexAutomata
