/-
# The inside of a class

What stands between the brackets of a class is a nonempty text of literals and dashes in which each
dash stands between the two ends of a range.  `ClassBody` keeps this as a proof, so every class body has
symbols, and `classSymbols` finds them exactly in the texts that are class bodies
(`classSymbols_eq_ok_iff`).

A place of a class is in order or has a fault (`Place.inClass_or_notInClass`), so reading goes on at the first
kind of place (`classSymbols_cons_of_inClass`) and ends at the second (`classSymbols_cons_of_notInClass`).
-/
import RegexAutomata.Proofs.Failure
import RegexAutomata.Proofs.Regex.Places
import RegexAutomata.Regex.CharClass
import RegexAutomata.Regex.Expr

namespace RegexAutomata
namespace Regex

/-- A literal, or a dash directly between two literals that are in order. -/
def Place.InClass (p : Place) : Prop :=
  isLiteral p.char = true ∨ p.char = '-' ∧ ∃ lo hi, p.before = some lo ∧ p.after = some hi ∧
    isLiteral lo = true ∧ isLiteral hi = true ∧ lo ≤ hi

/-- The symbol that a place of a class contributes: the range around a dash, and a literal unless it
touches a dash. -/
def Place.symbol? (p : Place) : Option Symbol :=
  if p.char = '-' then
    match p.before, p.after with
    | some lo, some hi => some (.range lo hi)
    | _, _ => none
  else if p.before = some '-' ∨ p.after = some '-' then none
  else some (.literal p.char)

lemma isLiteral_dash : isLiteral '-' = false := rfl

lemma inClass_dash_iff {before after : Option Char} :
    Place.InClass ⟨before, '-', after⟩ ↔ ∃ lo hi, before.filter isLiteral = some lo ∧
      after.filter isLiteral = some hi ∧ lo ≤ hi := by
  simp only [Place.InClass, isLiteral_dash, Option.filter_eq_some_iff]
  constructor
  · rintro (h | ⟨-, lo, hi, hlo, hhi, hlit, hlit', hle⟩)
    · exact absurd h (by simp)
    · exact ⟨lo, hi, ⟨hlo, hlit⟩, ⟨hhi, hlit'⟩, hle⟩
  · rintro ⟨lo, hi, ⟨hlo, hlit⟩, ⟨hhi, hlit'⟩, hle⟩
    exact Or.inr ⟨trivial, lo, hi, hlo, hhi, hlit, hlit', hle⟩

lemma inClass_iff_of_ne_dash {before after : Option Char} {c : Char} (hc : c ≠ '-') :
    Place.InClass ⟨before, c, after⟩ ↔ isLiteral c = true := by
  simp [Place.InClass, hc]

/-- A text that may stand between the brackets of a class. -/
structure ClassBody where
  chars : List Char
  chars_ne_nil : chars ≠ []
  inClass : ∀ p ∈ places none chars none, p.InClass

namespace ClassBody

/-- The symbols of a class, in order of position. -/
def symbols (body : ClassBody) : List Symbol :=
  (places none body.chars none).filterMap Place.symbol?

lemma isLiteral_or_eq_dash (body : ClassBody) {c : Char} (hc : c ∈ body.chars) :
    isLiteral c = true ∨ c = '-' := by
  obtain ⟨u, v, h⟩ := List.append_of_mem hc
  rcases body.inClass ⟨u.getLast?, c, v.head?⟩
    (mem_places_none_iff.mpr ⟨u, v, h, rfl, rfl⟩) with hlit | ⟨hdash, -⟩
  · exact Or.inl hlit
  · exact Or.inr hdash

/-- The first character is a literal, and if it touches a dash, that dash stands for a range. -/
lemma symbols_ne_nil (body : ClassBody) : body.symbols ≠ [] := by
  obtain ⟨chars, hne, hin⟩ := body
  obtain ⟨c, rest, rfl⟩ := List.exists_cons_of_ne_nil hne
  rw [places_cons, List.forall_mem_cons] at hin
  have hc : c ≠ '-' := by
    rintro rfl
    obtain ⟨lo, hi, hlo, -⟩ := inClass_dash_iff.mp hin.1
    exact absurd hlo (by simp)
  -- if a dash is next, the symbol is the range around it, and otherwise the literal itself
  cases rest with
  | nil => simp [symbols, Place.symbol?, hc]
  | cons d rest =>
    by_cases hd : d = '-'
    · subst hd
      rw [places_cons, List.forall_mem_cons] at hin
      obtain ⟨lo, hi, -, hhi, -⟩ := inClass_dash_iff.mp hin.2.1
      have hhi' := (Option.filter_eq_some_iff.mp hhi).1
      simp [symbols, Place.symbol?, hc, hhi']
    · simp [symbols, Place.symbol?, hc, hd]

/-- One symbol of the class or another, as a tree that leans to the left. -/
def expr (body : ClassBody) : Expr :=
  body.symbols.tail.foldl (fun e s => .alternate e (.symbol s))
    (.symbol (body.symbols.head body.symbols_ne_nil))

end ClassBody

/-! ### Characters out of place in a class -/

/-- The faults of a place in a class: a character that is neither a literal nor a dash, and a dash that does
not stand between two literals in order. -/
inductive Place.NotInClass : Place → Nat → RegexError → Prop
  | unknown {before after : Option Char} {c : Char} {i : Nat} (hdash : c ≠ '-') (hc : isLiteral c = false) :
    NotInClass ⟨before, c, after⟩ i (.unknownCharacter c i)
  | openRange {before after : Option Char} {i : Nat}
    (h : before.filter isLiteral = none ∨ after.filter isLiteral = none) :
    NotInClass ⟨before, '-', after⟩ i (.openRange i)
  | reversedRange {lo hi : Char} {i : Nat} (hlo : isLiteral lo = true) (hhi : isLiteral hi = true)
    (h : hi < lo) : NotInClass ⟨some lo, '-', some hi⟩ i (.reversedRange lo hi)

lemma Place.inClass_or_notInClass (p : Place) (position : Nat) :
    p.InClass ∨ ∃ e, p.NotInClass position e := by
  obtain ⟨before, c, after⟩ := p
  by_cases hc : c = '-'
  · subst hc
    cases hlo : before.filter isLiteral with
    | none => exact Or.inr ⟨_, .openRange (Or.inl hlo)⟩
    | some lo =>
      cases hhi : after.filter isLiteral with
      | none => exact Or.inr ⟨_, .openRange (Or.inr hhi)⟩
      | some hi =>
        -- both neighbours are literals; what remains is their order
        by_cases hle : lo ≤ hi
        · exact Or.inl (inClass_dash_iff.mpr ⟨lo, hi, hlo, hhi, hle⟩)
        · obtain ⟨rfl, hlit⟩ := Option.filter_eq_some_iff.mp hlo
          obtain ⟨rfl, hlit'⟩ := Option.filter_eq_some_iff.mp hhi
          exact Or.inr ⟨_, .reversedRange hlit hlit' (Char.not_le.mp hle)⟩
  · cases hlit : isLiteral c with
    | false => exact Or.inr ⟨_, .unknown hc hlit⟩
    | true => exact Or.inl ((inClass_iff_of_ne_dash hc).mpr hlit)

/-! ### Reading the inside of a class -/

section
variable {before : Option Char} {c : Char} {cs : List Char} {symbols : List Symbol} {position : Nat}
  {e : RegexError}

/-- A character in its place contributes its symbol. -/
lemma classSymbols_cons_of_inClass (h : Place.InClass ⟨before, c, cs.head?⟩) :
    classSymbols before position (c :: cs) =
      ((Place.symbol? ⟨before, c, cs.head?⟩).toList ++ ·) <$> classSymbols (some c) (position + 1) cs := by
  rw [classSymbols]
  by_cases hc : c = '-'
  · subst hc
    obtain ⟨lo, hi, hlo, hhi, hle⟩ := inClass_dash_iff.mp h
    have hsymbol : Place.symbol? ⟨before, '-', cs.head?⟩ = some (.range lo hi) := by
      simp [Place.symbol?, (Option.filter_eq_some_iff.mp hlo).1, (Option.filter_eq_some_iff.mp hhi).1]
    rw [if_pos rfl, hsymbol, hlo, hhi]
    exact if_pos hle
  · have hlit := (inClass_iff_of_ne_dash hc).mp h
    by_cases hdash : before = some '-' ∨ cs.head? = some '-'
    · simp [hc, hlit, hdash, Place.symbol?]
    · simp [hc, hlit, hdash, Place.symbol?]

/-- A character out of place is the fault. -/
lemma classSymbols_cons_of_notInClass (h : Place.NotInClass ⟨before, c, cs.head?⟩ position e) :
    classSymbols before position (c :: cs) = .error e := by
  rw [classSymbols]
  generalize cs.head? = after at h ⊢
  cases h with
  | unknown hdash hc =>
    rw [if_neg hdash, hc]
    rfl
  | openRange h =>
    rw [if_pos rfl]
    rcases h with h | h
    · rw [h]
    · rw [h]
      cases before.filter isLiteral <;> rfl
  | reversedRange hlo hhi h =>
    rw [if_pos rfl, Option.filter_some_pos hlo, Option.filter_some_pos hhi]
    exact if_neg (Char.not_le.mpr h)

lemma Place.NotInClass.not_inClass {p : Place} (h : p.NotInClass position e) : ¬p.InClass := by
  cases h with
  | unknown hdash hc =>
    rw [inClass_iff_of_ne_dash hdash, hc]
    simp
  | openRange h =>
    rw [inClass_dash_iff]
    rintro ⟨lo, hi, hlo, hhi, -⟩
    rcases h with h | h
    · exact absurd (h.symm.trans hlo) (by simp)
    · exact absurd (h.symm.trans hhi) (by simp)
  | reversedRange hlo hhi h =>
    rw [inClass_dash_iff]
    rintro ⟨lo', hi', hlo', hhi', hle⟩
    obtain rfl := Option.some.inj (Option.filter_eq_some_iff.mp hlo').1
    obtain rfl := Option.some.inj (Option.filter_eq_some_iff.mp hhi').1
    exact absurd h (Char.not_lt.mpr hle)

/-- The characters between brackets are read if each is in its place, and then the result are the
symbols of the places. -/
lemma classSymbols_eq_ok_iff : classSymbols before position cs = .ok symbols ↔
    (∀ p ∈ places before cs none, p.InClass) ∧
      (places before cs none).filterMap Place.symbol? = symbols := by
  induction cs generalizing before position symbols with
  | nil => simp [classSymbols]
  | cons c cs ih =>
    rw [places_cons, List.forall_mem_cons, Option.or_none]
    rcases Place.inClass_or_notInClass ⟨before, c, cs.head?⟩ position with hin | ⟨e, hout⟩
    · rw [classSymbols_cons_of_inClass hin, map_eq_ok_iff]
      simp only [ih, hin, true_and, and_assoc, exists_and_left, exists_eq_left', List.filterMap_cons]
      cases Place.symbol? ⟨before, c, cs.head?⟩ <;> rfl
    · simp [classSymbols_cons_of_notInClass hout, hout.not_inClass]

end

end Regex
end RegexAutomata
