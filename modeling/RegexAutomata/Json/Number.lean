/-
# Numbers

A number is an optional minus sign, digits without a leading zero, and optionally a fraction and
an exponent.  Nothing here needs the value of a number, but a number that is too large for a
double is refused, so its size is decided exactly: the leading digits that fit in 64 bits and the
power of ten that scales them are each rounded to a double, and the number is too large if their
product rounds to infinity.
-/
import RegexAutomata.Json.Quoted

namespace RegexAutomata
namespace Json

/-- The value of a decimal digit. -/
def digitValue (c : Char) : Nat := c.toNat - '0'.toNat

/-- The double nearest to a natural number, of two equally near the one with the even
significand.  Numbers too large for a double are rounded to the same number of digits. -/
def roundToDouble (n : Nat) : Nat :=
  if n < Nat.pow 2 53 then n
  else
    let unit := Nat.pow 2 (n.log2 - 52)
    let quotient := n / unit
    let twice := 2 * (n % unit)
    if twice < unit ∨ (twice = unit ∧ quotient % 2 = 0) then quotient * unit
    else (quotient + 1) * unit

/-- The least natural number that rounds to an infinite double. -/
def infiniteDouble : Nat := Nat.pow 2 1024 - Nat.pow 2 970

/-- Whether a number with a given significand and decimal exponent is too large. -/
def isTooLarge (significand : Nat) (exponent : Int) : Bool :=
  if 308 < exponent then significand != 0
  else if 0 ≤ exponent then
    decide (infiniteDouble ≤ roundToDouble significand * roundToDouble (Nat.pow 10 exponent.toNat))
  else false

/-- Take digits of the integer part into a significand of 64 bits.  From the first digit on that
does not fit, digits only count for the exponent. -/
def takeInteger (significand exponent : Nat) : List Char → Nat × Nat
  | [] => (significand, exponent)
  | c :: digits =>
    if exponent = 0 ∧ significand * 10 + digitValue c < Nat.pow 2 64 then
      takeInteger (significand * 10 + digitValue c) 0 digits
    else takeInteger significand (exponent + 1) digits

/-- Take digits of the fraction into a significand of 64 bits.  From the first digit on that does
not fit, digits do not count. -/
def takeFraction (significand : Nat) (exponent : Int) : List Char → Nat × Int
  | [] => (significand, exponent)
  | c :: digits =>
    if significand * 10 + digitValue c < Nat.pow 2 64 then
      takeFraction (significand * 10 + digitValue c) (exponent - 1) digits
    else (significand, exponent)

/-- Split off the digits in front of a text. -/
def splitDigits (text : List Char) : List Char × List Char :=
  (text.takeWhile Char.isDigit, text.dropWhile Char.isDigit)

/-- Read at least one digit. -/
def readDigits (text : List Char) : Except Fault (List Char × List Char) :=
  match splitDigits text with
  | ([], []) => .error .truncated
  | ([], _) => .error .malformed
  | split => .ok split

/-- Read a fraction, if there is one. -/
def readFraction : List Char → Except Fault (List Char × List Char)
  | '.' :: text => readDigits text
  | text => .ok ([], text)

/-- Read an exponent, if there is one. -/
def readExponent : List Char → Except Fault (Int × List Char)
  | c :: text =>
    if c = 'e' ∨ c = 'E' then
      match readDigits
          (if text.head? = some '-' ∨ text.head? = some '+' then text.tail else text) with
      | .error fault => .error fault
      | .ok (digits, rest) =>
        let size : Int := Nat.ofDigitChars 10 digits 0
        .ok (if text.head? = some '-' then -size else size, rest)
    else .ok (0, c :: text)
  | [] => .ok (0, [])

/-- Read a number and give what follows it. -/
def readNumber (text : List Char) : Except Fault (List Char) :=
  match readDigits (if text.head? = some '-' then text.tail else text) with
  | .error fault => .error fault
  | .ok (integer, afterInteger) =>
    if integer.head? = some '0' ∧ 1 < integer.length then .error .malformed
    else
      match readFraction afterInteger with
      | .error fault => .error fault
      | .ok (fraction, afterFraction) =>
        match readExponent afterFraction with
        | .error fault => .error fault
        | .ok (exponent, rest) =>
          let integral := takeInteger 0 0 integer
          let decimal := takeFraction integral.1 integral.2 fraction
          if isTooLarge decimal.1 (decimal.2 + exponent) then .error .malformed else .ok rest

/-! ### What remains is shorter -/

theorem length_of_readDigits {text digits rest : List Char}
    (h : readDigits text = .ok (digits, rest)) : rest.length < text.length := by
  have hsplit := congrArg List.length (@List.takeWhile_append_dropWhile _ Char.isDigit text)
  unfold readDigits splitDigits at h
  split at h
  · exact absurd h (by simp)
  · exact absurd h (by simp)
  · rename_i hne
    obtain ⟨rfl, rfl⟩ := Prod.mk.inj (Except.ok.inj h)
    cases ht : text.takeWhile Char.isDigit with
    | nil => exact (hne _ (Prod.ext ht rfl)).elim
    | cons c cs =>
      rw [ht] at hsplit
      simp only [List.length_append, List.length_cons] at hsplit
      omega

theorem length_of_readFraction {text digits rest : List Char}
    (h : readFraction text = .ok (digits, rest)) : rest.length ≤ text.length := by
  unfold readFraction at h
  split at h
  · have := length_of_readDigits h
    simp only [List.length_cons]
    omega
  · obtain ⟨-, rfl⟩ := Prod.mk.inj (Except.ok.inj h)
    exact Nat.le_refl _

theorem length_of_readExponent {text rest : List Char} {exponent : Int}
    (h : readExponent text = .ok (exponent, rest)) : rest.length ≤ text.length := by
  unfold readExponent at h
  split at h
  · rename_i c text
    split at h
    · dsimp only at h
      split at h
      · exact absurd h (by simp)
      · rename_i hdigits
        have hlt := length_of_readDigits hdigits
        obtain ⟨-, rfl⟩ := Prod.mk.inj (Except.ok.inj h)
        have htail : (if text.head? = some '-' ∨ text.head? = some '+' then text.tail
            else text).length ≤ text.length := by
          split <;> simp
        simp only [List.length_cons]
        omega
    · obtain ⟨-, rfl⟩ := Prod.mk.inj (Except.ok.inj h)
      exact Nat.le_refl _
  · obtain ⟨-, rfl⟩ := Prod.mk.inj (Except.ok.inj h)
    exact Nat.le_refl _

/-- A number takes at least one character. -/
theorem length_of_readNumber {text rest : List Char} (h : readNumber text = .ok rest) :
    rest.length < text.length := by
  unfold readNumber at h
  split at h
  · exact absurd h (by simp)
  rename_i hinteger
  have h1 := length_of_readDigits hinteger
  have htail : (if text.head? = some '-' then text.tail else text).length ≤ text.length := by
    split <;> simp
  split at h
  · exact absurd h (by simp)
  split at h
  · exact absurd h (by simp)
  rename_i hfraction
  have h2 := length_of_readFraction hfraction
  split at h
  · exact absurd h (by simp)
  rename_i hexponent
  have h3 := length_of_readExponent hexponent
  dsimp only at h
  split at h
  · exact absurd h (by simp)
  · obtain rfl := Except.ok.inj h
    omega

end Json
end RegexAutomata
