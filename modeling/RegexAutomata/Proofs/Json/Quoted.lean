/-
# Reading what has been quoted

A string that is written between quotation marks is read back: every escape that is written stands for
the character that it was written for (`Json.escape_cases`), and what is written as itself is read as
itself.
-/
import Mathlib.Tactic.Lemma
import RegexAutomata.Json.Quoted

namespace RegexAutomata
namespace Json

variable {c : Char} {rest : List Char}

lemma hexValue?_hexDigit {n : Nat} (h : n < 16) : hexValue? (hexDigit n) = some n := by
  decide +revert

lemma utf8Size_hexDigit {n : Nat} (h : n < 16) : (hexDigit n).utf8Size = 1 := by
  decide +revert

/-- A control character is written by two zeros and the two digits of its number. -/
lemma readUnit_control (h : c.toNat < 0x20) :
    readUnit ('0' :: '0' :: hexDigit (c.toNat / 16) :: hexDigit (c.toNat % 16) :: rest) =
      .ok (c.toNat, rest) := by
  have hhigh : c.toNat / 16 < 16 := by omega
  have hlow : c.toNat % 16 < 16 := Nat.mod_lt _ (by decide)
  have hzero : hexValue? '0' = some 0 := by decide
  have hsize : '0'.utf8Size = 1 := by decide
  rw [readUnit, if_neg (by simp [utf8Size_hexDigit hhigh, utf8Size_hexDigit hlow, hsize])]
  simp only [hzero, hexValue?_hexDigit hhigh, hexValue?_hexDigit hlow]
  congr 2
  omega

/-- A character that is written by a letter has an escape that is read as the character. -/
lemma exists_letter (h : c ∈ ['\x22', '\\', '\x08', '\x0c', '\n', '\r', '\t']) :
    ∃ l, escape c = ['\\', l] ∧ l ≠ 'u' ∧ letterEscape? l = some c := by
  simp only [List.mem_cons, List.not_mem_nil, or_false] at h
  rcases h with rfl | rfl | rfl | rfl | rfl | rfl | rfl <;> exact ⟨_, rfl, by decide, rfl⟩

/-- A character is written as itself, or as an escape that is read as the character. -/
lemma escape_cases (c : Char) :
    (escape c = [c] ∧ c ≠ '\x22' ∧ c ≠ '\\' ∧ ¬c.toNat < 0x20) ∨
      ∃ e, escape c = '\\' :: e ∧ ∀ rest, readEscape (e ++ rest) = .ok (c, rest) := by
  by_cases hletter : c ∈ ['\x22', '\\', '\x08', '\x0c', '\n', '\r', '\t']
  · obtain ⟨l, hescape, hne, hread⟩ := exists_letter hletter
    refine Or.inr ⟨[l], hescape, fun rest => ?_⟩
    rw [List.singleton_append, readEscape, if_neg hne]
    simp only [hread]
  · simp only [List.mem_cons, List.not_mem_nil, or_false, not_or] at hletter
    obtain ⟨hquote, hbackslash, hb, hf, hn, hr, ht⟩ := hletter
    rw [escape, if_neg hquote, if_neg hbackslash, if_neg hb, if_neg hf, if_neg hn, if_neg hr,
      if_neg ht]
    split
    · rename_i hcontrol
      refine Or.inr ⟨_, rfl, fun rest => ?_⟩
      simp only [List.cons_append, List.nil_append, readEscape, if_pos, readUnit_control hcontrol]
      -- the number of a control character is no surrogate
      have hlow : isLowSurrogate c.toNat = false := by
        simp only [isLowSurrogate, Bool.and_eq_false_iff, decide_eq_false_iff_not]
        omega
      have hhigh : isHighSurrogate c.toNat = false := by
        simp only [isHighSurrogate, Bool.and_eq_false_iff, decide_eq_false_iff_not]
        omega
      simp only [hlow, hhigh, Bool.false_eq_true, if_false, Char.ofNat_toNat]
    · rename_i hcontrol
      exact Or.inl ⟨rfl, hquote, hbackslash, hcontrol⟩

/-- The text of one character is read as that character. -/
lemma readString_escape : readString (escape c ++ rest) =
    (fun read => (c :: read.1, read.2)) <$> readString rest := by
  rcases escape_cases c with ⟨hself, hquote, hbackslash, hcontrol⟩ | ⟨e, hescape, hread⟩
  · rw [hself, List.singleton_append, readString, if_neg hquote, if_neg hbackslash,
      if_neg hcontrol]
  · rw [hescape, List.cons_append, readString, if_neg (by decide), if_pos rfl]
    split
    · rename_i hfault
      exact absurd (hfault.symm.trans (hread rest)) (by simp)
    · rename_i x rest' hok
      obtain ⟨rfl, rfl⟩ := Prod.mk.inj (Except.ok.inj (hok.symm.trans (hread rest)))
      rfl

/-- A quoted string is read back. -/
lemma readString_flatMap_escape (s : List Char) :
    readString (s.flatMap escape ++ '\x22' :: rest) = .ok (s, rest) := by
  induction s with
  | nil =>
    rw [List.flatMap_nil, List.nil_append, readString]
    simp
  | cons c s ih =>
    rw [List.flatMap_cons, List.append_assoc, readString_escape, ih]
    rfl

end Json
end RegexAutomata
