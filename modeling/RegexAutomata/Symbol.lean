/-
# Symbols

A symbol is the letter on a move of an automaton: either one character, or a range of
characters given by its two ends.  A range is one letter of its own, distinct from the
characters in it, so two symbols of one automaton may match the same character.

Every symbol has a *label*, the text that stands for it in files and in printed
expressions: `a` for a character and `[a-c]` for a range.  `Symbol.ofLabel?` reads a label
back; it refuses a range whose ends are out of order.
-/

namespace RegexAutomata

/-- A letter on a move: one character, or all characters between two ends. -/
inductive Symbol where
  /-- The character `c` alone. -/
  | literal (c : Char)
  /-- All characters from `lo` to `hi` by code point, both included; none if `hi < lo`. -/
  | range (lo hi : Char)
deriving DecidableEq, Repr

/-- The characters that stand for themselves in an expression: ASCII letters and digits, and
nineteen punctuation marks. -/
def isLiteral (c : Char) : Bool :=
  c.isAlphanum ||
    ['/', '=', '_', '&', '^', '%', '$', '!', '\x7b', '\x7d', '\x60', ',', '~', '<', '>', '?',
      '\x27', '\x22', ':'].contains c

namespace Symbol

/-- Whether a move labelled with the symbol may read the character `x`. -/
def admits : Symbol → Char → Bool
  | literal c, x => c == x
  | range lo hi, x => decide (lo ≤ x) && decide (x ≤ hi)

@[simp] theorem admits_literal (c x : Char) : (literal c).admits x = true ↔ c = x := by
  simp [Symbol.admits]

@[simp] theorem admits_range (lo hi x : Char) :
    (range lo hi).admits x = true ↔ lo ≤ x ∧ x ≤ hi := by
  simp [Symbol.admits]

/-! ### Order -/

/-- Characters come before ranges; characters are ordered by code point, ranges by their
lower and then by their upper end. -/
def le : Symbol → Symbol → Bool
  | literal c, literal d => decide (c ≤ d)
  | literal _, range _ _ => true
  | range _ _, literal _ => false
  | range lo hi, range lo' hi' => decide (lo < lo') || (lo == lo' && decide (hi ≤ hi'))

/-! ### Labels -/

/-- The characters of the label of a symbol. -/
def spelling : Symbol → List Char
  | literal c => [c]
  | range lo hi => ['[', lo, '-', hi, ']']

/-- The label of a symbol. -/
def label (s : Symbol) : String := String.ofList s.spelling

/-- The symbol with a given spelling, if the spelling is that of a character or of a range
whose ends are in order. -/
def ofSpelling? : List Char → Option Symbol
  | [c] => some (literal c)
  | ['[', lo, '-', hi, ']'] => if lo ≤ hi then some (range lo hi) else none
  | _ => none

/-- The symbol with a given label; see `ofSpelling?`. -/
def ofLabel? (label : String) : Option Symbol := ofSpelling? label.toList

@[simp] theorem toList_label (s : Symbol) : s.label.toList = s.spelling := by
  simp [label]

/-- Two symbols with one spelling are equal. -/
theorem spelling_injective {s t : Symbol} (h : s.spelling = t.spelling) : s = t := by
  cases s <;> cases t <;> simp_all [spelling]

end Symbol

end RegexAutomata
