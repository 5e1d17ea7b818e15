/-
# Blank characters

The characters with the Unicode property `White_Space`, as ranges of code points.  The
property is wider than the blanks of ASCII, and narrower than "invisible": the separators U+001C
to U+001F, the zero width space U+200B and the byte order mark U+FEFF do not have it.
-/

namespace RegexAutomata

/-- The ranges of code points with the property `White_Space`, both ends included. -/
def whiteSpace : List (Nat × Nat) :=
  [(0x0009, 0x000D), (0x0020, 0x0020), (0x0085, 0x0085), (0x00A0, 0x00A0), (0x1680, 0x1680),
    (0x2000, 0x200A), (0x2028, 0x2029), (0x202F, 0x202F), (0x205F, 0x205F), (0x3000, 0x3000)]

/-- Whether a character has the property `White_Space`. -/
def isBlank (c : Char) : Bool :=
  whiteSpace.any fun range => decide (range.1 ≤ c.toNat) && decide (c.toNat ≤ range.2)

end RegexAutomata
