/-
# Character classes

A class such as `[a-cx]` stands for one character.  It is read as a group: an alternation, in
order of position, of its ranges and of those of its literals that touch no dash, in
parentheses.  A dash always means the range between its two neighbours, so `[a-c-e]` holds two
ranges.

`Regex.tokens` reads a text into tokens, classes included.  It reports the leftmost fault; of a
class whose brackets do not match, nothing inside is looked at.
-/
import RegexAutomata.Regex.Error
import RegexAutomata.Regex.Token

namespace RegexAutomata
namespace Regex

/-- The symbols of a class, from the characters between its brackets that follow `before`.  The
position is that of the first of the characters. -/
def classSymbols (before : Option Char) (position : Nat) :
    List Char → Except RegexError (List Symbol)
  | [] => .ok []
  | c :: rest =>
    if c = '-' then
      match before.filter isLiteral, rest.head?.filter isLiteral with
      | some lo, some hi =>
        if lo ≤ hi then (Symbol.range lo hi :: ·) <$> classSymbols (some c) (position + 1) rest
        else .error (.reversedRange lo hi)
      | _, _ => .error (.openRange position)
    else if !isLiteral c then .error (.unknownCharacter c position)
    else if before = some '-' ∨ rest.head? = some '-' then
      classSymbols (some c) (position + 1) rest
    else (Symbol.literal c :: ·) <$> classSymbols (some c) (position + 1) rest

/-- Split what follows an opening bracket into the characters before the closing bracket and
those after it.  There is no such split if another bracket opens first, or none closes. -/
def splitClass? : List Char → Option (List Char × List Char)
  | [] => none
  | c :: rest =>
    if c = ']' then some ([], rest)
    else if c = '[' then none
    else (splitClass? rest).map fun split => (c :: split.1, split.2)

/-- What remains after a class is shorter than what followed its opening bracket. -/
theorem length_of_splitClass? {cs members rest : List Char}
    (h : splitClass? cs = some (members, rest)) : cs.length = members.length + 1 + rest.length := by
  induction cs generalizing members rest with
  | nil => simp [splitClass?] at h
  | cons c cs ih =>
    simp only [splitClass?] at h
    split at h
    · obtain ⟨rfl, rfl⟩ := Prod.mk.inj (Option.some.inj h)
      simp only [List.length_cons, List.length_nil]
      omega
    · split at h
      · exact absurd h (by simp)
      · obtain ⟨⟨m, r⟩, hs, he⟩ := Option.map_eq_some_iff.mp h
        obtain ⟨rfl, rfl⟩ := Prod.mk.inj he
        simp only [List.length_cons, ih hs]
        omega

/-- The alternation of symbols, in parentheses. -/
def groupOf (symbols : List Symbol) : List Token :=
  .lparen :: ((symbols.map Token.symbol).intersperse .alternate ++ [.rparen])

/-- The token of a character outside classes. -/
def tokenOf (c : Char) (position : Nat) : Except RegexError Token :=
  if c = '(' then .ok .lparen
  else if c = ')' then .ok .rparen
  else if c = '*' then .ok .star
  else if c = '+' then .ok .plus
  else if c = '|' then .ok .alternate
  else if c = ']' then .error .unbalancedBrackets
  else if isLiteral c then .ok (.symbol (.literal c))
  else .error (.unknownCharacter c position)

/-- The tokens of the characters from a position on. -/
def tokensFrom (position : Nat) (text : List Char) : Except RegexError (List Token) :=
  match text with
  | [] => .ok []
  | c :: rest =>
    if c = '[' then
      match _h : splitClass? rest with
      | none => .error .unbalancedBrackets
      | some (members, rest') => do
        let symbols ← classSymbols none (position + 1) members
        if symbols.isEmpty then .error (.emptyClass position)
        else
          let tokens ← tokensFrom (position + members.length + 2) rest'
          return groupOf symbols ++ tokens
    else do
      let token ← tokenOf c position
      let tokens ← tokensFrom (position + 1) rest
      return token :: tokens
termination_by text.length
decreasing_by
  · have := length_of_splitClass? _h
    simp only [List.length_cons]
    omega
  · simp

/-- The tokens of a text, each class as a group. -/
def tokens (text : List Char) : Except RegexError (List Token) := tokensFrom 0 text

end Regex
end RegexAutomata
