/-
# Lexemes

A JSON text falls into lexemes: brackets, braces, colons and commas, strings, and the numbers and
words that are values by themselves.  Blanks between lexemes are skipped.  A lexeme may be faulty.
Its fault counts only for a reader that asks for a lexeme of its kind, so it is kept in the
lexeme; nothing after a faulty lexeme is ever looked at.
-/
import RegexAutomata.Json.Number
import RegexAutomata.Json.Value

namespace RegexAutomata
namespace Json

/-- A lexical unit of a JSON text. -/
inductive Lexeme where
  /-- A bracket, a brace, a colon or a comma. -/
  | mark (c : Char)
  /-- A string, or what is wrong with it. -/
  | string (content : Except Fault String)
  /-- A number or a word, or what is wrong with it. -/
  | scalar (value : Except Fault Value)
  /-- A character that begins no lexeme. -/
  | unknown

/-- Whether a character may stand between lexemes. -/
def isSpace (c : Char) : Bool := c == ' ' || c == '\n' || c == '\t' || c == '\r'

/-- Whether a character is a lexeme by itself. -/
def isMark (c : Char) : Bool := ['\x7b', '\x7d', '[', ']', ':', ','].contains c

/-- Take a word off the front of a text. -/
def readWord : List Char → List Char → Except Fault (List Char)
  | [], text => .ok text
  | _ :: _, [] => .error .truncated
  | w :: word, c :: text => if c = w then readWord word text else .error .malformed

/-- The words that are values, by their first letters: what follows that letter, and the value. -/
def wordOf? (c : Char) : Option (List Char × Value) :=
  if c = 'n' then some (['u', 'l', 'l'], .null)
  else if c = 't' then some (['r', 'u', 'e'], .bool true)
  else if c = 'f' then some (['a', 'l', 's', 'e'], .bool false)
  else none

theorem length_of_readWord {word text rest : List Char} (h : readWord word text = .ok rest) :
    rest.length ≤ text.length := by
  induction word generalizing text with
  | nil =>
    obtain rfl := Except.ok.inj h
    exact Nat.le_refl _
  | cons w word ih =>
    cases text with
    | nil => exact absurd h (by simp [readWord])
    | cons c text =>
      simp only [readWord] at h
      split at h
      · exact Nat.le_succ_of_le (ih h)
      · exact absurd h (by simp)

/-- The lexemes of a text, up to the first faulty one. -/
def lexemes (text : List Char) : List Lexeme :=
  match text with
  | [] => []
  | c :: rest =>
    if isSpace c then lexemes rest
    else if isMark c then .mark c :: lexemes rest
    else if c = '\x22' then
      match _h : readString rest with
      | .error fault => [.string (.error fault)]
      | .ok (s, rest) => .string (.ok (String.ofList s)) :: lexemes rest
    else if c = '-' ∨ c.isDigit = true then
      match _h : readNumber (c :: rest) with
      | .error fault => [.scalar (.error fault)]
      | .ok after =>
        let number := (c :: rest).take (rest.length + 1 - after.length)
        .scalar (.ok (.number (String.ofList number))) :: lexemes after
    else
      match wordOf? c with
      | none => [.unknown]
      | some (word, value) =>
        match _h : readWord word rest with
        | .error fault => [.scalar (.error fault)]
        | .ok rest => .scalar (.ok value) :: lexemes rest
termination_by text.length
decreasing_by
  · simp
  · simp
  · have := length_of_readString _h
    simp only [List.length_cons]
    omega
  · exact length_of_readNumber _h
  · have := length_of_readWord _h
    simp only [List.length_cons]
    omega

end Json
end RegexAutomata
