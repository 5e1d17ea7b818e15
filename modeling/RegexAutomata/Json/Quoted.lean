/-
# Quoted strings

A string in a JSON text stands between quotation marks.  Quotation marks, backslashes and control
characters in it are written as escapes: a backslash and a letter where there is one, and `\u` with
four hexadecimal digits otherwise.  Reading accepts more than writing produces: any character may
be escaped by its UTF-16 units, two of them for a character above U+FFFF.
-/

namespace RegexAutomata
namespace Json

/-- What is wrong with a text. -/
inductive Fault where
  /-- The text ends too early. -/
  | truncated
  /-- The text is not JSON. -/
  | malformed
  /-- The text is JSON of a shape that is not asked for. -/
  | mismatch
deriving DecidableEq, Repr

/-! ### Writing -/

/-- The hexadecimal digits. -/
def hexDigits : List Char :=
  ['0', '1', '2', '3', '4', '5', '6', '7', '8', '9', 'a', 'b', 'c', 'd', 'e', 'f']

/-- The digit for a number below sixteen. -/
def hexDigit (n : Nat) : Char := hexDigits.getD n '0'

/-- A character as it is written inside a string. -/
def escape (c : Char) : List Char :=
  if c = '\x22' then ['\\', '\x22']
  else if c = '\\' then ['\\', '\\']
  else if c = '\x08' then ['\\', 'b']
  else if c = '\x0c' then ['\\', 'f']
  else if c = '\n' then ['\\', 'n']
  else if c = '\r' then ['\\', 'r']
  else if c = '\t' then ['\\', 't']
  else if c.toNat < 0x20 then
    ['\\', 'u', '0', '0', hexDigit (c.toNat / 16), hexDigit (c.toNat % 16)]
  else [c]

/-- A string between quotation marks. -/
def quote (s : List Char) : List Char := '\x22' :: s.flatMap escape ++ ['\x22']

/-! ### Reading -/

/-- The value of a hexadecimal digit, in either case. -/
def hexValue? (c : Char) : Option Nat :=
  if '0' ≤ c ∧ c ≤ '9' then some (c.toNat - '0'.toNat)
  else if 'a' ≤ c ∧ c ≤ 'f' then some (c.toNat - 'a'.toNat + 10)
  else if 'A' ≤ c ∧ c ≤ 'F' then some (c.toNat - 'A'.toNat + 10)
  else none

/-- Read the four hexadecimal digits of a UTF-16 unit.  The text ends too early if fewer than four
bytes of it are left. -/
def readUnit (text : List Char) : Except Fault (Nat × List Char) :=
  if (text.take 4).foldl (fun size c => size + c.utf8Size) 0 < 4 then .error .truncated
  else
    match text with
    | a :: b :: c :: d :: rest =>
      match hexValue? a, hexValue? b, hexValue? c, hexValue? d with
      | some a, some b, some c, some d => .ok (((a * 16 + b) * 16 + c) * 16 + d, rest)
      | _, _, _, _ => .error .malformed
    | _ => .error .malformed

/-- Whether a UTF-16 unit is the first of two. -/
def isHighSurrogate (u : Nat) : Bool := decide (0xD800 ≤ u) && decide (u < 0xDC00)

/-- Whether a UTF-16 unit is the second of two. -/
def isLowSurrogate (u : Nat) : Bool := decide (0xDC00 ≤ u) && decide (u < 0xE000)

/-- Read what follows the first of two units: the escape of the second. -/
def readLowSurrogate : List Char → Except Fault (Nat × List Char)
  | [] => .error .truncated
  | b :: text =>
    if b ≠ '\\' then .error .malformed
    else
      match text with
      | [] => .error .truncated
      | u :: text =>
        if u ≠ 'u' then .error .malformed
        else
          match readUnit text with
          | .error fault => .error fault
          | .ok (low, rest) =>
            if isLowSurrogate low then .ok (low, rest) else .error .malformed

/-- The character that an escape with one letter stands for. -/
def letterEscape? (c : Char) : Option Char :=
  if c = '\x22' ∨ c = '\\' ∨ c = '/' then some c
  else if c = 'b' then some '\x08'
  else if c = 'f' then some '\x0c'
  else if c = 'n' then some '\n'
  else if c = 'r' then some '\r'
  else if c = 't' then some '\t'
  else none

/-- Read what follows a backslash. -/
def readEscape : List Char → Except Fault (Char × List Char)
  | [] => .error .truncated
  | c :: rest =>
    if c = 'u' then
      match readUnit rest with
      | .error fault => .error fault
      | .ok (unit, rest) =>
        if isLowSurrogate unit then .error .malformed
        else if isHighSurrogate unit then
          match readLowSurrogate rest with
          | .error fault => .error fault
          | .ok (low, rest) =>
            .ok (Char.ofNat (0x10000 + (unit - 0xD800) * 0x400 + (low - 0xDC00)), rest)
        else .ok (Char.ofNat unit, rest)
    else
      match letterEscape? c with
      | some x => .ok (x, rest)
      | none => .error .malformed

theorem length_of_readUnit {text rest : List Char} {u : Nat} (h : readUnit text = .ok (u, rest)) :
    rest.length < text.length := by
  unfold readUnit at h
  split at h
  · exact absurd h (by simp)
  · split at h
    · split at h
      · obtain ⟨-, rfl⟩ := Prod.mk.inj (Except.ok.inj h)
        simp only [List.length_cons]
        omega
      · exact absurd h (by simp)
    · exact absurd h (by simp)

theorem length_of_readLowSurrogate {text rest : List Char} {u : Nat}
    (h : readLowSurrogate text = .ok (u, rest)) : rest.length < text.length := by
  unfold readLowSurrogate at h
  split at h
  · exact absurd h (by simp)
  split at h
  · exact absurd h (by simp)
  split at h
  · exact absurd h (by simp)
  split at h
  · exact absurd h (by simp)
  split at h
  · exact absurd h (by simp)
  rename_i hunit
  have := length_of_readUnit hunit
  split at h
  · obtain ⟨-, rfl⟩ := Prod.mk.inj (Except.ok.inj h)
    simp only [List.length_cons]
    omega
  · exact absurd h (by simp)

/-- An escape takes at least one character. -/
theorem length_of_readEscape {text rest : List Char} {x : Char}
    (h : readEscape text = .ok (x, rest)) : rest.length < text.length := by
  unfold readEscape at h
  split at h
  · exact absurd h (by simp)
  split at h
  · split at h
    · exact absurd h (by simp)
    rename_i hunit
    have := length_of_readUnit hunit
    split at h
    · exact absurd h (by simp)
    split at h
    · split at h
      · exact absurd h (by simp)
      rename_i hlow
      have := length_of_readLowSurrogate hlow
      obtain ⟨-, rfl⟩ := Prod.mk.inj (Except.ok.inj h)
      simp only [List.length_cons]
      omega
    · obtain ⟨-, rfl⟩ := Prod.mk.inj (Except.ok.inj h)
      simp only [List.length_cons]
      omega
  · split at h
    · obtain ⟨-, rfl⟩ := Prod.mk.inj (Except.ok.inj h)
      simp
    · exact absurd h (by simp)

/-- Read what follows an opening quotation mark, up to the closing one. -/
def readString (text : List Char) : Except Fault (List Char × List Char) :=
  match text with
  | [] => .error .truncated
  | c :: rest =>
    if c = '\x22' then .ok ([], rest)
    else if c = '\\' then
      match _h : readEscape rest with
      | .error fault => .error fault
      | .ok (x, rest) => (fun read => (x :: read.1, read.2)) <$> readString rest
    else if c.toNat < 0x20 then .error .malformed
    else (fun read => (c :: read.1, read.2)) <$> readString rest
termination_by text.length
decreasing_by
  · have := length_of_readEscape _h
    simp only [List.length_cons]
    omega
  · simp

/-- A string takes at least its closing quotation mark. -/
theorem length_of_readString {text s rest : List Char} (h : readString text = .ok (s, rest)) :
    rest.length < text.length := by
  induction hn : text.length using Nat.strongRecOn generalizing text s rest with
  | _ n ih =>
    subst hn
    unfold readString at h
    split at h
    · exact absurd h (by simp)
    split at h
    · obtain ⟨-, rfl⟩ := Prod.mk.inj (Except.ok.inj h)
      simp
    split at h
    · split at h
      · exact absurd h (by simp)
      rename_i x rest' hesc
      have h1 := length_of_readEscape hesc
      cases hr : readString rest' with
      | error f => rw [hr] at h; exact absurd h (by simp [Functor.map, Except.map])
      | ok read =>
        rw [hr] at h
        obtain ⟨-, rfl⟩ := Prod.mk.inj (Except.ok.inj h)
        have := ih rest'.length (by simp only [List.length_cons]; omega) hr rfl
        simp only [List.length_cons]
        omega
    split at h
    · exact absurd h (by simp)
    · rename_i c rest' _ _ _
      cases hr : readString rest' with
      | error f => rw [hr] at h; exact absurd h (by simp [Functor.map, Except.map])
      | ok read =>
        rw [hr] at h
        obtain ⟨-, rfl⟩ := Prod.mk.inj (Except.ok.inj h)
        have := ih rest'.length (by simp) hr rfl
        simp only [List.length_cons]
        omega

end Json
end RegexAutomata
