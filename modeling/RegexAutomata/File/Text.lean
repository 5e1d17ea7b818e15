/-
# The text of a file

A file is written as one JSON object.  Its first member gives the name of the start state; every
other member is a record under the name of its state.  A record is an object too: its first member
says whether the state is final, and every other member gives destinations under a label.

A text is read from left to right.  A value that is not an object, or a start state that is not a
string or given twice, is refused where it stands.  The shape of the records, and whether there is a
start state, is only looked at when the object is complete, and what follows the object only after
that.
-/
import RegexAutomata.File.Basic
import RegexAutomata.Json.Reader

namespace RegexAutomata

open Json

/-- The name of the member for the start state. -/
def startKey : String := "startingState"

/-- The name of the member that says whether a state is final. -/
def finalKey : String := "isTerminatingState"

/-- How the destinations of a move are written as a JSON value. -/
class Destination (α : Type) where
  /-- The value for destinations. -/
  toValue : α → Value
  /-- The destinations in a value, if it has the right shape. -/
  ofValue? : Value → Option α

/-- The text in a value that is a string. -/
def Json.Value.string? : Value → Option String
  | .string s => some s
  | _ => none

instance : Destination String where
  toValue := Value.string
  ofValue? := Value.string?

instance : Destination (List String) where
  toValue names := .array (names.map Value.string)
  ofValue?
    | .array items => items.mapM Value.string?
    | _ => none

variable {α : Type} [Destination α]

/-! ### Writing -/

/-- A record as a JSON value. -/
def StateRecord.toValue (r : StateRecord α) : Value :=
  .object <| (finalKey, .bool r.isFinal) ::
    r.transitions.entries.map fun entry => (entry.1, Destination.toValue entry.2)

/-- A file as a JSON value. -/
def AutomatonFile.toValue (f : AutomatonFile α) : Value :=
  .object <| (startKey, .string f.start) ::
    f.states.entries.map fun entry => (entry.1, entry.2.toValue)

/-- The text of a file. -/
def AutomatonFile.text (f : AutomatonFile α) : String := f.toValue.text

/-! ### Reading -/

/-- The record in a value: an object in which one member says whether the state is final, and all
others give destinations. -/
def StateRecord.ofValue? : Value → Option (StateRecord α)
  | .object members =>
    match members.filter (·.1 = finalKey) with
    | [(_, .bool isFinal)] => do
      let transitions ← (members.filter (·.1 ≠ finalKey)).mapM fun member =>
        (Destination.ofValue? member.2).map fun destinations => (member.1, destinations)
      return ⟨isFinal, NameMap.ofList transitions⟩
    | _ => none
  | _ => none

/-- How deep lists and objects may stand inside each other in a member of the file's object. -/
def memberDepth : Nat := 126

/-- Read a string, and refuse any other value. -/
def readText : List Lexeme → Except Fault (String × List Lexeme)
  | [] => .error .truncated
  | .string (.ok s) :: rest => .ok (s, rest)
  | .string (.error fault) :: _ => .error fault
  | .scalar (.ok _) :: _ => .error .mismatch
  | .scalar (.error fault) :: _ => .error fault
  | .mark c :: _ => .error (if c = '[' ∨ c = '\x7b' then .mismatch else .malformed)
  | .unknown :: _ => .error .malformed

/-- Read a mark. -/
def readMark (c : Char) : List Lexeme → Except Fault (List Lexeme)
  | [] => .error .truncated
  | .mark d :: rest => if d = c then .ok rest else .error .malformed
  | _ => .error .malformed

/-- Read the value of a member with a given name.  The member for the start state is kept apart from
the others; it must hold a string and must not be given twice. -/
def readMember (start? : Option String) (members : List (String × Value)) (name : String)
    (lexemes : List Lexeme) :
    Except Fault ((Option String × List (String × Value)) × List Lexeme) :=
  if name = startKey then
    if start?.isSome then .error .mismatch
    else
      match readMark ':' lexemes with
      | .error fault => .error fault
      | .ok lexemes =>
        match readText lexemes with
        | .error fault => .error fault
        | .ok (start, rest) => .ok ((some start, members), rest)
  else
    match readMark ':' lexemes with
    | .error fault => .error fault
    | .ok lexemes =>
      match readValue memberDepth lexemes with
      | .error fault => .error fault
      | .ok (value, rest) => .ok ((start?, members ++ [(name, value)]), rest)

theorem length_of_readMark {c : Char} {lexemes rest : List Lexeme}
    (h : readMark c lexemes = .ok rest) : rest.length < lexemes.length := by
  unfold readMark at h
  split at h
  · exact absurd h (by simp)
  · split at h
    · obtain rfl := Except.ok.inj h
      simp
    · exact absurd h (by simp)
  · exact absurd h (by simp)

theorem length_of_readText {lexemes rest : List Lexeme} {s : String}
    (h : readText lexemes = .ok (s, rest)) : rest.length < lexemes.length := by
  unfold readText at h
  split at h
  · exact absurd h (by simp)
  · obtain ⟨-, rfl⟩ := Prod.mk.inj (Except.ok.inj h)
    simp
  all_goals exact absurd h (by simp)

theorem length_of_readMember {start? : Option String} {members : List (String × Value)}
    {name : String} {lexemes rest : List Lexeme} {result : Option String × List (String × Value)}
    (h : readMember start? members name lexemes = .ok (result, rest)) :
    rest.length < lexemes.length := by
  unfold readMember at h
  split at h
  · split at h
    · exact absurd h (by simp)
    split at h
    · exact absurd h (by simp)
    rename_i hmark
    have h1 := length_of_readMark hmark
    split at h
    · exact absurd h (by simp)
    rename_i htext
    have h2 := length_of_readText htext
    obtain ⟨-, rfl⟩ := Prod.mk.inj (Except.ok.inj h)
    omega
  · split at h
    · exact absurd h (by simp)
    rename_i hmark
    have h1 := length_of_readMark hmark
    split at h
    · exact absurd h (by simp)
    rename_i hvalue
    have h2 := length_of_readValue hvalue
    obtain ⟨-, rfl⟩ := Prod.mk.inj (Except.ok.inj h)
    omega

/-- Read the members of the file's object from a name on, up to its closing brace: the start state,
if it is given, the other members, and what follows. -/
def readMembers (start? : Option String) (members : List (String × Value))
    (lexemes : List Lexeme) :
    Except Fault ((Option String × List (String × Value)) × List Lexeme) :=
  match lexemes with
  | [] => .error .truncated
  | .string (.error fault) :: _ => .error fault
  | .string (.ok name) :: rest =>
    match _h : readMember start? members name rest with
    | .error fault => .error fault
    | .ok (_, []) => .error .truncated
    | .ok (result, .mark c :: rest) =>
      if c = ',' then readMembers result.1 result.2 rest
      else if c = '\x7d' then .ok (result, rest)
      else .error .malformed
    | .ok (_, _ :: _) => .error .malformed
  | _ :: _ => .error .malformed
termination_by lexemes.length
decreasing_by
  have := length_of_readMember _h
  simp only [List.length_cons] at this ⊢
  omega

/-- Read the object of a file. -/
def readObject : List Lexeme →
    Except Fault ((Option String × List (String × Value)) × List Lexeme)
  | .mark c :: rest =>
    if c = '\x7b' then
      match rest with
      | .mark '\x7d' :: rest => .ok ((none, []), rest)
      | rest => readMembers none [] rest
    else .error (if c = '[' then .mismatch else .malformed)
  | lexemes =>
    match readText lexemes with
    | .error fault => .error fault
    | .ok _ => .error .mismatch

/-- The content of a file with a given text. -/
def AutomatonFile.ofText (text : String) : Except Fault (AutomatonFile α) := do
  let ((start?, members), rest) ← readObject (lexemes text.toList)
  let records? := members.mapM fun member =>
    (StateRecord.ofValue? member.2).map fun record => (member.1, record)
  match start?, records? with
  | some start, some records =>
    if rest.isEmpty then return ⟨start, NameMap.ofList records⟩ else .error .malformed
  | _, _ => .error .mismatch

end RegexAutomata
