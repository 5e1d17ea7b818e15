/-
# Reading values

`Json.readValue` reads one value from the front of a list of lexemes and gives the lexemes after
it.  It keeps the lists and objects that are not complete yet on a stack and asks, at each point,
for one kind of lexeme: the first fault in the order of the text is reported.  The stack must not
grow beyond a given depth.

A reader that comes to the end of the lexemes reports that the text ends too early.
-/
import RegexAutomata.Json.Lexeme

namespace RegexAutomata
namespace Json

/-- A list or an object that is not complete, its latest entry first. -/
inductive Frame where
  /-- A list. -/
  | array (items : List Value)
  /-- An object, and the name of its next member. -/
  | object (members : List (String × Value)) (name : String)

/-- Put a value into a list or an object. -/
def Frame.add (value : Value) : Frame → Frame
  | array items => .array (value :: items)
  | object members name => .object ((name, value) :: members) name

/-- The value of a complete list or object. -/
def Frame.close : Frame → Value
  | array items => .array items.reverse
  | object members _ => .object members.reverse

/-- Whether a mark ends a list or an object. -/
def Frame.isClosedBy (mark : Char) : Frame → Bool
  | array _ => mark == ']'
  | object .. => mark == '\x7d'

/-- What a reader asks for. -/
inductive Wanted where
  /-- A value. -/
  | value
  /-- A value or the end of the list. -/
  | firstItem
  /-- A name. -/
  | name
  /-- A name or the end of the object. -/
  | firstName
  /-- The colon between a name and its value. -/
  | colon
  /-- A comma, or the end of the list or object. -/
  | separator

/-- What a lexeme does to a reader. -/
inductive Action where
  /-- It is not what is asked for, or faulty. -/
  | fail (fault : Fault)
  /-- It completes a value. -/
  | complete (value : Value) (stack : List Frame)
  /-- It is taken, and the reader asks for something else. -/
  | proceed (wanted : Wanted) (stack : List Frame)

/-- What a lexeme does to a reader that asks for a value. -/
def beginValue (depth : Nat) (stack : List Frame) : Lexeme → Action
  | .scalar (.ok value) => .complete value stack
  | .scalar (.error fault) => .fail fault
  | .string (.ok s) => .complete (.string s) stack
  | .string (.error fault) => .fail fault
  | .mark c =>
    if depth ≤ stack.length then .fail .malformed
    else if c = '[' then .proceed .firstItem (.array [] :: stack)
    else if c = '\x7b' then .proceed .firstName (.object [] "" :: stack)
    else .fail .malformed
  | .unknown => .fail .malformed

/-- What a lexeme does to a reader that asks for a name. -/
def beginMember (stack : List Frame) : Lexeme → Action
  | .string (.ok name) =>
    match stack with
    | .object members _ :: stack => .proceed .colon (.object members name :: stack)
    | _ => .fail .malformed
  | .string (.error fault) => .fail fault
  | _ => .fail .malformed

/-- The end of the list or object on top of the stack, if the lexeme is its closing mark. -/
def closing? (stack : List Frame) (lexeme : Lexeme) : Option Action :=
  match lexeme, stack with
  | .mark c, frame :: stack =>
    if frame.isClosedBy c then some (.complete frame.close stack) else none
  | _, _ => none

/-- What a lexeme does to a reader. -/
def act (depth : Nat) (wanted : Wanted) (stack : List Frame) (lexeme : Lexeme) : Action :=
  match wanted with
  | .value => beginValue depth stack lexeme
  | .firstItem => (closing? stack lexeme).getD (beginValue depth stack lexeme)
  | .name => beginMember stack lexeme
  | .firstName => (closing? stack lexeme).getD (beginMember stack lexeme)
  | .colon =>
    match lexeme with
    | .mark ':' => .proceed .value stack
    | _ => .fail .malformed
  | .separator =>
    match lexeme, stack with
    | .mark ',', .array _ :: _ => .proceed .value stack
    | .mark ',', .object .. :: _ => .proceed .name stack
    | _, _ => (closing? stack lexeme).getD (.fail .malformed)

/-- Read on until the value at the bottom of the stack is complete. -/
def readFrom (depth : Nat) (wanted : Wanted) (stack : List Frame) :
    List Lexeme → Except Fault (Value × List Lexeme)
  | [] => .error .truncated
  | lexeme :: rest =>
    match act depth wanted stack lexeme with
    | .fail fault => .error fault
    | .proceed wanted stack => readFrom depth wanted stack rest
    | .complete value [] => .ok (value, rest)
    | .complete value (frame :: stack) => readFrom depth .separator (frame.add value :: stack) rest

/-- Read a value in which lists and objects stand inside each other at most as deep as the first
argument says. -/
def readValue (depth : Nat) (lexemes : List Lexeme) : Except Fault (Value × List Lexeme) :=
  readFrom depth .value [] lexemes

theorem length_of_readFrom {depth : Nat} {wanted : Wanted} {stack : List Frame}
    {lexemes rest : List Lexeme} {value : Value}
    (h : readFrom depth wanted stack lexemes = .ok (value, rest)) :
    rest.length < lexemes.length := by
  induction lexemes generalizing wanted stack with
  | nil => exact absurd h (by simp [readFrom])
  | cons lexeme lexemes ih =>
    simp only [readFrom] at h
    split at h
    · exact absurd h (by simp)
    · exact Nat.lt_succ_of_lt (ih h)
    · obtain ⟨-, rfl⟩ := Prod.mk.inj (Except.ok.inj h)
      simp
    · exact Nat.lt_succ_of_lt (ih h)

/-- A value takes at least one lexeme. -/
theorem length_of_readValue {depth : Nat} {lexemes rest : List Lexeme} {value : Value}
    (h : readValue depth lexemes = .ok (value, rest)) : rest.length < lexemes.length :=
  length_of_readFrom h

end Json
end RegexAutomata
