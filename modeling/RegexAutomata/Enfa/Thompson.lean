/-
# From a postfix expression to an automaton

The automaton of an expression is assembled from fragments, one for each operand that is
waiting for its operator.  A fragment has one entry and one exit.  A symbol makes a fragment of
two new states; a repetition and an alternation put a new entry and a new exit around the
fragments they take from the stack; a concatenation joins two fragments by one epsilon move.
The last fragment is the whole automaton: its entry is the start state, its exit the only final
state.

The main statement here is `exists_assemble_eq_some`: on a postfix expression the stack never
runs out, no parenthesis is met, and one fragment remains.
-/
import RegexAutomata.Enfa.Basic
import RegexAutomata.Regex.Postfix

namespace RegexAutomata
namespace Enfa

/-- A part of an automaton that stands for one operand. -/
structure Fragment where
  /-- The state in which reading the operand begins. -/
  entry : Nat
  /-- The state in which reading the operand ends. -/
  exit : Nat
deriving DecidableEq, Repr

/-- Read one token: take the fragments of its operands from the stack and put the fragment of the
result there.  Nothing results if an operand is missing or the token is a parenthesis. -/
def assembleStep (n : Enfa) : List Fragment → Token → Option (Enfa × List Fragment)
  | stack, .symbol a =>
    let entry := n.numStates
    let exit := entry + 1
    some (n.addState.addState.addTransition entry a exit, ⟨entry, exit⟩ :: stack)
  | inner :: stack, .star =>
    let entry := n.numStates
    let exit := entry + 1
    some (n.addState.addState
      |>.addEpsilon entry inner.entry
      |>.addEpsilon entry exit
      |>.addEpsilon inner.exit inner.entry
      |>.addEpsilon inner.exit exit, ⟨entry, exit⟩ :: stack)
  | inner :: stack, .plus =>
    let entry := n.numStates
    let exit := entry + 1
    some (n.addState.addState
      |>.addEpsilon entry inner.entry
      |>.addEpsilon inner.exit inner.entry
      |>.addEpsilon inner.exit exit, ⟨entry, exit⟩ :: stack)
  | second :: first :: stack, .concat =>
    some (n.addEpsilon first.exit second.entry, ⟨first.entry, second.exit⟩ :: stack)
  | right :: left :: stack, .alternate =>
    let entry := n.numStates
    let exit := entry + 1
    some (n.addState.addState
      |>.addEpsilon entry left.entry
      |>.addEpsilon entry right.entry
      |>.addEpsilon left.exit exit
      |>.addEpsilon right.exit exit, ⟨entry, exit⟩ :: stack)
  | _, _ => none

/-- Read tokens from left to right. -/
def assemble (n : Enfa) (stack : List Fragment) : List Token → Option (Enfa × List Fragment)
  | [] => some (n, stack)
  | token :: rest =>
    match assembleStep n stack token with
    | none => none
    | some (n, stack) => assemble n stack rest

/-- The automaton of a postfix expression.  The second case does not arise
(`exists_assemble_eq_some`). -/
def ofPostfix (p : Postfix) : Enfa :=
  match assemble .empty [] p.tokens with
  | some (n, [whole]) => (n.setStart whole.entry).addFinal whole.exit
  | _ => .empty

/-! ### The stack holds one fragment per operand -/

/-- If a token has its operands, reading it succeeds, and the stack has afterwards as many
fragments as the count says. -/
theorem exists_assembleStep {token : Token} {rest : List Token} (n : Enfa)
    {stack : List Fragment} {count : Nat}
    (h : Token.operands? stack.length (token :: rest) = some count) :
    ∃ n' stack', assembleStep n stack token = some (n', stack') ∧
      Token.operands? stack'.length rest = some count := by
  match token, stack with
  | .symbol _, stack => exact ⟨_, _, rfl, h⟩
  | .star, inner :: stack => exact ⟨_, _, rfl, by simpa [Token.operands?] using h⟩
  | .plus, inner :: stack => exact ⟨_, _, rfl, by simpa [Token.operands?] using h⟩
  | .concat, second :: first :: stack => exact ⟨_, _, rfl, by simpa [Token.operands?] using h⟩
  | .alternate, right :: left :: stack => exact ⟨_, _, rfl, by simpa [Token.operands?] using h⟩
  | .star, [] | .plus, [] | .concat, [] | .alternate, [] => simp [Token.operands?] at h
  | .concat, [_] | .alternate, [_] => simp [Token.operands?] at h
  | .lparen, stack | .rparen, stack => simp [Token.operands?] at h

/-- If counting operands succeeds, so does assembling, and the stack has as many fragments as
there are operands. -/
theorem exists_assemble {tokens : List Token} {n : Enfa} {stack : List Fragment} {count : Nat}
    (h : Token.operands? stack.length tokens = some count) :
    ∃ n' stack', assemble n stack tokens = some (n', stack') ∧ stack'.length = count := by
  induction tokens generalizing n stack with
  | nil => exact ⟨n, stack, rfl, Option.some.inj h⟩
  | cons token rest ih =>
    obtain ⟨n', stack', hstep, h'⟩ := exists_assembleStep n h
    simp only [assemble, hstep]
    exact ih h'

/-- A postfix expression is assembled into one fragment. -/
theorem exists_assemble_eq_some (p : Postfix) :
    ∃ n whole, assemble .empty [] p.tokens = some (n, [whole]) := by
  obtain ⟨n, stack, h, hlen⟩ := @exists_assemble p.tokens .empty [] 1 p.complete
  obtain ⟨whole, rfl⟩ := List.length_eq_one_iff.mp hlen
  exact ⟨n, whole, h⟩

end Enfa
end RegexAutomata
