/-
# Moving operators behind their operands

Each step of `Token.shunt` sends a part of the waiting tokens to the output.  The first lemmas of this
file say which part.

From them it follows what the postfix form keeps of the tokens: the parentheses match
(`Token.Shunted.closes`), and there are as many operands and binary operators as before
(`Token.Shunted.totalWeight_eq`).
-/
import Mathlib.Data.List.TakeWhile
import Mathlib.Tactic.Lemma
import RegexAutomata.Regex.Postfix

namespace RegexAutomata
namespace Token

variable {ts us rest pending waiting output : List Token} {t operator : Token}

/-! ### One step -/

/-- An operator sends to the output the waiting operators that bind no looser, up to the first one that
does. -/
lemma shunt_operator_eq (hoperator : 0 < operator.precedence) :
    shunt waiting (operator :: rest) =
      (waiting.takeWhile (operator.precedence ≤ precedence ·) ++ ·) <$>
        shunt (operator :: waiting.dropWhile (operator.precedence ≤ precedence ·)) rest := by
  cases operator with
  | star | plus | concat | alternate => rfl
  | symbol | lparen | rparen => exact absurd hoperator (Nat.lt_irrefl 0)

lemma shunt_operator (hoperator : 0 < operator.precedence)
    (hpending : ∀ t ∈ pending, operator.precedence ≤ t.precedence)
    (hwaiting : ∀ t ∈ waiting.head?, t.precedence < operator.precedence) :
    shunt (pending ++ waiting) (operator :: rest) =
      (pending ++ ·) <$> shunt (operator :: waiting) rest := by
  have hpending' : ∀ t ∈ pending, decide (operator.precedence ≤ t.precedence) = true :=
    fun t ht => decide_eq_true (hpending t ht)
  have htake : waiting.takeWhile (operator.precedence ≤ precedence ·) = [] := by
    cases waiting with
    | nil => rfl
    | cons t waiting =>
      have ht := hwaiting t rfl
      exact List.takeWhile_cons_of_neg (by simpa using ht)
  have hdrop : waiting.dropWhile (operator.precedence ≤ precedence ·) = waiting := by
    cases waiting with
    | nil => rfl
    | cons t waiting =>
      have ht := hwaiting t rfl
      exact List.dropWhile_cons_of_neg (by simpa using ht)
  rw [shunt_operator_eq hoperator, List.takeWhile_append_of_pos hpending', htake,
    List.dropWhile_append_of_pos hpending', hdrop, List.append_nil]

/-- A closing parenthesis sends to the output what waits above the last open parenthesis. -/
lemma shunt_rparen (hpending : lparen ∉ pending) :
    shunt (pending ++ lparen :: waiting) (rparen :: rest) =
      (pending ++ ·) <$> shunt waiting rest := by
  have hpending' : ∀ t ∈ pending, decide (t ≠ lparen) = true := by
    intro t ht
    refine decide_eq_true ?_
    rintro rfl
    exact hpending ht
  have hmem : lparen ∈ pending ++ lparen :: waiting := by simp
  rw [shunt, if_pos hmem, List.takeWhile_append_of_pos hpending',
    List.dropWhile_append_of_pos hpending', List.takeWhile_cons_of_neg (by simp),
    List.dropWhile_cons_of_neg (by simp), List.append_nil, List.tail_cons]

/-- Which tokens may wait: open parentheses and operators. -/
def Waits (waiting : List Token) : Prop := ∀ t ∈ waiting, t = lparen ∨ 0 < t.precedence

/-- Operators are moved behind their operands: in front of each operator and closing parenthesis, and at the
end, some of the operators that wait are sent to the output. -/
inductive Shunted : List Token → List Token → List Token → Prop
  | done {waiting : List Token} (hwaiting : ∀ t ∈ waiting, 0 < t.precedence) :
    Shunted waiting [] waiting
  | symbol {a : Symbol} {waiting rest output : List Token} (h : Shunted waiting rest output) :
    Shunted waiting (symbol a :: rest) (symbol a :: output)
  | lparen {waiting rest output : List Token} (h : Shunted (lparen :: waiting) rest output) :
    Shunted waiting (lparen :: rest) output
  | rparen {out waiting rest output : List Token} (hout : ∀ t ∈ out, 0 < t.precedence)
    (h : Shunted waiting rest output) :
    Shunted (out ++ lparen :: waiting) (rparen :: rest) (out ++ output)
  | operator {operator : Token} {out waiting rest output : List Token}
    (hoperator : 0 < operator.precedence) (hout : ∀ t ∈ out, 0 < t.precedence)
    (h : Shunted (operator :: waiting) rest output) :
    Shunted (out ++ waiting) (operator :: rest) (out ++ output)

lemma Waits.precedence_pos (h : Waits waiting) (hparen : lparen ∉ waiting) :
    ∀ t ∈ waiting, 0 < t.precedence := by
  intro t ht
  rcases h t ht with rfl | hpos
  · exact absurd ht hparen
  · exact hpos

lemma Waits.shunted (hwaiting : Waits waiting) (h : shunt waiting ts = some output) :
    Shunted waiting ts output := by
  induction ts generalizing waiting output with
  | nil =>
    rw [shunt, Option.ite_none_left_eq_some] at h
    obtain rfl := Option.some.inj h.2
    exact .done (hwaiting.precedence_pos h.1)
  | cons t ts ih =>
    have hoperator : 0 < t.precedence → Shunted waiting (t :: ts) output := by
      intro ht
      rw [shunt_operator_eq ht] at h
      obtain ⟨output', hrun, rfl⟩ := Option.map_eq_some_iff.mp h
      have hsplit := List.takeWhile_append_dropWhile (p := (t.precedence ≤ precedence ·)) (l := waiting)
      have hout : ∀ u ∈ waiting.takeWhile (t.precedence ≤ precedence ·), 0 < u.precedence := by
        intro u hu
        have hle := List.mem_takeWhile_imp hu
        exact Nat.lt_of_lt_of_le ht (of_decide_eq_true hle)
      have hleft : Waits (t :: waiting.dropWhile (t.precedence ≤ precedence ·)) := by
        refine List.forall_mem_cons.mpr ⟨Or.inr ht, fun u hu => hwaiting u ?_⟩
        exact (List.dropWhile_sublist _).subset hu
      have hshunted := Shunted.operator ht hout (ih hleft hrun)
      rwa [hsplit] at hshunted
    cases t with
    | symbol a =>
      obtain ⟨output', hrun, rfl⟩ := Option.map_eq_some_iff.mp h
      exact .symbol (ih hwaiting hrun)
    | lparen => exact .lparen (ih (List.forall_mem_cons.mpr ⟨Or.inl rfl, hwaiting⟩) h)
    | rparen =>
      have hmem : lparen ∈ waiting := by
        rw [shunt, Option.ite_none_right_eq_some] at h
        exact h.1
      obtain ⟨out, left, rfl, hout⟩ := List.eq_append_cons_of_mem hmem
      rw [shunt_rparen hout] at h
      obtain ⟨output', hrun, rfl⟩ := Option.map_eq_some_iff.mp h
      obtain ⟨hout', hleft⟩ := List.forall_mem_append.mp hwaiting
      exact .rparen (Waits.precedence_pos hout' hout) (ih (List.forall_mem_cons.mp hleft).2 hrun)
    | star | plus | concat | alternate => exact hoperator (Nat.succ_pos _)

lemma shunted_of_shunt (h : shunt [] ts = some output) : Shunted [] ts output :=
  Waits.shunted (by simp [Waits]) h

lemma ne_lparen (h : 0 < t.precedence) : t ≠ lparen := by
  rintro rfl
  exact absurd h (Nat.lt_irrefl 0)

lemma lparen_not_mem (h : ∀ t ∈ ts, 0 < t.precedence) : lparen ∉ ts :=
  fun hmem => ne_lparen (h _ hmem) rfl

/-! ### What is kept -/

/-- What a token adds to the number of operands. -/
def weight : Token → Int
  | symbol _ => 1
  | concat | alternate => -1
  | star | plus | lparen | rparen => 0

/-- What tokens add to the number of operands. -/
def totalWeight : List Token → Int
  | [] => 0
  | t :: ts => t.weight + totalWeight ts

/-- The parentheses of tokens match if some are open before. -/
def Closes : Nat → List Token → Prop
  | depth, [] => depth = 0
  | depth, lparen :: rest => Closes (depth + 1) rest
  | depth, rparen :: rest => 0 < depth ∧ Closes (depth - 1) rest
  | depth, _ :: rest => Closes depth rest

@[simp] lemma totalWeight_nil : totalWeight [] = 0 := rfl

@[simp] lemma totalWeight_cons : totalWeight (t :: ts) = t.weight + totalWeight ts := rfl

@[simp] lemma totalWeight_append : totalWeight (ts ++ us) = totalWeight ts + totalWeight us := by
  induction ts with
  | nil => simp
  | cons t ts ih => rw [List.cons_append, totalWeight_cons, totalWeight_cons, ih, Int.add_assoc]

/-- Reading a postfix expression changes the number of operands by the weight of its tokens. -/
lemma totalWeight_of_operands? {count count' : Nat} (h : operands? count ts = some count') :
    (count' : Int) = count + totalWeight ts := by
  induction ts generalizing count with
  | nil =>
    obtain rfl := Option.some.inj h
    simp
  | cons t ts ih =>
    cases t with
    | symbol a =>
      have h' := ih h
      simp only [totalWeight_cons, weight]
      omega
    | star | plus | concat | alternate =>
      simp only [operands?, Option.ite_none_right_eq_some] at h
      have h' := ih h.2
      simp only [totalWeight_cons, weight]
      omega
    | lparen | rparen => exact absurd h (by simp [operands?])

/-- Moving operators behind their operands keeps all tokens but the parentheses. -/
lemma Shunted.totalWeight_eq (h : Shunted waiting ts output) :
    totalWeight output = totalWeight waiting + totalWeight ts := by
  induction h with
  | done => simp
  | symbol _ ih | lparen _ ih | rparen _ _ ih | operator _ _ _ ih =>
    simp only [totalWeight_append, totalWeight_cons, weight] at ih ⊢
    omega

/-- If the operators can be moved, the parentheses match. -/
lemma Shunted.closes (h : Shunted waiting ts output) : Closes (waiting.count Token.lparen) ts := by
  induction h with
  | done hwaiting => exact List.count_eq_zero.mpr (lparen_not_mem hwaiting)
  | symbol _ ih => exact ih
  | @lparen waiting rest _ _ ih =>
    show Closes (waiting.count Token.lparen + 1) rest
    rwa [List.count_cons_self] at ih
  | @rparen _ waiting rest _ hout _ ih =>
    rw [List.count_append, List.count_eq_zero.mpr (lparen_not_mem hout), List.count_cons_self,
      Nat.zero_add]
    show 0 < waiting.count Token.lparen + 1 ∧ Closes (waiting.count Token.lparen) rest
    exact ⟨Nat.succ_pos _, ih⟩
  | @operator operator out _ rest _ hoperator hout _ ih =>
    -- as many parentheses are open as before
    rw [List.count_cons_of_ne (ne_lparen hoperator)] at ih
    rw [List.count_append, List.count_eq_zero.mpr (lparen_not_mem hout), Nat.zero_add]
    cases operator with
    | symbol | lparen | rparen => exact absurd hoperator (Nat.lt_irrefl 0)
    | star | plus | concat | alternate => exact ih

/-- Explicit concatenation changes no parentheses. -/
lemma closes_juxtapose_iff {depth : Nat} : Closes depth (juxtapose ts) ↔ Closes depth ts := by
  induction ts using juxtapose.induct generalizing depth with
  | case1 t u rest hboth ih =>
    rw [juxtapose, if_pos hboth]
    cases t with
    | rparen => exact and_congr_right fun _ => ih
    | symbol | star | plus => exact ih
    | concat | alternate | lparen => exact absurd hboth (by simp [endsOperand])
  | case2 t u rest hboth ih =>
    rw [juxtapose, if_neg hboth]
    cases t with
    | rparen => exact and_congr_right fun _ => ih
    | symbol | star | plus | concat | alternate | lparen => exact ih
  | case3 ts h =>
    rw [juxtapose]
    exact h

end Token

/-- The postfix form of tokens consists of what moving the operators leaves. -/
lemma Postfix.ofTokens_eq_ok_iff {ts : List Token} {p : Postfix} :
    ofTokens ts = .ok p ↔ Token.shunt [] ts = some p.tokens := by
  constructor
  · intro h
    rw [ofTokens] at h
    split at h
    · exact absurd h (by simp)
    · rename_i output hshunt
      split at h
      · obtain rfl := Except.ok.inj h
        exact hshunt
      · exact absurd h (by simp)
  · intro h
    simp only [ofTokens, h, p.complete]
    rfl

end RegexAutomata
