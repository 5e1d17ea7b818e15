/-
# Reading what has been written

A value that is written is read back, and reading goes on with what follows its text
(`Json.readFrom_render`).  The text of a number is not looked at here, so values with numbers are left
out, and lists and objects must not stand inside each other deeper than the reader allows
(`Json.Value.Fits`).
-/
import RegexAutomata.Json.Reader
import RegexAutomata.Proofs.Json.Quoted

namespace RegexAutomata
namespace Json

/-! ### Lexemes -/

variable {rest : List Char} {level : Nat}

lemma lexemes_space : lexemes (' ' :: rest) = lexemes rest := by
  rw [lexemes, if_pos (by decide)]

lemma lexemes_mark {c : Char} (hc : c ∈ ['\x7b', '\x7d', '[', ']', ':', ',']) :
    lexemes (c :: rest) = .mark c :: lexemes rest := by
  have hkind : isSpace c = false ∧ isMark c = true := by
    simp only [List.mem_cons, List.not_mem_nil, or_false] at hc
    rcases hc with rfl | rfl | rfl | rfl | rfl | rfl <;> decide
  rw [lexemes, if_neg (by simp [hkind.1]), if_pos hkind.2]

lemma lexemes_newline : lexemes (Value.newline level ++ rest) = lexemes rest := by
  rw [Value.newline, List.cons_append, lexemes, if_pos (by decide)]
  induction 2 * level with
  | zero => rw [List.replicate_zero, List.nil_append]
  | succ n ih => rw [List.replicate_succ, List.cons_append, lexemes_space, ih]

lemma lexemes_quote (s : String) :
    lexemes (quote s.toList ++ rest) = .string (.ok s) :: lexemes rest := by
  have hread : readString (s.toList.flatMap escape ++ '\x22' :: rest) = .ok (s.toList, rest) :=
    readString_flatMap_escape s.toList
  rw [quote, List.cons_append, List.cons_append, List.append_assoc, List.singleton_append, lexemes,
    if_neg (by decide), if_neg (by decide), if_pos rfl]
  split
  · rename_i hfault
    exact absurd (hfault.symm.trans hread) (by simp)
  · rename_i t rest' hok
    obtain ⟨rfl, rfl⟩ := Prod.mk.inj (Except.ok.inj (hok.symm.trans hread))
    rw [String.ofList_toList]

lemma readWord_append (word : List Char) : readWord word (word ++ rest) = .ok rest := by
  induction word with
  | nil => rfl
  | cons w word ih => rw [List.cons_append, readWord, if_pos rfl, ih]

/-- A word that is a value begins with none of the characters of other lexemes. -/
lemma lexemes_word {c : Char} (word : List Char) {value : Value}
    (hc : isSpace c = false ∧ isMark c = false ∧ c ≠ '\x22' ∧ ¬(c = '-' ∨ c.isDigit = true))
    (hword : wordOf? c = some (word, value)) :
    lexemes (c :: (word ++ rest)) = .scalar (.ok value) :: lexemes rest := by
  rw [lexemes, if_neg (by simp [hc.1]), if_neg (by simp [hc.2.1]), if_neg hc.2.2.1,
    if_neg hc.2.2.2, hword]
  simp only
  split
  · rename_i hfault
    exact absurd (hfault.symm.trans (readWord_append word)) (by simp)
  · rename_i rest' hok
    obtain rfl := Except.ok.inj (hok.symm.trans (readWord_append word))
    rfl

lemma lexemes_null : lexemes (['n', 'u', 'l', 'l'] ++ rest) = .scalar (.ok .null) :: lexemes rest :=
  lexemes_word ['u', 'l', 'l'] (by decide) rfl

lemma lexemes_true :
    lexemes (['t', 'r', 'u', 'e'] ++ rest) = .scalar (.ok (.bool true)) :: lexemes rest :=
  lexemes_word ['r', 'u', 'e'] (by decide) rfl

lemma lexemes_false :
    lexemes (['f', 'a', 'l', 's', 'e'] ++ rest) = .scalar (.ok (.bool false)) :: lexemes rest :=
  lexemes_word ['a', 'l', 's', 'e'] (by decide) rfl

lemma lexemes_renderItems (item : Value) (items : List Value) :
    lexemes (Value.renderItems level (item :: items) ++ rest) =
      .mark ',' :: lexemes (item.render level ++ (Value.renderItems level items ++ rest)) := by
  rw [Value.renderItems]
  simp only [List.cons_append, List.append_assoc]
  rw [lexemes_mark (by decide), lexemes_newline]

lemma lexemes_renderMembers (member : String × Value) (members : List (String × Value)) :
    lexemes (Value.renderMembers level (member :: members) ++ rest) =
      .mark ',' ::
        lexemes (Value.renderMember level member ++ (Value.renderMembers level members ++ rest)) := by
  rw [Value.renderMembers]
  simp only [List.cons_append, List.append_assoc]
  rw [lexemes_mark (by decide), lexemes_newline]

lemma lexemes_renderMember (name : String) (value : Value) :
    lexemes (Value.renderMember level (name, value) ++ rest) =
      .string (.ok name) :: .mark ':' :: lexemes (value.render level ++ rest) := by
  rw [Value.renderMember]
  simp only [List.cons_append, List.append_assoc]
  rw [lexemes_quote, lexemes_mark (by decide), lexemes_space]

/-! ### Values -/

/-- The value holds no number, and lists and objects stand inside each other at most as deep as the
first argument says. -/
inductive Value.Fits : Nat → Value → Prop
  | null {n : Nat} : Fits n null
  | bool {n : Nat} (b : Bool) : Fits n (bool b)
  | string {n : Nat} (s : String) : Fits n (string s)
  | array {n : Nat} {items : List Value} (h : ∀ item ∈ items, Fits n item) :
      Fits (n + 1) (array items)
  | object {n : Nat} {members : List (String × Value)} (h : ∀ member ∈ members, Fits n member.2) :
      Fits (n + 1) (object members)

/-- Go on reading after a value that stands inside the lists and objects of a stack. -/
def resume (depth : Nat) (value : Value) : List Frame → List Lexeme →
    Except Fault (Value × List Lexeme)
  | [], rest => .ok (value, rest)
  | frame :: stack, rest => readFrom depth .separator (frame.add value :: stack) rest

variable {depth n : Nat} {stack stack' : List Frame} {wanted wanted' : Wanted} {lexeme : Lexeme}
  {value : Value} {items : List Value} {members : List (String × Value)}

lemma readFrom_of_complete {lexemes : List Lexeme}
    (h : act depth wanted stack lexeme = .complete value stack') :
    readFrom depth wanted stack (lexeme :: lexemes) = resume depth value stack' lexemes := by
  rw [readFrom, h]
  cases stack' <;> rfl

lemma readFrom_of_proceed {lexemes : List Lexeme}
    (h : act depth wanted stack lexeme = .proceed wanted' stack') :
    readFrom depth wanted stack (lexeme :: lexemes) = readFrom depth wanted' stack' lexemes := by
  rw [readFrom, h]

/-- A reader that asks for a value, and whose stack leaves room for so many levels, takes the text of
this one. -/
def Value.ReadsBack (depth n : Nat) (value : Value) : Prop :=
  ∀ (level : Nat) (stack : List Frame) (rest : List Char), stack.length + n ≤ depth →
    readFrom depth .value stack (lexemes (value.render level ++ rest)) =
      resume depth value stack (lexemes rest)

/-- Further items of a list, up to its end. -/
lemma readFrom_renderItems (hitems : ∀ item ∈ items, item.ReadsBack depth n)
    (hdepth : stack.length + 1 + n ≤ depth) (before : List Value) (inner outer : Nat) :
    readFrom depth .separator (.array before :: stack)
        (lexemes (Value.renderItems inner items ++ (Value.newline outer ++ ']' :: rest))) =
      resume depth (.array (before.reverse ++ items)) stack (lexemes rest) := by
  induction items generalizing before with
  | nil =>
    rw [Value.renderItems, List.nil_append, lexemes_newline, lexemes_mark (by decide),
      List.append_nil]
    exact readFrom_of_complete rfl
  | cons item items ih =>
    obtain ⟨hitem, hitems⟩ := List.forall_mem_cons.mp hitems
    rw [lexemes_renderItems, readFrom_of_proceed rfl, hitem inner _ _ (by simpa using hdepth)]
    have hrest := ih hitems (item :: before)
    rw [List.reverse_cons, List.append_assoc, List.singleton_append] at hrest
    exact hrest

/-- A member of an object. -/
lemma readFrom_renderMember (hwanted : wanted = .name ∨ wanted = .firstName)
    (hvalue : value.ReadsBack depth n) (hdepth : stack.length + 1 + n ≤ depth) (name last : String)
    (before : List (String × Value)) :
    readFrom depth wanted (.object before last :: stack)
        (lexemes (Value.renderMember level (name, value) ++ rest)) =
      readFrom depth .separator (.object ((name, value) :: before) name :: stack)
        (lexemes rest) := by
  have hname : act depth wanted (.object before last :: stack) (.string (.ok name)) =
      .proceed .colon (.object before name :: stack) := by
    rcases hwanted with rfl | rfl <;> rfl
  rw [lexemes_renderMember, readFrom_of_proceed hname, readFrom_of_proceed rfl,
    hvalue level _ _ (by simpa using hdepth)]
  rfl

/-- Further members of an object, up to its end. -/
lemma readFrom_renderMembers (hmembers : ∀ member ∈ members, member.2.ReadsBack depth n)
    (hdepth : stack.length + 1 + n ≤ depth) (last : String) (before : List (String × Value))
    (inner outer : Nat) :
    readFrom depth .separator (.object before last :: stack)
        (lexemes (Value.renderMembers inner members ++ (Value.newline outer ++ '\x7d' :: rest))) =
      resume depth (.object (before.reverse ++ members)) stack (lexemes rest) := by
  induction members generalizing before last with
  | nil =>
    rw [Value.renderMembers, List.nil_append, lexemes_newline, lexemes_mark (by decide),
      List.append_nil]
    exact readFrom_of_complete rfl
  | cons member members ih =>
    obtain ⟨name, value⟩ := member
    obtain ⟨hvalue, hmembers⟩ := List.forall_mem_cons.mp hmembers
    rw [lexemes_renderMembers, readFrom_of_proceed rfl,
      readFrom_renderMember (Or.inl rfl) hvalue hdepth]
    have hrest := ih hmembers name ((name, value) :: before)
    rw [List.reverse_cons, List.append_assoc, List.singleton_append] at hrest
    exact hrest

/-- The first item of a list is not taken for its end. -/
lemma readFrom_firstItem (h : value.Fits n) :
    readFrom depth .firstItem (.array [] :: stack) (lexemes (value.render level ++ rest)) =
      readFrom depth .value (.array [] :: stack) (lexemes (value.render level ++ rest)) := by
  cases h with
  | null =>
    rw [Value.render, lexemes_null]
    rfl
  | bool b =>
    cases b with
    | true =>
      rw [Value.render, lexemes_true]
      rfl
    | false =>
      rw [Value.render, lexemes_false]
      rfl
  | string s =>
    rw [Value.render, lexemes_quote]
    rfl
  | @array _ items _ =>
    cases items with
    | nil =>
      rw [Value.render, List.cons_append, lexemes_mark (by decide)]
      rfl
    | cons item items =>
      rw [Value.render]
      simp only [List.cons_append]
      rw [lexemes_mark (by decide)]
      rfl
  | @object _ members _ =>
    cases members with
    | nil =>
      rw [Value.render, List.cons_append, lexemes_mark (by decide)]
      rfl
    | cons member members =>
      rw [Value.render]
      simp only [List.cons_append]
      rw [lexemes_mark (by decide)]
      rfl

/-- What is written is read back. -/
lemma Value.Fits.readsBack (h : value.Fits n) : value.ReadsBack depth n := by
  induction h with
  | null =>
    intro level stack rest _
    rw [Value.render, lexemes_null]
    exact readFrom_of_complete rfl
  | bool b =>
    intro level stack rest _
    cases b with
    | true =>
      rw [Value.render, lexemes_true]
      exact readFrom_of_complete rfl
    | false =>
      rw [Value.render, lexemes_false]
      exact readFrom_of_complete rfl
  | string s =>
    intro level stack rest _
    rw [Value.render, lexemes_quote]
    exact readFrom_of_complete rfl
  | @array n items hfits ih =>
    intro level stack rest hdepth
    have hopen : act depth .value stack (.mark '[') = .proceed .firstItem (.array [] :: stack) := by
      rw [act, beginValue, if_neg (by omega), if_pos rfl]
    cases items with
    | nil =>
      rw [Value.render]
      simp only [List.cons_append, List.nil_append]
      rw [lexemes_mark (by decide), readFrom_of_proceed hopen, lexemes_mark (by decide)]
      exact readFrom_of_complete rfl
    | cons item items =>
      obtain ⟨hitem, hitems⟩ := List.forall_mem_cons.mp ih
      rw [Value.render]
      simp only [List.cons_append, List.append_assoc, List.nil_append]
      rw [lexemes_mark (by decide), readFrom_of_proceed hopen, lexemes_newline,
        readFrom_firstItem (hfits item List.mem_cons_self),
        hitem (level + 1) _ _ (by simpa [Nat.add_right_comm, Nat.add_assoc] using hdepth)]
      exact readFrom_renderItems hitems (by omega) [item] (level + 1) level
  | @object n members hfits ih =>
    intro level stack rest hdepth
    have hopen : act depth .value stack (.mark '\x7b') =
        .proceed .firstName (.object [] "" :: stack) := by
      rw [act, beginValue, if_neg (by omega), if_neg (by decide), if_pos rfl]
    cases members with
    | nil =>
      rw [Value.render]
      simp only [List.cons_append, List.nil_append]
      rw [lexemes_mark (by decide), readFrom_of_proceed hopen, lexemes_mark (by decide)]
      exact readFrom_of_complete rfl
    | cons member members =>
      obtain ⟨name, value⟩ := member
      obtain ⟨hvalue, hmembers⟩ := List.forall_mem_cons.mp ih
      rw [Value.render]
      simp only [List.cons_append, List.append_assoc, List.nil_append]
      rw [lexemes_mark (by decide), readFrom_of_proceed hopen, lexemes_newline,
        readFrom_renderMember (Or.inr rfl) hvalue (by omega)]
      exact readFrom_renderMembers hmembers (by omega) name [(name, value)] (level + 1) level

/-- A value that is written is read back, and what follows its text remains. -/
lemma readValue_render (h : value.Fits depth) :
    readValue depth (lexemes (value.render level ++ rest)) = .ok (value, lexemes rest) :=
  h.readsBack level [] rest (by simp)

end Json
end RegexAutomata
