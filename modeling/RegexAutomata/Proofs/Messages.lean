/-
# The messages of a log

A message begins with a character that tells the kind of its event.  The texts, numbers and sets in it can each
be told from what follows: a number ends where the digits end, a quoted text where a quotation mark stands
without a backslash.  So a message determines its event (`Event.eq_of_message_eq`); only the postfix form of an
expression is not read off its text, but it is that of the expression.

The lines of a compilation are given by `lines_compileLogged`, and no two compilations whose messages agree
differ in an event (`events_eq_of_messages_eq`).
-/
import RegexAutomata.Proofs.Log

namespace RegexAutomata

/-! ### Texts that can be told from what follows -/

lemma takeWhile_isDigit_repr_append {k : Nat} {u : List Char} (hu : ∀ c ∈ u.head?, c.isDigit = false) :
    (k.repr.toList ++ u).takeWhile Char.isDigit = Nat.toDigits 10 k := by
  rw [Nat.toList_repr, List.takeWhile_append_of_pos fun c hc =>
    Nat.isDigit_of_mem_toDigits (by decide) (by decide) hc]
  cases u with
  | nil => rw [List.takeWhile_nil, List.append_nil]
  | cons c u => rw [List.takeWhile_cons_of_neg (by simp [hu c rfl]), List.append_nil]

/-- A number ends where no digit follows. -/
lemma repr_append_inj {k l : Nat} {u v : List Char} (h : k.repr.toList ++ u = l.repr.toList ++ v)
    (hu : ∀ c ∈ u.head?, c.isDigit = false) (hv : ∀ c ∈ v.head?, c.isDigit = false) :
    k = l ∧ u = v := by
  have hdigits := congrArg (List.takeWhile Char.isDigit) h
  rw [takeWhile_isDigit_repr_append hu, takeWhile_isDigit_repr_append hv] at hdigits
  have hkl := congrArg (Nat.ofDigitChars 10 · 0) hdigits
  simp only [Nat.ofDigitChars_ten_toDigits] at hkl
  subst hkl
  exact ⟨rfl, List.append_cancel_left h⟩

/-- A character of a quoted text, with a backslash if it needs one. -/
def escaped (c : Char) : List Char := if c = '\x22' ∨ c = '\\' then ['\\', c] else [c]

lemma toList_quoted (text : String) :
    (quoted text).toList = '\x22' :: (text.toList.flatMap escaped ++ ['\x22']) := by
  rw [quoted, String.toList_ofList]
  rfl

/-- A character can be told from what follows, and none of them begins with a quotation mark. -/
lemma escaped_append_inj {c c' : Char} {u v : List Char} (h : escaped c ++ u = escaped c' ++ v) :
    c = c' ∧ u = v := by
  unfold escaped at h
  grind

lemma escaped_append_ne {c : Char} {u v : List Char} : escaped c ++ u ≠ '\x22' :: v := by
  unfold escaped
  grind

lemma flatMap_escaped_append_inj {text text' u v : List Char}
    (h : text.flatMap escaped ++ '\x22' :: u = text'.flatMap escaped ++ '\x22' :: v) :
    text = text' ∧ u = v := by
  induction text generalizing text' with
  | nil =>
    cases text' with
    | nil => exact ⟨rfl, (List.cons.inj h).2⟩
    | cons c' text' =>
      rw [List.flatMap_nil, List.nil_append, List.flatMap_cons, List.append_assoc] at h
      exact absurd h.symm escaped_append_ne
  | cons c text ih =>
    rw [List.flatMap_cons, List.append_assoc] at h
    cases text' with
    | nil => exact absurd h escaped_append_ne
    | cons c' text' =>
      rw [List.flatMap_cons, List.append_assoc] at h
      obtain ⟨rfl, hrest⟩ := escaped_append_inj h
      obtain ⟨rfl, huv⟩ := ih hrest
      exact ⟨rfl, huv⟩

/-- A quoted text ends at the second quotation mark that is not escaped. -/
lemma quoted_append_inj {text text' : String} {u v : List Char}
    (h : (quoted text).toList ++ u = (quoted text').toList ++ v) : text = text' ∧ u = v := by
  rw [toList_quoted, toList_quoted] at h
  obtain ⟨htext, h⟩ := flatMap_escaped_append_inj (by simpa using h)
  exact ⟨String.toList_inj.mp htext, h⟩

/-! ### Sets -/

/-- Members after the first, and the brace at the end. -/
def closing (members : List Nat) : List Char :=
  members.flatMap (fun x => ',' :: ' ' :: x.repr.toList) ++ ['\x7d']

lemma toList_intercalate_repr (x : Nat) (members : List Nat) :
    (", ".intercalate ((x :: members).map Nat.repr)).toList ++ ['\x7d'] =
      x.repr.toList ++ closing members := by
  rw [String.toList_intercalate, List.map_map]
  induction members generalizing x with
  | nil => simp [closing]
  | cons y members ih =>
    rw [List.map_cons, List.map_cons, List.intercalate_cons_cons, List.append_assoc, ← List.map_cons, ih y]
    simp [closing]

/-- After a member comes a comma or the brace. -/
lemma head?_closing (members : List Nat) : ∀ c ∈ (closing members).head?, c.isDigit = false := by
  intro c hc
  cases members with
  | nil => exact Option.some.inj hc ▸ rfl
  | cons x members => exact Option.some.inj hc ▸ rfl

lemma closing_injective {members members' : List Nat} (h : closing members = closing members') :
    members = members' := by
  induction members generalizing members' with
  | nil =>
    cases members' with
    | nil => rfl
    | cons y members' => exact absurd h (by simp [closing])
  | cons x members ih =>
    cases members' with
    | nil => exact absurd h (by simp [closing])
    | cons y members' =>
      have hrest : x.repr.toList ++ closing members = y.repr.toList ++ closing members' := by
        simpa [closing] using h
      obtain ⟨rfl, hclosing⟩ := repr_append_inj hrest (head?_closing members) (head?_closing members')
      rw [ih hclosing]

/-- The members of a set as they stand in its text, with the brace at the end. -/
def listing : List Nat → List Char
  | [] => ['\x7d']
  | x :: members => x.repr.toList ++ closing members

lemma StateSet.toList_text (S : StateSet) : S.text.toList = '\x7b' :: listing S.toList := by
  have htext : S.text.toList =
      '\x7b' :: ((", ".intercalate (S.toList.map Nat.repr)).toList ++ ['\x7d']) := by
    simp [text]
  rw [htext]
  cases S.toList with
  | nil => rfl
  | cons x members => rw [toList_intercalate_repr, listing]

lemma repr_append_closing_ne (x : Nat) (members : List Nat) :
    x.repr.toList ++ closing members ≠ ['\x7d'] := by
  intro h
  have hlength := congrArg List.length h
  have hpos : 0 < (Nat.toDigits 10 x).length := Nat.length_toDigits_pos
  simp only [Nat.toList_repr, closing, List.length_append, List.length_singleton] at hlength
  omega

lemma listing_injective {members members' : List Nat} (h : listing members = listing members') :
    members = members' := by
  cases members with
  | nil =>
    cases members' with
    | nil => rfl
    | cons y members' => exact absurd h.symm (repr_append_closing_ne y members')
  | cons x members =>
    cases members' with
    | nil => exact absurd h (repr_append_closing_ne x members)
    | cons y members' =>
      obtain ⟨rfl, hclosing⟩ := repr_append_inj h (head?_closing members) (head?_closing members')
      rw [closing_injective hclosing]

/-- A set is determined by its text. -/
lemma StateSet.text_injective {S T : StateSet} (h : S.text = T.text) : S = T := by
  have htext := congrArg String.toList h
  rw [S.toList_text, T.toList_text, List.cons.injEq] at htext
  ext x
  rw [← mem_toList, listing_injective htext.2, mem_toList]

/-! ### Events -/

namespace Event

/-- The character that messages of a kind begin with. -/
def initial : Event → Char
  | parsed .. => 'p'
  | assembled .. => 't'
  | discovered .. => 'd'
  | determinized .. => 's'
  | refined .. => 'r'
  | minimized .. => 'm'
  | compiled .. => 'c'

lemma head?_message (e : Event) : e.message.toList.head? = some e.initial := by
  rw [message, String.toList_join]
  cases e <;> simp [parts, initial]

/-- The level can be told from the first character. -/
lemma level_eq_trace_iff (e : Event) : e.level = .trace ↔
    e.message.toList.head? = some 'd' ∨ e.message.toList.head? = some 'r' := by
  rw [head?_message]
  cases e <;> simp [level, initial]

/-- The postfix form is that of the expression. -/
def Truthful : Event → Prop
  | parsed source expression => Regex.parse source = .ok expression
  | _ => True

/-- A message determines its event. -/
lemma eq_of_message_eq {e e' : Event} (he : e.Truthful) (he' : e'.Truthful) (h : e.message = e'.message) :
    e = e' := by
  have hinitial : e.initial = e'.initial := by
    rw [← Option.some.injEq, ← head?_message, h, head?_message]
  have hparts : e.parts.flatMap String.toList = e'.parts.flatMap String.toList := by
    rw [← String.toList_join, ← String.toList_join]
    exact congrArg String.toList h
  cases e with
  | parsed source p =>
    cases e' with
    | parsed source' p' =>
      simp only [parts, List.flatMap_cons] at hparts
      obtain ⟨rfl, -⟩ := quoted_append_inj (List.append_cancel_left hparts)
      rw [Except.ok.inj (he.symm.trans he')]
    | _ => exact absurd hinitial (by simp [initial])
  | assembled states symbols =>
    cases e' with
    | assembled states' symbols' =>
      simp only [parts, List.flatMap_cons] at hparts
      obtain ⟨rfl, hrest⟩ := repr_append_inj (List.append_cancel_left hparts) (by simp) (by simp)
      obtain ⟨rfl, -⟩ := repr_append_inj (List.append_cancel_left hrest) (by simp) (by simp)
      rfl
    | _ => exact absurd hinitial (by simp [initial])
  | discovered state S =>
    cases e' with
    | discovered state' S' =>
      simp only [parts, List.flatMap_cons, List.flatMap_nil, List.append_nil] at hparts
      obtain ⟨rfl, hrest⟩ := repr_append_inj (List.append_cancel_left hparts) (by simp) (by simp)
      rw [StateSet.text_injective (String.toList_inj.mp (List.append_cancel_left hrest))]
    | _ => exact absurd hinitial (by simp [initial])
  | determinized before after =>
    cases e' with
    | determinized before' after' =>
      simp only [parts, List.flatMap_cons] at hparts
      obtain ⟨rfl, hrest⟩ := repr_append_inj (List.append_cancel_left hparts) (by simp) (by simp)
      obtain ⟨rfl, -⟩ := repr_append_inj (List.append_cancel_left hrest) (by simp) (by simp)
      rfl
    | _ => exact absurd hinitial (by simp [initial])
  | refined round classes =>
    cases e' with
    | refined round' classes' =>
      simp only [parts, List.flatMap_cons] at hparts
      obtain ⟨rfl, hrest⟩ := repr_append_inj (List.append_cancel_left hparts) (by simp) (by simp)
      obtain ⟨rfl, -⟩ := repr_append_inj (List.append_cancel_left hrest) (by simp) (by simp)
      rfl
    | _ => exact absurd hinitial (by simp [initial])
  | minimized before after rounds =>
    cases e' with
    | minimized before' after' rounds' =>
      simp only [parts, List.flatMap_cons] at hparts
      obtain ⟨rfl, hafter⟩ := repr_append_inj (List.append_cancel_left hparts) (by simp) (by simp)
      obtain ⟨rfl, hrounds⟩ := repr_append_inj (List.append_cancel_left hafter) (by simp) (by simp)
      obtain ⟨rfl, -⟩ := repr_append_inj (List.append_cancel_left hrounds) (by simp) (by simp)
      rfl
    | _ => exact absurd hinitial (by simp [initial])
  | compiled source nfa dfa minimal =>
    cases e' with
    | compiled source' nfa' dfa' minimal' =>
      simp only [parts, List.flatMap_cons, List.flatMap_nil] at hparts
      obtain ⟨rfl, hnfa⟩ := quoted_append_inj (List.append_cancel_left hparts)
      obtain ⟨rfl, hdfa⟩ := repr_append_inj (List.append_cancel_left hnfa) (by simp) (by simp)
      obtain ⟨rfl, hminimal⟩ := repr_append_inj (List.append_cancel_left hdfa) (by simp) (by simp)
      obtain ⟨rfl, -⟩ := repr_append_inj (List.append_cancel_left hminimal) (by simp) (by simp)
      rfl
    | _ => exact absurd hinitial (by simp [initial])

end Event

/-! ### The lines of a compilation -/

/-- The level and the message of an event. -/
def Event.line (e : Event) : String × String := (e.level.text, e.message)

/-- What is written when an expression is compiled.  Nothing is written if it is refused. -/
lemma lines_compileLogged (text : String) :
    match compile text with
    | .error _ => (compileLogged text).events.map Event.line = []
    | .ok c => ∃ sets, c.dfa.mapping? = some sets ∧
      (compileLogged text).events.map Event.line =
        [("DEBUG", "parsed " ++ quoted text ++ " into postfix " ++ c.expression.text ++ " (" ++
            c.expression.length.repr ++ " tokens)"),
          ("DEBUG", "thompson construction: " ++ c.nfa.numStates.repr ++ " states, " ++
            c.nfa.alphabet.size.repr ++ " symbols")] ++
        (((List.range c.dfa.numStates).filter fun s => s ≠ 0 ∧ c.dfa.dead? ≠ some s).map fun s =>
          ("TRACE", "discovered DFA state " ++ s.repr ++ " = " ++ (sets.getD s ∅).text)) ++
        [("DEBUG", "subset construction: " ++ c.nfa.numStates.repr ++ " NFA states -> " ++
          c.dfa.numStates.repr ++ " DFA states")] ++
        ((c.dfa.minimization.classCounts.zipIdx 1).map fun entry =>
          ("TRACE", "refinement round " ++ entry.2.repr ++ ": " ++ entry.1.repr ++ " classes")) ++
        [("DEBUG", "minimized " ++ c.dfa.numStates.repr ++ " states into " ++ c.minimized.numStates.repr ++
            " after " ++ c.dfa.minimization.classCounts.length.repr ++ " rounds"),
          ("DEBUG", "compiled " ++ quoted text ++ ": nfa=" ++ c.nfa.numStates.repr ++ " dfa=" ++
            c.dfa.numStates.repr ++ " minimized=" ++ c.minimized.numStates.repr)] := by
  cases h : compile text with
  | error e => exact congrArg (fun x : Logged _ => x.events.map Event.line) (compileLogged_of_error h)
  | ok c =>
    obtain ⟨sets, hmapping, -, hlogged⟩ := exists_compileLogged_eq h
    refine ⟨sets, hmapping, ?_⟩
    rw [hlogged]
    simp [Event.line, Event.level, Level.text, Event.message, Event.parts, String.join, Function.comp_def]

/-- The dead state has the number 2 and is not reported, and the second round changes nothing. -/
example : (compileLogged "ab|cb").events.map Event.message =
    ["parsed \"ab|cb\" into postfix ab#cb#| (7 tokens)",
      "thompson construction: 10 states, 3 symbols",
      "discovered DFA state 1 = \x7b1, 2\x7d", "discovered DFA state 3 = \x7b5, 6\x7d",
      "discovered DFA state 4 = \x7b3, 9\x7d", "discovered DFA state 5 = \x7b7, 9\x7d",
      "subset construction: 10 NFA states -> 6 DFA states",
      "refinement round 1: 3 classes", "refinement round 2: 3 classes",
      "minimized 6 states into 4 after 2 rounds",
      "compiled \"ab|cb\": nfa=10 dfa=6 minimized=4"] := by decide +kernel

/-- Summaries alone: there are five of them, one for each stage and one in the end. -/
lemma filter_debug_compileLogged {text : String} {c : Compiled} (h : compile text = .ok c) :
    (compileLogged text).events.filter (·.level = .debug) =
      [.parsed text c.expression, .assembled c.nfa.numStates c.nfa.alphabet.size,
        .determinized c.nfa.numStates c.dfa.numStates,
        .minimized c.dfa.numStates c.minimized.numStates c.dfa.minimization.classCounts.length,
        .compiled text c.nfa.numStates c.dfa.numStates c.minimized.numStates] := by
  obtain ⟨sets, -, -, hlogged⟩ := exists_compileLogged_eq h
  rw [hlogged]
  simp [List.filter_map, Event.level, Function.comp_def]

lemma truthful_of_mem {text : String} {e : Event} (he : e ∈ (compileLogged text).events) : e.Truthful := by
  cases h : compile text with
  | error fault =>
    rw [compileLogged_of_error h] at he
    exact absurd he List.not_mem_nil
  | ok c =>
    obtain ⟨sets, -, -, hlogged⟩ := exists_compileLogged_eq h
    rw [hlogged] at he
    cases e with
    | parsed source p =>
      obtain ⟨rfl, rfl⟩ : source = text ∧ p = c.expression := by simpa using he
      exact Compiled.parse_of_compile h
    | _ => trivial

/-- No two compilations with the same messages differ in an event. -/
lemma events_eq_of_messages_eq {text text' : String} (h : (compileLogged text).events.map Event.message =
    (compileLogged text').events.map Event.message) :
    (compileLogged text).events = (compileLogged text').events := by
  refine List.ext_getElem? fun i => ?_
  have hi := congrArg (·[i]?) h
  simp only [List.getElem?_map] at hi
  cases he : (compileLogged text).events[i]? with
  | none =>
    rw [he, Option.map_none, eq_comm, Option.map_eq_none_iff] at hi
    exact hi.symm
  | some e =>
    rw [he, Option.map_some, eq_comm, Option.map_eq_some_iff] at hi
    obtain ⟨e', he', hmessage⟩ := hi
    rw [he', Event.eq_of_message_eq (truthful_of_mem (List.mem_of_getElem? he'))
      (truthful_of_mem (List.mem_of_getElem? he)) hmessage]

/-- The messages name the expression. -/
lemma eq_of_messages_eq {text text' : String} {c : Compiled} (hc : compile text = .ok c)
    (h : (compileLogged text).events.map Event.message = (compileLogged text').events.map Event.message) :
    text = text' := by
  obtain ⟨sets, -, -, hlogged⟩ := exists_compileLogged_eq hc
  have hmem : .parsed text c.expression ∈ (compileLogged text').events := by
    rw [← events_eq_of_messages_eq h, hlogged]
    simp
  cases hc' : compile text' with
  | error fault =>
    rw [compileLogged_of_error hc'] at hmem
    exact absurd hmem List.not_mem_nil
  | ok c' =>
    obtain ⟨sets', -, -, hlogged'⟩ := exists_compileLogged_eq hc'
    rw [hlogged'] at hmem
    obtain ⟨heq, -⟩ : text = text' ∧ c.expression = c'.expression := by simpa using hmem
    exact heq

end RegexAutomata
