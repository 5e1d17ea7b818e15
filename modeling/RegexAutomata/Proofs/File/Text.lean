/-
# Reading the text of a file

A file is read back from its text exactly if no state has the name of the member for the start state and
no label is the name of the member for being final (`AutomatonFile.reads_back_iff_writable`): these members
would be taken for each other, and then the text is refused.
-/
import RegexAutomata.File.Text
import RegexAutomata.Proofs.Failure
import RegexAutomata.Proofs.File.NameMap
import RegexAutomata.Proofs.Json.Reader

namespace RegexAutomata

open Json

/-- What is written for destinations is read back as the same destinations, and it leaves room for the
two objects around it. -/
class LawfulDestination (α : Type) [Destination α] : Prop where
  ofValue?_toValue : ∀ x : α, Destination.ofValue? (Destination.toValue x) = some x
  fits_toValue : ∀ x : α, (Destination.toValue x).Fits 125

instance : LawfulDestination String where
  ofValue?_toValue := fun _ => rfl
  fits_toValue := fun s => .string s

instance : LawfulDestination (List String) where
  ofValue?_toValue := fun _ => mapM_map_eq_pure fun _ _ => rfl
  fits_toValue := by
    intro names
    refine .array ?_
    intro item hitem
    obtain ⟨name, -, rfl⟩ := List.mem_map.mp hitem
    exact .string name

variable {α : Type} [Destination α] [LawfulDestination α]

/-! ### Records -/

namespace StateRecord

lemma fits_toValue (r : StateRecord α) : r.toValue.Fits memberDepth := by
  refine .object ?_
  intro member hmember
  rcases List.mem_cons.mp hmember with rfl | hmember
  · exact .bool r.isFinal
  · obtain ⟨entry, -, rfl⟩ := List.mem_map.mp hmember
    exact LawfulDestination.fits_toValue entry.2

/-- A record is read back, unless one of its labels is the name of the member for being final. -/
lemma ofValue?_toValue {r : StateRecord α} (h : finalKey ∉ r.transitions.names) :
    ofValue? r.toValue = some r := by
  have hne : ∀ entry ∈ r.transitions.entries, entry.1 ≠ finalKey := fun entry hentry hkey =>
    h (hkey ▸ List.mem_map_of_mem hentry)
  have hfinal : (r.transitions.entries.map fun entry =>
      (entry.1, Destination.toValue entry.2)).filter (·.1 = finalKey) = [] := by
    rw [List.filter_eq_nil_iff]
    intro member hmember
    obtain ⟨entry, hentry, rfl⟩ := List.mem_map.mp hmember
    simpa using hne entry hentry
  have hothers : (r.transitions.entries.map fun entry =>
      (entry.1, Destination.toValue entry.2)).filter (·.1 ≠ finalKey) =
        r.transitions.entries.map fun entry => (entry.1, Destination.toValue entry.2) := by
    rw [List.filter_eq_self]
    intro member hmember
    obtain ⟨entry, hentry, rfl⟩ := List.mem_map.mp hmember
    simpa using hne entry hentry
  have hread : (r.transitions.entries.map fun entry =>
      (entry.1, Destination.toValue entry.2)).mapM (fun member : String × Value =>
        (Destination.ofValue? member.2).map fun destinations => (member.1, destinations)) =
      some r.transitions.entries := by
    refine mapM_map_eq_pure ?_
    intro entry _
    rw [LawfulDestination.ofValue?_toValue, Option.map_some]
    rfl
  rw [toValue, ofValue?, List.filter_cons_of_pos (by simp), hfinal]
  simp only
  rw [List.filter_cons_of_neg (by simp), hothers, hread]
  simp [NameMap.ofList_entries]

omit [LawfulDestination α] in
/-- A record is refused if one of its labels is the name of the member for being final: then there are two
such members. -/
lemma ofValue?_toValue_eq_none {r : StateRecord α} (h : finalKey ∈ r.transitions.names) :
    (ofValue? r.toValue : Option (StateRecord α)) = none := by
  obtain ⟨entry, hentry, hkey⟩ := List.mem_map.mp h
  have hmember : (entry.1, Destination.toValue entry.2) ∈ (r.transitions.entries.map fun entry =>
      (entry.1, Destination.toValue entry.2)).filter (·.1 = finalKey) :=
    List.mem_filter.mpr ⟨List.mem_map_of_mem hentry, by simpa using hkey⟩
  obtain ⟨second, others, hothers⟩ := List.exists_cons_of_ne_nil (List.ne_nil_of_mem hmember)
  rw [toValue, ofValue?, List.filter_cons_of_pos (by simp), hothers]

end StateRecord

/-! ### Files -/

namespace AutomatonFile

/-- No state has the name of the member for the start state, and no label is the name of the member for
being final. -/
structure Writable (f : AutomatonFile α) : Prop where
  ne_startKey : ∀ entry ∈ f.states.entries, entry.1 ≠ startKey
  not_mem_names : ∀ entry ∈ f.states.entries, finalKey ∉ entry.2.transitions.names

variable {start? : Option String} {before members : List (String × Value)} {name : String}
  {value : Value} {rest : List Char} {level : Nat}

lemma readMember_value (hname : name ≠ startKey) (hvalue : value.Fits memberDepth) :
    readMember start? before name (.mark ':' :: lexemes (value.render level ++ rest)) =
      .ok ((start?, before ++ [(name, value)]), lexemes rest) := by
  rw [readMember, if_neg hname]
  simp only [readMark, if_true, readValue_render hvalue]

lemma readMember_start (start : String) :
    readMember none before startKey
        (.mark ':' :: lexemes ((Value.string start).render level ++ rest)) =
      .ok ((some start, before), lexemes rest) := by
  rw [readMember, if_pos rfl, Value.render, lexemes_quote]
  rfl

/-- After a member a comma leads to another one, and a closing brace ends the object. -/
lemma readMembers_of_mark {result : Option String × List (String × Value)} {c : Char}
    {after rest : List Lexeme}
    (h : readMember start? before name after = .ok (result, .mark c :: rest)) :
    readMembers start? before (.string (.ok name) :: after) =
      if c = ',' then readMembers result.1 result.2 rest
      else if c = '\x7d' then .ok (result, rest)
      else .error .malformed := by
  rw [readMembers]
  split
  · rename_i heq
    exact absurd (heq.symm.trans h) (by simp)
  · rename_i heq
    exact absurd (heq.symm.trans h) (by simp)
  · rename_i heq
    obtain ⟨rfl, hrest⟩ := Prod.mk.inj (Except.ok.inj (heq.symm.trans h))
    obtain ⟨hmark, rfl⟩ := List.cons.inj hrest
    rw [Lexeme.mark.inj hmark]
  · rename_i hother heq
    obtain ⟨-, hrest⟩ := Prod.mk.inj (Except.ok.inj (heq.symm.trans h))
    exact absurd (List.cons.inj hrest).1 (hother _)

/-- After a member is taken, further members that do not have the name of the member for the start state
are taken over, up to the end of the object. -/
lemma readMembers_renderMembers {result : Option String × List (String × Value)} {after : List Lexeme}
    (hmembers : ∀ member ∈ members, member.1 ≠ startKey ∧ member.2.Fits memberDepth)
    (h : readMember start? before name after = .ok (result, lexemes
      (Value.renderMembers 1 members ++ (Value.newline 0 ++ ['\x7d'])))) :
    readMembers start? before (.string (.ok name) :: after) =
      .ok ((result.1, result.2 ++ members), []) := by
  induction members generalizing start? before name result after with
  | nil =>
    rw [Value.renderMembers, List.nil_append, lexemes_newline, lexemes_mark (by decide),
      lexemes] at h
    rw [List.append_nil, readMembers_of_mark h, if_neg (by decide), if_pos rfl]
  | cons member members ih =>
    obtain ⟨name', value⟩ := member
    obtain ⟨⟨hname, hvalue⟩, hmembers⟩ := List.forall_mem_cons.mp hmembers
    rw [lexemes_renderMembers, lexemes_renderMember] at h
    rw [readMembers_of_mark h, if_pos rfl, ih hmembers (readMember_value hname hvalue),
      List.append_assoc, List.singleton_append]

/-- A second member for the start state is refused where it stands. -/
lemma readMembers_of_startKey {start : String} {after : List Lexeme} :
    readMembers (some start) before (.string (.ok startKey) :: after) = .error .mismatch := by
  have h : readMember (some start) before startKey after = .error .mismatch := by
    rw [readMember, if_pos rfl]
    rfl
  rw [readMembers]
  split
  · rename_i heq
    obtain rfl := Except.error.inj (heq.symm.trans h)
    rfl
  all_goals
    rename_i heq
    exact absurd (heq.symm.trans h) (by simp)

/-- Once the start state has been read, further members are refused if one of them has the name of the
member for the start state. -/
lemma readMembers_renderMembers_of_mem {start : String} {before' : List (String × Value)}
    {after : List Lexeme} (hfits : ∀ member ∈ members, member.2.Fits memberDepth)
    (hmem : startKey ∈ members.map Prod.fst)
    (h : readMember start? before name after = .ok ((some start, before'), lexemes
      (Value.renderMembers 1 members ++ (Value.newline 0 ++ ['\x7d'])))) :
    readMembers start? before (.string (.ok name) :: after) = .error .mismatch := by
  induction members generalizing start? before before' name after with
  | nil => exact absurd hmem List.not_mem_nil
  | cons member members ih =>
    obtain ⟨name', value⟩ := member
    obtain ⟨hvalue, hfits⟩ := List.forall_mem_cons.mp hfits
    rw [lexemes_renderMembers, lexemes_renderMember] at h
    rw [readMembers_of_mark h, if_pos rfl]
    by_cases hname : name' = startKey
    · subst hname
      exact readMembers_of_startKey
    · have hlater : startKey ∈ members.map Prod.fst :=
        (List.mem_cons.mp hmem).resolve_left (Ne.symm hname)
      exact ih hfits hlater (readMember_value hname hvalue)

/-- After its opening brace an object goes on with a name. -/
lemma readObject_of_name {after : List Lexeme} :
    readObject (.mark '\x7b' :: .string (.ok name) :: after) =
      readMembers none [] (.string (.ok name) :: after) := rfl

omit [LawfulDestination α] in
/-- The text of a file begins with the member for the start state. -/
lemma readObject_text (f : AutomatonFile α) :
    readObject (lexemes f.text.toList) =
      readMembers none [] (.string (.ok startKey) :: .mark ':' ::
        lexemes ((Value.string f.start).render 1 ++
          (Value.renderMembers 1 (f.states.entries.map fun entry => (entry.1, entry.2.toValue)) ++
            (Value.newline 0 ++ ['\x7d'])))) := by
  have hrender (member : String × Value) (members : List (String × Value)) :
      (Value.object (member :: members)).render 0 = '\x7b' :: (Value.newline 1 ++
        (Value.renderMember 1 member ++ (Value.renderMembers 1 members ++
          (Value.newline 0 ++ ['\x7d'])))) := by
    simp only [Value.render, List.append_assoc, List.cons_append]
  rw [AutomatonFile.text, Value.text, String.toList_ofList, AutomatonFile.toValue, hrender,
    lexemes_mark (by decide), lexemes_newline, lexemes_renderMember, readObject_of_name]

/-- The object of a file is read back: the start state and all records. -/
lemma readObject_text_of_ne {f : AutomatonFile α}
    (h : ∀ entry ∈ f.states.entries, entry.1 ≠ startKey) :
    readObject (lexemes f.text.toList) =
      .ok ((some f.start, f.states.entries.map fun entry => (entry.1, entry.2.toValue)), []) := by
  have hmembers : ∀ member ∈ f.states.entries.map fun entry => (entry.1, entry.2.toValue),
      member.1 ≠ startKey ∧ member.2.Fits memberDepth := by
    intro member hmember
    obtain ⟨entry, hentry, rfl⟩ := List.mem_map.mp hmember
    exact ⟨h entry hentry, entry.2.fits_toValue⟩
  rw [readObject_text]
  exact readMembers_renderMembers hmembers (readMember_start f.start)

/-- What is written as the text of a file is read back. -/
lemma ofText_text {f : AutomatonFile α} (h : f.Writable) : AutomatonFile.ofText f.text = .ok f := by
  have hrecords : (f.states.entries.map fun entry => (entry.1, entry.2.toValue)).mapM
      (fun member : String × Value =>
        (StateRecord.ofValue? member.2).map fun record => (member.1, record)) =
      some f.states.entries := by
    refine mapM_map_eq_pure ?_
    intro entry hentry
    rw [StateRecord.ofValue?_toValue (h.not_mem_names entry hentry), Option.map_some]
    rfl
  rw [AutomatonFile.ofText, readObject_text_of_ne h.ne_startKey]
  simp only [bind, Except.bind, hrecords, NameMap.ofList_entries]
  rfl

/-- The text of a file is refused if members are taken for each other: the start state is given twice, or
a record says twice whether its state is final. -/
lemma ofText_text_of_not_writable {f : AutomatonFile α} (h : ¬f.Writable) :
    (AutomatonFile.ofText f.text : Except Fault (AutomatonFile α)) = .error .mismatch := by
  by_cases hstart : ∀ entry ∈ f.states.entries, entry.1 ≠ startKey
  · have hlabel : ∃ entry ∈ f.states.entries, finalKey ∈ entry.2.transitions.names := by
      by_contra hnone
      push Not at hnone
      exact h ⟨hstart, hnone⟩
    obtain ⟨entry, hentry, hkey⟩ := hlabel
    have hrecords : (f.states.entries.map fun entry => (entry.1, entry.2.toValue)).mapM
        (fun member : String × Value =>
          ((StateRecord.ofValue? member.2 : Option (StateRecord α)).map fun record =>
            (member.1, record))) = none := by
      refine mapM_eq_none_of_mem (List.mem_map_of_mem hentry) ?_
      rw [StateRecord.ofValue?_toValue_eq_none hkey, Option.map_none]
    rw [AutomatonFile.ofText, readObject_text_of_ne hstart]
    simp only [bind, Except.bind, hrecords]
  · push Not at hstart
    obtain ⟨entry, hentry, hkey⟩ := hstart
    have hfits : ∀ member ∈ f.states.entries.map fun entry => (entry.1, entry.2.toValue),
        member.2.Fits memberDepth := by
      intro member hmember
      obtain ⟨entry, -, rfl⟩ := List.mem_map.mp hmember
      exact entry.2.fits_toValue
    have hmem : startKey ∈ (f.states.entries.map fun entry =>
        (entry.1, entry.2.toValue)).map Prod.fst := by
      rw [List.map_map, ← hkey]
      exact List.mem_map_of_mem hentry
    rw [AutomatonFile.ofText, readObject_text,
      readMembers_renderMembers_of_mem hfits hmem (readMember_start f.start)]
    rfl

lemma ofText_text_eq_ok_iff {f g : AutomatonFile α} :
    AutomatonFile.ofText f.text = .ok g ↔ f.Writable ∧ g = f := by
  by_cases h : f.Writable
  · rw [ofText_text h, Except.ok.injEq, and_iff_right h, eq_comm]
  · simp [ofText_text_of_not_writable h, h]

/-- A file of either kind survives its text: what is read from the text that is written for it is this file,
with its records and labels in the same order, exactly if no state has the name of the member for the start
state and no label is the name of the member for being final.  Any other file is refused, so no text is
read as a file for which it was not written. -/
theorem reads_back_iff_writable :
    (∀ f g : EnfaFile, AutomatonFile.ofText f.text = .ok g ↔ f.Writable ∧ g = f) ∧
      ∀ f g : DfaFile, AutomatonFile.ofText f.text = .ok g ↔ f.Writable ∧ g = f :=
  ⟨fun _ _ => ofText_text_eq_ok_iff, fun _ _ => ofText_text_eq_ok_iff⟩

/-- A name with a quotation mark, a backslash and a line break, and a label without destinations. -/
example : (⟨"\"\\\n", .ofList [("\"\\\n", ⟨true, .ofList [("a", []), ("b", ["\"\\\n"])]⟩)]⟩ : EnfaFile).text =
    "\x7b\n  \"startingState\": \"\\\"\\\\\\n\",\n  \"\\\"\\\\\\n\": \x7b\n" ++
      "    \"isTerminatingState\": true,\n    \"a\": [],\n    \"b\": [\n      \"\\\"\\\\\\n\"\n    ]\n" ++
      "  \x7d\n\x7d" := by
  decide +kernel

end AutomatonFile
end RegexAutomata
