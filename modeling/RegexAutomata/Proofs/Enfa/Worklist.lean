/-
# The worklist makes the powerset automaton

The construction with a worklist and the search for sets of states go hand in hand.  What has been built
reflects the sets that are known (`Enfa.Construction.Reflects`): there is a state for each of them, and that
of the empty set is the dead state and not registered.  Connecting a state on one symbol makes the image known
(`Enfa.Construction.Reflects.follow`), so taking up a set does to the construction what it does to the search.
The empty set is taken up by the search alone, since its moves are set when the dead state is created.

In the end nothing waits, and all moves are those of the sets.  The main result is
`Enfa.determinizeStepwise_alike`.
-/
import RegexAutomata.Enfa.Worklist
import RegexAutomata.Proofs.Dfa.Draft
import RegexAutomata.Proofs.Enfa.Powerset

namespace RegexAutomata
namespace Enfa

variable {n : Enfa} {known : Numbering StateSet} {sets : List StateSet} {S T : StateSet}
  {c : Construction} {done : Nat → Nat → Prop} {i s t x a : Nat}

/-! ### Registered sets -/

/-- The sets from a place on that are not empty, each with its place. -/
def entriesFrom (i : Nat) (sets : List StateSet) : List (StateSet × Nat) :=
  (sets.zipIdx.drop i).filter fun entry => !entry.1.isEmpty

lemma mem_entriesFrom_zero : (S, x) ∈ entriesFrom 0 sets ↔ sets[x]? = some S ∧ S ≠ ∅ := by
  rw [entriesFrom, List.drop_zero, List.mem_filter, List.mem_zipIdx_iff_getElem?, Bool.not_eq_true',
    ← Bool.not_eq_true, StateSet.isEmpty_iff]

/-- A set that is added at the end is the last entry, unless it is empty. -/
lemma entriesFrom_append (hi : i ≤ sets.length) (S : StateSet) : entriesFrom i (sets ++ [S]) =
    entriesFrom i sets ++ if S.isEmpty then [] else [(S, sets.length)] := by
  rw [entriesFrom, List.zipIdx_append, List.drop_append_of_le_length (by rwa [List.length_zipIdx]),
    List.filter_append]
  cases hS : S.isEmpty <;> simp [entriesFrom, hS]

lemma entriesFrom_of_getElem? (hS : sets[i]? = some S) : entriesFrom i sets =
    (if S.isEmpty then [] else [(S, i)]) ++ entriesFrom (i + 1) sets := by
  obtain ⟨hi, rfl⟩ := List.getElem?_eq_some_iff.mp hS
  rw [entriesFrom, List.drop_eq_getElem_cons (by rwa [List.length_zipIdx]), List.filter_cons]
  cases hS : sets[i].isEmpty <;> simp [entriesFrom, hS]

lemma entriesFrom_of_length_le (hi : sets.length ≤ i) : entriesFrom i sets = [] := by
  rw [entriesFrom, List.drop_eq_nil_of_le (by rwa [List.length_zipIdx]), List.filter_nil]

/-- A new set is the last entry, unless it is empty. -/
lemma entriesFrom_insert (hT : T ∉ known.toList) (hi : i ≤ known.size) :
    entriesFrom i (known.insert T).toList =
      entriesFrom i known.toList ++ if T.isEmpty then [] else [(T, known.size)] := by
  have hi' : i ≤ known.toList.length := hi
  rw [Numbering.toList_insert, if_neg hT, entriesFrom_append hi', Numbering.length_toList]

/-- The last set of all is the new one. -/
lemma exists_value?_insert_iff (hT : T ∉ known.toList) {p : StateSet → Prop} :
    (∃ S, (known.insert T).value? x = some S ∧ p S) ↔
      (∃ S, known.value? x = some S ∧ p S) ∨ x = known.size ∧ p T := by
  simp only [Numbering.value?_insert_eq_some_iff hT, or_and_right, exists_or, and_assoc, exists_and_left,
    exists_eq_left']

/-- Looking up a set that is not empty finds its number. -/
lemma Construction.state?_eq (hc : c.registry = entriesFrom 0 known.toList) (hS : S ≠ ∅) :
    c.state? S = known.number? S := by
  ext t
  rw [Numbering.number?_eq_some_iff, state?, hc, Option.map_eq_some_iff]
  constructor
  · rintro ⟨⟨U, t⟩, hfind, rfl⟩
    obtain rfl : U = S := by simpa using List.find?_some hfind
    rw [← Numbering.getElem?_toList]
    exact (mem_entriesFrom_zero.mp (List.mem_of_find?_eq_some hfind)).1
  · intro ht
    have hmem : (S, t) ∈ entriesFrom 0 known.toList :=
      mem_entriesFrom_zero.mpr ⟨by rwa [Numbering.getElem?_toList], hS⟩
    have hsome : ((entriesFrom 0 known.toList).find? (·.1 = S)).isSome = true :=
      List.find?_isSome.mpr ⟨(S, t), hmem, by simp⟩
    obtain ⟨⟨U, t'⟩, hfind⟩ := Option.isSome_iff_exists.mp hsome
    obtain rfl : U = S := by simpa using List.find?_some hfind
    have ht' := (mem_entriesFrom_zero.mp (List.mem_of_find?_eq_some hfind)).1
    rw [Numbering.getElem?_toList] at ht'
    exact ⟨(U, t'), hfind, Numbering.eq_of_value? ht' ht⟩

/-! ### States -/

/-- The states are those of the known sets, and the sets from number `i` on wait. -/
structure Construction.HasStates (n : Enfa) (i : Nat) (known : Numbering StateSet) (c : Construction) :
    Prop where
  numStates_eq : c.result.numStates = known.size
  start?_eq : c.result.start? = some 0
  mem_finals_iff : ∀ x, x ∈ c.result.finals ↔
    ∃ S, known.value? x = some S ∧ S.intersects n.finals = true
  dead?_eq : c.result.dead? = known.number? ∅
  alphabet_eq : c.result.alphabet = n.alphabet
  mapping?_eq : c.result.mapping? = none
  labels_eq : c.result.labels = Array.range known.size
  registry_eq : c.registry = entriesFrom 0 known.toList
  waiting_eq : c.waiting = entriesFrom i known.toList
  le_size : i ≤ known.size

namespace Construction.HasStates

lemma deadState_eq (h : c.HasStates n i known) : c.result.deadState = known.numberOf ∅ := by
  rw [Dfa.deadState, h.dead?_eq, h.numStates_eq, Numbering.numberOf]

lemma dead?_eq_none (h : c.HasStates n i known) (hmem : ∅ ∉ known.toList) : c.result.dead? = none :=
  h.dead?_eq.trans (Option.not_isSome_iff_eq_none.mp fun hsome => hmem (Numbering.isSome_number?.mp hsome))

/-- The first set is taken from those that wait. -/
lemma advance (h : c.HasStates n i known) (hi : i < known.size) :
    ({ c with waiting := entriesFrom (i + 1) known.toList } : Construction).HasStates n (i + 1) known :=
  { h with
    waiting_eq := rfl
    le_size := hi }

/-- The state of the empty set is the dead state, and it is not registered. -/
lemma ensureDead (h : c.HasStates n i known) (hmem : ∅ ∉ known.toList) :
    ({ c with result := c.result.ensureDead } : Construction).HasStates n i (known.insert ∅) := by
  have hdead := h.dead?_eq_none hmem
  have hframe := Dfa.SameFrame.ensureDead c.result
  have hsize := Numbering.size_insert_of_not_mem hmem
  have hentries : ∀ {j}, j ≤ known.size →
      entriesFrom j known.toList = entriesFrom j (known.insert ∅).toList := fun hj => by
    rw [entriesFrom_insert hmem hj, if_pos (StateSet.isEmpty_iff.mpr rfl), List.append_nil]
  exact {
    numStates_eq := by
      rw [hsize, ← h.numStates_eq, Dfa.ensureDead, hdead]
      rfl
    start?_eq := hframe.start?_eq.trans h.start?_eq
    mem_finals_iff := fun x => by
      rw [hframe.finals_eq, h.mem_finals_iff, exists_value?_insert_iff hmem]
      exact (or_iff_left fun hx => absurd hx.2 (by simp)).symm
    dead?_eq := by
      rw [Dfa.dead?_ensureDead, Dfa.deadState, hdead, Option.getD_none, h.numStates_eq,
        Numbering.number?_eq_some_iff.mpr (Numbering.value?_insert_size hmem)]
    alphabet_eq := hframe.alphabet_eq.trans h.alphabet_eq
    mapping?_eq := hframe.mapping?_eq.trans h.mapping?_eq
    labels_eq := by
      rw [hsize, Dfa.ensureDead, hdead, Array.range_succ, ← h.labels_eq, ← h.numStates_eq]
      rfl
    registry_eq := h.registry_eq.trans (hentries (Nat.zero_le _))
    waiting_eq := h.waiting_eq.trans (hentries h.le_size)
    le_size := hsize ▸ Nat.le_succ_of_le h.le_size }

/-- Whether a new state is final changes nothing but the final states. -/
lemma exists_result_register (c : Construction) (finals T : StateSet) :
    ∃ F, (c.register finals T).result = { c.result.addState with finals := F } ∧
      ∀ x, x ∈ F ↔ x ∈ c.result.finals ∨ x = c.result.numStates ∧ T.intersects finals = true := by
  rw [Construction.register]
  split
  · rename_i hfinal
    exact ⟨_, rfl, fun x => by simp [Dfa.addState, hfinal, or_comm]⟩
  · rename_i hfinal
    exact ⟨_, rfl, fun x => by simp [hfinal]⟩

/-- The state of a set that is not empty is registered. -/
lemma register (h : c.HasStates n i known) (hT : T ∉ known.toList) (hne : T ≠ ∅) :
    (c.register n.finals T).HasStates n i (known.insert T) := by
  obtain ⟨F, hresult, hF⟩ := exists_result_register c n.finals T
  have hsize := Numbering.size_insert_of_not_mem hT
  have hentries : ∀ {j}, j ≤ known.size → entriesFrom j (known.insert T).toList =
      entriesFrom j known.toList ++ [(T, c.result.numStates)] := fun hj => by
    rw [entriesFrom_insert hT hj, if_neg (mt StateSet.isEmpty_iff.mp hne), h.numStates_eq]
  exact {
    numStates_eq := by
      rw [hresult, hsize, ← h.numStates_eq]
      rfl
    start?_eq := hresult ▸ h.start?_eq
    mem_finals_iff := fun x => by
      rw [hresult, exists_value?_insert_iff hT, ← h.mem_finals_iff, ← h.numStates_eq]
      exact hF x
    dead?_eq := by
      rw [hresult]
      refine h.dead?_eq.trans (Option.ext fun k => ?_)
      rw [Numbering.number?_eq_some_iff, Numbering.number?_eq_some_iff,
        Numbering.value?_insert_eq_some_iff hT]
      exact (or_iff_left fun hk => hne hk.2).symm
    alphabet_eq := hresult ▸ h.alphabet_eq
    mapping?_eq := hresult ▸ h.mapping?_eq
    labels_eq := by
      rw [hresult, hsize, Array.range_succ, ← h.labels_eq, ← h.numStates_eq]
      rfl
    registry_eq := by
      rw [hentries (Nat.zero_le _), ← h.registry_eq]
      rfl
    waiting_eq := by
      rw [hentries h.le_size, ← h.waiting_eq]
      rfl
    le_size := hsize ▸ Nat.le_succ_of_le h.le_size }

end Construction.HasStates

/-! ### Moves -/

/-- Of the moves of the known sets those have been set that are `done`, and all moves of the empty set. -/
structure HasMoves (n : Enfa) (known : Numbering StateSet) (done : Nat → Nat → Prop) (d : Dfa) : Prop where
  lt_of_done : ∀ x, ∀ a ∈ n.alphabet.ids, done x a → x < known.size
  step_of_done : ∀ x S, known.value? x = some S → ∀ a ∈ n.alphabet.ids, done x a ∨ S = ∅ →
    ∃ t, d.step x a = some t ∧ known.value? t = some (n.move S (.symbol a))
  done_of_step : ∀ x a t, d.step x a = some t → a ∈ n.alphabet.ids ∧
    ∃ S, known.value? x = some S ∧ (done x a ∨ S = ∅)

namespace HasMoves

variable {d d' : Dfa}

/-- What is done only matters for the moves of known sets that are not empty. -/
lemma congr {done' : Nat → Nat → Prop} (h : n.HasMoves known done d)
    (hdone : ∀ x S, known.value? x = some S → ∀ a ∈ n.alphabet.ids, done' x a ∨ S = ∅ ↔ done x a ∨ S = ∅)
    (hlt : ∀ x, ∀ a ∈ n.alphabet.ids, done' x a → x < known.size) : n.HasMoves known done' d where
  lt_of_done := hlt
  step_of_done := fun x S hS a ha hdone' => h.step_of_done x S hS a ha ((hdone x S hS a ha).mp hdone')
  done_of_step := by
    intro x a t hstep
    obtain ⟨ha, S, hS, hdone'⟩ := h.done_of_step x a t hstep
    exact ⟨ha, S, hS, (hdone x S hS a ha).mpr hdone'⟩

/-- A move is set to a set that is known. -/
lemma addTransition (h : n.HasMoves known done d) (hS : known.value? s = some S) (ha : a ∈ n.alphabet.ids)
    (ht : known.value? t = some (n.move S (.symbol a))) :
    n.HasMoves known (fun x b => done x b ∨ x = s ∧ b = a) (d.addTransition s a t) where
  lt_of_done := by
    rintro x b hb (hdone | ⟨rfl, -⟩)
    · exact h.lt_of_done x b hb hdone
    · exact Numbering.lt_size_of_value? hS
  step_of_done := by
    intro x U hU b hb hdone
    rw [Dfa.step_addTransition]
    split
    · rename_i hset
      rw [hset.1, hS, Option.some.injEq] at hU
      exact ⟨t, rfl, by rw [← hU, hset.2, ht]⟩
    · rename_i hset
      exact h.step_of_done x U hU b hb (hdone.imp_left (·.resolve_right hset))
  done_of_step := by
    intro x b y hy
    rw [Dfa.step_addTransition] at hy
    split at hy
    · rename_i hset
      exact ⟨hset.2 ▸ ha, S, hset.1 ▸ hS, Or.inl (Or.inr hset)⟩
    · obtain ⟨hb, U, hU, hdone⟩ := h.done_of_step x b y hy
      exact ⟨hb, U, hU, hdone.imp_left Or.inl⟩

/-- A new set that is not empty has no moves yet. -/
lemma insert (h : n.HasMoves known done d) (hT : T ∉ known.toList) (hne : T ≠ ∅) (hstep : d'.step = d.step) :
    n.HasMoves (known.insert T) done d' where
  lt_of_done := fun x a ha hdone =>
    Numbering.size_insert_of_not_mem hT ▸ Nat.lt_succ_of_lt (h.lt_of_done x a ha hdone)
  step_of_done := by
    intro x S hS a ha hdone
    rw [hstep]
    rcases (Numbering.value?_insert_eq_some_iff hT).mp hS with hold | ⟨rfl, rfl⟩
    · obtain ⟨t, hstep, ht⟩ := h.step_of_done x S hold a ha hdone
      exact ⟨t, hstep, Numbering.value?_insert ht⟩
    · exact absurd (h.lt_of_done _ a ha (hdone.resolve_right hne)) (Nat.lt_irrefl _)
  done_of_step := by
    intro x a t ht
    obtain ⟨ha, S, hS, hdone⟩ := h.done_of_step x a t (hstep ▸ ht)
    exact ⟨ha, S, Numbering.value?_insert hS, hdone⟩

/-- The empty set comes with all of its moves. -/
lemma ensureDead (h : n.HasMoves known done d) (hn : n.WellFormed) (hmem : ∅ ∉ known.toList)
    (hdead : d.dead? = none) (hnum : d.numStates = known.size) (halphabet : d.alphabet = n.alphabet) :
    n.HasMoves (known.insert ∅) done d.ensureDead where
  lt_of_done := fun x a ha hdone =>
    Numbering.size_insert_of_not_mem hmem ▸ Nat.lt_succ_of_lt (h.lt_of_done x a ha hdone)
  step_of_done := by
    intro x S hS a ha hdone
    rw [Dfa.step_ensureDead hdead, hnum, halphabet]
    rcases (Numbering.value?_insert_eq_some_iff hmem).mp hS with hold | ⟨rfl, rfl⟩
    · obtain ⟨t, hstep, ht⟩ := h.step_of_done x S hold a ha hdone
      have hne : ¬(x = known.size ∧ a ∈ n.alphabet.ids) := fun hx =>
        Nat.ne_of_lt (Numbering.lt_size_of_value? hold) hx.1
      exact ⟨t, by rw [if_neg hne, hstep], Numbering.value?_insert ht⟩
    · exact ⟨known.size, if_pos ⟨rfl, ha⟩, by rw [hn.move_empty, Numbering.value?_insert_size hmem]⟩
  done_of_step := by
    intro x a t hstep
    rw [Dfa.step_ensureDead hdead, hnum, halphabet] at hstep
    split at hstep
    · rename_i hnew
      exact ⟨hnew.2, ∅, hnew.1 ▸ Numbering.value?_insert_size hmem, Or.inr rfl⟩
    · obtain ⟨ha, S, hS, hdone⟩ := h.done_of_step x a t hstep
      exact ⟨ha, S, Numbering.value?_insert hS, hdone⟩

end HasMoves

/-! ### Taking up a set -/

namespace Construction

/-- What has been built reflects the known sets, with those moves that are `done`. -/
structure Reflects (n : Enfa) (i : Nat) (known : Numbering StateSet) (done : Nat → Nat → Prop)
    (c : Construction) : Prop where
  states : c.HasStates n i known
  moves : n.HasMoves known done c.result

namespace Reflects

lemma addTransition (h : c.Reflects n i known done) (hS : known.value? s = some S)
    (ha : a ∈ n.alphabet.ids) (ht : known.value? t = some (n.move S (.symbol a))) :
    ({ c with result := c.result.addTransition s a t } : Construction).Reflects n i known
      fun x b => done x b ∨ x = s ∧ b = a :=
  ⟨{ h.states with }, h.moves.addTransition hS ha ht⟩

/-- The dead state is there as soon as the empty set is known. -/
lemma ensureDead (h : c.Reflects n i known done) (hn : n.WellFormed) :
    ({ c with result := c.result.ensureDead } : Construction).Reflects n i (known.insert ∅) done := by
  by_cases hmem : ∅ ∈ known.toList
  · obtain ⟨k, hk⟩ := Option.isSome_iff_exists.mp (Numbering.isSome_number?.mpr hmem)
    rwa [Numbering.insert_eq_self hmem, Dfa.ensureDead_eq_self (h.states.dead?_eq.trans hk)]
  · exact ⟨h.states.ensureDead hmem, h.moves.ensureDead hn hmem (h.states.dead?_eq_none hmem)
      h.states.numStates_eq h.states.alphabet_eq⟩

lemma register (h : c.Reflects n i known done) (hT : T ∉ known.toList) (hne : T ≠ ∅) :
    (c.register n.finals T).Reflects n i (known.insert T) done := by
  obtain ⟨F, hresult, -⟩ := HasStates.exists_result_register c n.finals T
  exact ⟨h.states.register hT hne, h.moves.insert hT hne (hresult ▸ rfl)⟩

/-- Connecting a state on a symbol makes the image known. -/
lemma follow (h : c.Reflects n i known done) (hn : n.WellFormed) (hS : known.value? s = some S)
    (ha : a ∈ n.alphabet.ids) :
    (n.follow S s c a).Reflects n i (known.insert (n.move S (.symbol a)))
      fun x b => done x b ∨ x = s ∧ b = a := by
  have hU : (known.insert (n.move S (.symbol a))).value? s = some S := Numbering.value?_insert hS
  rw [Enfa.follow]
  by_cases hempty : n.move S (.symbol a) = ∅
  · -- the move leads to the dead state
    rw [if_pos (StateSet.isEmpty_iff.mpr hempty)]
    rw [hempty] at hU ⊢
    have hdead := h.ensureDead hn
    have hnumber := hdead.states.dead?_eq.symm.trans (Dfa.dead?_ensureDead c.result)
    refine hdead.addTransition hU ha ?_
    rw [hempty, Numbering.number?_eq_some_iff.mp hnumber]
  · rw [if_neg (mt StateSet.isEmpty_iff.mp hempty), state?_eq h.states.registry_eq hempty]
    cases ht : known.number? (n.move S (.symbol a)) with
    | some t =>
      rw [Numbering.number?_eq_some_iff] at ht
      have hmem := Numbering.mem_toList_iff.mpr ⟨t, ht⟩
      rw [Numbering.insert_eq_self hmem]
      exact h.addTransition hS ha ht
    | none =>
      have hnew : n.move S (.symbol a) ∉ known.toList := fun hmem => by
        rw [← Numbering.isSome_number?, ht] at hmem
        exact absurd hmem (by simp)
      refine (h.register hnew hempty).addTransition hU ha ?_
      rw [h.states.numStates_eq, Numbering.value?_insert_size hnew]

/-- Connecting a state on all symbols makes all images known. -/
lemma foldl_follow (h : c.Reflects n i known done) (hn : n.WellFormed) (hS : known.value? s = some S)
    {ids : List Nat} (hids : ∀ a ∈ ids, a ∈ n.alphabet.ids) :
    (ids.foldl (n.follow S s) c).Reflects n i
      ((ids.map fun a => n.move S (.symbol a)).foldl .insert known)
      fun x b => done x b ∨ x = s ∧ b ∈ ids := by
  induction ids generalizing c known done with
  | nil => simpa using h
  | cons a ids ih =>
    obtain ⟨ha, hids⟩ := List.forall_mem_cons.mp hids
    have hnext := ih (h.follow hn hS ha) (Numbering.value?_insert hS) hids
    have hdone : (fun x b => done x b ∨ x = s ∧ b ∈ a :: ids) =
        fun x b => (done x b ∨ x = s ∧ b = a) ∨ x = s ∧ b ∈ ids := by
      funext x b
      rw [List.mem_cons, and_or_left, or_assoc]
    rw [hdone]
    exact hnext

/-- The first set is taken from those that wait. -/
lemma advance (h : c.Reflects n i known done) (hi : i < known.size) :
    ({ c with waiting := entriesFrom (i + 1) known.toList } : Construction).Reflects n (i + 1) known done :=
  ⟨h.states.advance hi, h.moves⟩

/-- A set that is taken up is no longer waiting. -/
lemma takeUp (h : c.Reflects n i known fun x _ => x < i) (hn : n.WellFormed)
    (hS : known.value? i = some S) (hne : S ≠ ∅) :
    (n.takeUp c).Reflects n (i + 1) ((n.images S).foldl .insert known) fun x _ => x < i + 1 := by
  have hi := Numbering.lt_size_of_value? hS
  have hwaiting : c.waiting = (S, i) :: entriesFrom (i + 1) known.toList := by
    rw [h.states.waiting_eq, entriesFrom_of_getElem? (by rwa [Numbering.getElem?_toList]),
      if_neg (mt StateSet.isEmpty_iff.mp hne)]
    rfl
  have hfold := (h.advance hi).foldl_follow hn hS fun a ha => ha
  have htaken : n.takeUp c = n.alphabet.ids.foldl (n.follow S i)
      { c with waiting := entriesFrom (i + 1) known.toList } := by
    rw [Enfa.takeUp, hwaiting]
  rw [htaken]
  refine ⟨hfold.states, hfold.moves.congr (fun x T _ a ha => or_congr_left ?_) fun x a ha hx => ?_⟩
  · rw [and_iff_left ha, ← Nat.lt_succ_iff_lt_or_eq]
  · exact hfold.moves.lt_of_done x a ha (Nat.lt_succ_iff_lt_or_eq.mp hx |>.imp_right (⟨·, ha⟩))

lemma foldl_insert_images_empty (hn : n.WellFormed) (hS : known.value? i = some ∅) :
    (n.images ∅).foldl .insert known = known := by
  have hmem : ∅ ∈ known.toList := Numbering.mem_toList_iff.mpr ⟨i, hS⟩
  rw [images]
  induction n.alphabet.ids with
  | nil => rfl
  | cons a ids ih => rwa [List.map_cons, List.foldl_cons, hn.move_empty, Numbering.insert_eq_self hmem]

/-- The empty set does not wait, so there is nothing to do. -/
lemma skip (h : c.Reflects n i known fun x _ => x < i) (hn : n.WellFormed)
    (hS : known.value? i = some ∅) :
    c.Reflects n (i + 1) ((n.images ∅).foldl .insert known) fun x _ => x < i + 1 := by
  have hi := Numbering.lt_size_of_value? hS
  have hwaiting : c.waiting = entriesFrom (i + 1) known.toList := by
    rw [h.states.waiting_eq, entriesFrom_of_getElem? (by rwa [Numbering.getElem?_toList]),
      if_pos (StateSet.isEmpty_iff.mpr rfl), List.nil_append]
  have hadvanced := h.states.advance hi
  rw [← hwaiting] at hadvanced
  rw [foldl_insert_images_empty hn hS]
  refine ⟨hadvanced, h.moves.congr (fun x T hT a ha => ?_) fun x a _ hx => by omega⟩
  constructor
  · rintro (hx | hempty)
    · rcases Nat.lt_succ_iff_lt_or_eq.mp hx with hx | rfl
      · exact Or.inl hx
      · exact Or.inr (Option.some.inj (hT.symm.trans hS))
    · exact Or.inr hempty
  · exact Or.imp_left Nat.lt_succ_of_lt

end Reflects

end Construction

/-! ### The construction as a whole -/

open Construction (Reflects)

/-- In the beginning only the closure of the start state is known. -/
lemma reflects_construction (hn : n.WellFormed) :
    (n.construction s).Reflects n 0 (.ofList [n.closure (StateSet.singleton s)]) fun x _ => x < 0 := by
  have hconstruction : n.construction s = Construction.register
      ⟨(Dfa.ofAlphabet n.alphabet).setStart 0, [], []⟩ n.finals (n.closure (StateSet.singleton s)) := by
    rw [construction, Construction.register, Construction.register]
    split <;> rfl
  have hne : n.closure (StateSet.singleton s) ≠ ∅ := fun hempty => by
    have hmem : s ∈ n.closure (StateSet.singleton s) :=
      hn.mem_closure.mpr ⟨s, StateSet.mem_singleton.mpr rfl, .refl s⟩
    rw [hempty] at hmem
    exact absurd hmem StateSet.not_mem_empty
  have hvalue : ∀ x, (Numbering.empty : Numbering StateSet).value? x = none := fun x => rfl
  have hstates : Construction.HasStates n 0 .empty ⟨(Dfa.ofAlphabet n.alphabet).setStart 0, [], []⟩ := by
    refine ⟨rfl, rfl, fun x => ?_, ?_, rfl, rfl, rfl, rfl, rfl, Nat.le_refl 0⟩
    · simp [hvalue, Dfa.setStart, Dfa.ofAlphabet]
    · refine (Option.eq_none_iff_forall_ne_some.mpr fun k hk => ?_).symm
      exact absurd (Numbering.number?_eq_some_iff.mp hk) (by simp [hvalue])
  have hmoves : n.HasMoves .empty (fun x _ => x < 0) ((Dfa.ofAlphabet n.alphabet).setStart 0) := by
    have hstep : ∀ x a, ((Dfa.ofAlphabet n.alphabet).setStart 0).step x a = none :=
      fun x a => Table.get?_empty
    exact ⟨fun x _ _ hx => absurd hx (Nat.not_lt_zero x), fun x S hS => absurd hS (by simp [hvalue]),
      fun x a t ht => absurd ht (by simp [hstep])⟩
  rw [hconstruction]
  exact Construction.Reflects.register ⟨hstates, hmoves⟩ List.not_mem_nil hne

/-- The construction takes as many steps as sets are taken up, or less. -/
lemma exists_reflects_subsets (hn : n.WellFormed) (hs : s < n.numStates) :
    ∃ k ≤ 2 ^ n.numStates, ∃ i, (n.subsets s).size ≤ i ∧
      (n.constructionAfter s k).Reflects n i (n.subsets s) fun x _ => x < i := by
  obtain ⟨i, ⟨k, hk, hreflects⟩, hend⟩ := explore_induction
    (motive := fun i known => ∃ k ≤ i, (n.constructionAfter s k).Reflects n i known fun x _ => x < i)
    (fun i known S h hS => by
      obtain ⟨k, hk, h⟩ := h
      by_cases hempty : S = ∅
      · subst hempty
        exact ⟨k, Nat.le_succ_of_le hk, h.skip hn hS⟩
      · exact ⟨k + 1, Nat.succ_le_succ hk, h.takeUp hn hS hempty⟩)
    ⟨0, Nat.le_refl 0, reflects_construction hn⟩ (Nat.pow 2 n.numStates)
  have hsize : (n.subsets s).size ≤ 2 ^ n.numStates := (exploring_subsets hn hs).size_le
  have hle : i ≤ (n.subsets s).size := hreflects.states.le_size
  refine ⟨k, by omega, i, ?_, hreflects⟩
  rcases hend with rfl | hend
  · rw [Nat.zero_add]
    exact hsize
  · exact hend

/-- When nothing waits, nothing changes any more. -/
lemma constructionAfter_eq {k m : Nat} (h : (n.constructionAfter s k).waiting = []) (hkm : k ≤ m) :
    n.constructionAfter s m = n.constructionAfter s k := by
  induction hkm with
  | refl => rfl
  | step _ ih => rw [constructionAfter, ih, takeUp, h]

lemma foldl_set_append {entries : List (StateSet × Nat)} {rest : List StateSet}
    (h : ∀ entry ∈ entries, entry.2 < sets.length) :
    entries.foldl (fun sets entry => sets.set entry.2 entry.1) (sets ++ rest) =
      entries.foldl (fun sets entry => sets.set entry.2 entry.1) sets ++ rest := by
  induction entries generalizing sets with
  | nil => rfl
  | cons entry entries ih =>
    obtain ⟨hlt, h⟩ := List.forall_mem_cons.mp h
    rw [List.foldl_cons, List.foldl_cons, List.set_append_left _ _ hlt, ih (by simpa using h)]

/-- Putting the entries at their places leaves the empty set at the others. -/
lemma foldl_set_entriesFrom (sets : List StateSet) :
    (entriesFrom 0 sets).foldl (fun sets entry => sets.set entry.2 entry.1)
      (List.replicate sets.length ∅) = sets := by
  induction sets using List.reverseRecOn with
  | nil => rfl
  | append_singleton sets S ih =>
    have hlt : ∀ entry ∈ entriesFrom 0 sets, entry.2 < (List.replicate sets.length (∅ : StateSet)).length := by
      rintro ⟨T, x⟩ hmem
      rw [List.length_replicate]
      exact (List.getElem?_eq_some_iff.mp (mem_entriesFrom_zero.mp hmem).1).1
    rw [entriesFrom_append (Nat.zero_le _), List.foldl_append, List.length_append, List.length_singleton,
      List.replicate_succ', foldl_set_append hlt, ih]
    split
    · rename_i hempty
      rw [List.foldl_nil, StateSet.isEmpty_iff.mp hempty]
    · rw [List.foldl_cons, List.foldl_nil, List.set_append_right _ _ (Nat.le_refl _), Nat.sub_self]
      rfl

lemma WellFormed.explore_cacheClosures (hn : n.WellFormed) (steps : Nat) :
    n.cacheClosures.explore steps i known = n.explore steps i known := by
  induction steps generalizing i known with
  | zero => rfl
  | succ steps ih =>
    have himages : n.cacheClosures.images = n.images := by
      funext S
      rw [images, images, hn.move_cacheClosures, alphabet_cacheClosures]
    simp only [explore, himages, ih]

/-- Determinizing begins with keeping all closures, which changes neither the sets nor their moves. -/
lemma WellFormed.determinize_eq_ofSubsets_subsets (hn : n.WellFormed) (hs : n.start? = some s) :
    n.determinize = n.ofSubsets (n.subsets s) := by
  have hsubsets : n.cacheClosures.subsets s = n.subsets s := by
    rw [subsets, subsets, hn.explore_cacheClosures, hn.closure_cacheClosures, numStates_cacheClosures]
  rw [Enfa.determinize_eq_ofSubsets hs, hsubsets, ofSubsets, ofSubsets, hn.move_cacheClosures,
    finals_cacheClosures, alphabet_cacheClosures]

/-- A construction in which all moves are done is alike to the automaton of the sets. -/
lemma Construction.Reflects.alike (h : c.Reflects n i known fun x _ => x < i) (hi : known.size ≤ i) :
    (c.result.setMapping c.mapping).Alike (n.ofSubsets known) where
  numStates_eq := h.states.numStates_eq
  start?_eq := h.states.start?_eq
  finals_eq := by
    ext x
    refine (h.states.mem_finals_iff x).trans ⟨?_, fun hx => ?_⟩
    · rintro ⟨S, hS, hfinal⟩
      exact (mem_finals_ofSubsets hS).mpr (StateSet.intersects_iff.mp hfinal)
    · obtain ⟨S, hS⟩ := Numbering.exists_value? (lt_of_mem_finals_ofSubsets hx)
      exact ⟨S, hS, StateSet.intersects_iff.mpr ((mem_finals_ofSubsets hS).mp hx)⟩
  dead?_eq := h.states.dead?_eq
  alphabet_eq := h.states.alphabet_eq
  step_eq := by
    funext x a
    by_cases hx : x < known.size ∧ a ∈ n.alphabet.ids
    · obtain ⟨S, hS⟩ := Numbering.exists_value? hx.1
      obtain ⟨t, hstep, ht⟩ := h.moves.step_of_done x S hS a hx.2 (Or.inl (Nat.lt_of_lt_of_le hx.1 hi))
      rw [step_ofSubsets hS hx.2, Numbering.numberOf_eq ht]
      exact hstep
    · -- there are no other moves
      have hnone : (n.ofSubsets known).step x a = none := by
        rw [Dfa.step, ofSubsets, Table.get?_tabulate, if_neg (by rwa [List.mem_range])]
      rw [hnone]
      refine Option.eq_none_iff_forall_ne_some.mpr fun t ht => hx ?_
      obtain ⟨ha, S, hS, -⟩ := h.moves.done_of_step x a t ht
      exact ⟨Numbering.lt_size_of_value? hS, ha⟩
  mapping?_eq := by
    have hmapping : c.mapping = known.toList := by
      rw [Construction.mapping, h.states.registry_eq, h.states.numStates_eq]
      exact foldl_set_entriesFrom known.toList
    exact congrArg some hmapping
  labels_eq := h.states.labels_eq

/-- The worklist makes the same automaton as the search, but for the layout of its table. -/
lemma determinizeStepwise_alike (hn : n.WellFormed) : n.determinizeStepwise.Alike n.determinize := by
  cases hs : n.start? with
  | none =>
    rw [determinizeStepwise, hs, determinize_eq_ofAlphabet hs]
    exact .refl _
  | some s =>
    have hlt := hn.start_lt s hs
    obtain ⟨k, hk, i, hi, hreflects⟩ := exists_reflects_subsets hn hlt
    have hwaiting : (n.constructionAfter s k).waiting = [] := by
      rw [hreflects.states.waiting_eq]
      exact entriesFrom_of_length_le hi
    have hend : n.constructionAfter s (Nat.pow 2 n.numStates) = n.constructionAfter s k :=
      constructionAfter_eq hwaiting hk
    rw [determinizeStepwise, hs, hn.determinize_eq_ofSubsets_subsets hs]
    simp only [hend]
    exact hreflects.alike hi

end Enfa
end RegexAutomata
