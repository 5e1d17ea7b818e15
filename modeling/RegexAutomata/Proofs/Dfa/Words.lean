/-
# Acceptance of strings and of words

A deterministic automaton reads a word of symbol ids along one run, and a string along all runs of
the words that spell it.  Reading a string leaves the dead state out of every set, so what it follows
are the paths that never come to the dead state (`Dfa.accepts_iff_livePath`).

Nothing is lost if a run that has come to the dead state stays there and is not accepted
(`Dfa.DeadAbsorbs`).  Then a string is accepted exactly if one of the runs of the words that spell it
ends in a final state (`Dfa.DeadAbsorbs.accepts_iff_exists_run`).
-/
import RegexAutomata.Dfa.Run
import RegexAutomata.Proofs.Paths
import RegexAutomata.Proofs.Spelling

namespace RegexAutomata
namespace Dfa

/-- The run of a word ends in a final state. -/
def AcceptsWord (d : Dfa) (u : List Nat) : Prop := ∃ s, d.run u = some s ∧ s ∈ d.finals

/-- The dead state, if there is one, is not final, and no move on a symbol of the alphabet leads from
it to another state. -/
structure DeadAbsorbs (d : Dfa) : Prop where
  not_mem_finals : ∀ s, d.dead? = some s → s ∉ d.finals
  step_eq : ∀ s, d.dead? = some s → ∀ a ∈ d.alphabet.ids, ∀ t, d.step s a = some t → t = s

instance (d : Dfa) : Decidable d.DeadAbsorbs :=
  decidable_of_iff ((∀ s ∈ d.dead?, s ∉ d.finals) ∧
      ∀ s ∈ d.dead?, ∀ a ∈ d.alphabet.ids, ∀ t ∈ d.step s a, t = s)
    ⟨fun h => ⟨h.1, h.2⟩, fun h => ⟨h.not_mem_finals, h.step_eq⟩⟩

variable {d : Dfa}

/-! ### Paths that avoid the dead state -/

/-- A move to another state than the dead state. -/
def LiveMove (d : Dfa) (s a t : Nat) : Prop := d.step s a = some t ∧ d.dead? ≠ some t

/-- Reading a string follows the live paths of the words that spell it. -/
lemma mem_foldl_read_iff {S : StateSet} {w : List Char} {t : Nat} :
    t ∈ w.foldl d.read S ↔ ∃ s ∈ S, ∃ u, d.alphabet.Spells u w ∧ LabelPath d.LiveMove s u t := by
  induction w generalizing S with
  | nil => simp
  | cons x w ih =>
    rw [List.foldl_cons, ih]
    constructor
    · rintro ⟨m, hm, u, hu, path⟩
      obtain ⟨⟨s, hs, a, ha, hstep⟩, hlive⟩ := mem_read.mp hm
      exact ⟨s, hs, a :: u, Alphabet.spells_cons_right.mpr ⟨a, u, ha, hu, rfl⟩,
        .cons ⟨hstep, hlive⟩ path⟩
    · rintro ⟨s, hs, u, hu, path⟩
      obtain ⟨a, v, ha, hv, rfl⟩ := Alphabet.spells_cons_right.mp hu
      obtain ⟨m, ⟨hstep, hlive⟩, path⟩ := LabelPath.cons_iff.mp path
      exact ⟨m, mem_read.mpr ⟨⟨s, hs, a, ha, hstep⟩, hlive⟩, v, hv, path⟩

/-- A string is accepted exactly if a live path of a word that spells it leads to a final state. -/
lemma accepts_iff_livePath {w : List Char} :
    d.accepts w = true ↔ ∃ s t u, d.start? = some s ∧ t ∈ d.finals ∧ d.alphabet.Spells u w ∧
      LabelPath d.LiveMove s u t := by
  rw [accepts]
  cases d.start? with
  | none => simp
  | some s =>
    simp only [StateSet.intersects_iff, mem_foldl_read_iff, StateSet.mem_singleton, exists_eq_left,
      Option.some.injEq]
    constructor
    · rintro ⟨t, ⟨u, hu, path⟩, ht⟩
      exact ⟨s, t, u, rfl, ht, hu, path⟩
    · rintro ⟨_, t, u, rfl, ht, hu, path⟩
      exact ⟨t, ⟨u, hu, path⟩, ht⟩

/-- Once no state is left, the rest of the string does not matter: it is not accepted. -/
theorem accepts_append_of_stuck {s : Nat} {u : List Char} (hs : d.start? = some s)
    (hu : u.foldl d.read (StateSet.singleton s) = ∅) (v : List Char) : d.accepts (u ++ v) = false := by
  rw [Bool.eq_false_iff, ne_eq, accepts, hs]
  simp only [List.foldl_append, hu, StateSet.intersects_iff, mem_foldl_read_iff]
  rintro ⟨t, ⟨s, hs, -⟩, -⟩
  exact StateSet.not_mem_empty hs

/-! ### Runs -/

/-- A live path is a run. -/
lemma walk_of_livePath {s t : Nat} {u : List Nat} (h : LabelPath d.LiveMove s u t) :
    d.walk s u = some t := by
  induction h with
  | refl s => rfl
  | cons first _ ih => rw [walk_cons, first.1, Option.bind_some, ih]

/-- A run that begins in the dead state stays there. -/
lemma DeadAbsorbs.walk_eq (h : d.DeadAbsorbs) {s t : Nat} {u : List Nat}
    (hs : d.dead? = some s) (hu : ∀ a ∈ u, a ∈ d.alphabet.ids) (hw : d.walk s u = some t) :
    t = s := by
  induction u with
  | nil => exact (Option.some.inj hw).symm
  | cons a u ih =>
    rw [walk_cons] at hw
    obtain ⟨m, hm, hw'⟩ := Option.bind_eq_some_iff.mp hw
    have hms : m = s := h.step_eq s hs a (hu a (by simp)) m hm
    rw [hms] at hw'
    exact ih (fun b hb => hu b (List.mem_cons_of_mem a hb)) hw'

/-- A run that does not end in the dead state is a live path. -/
lemma DeadAbsorbs.livePath_of_walk (h : d.DeadAbsorbs) {s t : Nat} {u : List Nat}
    (hu : ∀ a ∈ u, a ∈ d.alphabet.ids) (hw : d.walk s u = some t) (ht : d.dead? ≠ some t) :
    LabelPath d.LiveMove s u t := by
  induction u generalizing s with
  | nil => exact LabelPath.nil_iff.mpr (Option.some.inj hw)
  | cons a u ih =>
    rw [walk_cons] at hw
    obtain ⟨m, hm, hw⟩ := Option.bind_eq_some_iff.mp hw
    have hu' : ∀ b ∈ u, b ∈ d.alphabet.ids := fun b hb => hu b (List.mem_cons_of_mem a hb)
    -- from the dead state the run would end there
    have hmd : d.dead? ≠ some m := fun hd => ht (h.walk_eq hd hu' hw ▸ hd)
    exact .cons ⟨hm, hmd⟩ (ih hu' hw)

/-- A string is accepted exactly if some word that spells it is. -/
lemma DeadAbsorbs.accepts_iff (h : d.DeadAbsorbs) {w : List Char} :
    d.accepts w = true ↔ ∃ u, d.alphabet.Spells u w ∧ d.AcceptsWord u := by
  rw [accepts_iff_livePath]
  constructor
  · rintro ⟨s, t, u, hs, ht, hu, path⟩
    refine ⟨u, hu, t, ?_, ht⟩
    rw [run, hs, Option.bind_some, walk_of_livePath path]
  · rintro ⟨u, hu, t, hrun, ht⟩
    obtain ⟨s, hs, hw⟩ := Option.bind_eq_some_iff.mp hrun
    have hlive : d.dead? ≠ some t := fun hd => h.not_mem_finals t hd ht
    exact ⟨s, t, u, hs, ht, hu, h.livePath_of_walk hu.mem_ids hw hlive⟩

/-- A string is accepted exactly if there is a word of symbol ids of the same length, each of which
matches the character at its place, whose run ends in a final state. -/
theorem DeadAbsorbs.accepts_iff_exists_run (h : d.DeadAbsorbs) (w : List Char) :
    d.accepts w = true ↔ ∃ u : List Nat, u.length = w.length ∧
      (∀ i (hu : i < u.length) (hw : i < w.length), u[i] ∈ d.alphabet.matching w[i]) ∧
      ∃ s, d.run u = some s ∧ s ∈ d.finals := by
  simp only [h.accepts_iff, Alphabet.Spells, List.forall₂_iff_get, List.get_eq_getElem, and_assoc,
    AcceptsWord]

/-- An automaton with a dead state, missing moves, a final state that does not exist and two symbols
that match `b`: of the words that spell `bc` only one leads to a final state. -/
theorem DeadAbsorbs.accepts_iff_exists_run_of_overlap :
    ∃ d : Dfa, d.DeadAbsorbs ∧ d.dead? = some 2 ∧ d.run [0] = some 9 ∧ d.numStates = 3 ∧
      d.run [0, 0] = none ∧ d.run [1, 0] = some 2 ∧
      (∃ u : List Nat, u.length = 2 ∧
        (∀ i (hu : i < u.length) (hw : i < 2), u[i] ∈ d.alphabet.matching ['b', 'c'][i]) ∧
        ∃ s, d.run u = some s ∧ s ∈ d.finals) ∧
      ¬∃ u : List Nat, u.length = 2 ∧
        (∀ i (hu : i < u.length) (hw : i < 2), u[i] ∈ d.alphabet.matching ['c', 'c'][i]) ∧
        ∃ s, d.run u = some s ∧ s ∈ d.finals := by
  refine ⟨ofAlphabet ((Alphabet.empty.insert (.literal 'b')).insert (.range 'a' 'c'))
    |>.addState |>.addState |>.ensureDead |>.addTransition 0 0 9 |>.addTransition 9 1 1
    |>.addTransition 0 1 2 |>.setStart 0 |>.addFinal 1 |>.addFinal 9, ?_⟩
  generalize hd : addFinal _ 9 = d
  have hdead : d.DeadAbsorbs := by rw [← hd]; decide +kernel
  refine ⟨hdead, ?_, ?_, ?_, ?_, ?_, (DeadAbsorbs.accepts_iff_exists_run hdead ['b', 'c']).mp ?_, ?_⟩
  · rw [← hd]; rfl
  · rw [← hd]; decide +kernel
  · rw [← hd]; rfl
  · rw [← hd]; decide +kernel
  · rw [← hd]; decide +kernel
  · rw [← hd]; decide +kernel
  · refine (not_congr (DeadAbsorbs.accepts_iff_exists_run hdead ['c', 'c'])).mp ?_
    rw [← hd]; decide +kernel

end Dfa
end RegexAutomata
