/-
# States that no word tells apart

A run is *lost* if it gets stuck or enters the dead state.  Two states are *indistinguishable* if each word
is lost from both or from neither of them, and leads to states that agree on being final if it is not lost.

Refinement ends with the classes of the indistinguishable live states.  Members of one class are
indistinguishable, by induction on the word, because their moves lead to the same classes
(`Dfa.Stable.agree`).  Conversely no round divides indistinguishable states, by induction on the rounds: a
class that holds a state holds all states that are indistinguishable from it (`Dfa.gathers_refinement`).
So minimization joins exactly the indistinguishable states
(`Dfa.minimize_joins_indistinguishable`).
-/
import RegexAutomata.Proofs.Dfa.Minimization

namespace RegexAutomata
namespace Dfa

/-- The run of a word from a state gets stuck or enters the dead state. -/
def Lost (d : Dfa) (s : Nat) (u : List Nat) : Prop :=
  d.walk s u = none ∨ ∃ v, v <+: u ∧ ∃ t, d.dead? = some t ∧ d.walk s v = some t

/-- The run of a word is lost from both or from neither of two states, and if it is not lost, then the two
states in which it ends agree on being final. -/
def Agree (d : Dfa) (u : List Nat) (p q : Nat) : Prop :=
  (d.Lost p u ↔ d.Lost q u) ∧
    (¬d.Lost p u → ∃ s t, d.walk p u = some s ∧ d.walk q u = some t ∧ (s ∈ d.finals ↔ t ∈ d.finals))

/-- No word of symbol ids tells two states apart. -/
def Indistinguishable (d : Dfa) (p q : Nat) : Prop :=
  ∀ u, (∀ a ∈ u, a ∈ d.alphabet.ids) → d.Agree u p q

variable {d : Dfa} {p q s a : Nat} {u : List Nat}

/-! ### Lost runs -/

lemma lost_of_dead (hs : d.dead? = some s) : d.Lost s u :=
  Or.inr ⟨[], List.nil_prefix, s, hs, rfl⟩

@[simp] lemma lost_nil_iff : d.Lost s [] ↔ d.dead? = some s := by
  constructor
  · rintro (hstuck | ⟨v, hv, t, ht, hwalk⟩)
    · exact absurd hstuck (by simp)
    · obtain rfl := List.prefix_nil.mp hv
      rw [Option.some.inj hwalk, ht]
  · exact lost_of_dead

/-- A run that begins in a state other than the dead one is lost if the first move is missing or the rest
of the run is lost. -/
lemma lost_cons_iff (hs : d.dead? ≠ some s) :
    d.Lost s (a :: u) ↔ ∀ t, d.step s a = some t → d.Lost t u := by
  cases hstep : d.step s a with
  | none => simp [Lost, hstep]
  | some m =>
    simp only [Option.some.injEq, forall_eq']
    constructor
    · rintro (hstuck | ⟨v, hv, t, ht, hwalk⟩)
      · rw [walk_cons, hstep, Option.bind_some] at hstuck
        exact Or.inl hstuck
      · cases v with
        | nil => exact absurd (Option.some.inj hwalk ▸ ht) hs
        | cons b v =>
          obtain ⟨rfl, hvu⟩ := List.cons_prefix_cons.mp hv
          rw [walk_cons, hstep, Option.bind_some] at hwalk
          exact Or.inr ⟨v, hvu, t, ht, hwalk⟩
    · rintro (hstuck | ⟨v, hv, t, ht, hwalk⟩)
      · exact Or.inl (by rw [walk_cons, hstep, Option.bind_some, hstuck])
      · refine Or.inr ⟨a :: v, List.cons_prefix_cons.mpr ⟨rfl, hv⟩, t, ht, ?_⟩
        rw [walk_cons, hstep, Option.bind_some, hwalk]

/-- A run that begins in a live state and is not lost ends in a live state. -/
lemma exists_live_of_not_lost (hp : p ∈ d.live) (hu : ∀ a ∈ u, a ∈ d.alphabet.ids)
    (h : ¬d.Lost p u) : ∃ s ∈ d.live, d.walk p u = some s := by
  cases hwalk : d.walk p u with
  | none => exact absurd (Or.inl hwalk) h
  | some s =>
    have hdead : d.dead? ≠ some s := fun hdead => h (Or.inr ⟨u, List.prefix_rfl, s, hdead, hwalk⟩)
    exact ⟨s, mem_live_of_walk hp hu hwalk hdead, rfl⟩

/-! ### Agreement on a word -/

lemma Agree.symm (h : d.Agree u p q) : d.Agree u q p := by
  refine ⟨h.1.symm, ?_⟩
  intro hq
  obtain ⟨s, t, hs, ht, hfinal⟩ := h.2 (mt h.1.mp hq)
  exact ⟨t, s, ht, hs, hfinal.symm⟩

lemma Indistinguishable.symm (h : d.Indistinguishable p q) : d.Indistinguishable q p :=
  fun u hu => (h u hu).symm

lemma agree_nil_iff (hp : p ∈ d.live) (hq : q ∈ d.live) :
    d.Agree [] p q ↔ (p ∈ d.finals ↔ q ∈ d.finals) := by
  simp [Agree, (mem_live.mp hp).2, (mem_live.mp hq).2]

/-- Live states agree on a word exactly if the states to which the first symbol leads agree on the rest. -/
lemma agree_cons_iff (hp : p ∈ d.live) (hq : q ∈ d.live) {p' q' : Nat}
    (hp' : d.step p a = some p') (hq' : d.step q a = some q') :
    d.Agree (a :: u) p q ↔ d.Agree u p' q' := by
  simp [Agree, lost_cons_iff (mem_live.mp hp).2, lost_cons_iff (mem_live.mp hq).2, hp', hq']

/-! ### Members of one class -/

variable {P : List StateSet}

/-- If the move of a live state on a symbol leads to no class, then each run that begins with the symbol is
lost. -/
lemma lost_cons_of_none (h : Divides P d.live) (hp : p ∈ d.live) (ha : a ∈ d.alphabet.ids)
    (hnone : (d.step p a).bind ((classIndex P)[·]?) = none) : d.Lost p (a :: u) := by
  rw [lost_cons_iff (mem_live.mp hp).2]
  intro p' hstep
  rw [hstep, Option.bind_some, getElem?_classIndex_eq_none h] at hnone
  refine lost_of_dead ?_
  by_contra hdead
  have hwalk : d.walk p [a] = some p' := by rw [walk_cons, hstep, Option.bind_some, walk_nil]
  exact hnone (mem_live_of_walk hp (List.forall_mem_singleton.mpr ha) hwalk hdead)

/-- Members of one of the stable classes agree on every word. -/
lemma Stable.agree (h : d.Stable P d.live) {C : StateSet} (hC : C ∈ P) (hp : p ∈ C) (hq : q ∈ C)
    (hu : ∀ a ∈ u, a ∈ d.alphabet.ids) : d.Agree u p q := by
  induction u generalizing C p q with
  | nil =>
    rw [agree_nil_iff (h.divides.mem_of_mem hC hp) (h.divides.mem_of_mem hC hq)]
    exact h.final_iff C hC p hp q hq
  | cons a u ih =>
    obtain ⟨ha, hu⟩ := List.forall_mem_cons.mp hu
    have hlivep : p ∈ d.live := h.divides.mem_of_mem hC hp
    have hliveq : q ∈ d.live := h.divides.mem_of_mem hC hq
    have hmove : (d.step p a).bind ((classIndex P)[·]?) = (d.step q a).bind ((classIndex P)[·]?) :=
      List.map_inj_left.mp (h.signature_eq C hC p hp q hq) a ha
    cases hi : (d.step p a).bind ((classIndex P)[·]?) with
    | none =>
      have hlostp : d.Lost p (a :: u) := lost_cons_of_none h.divides hlivep ha hi
      have hlostq : d.Lost q (a :: u) := lost_cons_of_none h.divides hliveq ha (hmove ▸ hi)
      exact ⟨iff_of_true hlostp hlostq, fun hnot => absurd hlostp hnot⟩
    | some i =>
      obtain ⟨p', hp', hindexp⟩ := Option.bind_eq_some_iff.mp hi
      obtain ⟨q', hq', hindexq⟩ := Option.bind_eq_some_iff.mp (hmove ▸ hi)
      obtain ⟨D, hD, hmemp⟩ := (getElem?_classIndex h.divides.disjoint).mp hindexp
      obtain ⟨D', hD', hmemq⟩ := (getElem?_classIndex h.divides.disjoint).mp hindexq
      obtain rfl : D = D' := Option.some.inj (hD.symm.trans hD')
      rw [agree_cons_iff hlivep hliveq hp' hq']
      exact ih (List.mem_of_getElem? hD) hmemp hmemq hu

/-! ### Indistinguishable states stay together -/

/-- A class that holds a state holds all live states that are indistinguishable from it. -/
def Gathers (d : Dfa) (P : List StateSet) : Prop :=
  ∀ C ∈ P, ∀ p ∈ C, ∀ q ∈ d.live, d.Indistinguishable p q → q ∈ C

lemma gathers_initialClasses : d.Gathers d.initialClasses := by
  intro C hC p hp q hq hpq
  have hlive : p ∈ d.live := divides_initialClasses.mem_of_mem hC hp
  have hfinal : p ∈ d.finals ↔ q ∈ d.finals := (agree_nil_iff hlive hq).mp (hpq [] (by simp))
  simp only [initialClasses, List.mem_filter, List.mem_cons, List.not_mem_nil, or_false] at hC
  rcases hC.1 with rfl | rfl
  · exact StateSet.mem_diff.mpr ⟨hq, mt hfinal.mpr (StateSet.mem_diff.mp hp).2⟩
  · exact StateSet.mem_inter.mpr ⟨hq, hfinal.mp (StateSet.mem_inter.mp hp).2⟩

/-- If a move of a state leads to a class, then the move of an indistinguishable state leads there too. -/
lemma Gathers.bind_classIndex (hP : d.Gathers P) (h : Divides P d.live) (hp : p ∈ d.live)
    (hq : q ∈ d.live) (hpq : d.Indistinguishable p q) (ha : a ∈ d.alphabet.ids) {i : Nat}
    (hi : (d.step p a).bind ((classIndex P)[·]?) = some i) :
    (d.step q a).bind ((classIndex P)[·]?) = some i := by
  obtain ⟨p', hp', hindex⟩ := Option.bind_eq_some_iff.mp hi
  obtain ⟨C, hC, hmem⟩ := (getElem?_classIndex h.disjoint).mp hindex
  have hlive' : p' ∈ d.live := h.mem_of_mem (List.mem_of_getElem? hC) hmem
  -- the symbol alone is not lost from the one state, so it is not from the other
  have ha' : ∀ b ∈ [a], b ∈ d.alphabet.ids := List.forall_mem_singleton.mpr ha
  have hlost : ¬d.Lost p [a] := by
    simpa [lost_cons_iff (mem_live.mp hp).2, hp'] using (mem_live.mp hlive').2
  obtain ⟨q', hq', hwalk⟩ := exists_live_of_not_lost hq ha' (mt (hpq [a] ha').1.mpr hlost)
  have hstep : d.step q a = some q' := by simpa using hwalk
  have hpq' : d.Indistinguishable p' q' := by
    intro u hu
    rw [← agree_cons_iff hp hq hp' hstep]
    exact hpq (a :: u) (List.forall_mem_cons.mpr ⟨ha, hu⟩)
  have hmem' : q' ∈ C := hP C (List.mem_of_getElem? hC) p' hmem q' hq' hpq'
  rw [hstep, Option.bind_some]
  exact (getElem?_classIndex h.disjoint).mpr ⟨C, hC, hmem'⟩

/-- One round. -/
lemma Gathers.refine (hP : d.Gathers P) (h : Divides P d.live) : d.Gathers (d.refine P) := by
  intro C hC p hp q hq hpq
  have hlive : p ∈ d.live := (divides_refine h).mem_of_mem hC hp
  obtain ⟨D, hD, s, -, hmem⟩ := mem_refine.mp hC
  obtain ⟨hpD, hsignature⟩ := (hmem p).mp hp
  refine (hmem q).mpr ⟨hP D hD p hpD q hq hpq, ?_⟩
  rw [← hsignature]
  refine List.map_inj_left.mpr fun a ha => Option.ext fun i => ?_
  exact ⟨hP.bind_classIndex h hq hlive hpq.symm ha, hP.bind_classIndex h hlive hq hpq ha⟩

/-- Refinement ends with classes that gather the indistinguishable states. -/
lemma gathers_refinement : d.Gathers d.refinement.2 :=
  refinement_induction gathers_initialClasses fun _ h hP => hP.refine h

/-! ### The states of the minimized automaton -/

/-- The state of the minimized automaton that represents a state: the number of its class in the end. -/
def representing? (d : Dfa) (s : Nat) : Option Nat := (classIndex d.refinement.2)[s]?

lemma representing?_eq_some_iff {i : Nat} :
    d.representing? s = some i ↔ ∃ C, d.refinement.2[i]? = some C ∧ s ∈ C :=
  getElem?_classIndex (stable_refinement d).divides.disjoint

lemma exists_representing (hs : s ∈ d.live) : ∃ i, d.representing? s = some i := by
  obtain ⟨C, hC, hmem⟩ := ((stable_refinement d).divides.mem_iff s).mp hs
  obtain ⟨i, hi⟩ := List.mem_iff_getElem?.mp hC
  exact ⟨i, representing?_eq_some_iff.mpr ⟨C, hi, hmem⟩⟩

lemma representing?_eq_iff (hp : p ∈ d.live) (hq : q ∈ d.live) :
    d.representing? p = d.representing? q ↔ d.Indistinguishable p q := by
  obtain ⟨i, hi⟩ := exists_representing hp
  obtain ⟨C, hC, hpC⟩ := representing?_eq_some_iff.mp hi
  constructor
  · intro heq
    obtain ⟨D, hD, hqD⟩ := representing?_eq_some_iff.mp (heq ▸ hi)
    obtain rfl : C = D := Option.some.inj (hC.symm.trans hD)
    exact fun u hu => (stable_refinement d).agree (List.mem_of_getElem? hC) hpC hqD hu
  · intro hpq
    have hqC : q ∈ C := gathers_refinement C (List.mem_of_getElem? hC) p hpC q hq hpq
    rw [hi, representing?_eq_some_iff.mpr ⟨C, hC, hqC⟩]

/-- The states of the minimized automaton but the dead one are the numbers of the classes. -/
lemma WellFormed.lt_numStates_minimize_iff (h : d.WellFormed) {i : Nat} :
    i < d.minimize.numStates ∧ d.minimize.dead? ≠ some i ↔ i < d.refinement.2.length := by
  by_cases hd : d.numStates = 0 ∨ d.start? = none
  · rw [minimize_eq_ofAlphabet hd]
    -- there is no run, so no state is live
    have hclasses : d.refinement.2 = [] := by
      refine List.eq_nil_iff_forall_not_mem.mpr fun C hC => ?_
      obtain ⟨x, hx⟩ := (stable_refinement d).divides.exists_mem C hC
      obtain ⟨⟨u, -, hrun⟩, -⟩ :=
        mem_live.mp ((stable_refinement d).divides.mem_of_mem hC hx)
      exact absurd ((h.run_eq_none hd u).symm.trans hrun) (by simp)
    simp [hclasses, ofAlphabet]
  · rw [minimize_eq_quotient hd, lt_numStates_quotient]
    constructor
    · rintro ⟨hlt | ⟨rfl, hdead⟩, hne⟩
      · exact hlt
      · exact absurd hdead hne
    · intro hlt
      exact ⟨Or.inl hlt, fun hdead => Nat.ne_of_lt hlt (eq_of_dead?_quotient hdead)⟩

/-- The words that lead to a state lead to the state that represents it in the minimized automaton. -/
lemma WellFormed.run_minimize_of_representing (h : d.WellFormed) {i : Nat}
    (hi : d.representing? s = some i) (hu : ∀ a ∈ u, a ∈ d.alphabet.ids) (hrun : d.run u = some s) :
    d.minimize.run u = some i := by
  have hd : ¬(d.numStates = 0 ∨ d.start? = none) :=
    fun hd => absurd ((h.run_eq_none hd u).symm.trans hrun) (by simp)
  obtain ⟨C, hC, hs⟩ := representing?_eq_some_iff.mp hi
  rw [minimize_eq_quotient hd, (run_quotient (stable_refinement d) h.toDeadAbsorbs hu).1, hrun,
    classOf_of_mem (stable_refinement d).divides hC hs]

/-- Minimization succeeds and joins exactly the indistinguishable states.  Every live state is represented
by a state of the minimized automaton other than its dead state, namely by the one to which the words that
lead to the live state lead there; two live states are represented by one state if and only if no word tells
them apart; and every state of the minimized automaton but the dead one represents some live state. -/
theorem minimize_joins_indistinguishable (h : d.WellFormed) :
    d.minimize? = some d.minimize ∧
      (∀ p ∈ d.live, ∃ i < d.minimize.numStates, d.minimize.dead? ≠ some i ∧ d.representing? p = some i ∧
        ∀ u, (∀ a ∈ u, a ∈ d.alphabet.ids) → d.run u = some p → d.minimize.run u = some i) ∧
      (∀ p ∈ d.live, ∀ q ∈ d.live,
        d.representing? p = d.representing? q ↔ d.Indistinguishable p q) ∧
      ∀ i < d.minimize.numStates, d.minimize.dead? ≠ some i →
        ∃ p ∈ d.live, d.representing? p = some i := by
  refine ⟨h.minimize?_eq, ?_, fun p hp q hq => representing?_eq_iff hp hq, ?_⟩
  · intro p hp
    obtain ⟨i, hi⟩ := exists_representing hp
    have hlt : i < d.refinement.2.length :=
      lt_length_of_classIndex (stable_refinement d).divides.disjoint hi
    obtain ⟨hlt, hdead⟩ := h.lt_numStates_minimize_iff.mpr hlt
    exact ⟨i, hlt, hdead, hi, fun u hu hrun => h.run_minimize_of_representing hi hu hrun⟩
  · intro i hlt hdead
    have hi := List.getElem?_eq_getElem (h.lt_numStates_minimize_iff.mp ⟨hlt, hdead⟩)
    obtain ⟨x, hx⟩ := (stable_refinement d).divides.exists_mem _ (List.mem_of_getElem? hi)
    refine ⟨x, ?_, representing?_eq_some_iff.mpr ⟨_, hi, hx⟩⟩
    exact (stable_refinement d).divides.mem_of_mem (List.mem_of_getElem? hi) hx

/-- A move of the state 2 is missing where the state 3 moves to the dead state, and the two are joined.
From the states 5 and 6 nothing is accepted, but 5 moves to itself and 6 gets stuck, so they are not. -/
theorem minimize_joins_indistinguishable_of_trap :
    ∃ d : Dfa, d.WellFormed ∧ d.dead? = some 0 ∧ d.step 2 1 = none ∧ d.step 3 1 = some 0 ∧
      d.step 5 0 = some 5 ∧ d.step 6 0 = none ∧ d.minimize.numStates = 6 ∧
      d.Indistinguishable 2 3 ∧ ¬d.Indistinguishable 5 6 := by
  refine ⟨ofAlphabet ((Alphabet.empty.insert (.literal 'a')).insert (.literal 'b'))
    |>.ensureDead |>.addState |>.addState |>.addState |>.addState |>.addState |>.addState
    |>.addTransition 1 0 2 |>.addTransition 1 1 3 |>.addTransition 2 0 4 |>.addTransition 3 0 4
    |>.addTransition 3 1 0 |>.addTransition 4 0 5 |>.addTransition 4 1 6 |>.addTransition 5 0 5
    |>.addTransition 5 1 5 |>.setStart 1 |>.addFinal 4, ?_⟩
  generalize hd : addFinal _ 4 = d
  have hwf : d.WellFormed := by rw [← hd]; decide +kernel
  have hlive : 2 ∈ d.live ∧ 3 ∈ d.live ∧ 5 ∈ d.live ∧ 6 ∈ d.live := by rw [← hd]; decide +kernel
  obtain ⟨hlive₂, hlive₃, hlive₅, hlive₆⟩ := hlive
  have hsame : d.representing? 2 = d.representing? 3 := by rw [← hd]; decide +kernel
  have hother : d.representing? 5 ≠ d.representing? 6 := by rw [← hd]; decide +kernel
  obtain ⟨-, -, hjoins, -⟩ := minimize_joins_indistinguishable hwf
  refine ⟨hwf, ?_, ?_, ?_, ?_, ?_, ?_, (hjoins 2 hlive₂ 3 hlive₃).mp hsame,
    mt (hjoins 5 hlive₅ 6 hlive₆).mpr hother⟩
  all_goals
    rw [← hd]
    decide +kernel

end Dfa
end RegexAutomata
