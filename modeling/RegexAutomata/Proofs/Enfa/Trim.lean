/-
# A final state can always be reached

In the automaton of an expression the exit can be reached from every state
(`Expr.leads_exit`), so every state is coaccessible (`Enfa.coaccessible_ofPostfix`).  Determinizing such an
automaton gives a trim one (`Enfa.WellFormed.trim_determinize`): a set of states from which nothing is
accepted has no members, so it is the dead state.
-/
import Mathlib.Logic.Relation
import RegexAutomata.Proofs.Dfa.Distinction
import RegexAutomata.Proofs.Enfa.Powerset
import RegexAutomata.Proofs.Enfa.Thompson

namespace RegexAutomata

open Relation

/-! ### Arcs -/

/-- Some arc leads from one state to the other. -/
def Arc.Joins (arcs : List Arc) (s t : Nat) : Prop := ∃ b ∈ arcs, b.source = s ∧ b.target = t

/-- More arcs lead to more states. -/
lemma Arc.leads_mono {arcs arcs' : List Arc} {s t : Nat} (hsub : arcs ⊆ arcs')
    (h : ReflTransGen (Joins arcs) s t) : ReflTransGen (Joins arcs') s t := by
  refine ReflTransGen.mono ?_ _ _ h
  rintro x y ⟨b, hb, hends⟩
  exact ⟨b, hsub hb, hends⟩

namespace Expr

variable {e f : Expr} {k s : Nat} {arcs : List Arc}

/-- The way from an operand to its exit can be continued by an arc from there. -/
lemma leads_of_operand (hexit : ∀ s, e.Covers k s → ReflTransGen (Arc.Joins (e.arcs k)) s
      (e.fragment k).exit) (hsub : e.arcs k ⊆ arcs) {d : Nat}
    (hout : ⟨(e.fragment k).exit, none, d⟩ ∈ arcs) (hs : e.Covers k s) :
    ReflTransGen (Arc.Joins arcs) s d :=
  (Arc.leads_mono hsub (hexit s hs)).tail ⟨_, hout, rfl, rfl⟩

/-- From every state of an expression arcs lead to its exit. -/
lemma leads_exit (e : Expr) {k s : Nat} (hs : e.Covers k s) :
    ReflTransGen (Arc.Joins (e.arcs k)) s (e.fragment k).exit := by
  induction e generalizing k s with
  | symbol a =>
    rcases covers_symbol_iff.mp hs with rfl | rfl
    · exact .single ⟨_, List.mem_singleton_self _, rfl, rfl⟩
    · exact .refl
  | concat e f he hf =>
    have hright : ∀ s, f.Covers (k + e.width) s →
        ReflTransGen (Arc.Joins ((concat e f).arcs k)) s ((concat e f).fragment k).exit := fun s hs =>
      Arc.leads_mono (fun b hb => by simp [arcs, hb]) (hf hs)
    rcases covers_concat_iff.mp hs with hs | hs
    · have hjoint : ReflTransGen (Arc.Joins ((concat e f).arcs k)) s (f.fragment (k + e.width)).entry :=
        leads_of_operand (fun _ => he) (fun b hb => by simp [arcs, hb]) (by simp [arcs]) hs
      exact hjoint.trans (hright _ (f.covers_entry _))
    · exact hright s hs
  | alternate e f he hf =>
    have hleft : ∀ s, e.Covers k s → ReflTransGen (Arc.Joins ((alternate e f).arcs k)) s
        (k + e.width + f.width + 1) := fun s hs =>
      leads_of_operand (fun _ => he) (fun b hb => by simp [arcs, hb]) (by simp [arcs]) hs
    rcases covers_alternate_iff.mp hs with hs | hs | rfl | rfl
    · exact hleft s hs
    · exact leads_of_operand (fun _ => hf) (fun b hb => by simp [arcs, hb])
        (by simp [arcs, fragment]) hs
    · exact .head ⟨⟨_, none, (e.fragment k).entry⟩, by simp [arcs], rfl, rfl⟩
        (hleft _ (e.covers_entry k))
    · exact .refl
  | star e he =>
    rcases covers_star_iff.mp hs with hs | rfl | rfl
    · exact leads_of_operand (fun _ => he) (fun b hb => by simp [arcs, hb]) (by simp [arcs, fragment])
        hs
    · exact .single ⟨⟨_, none, k + e.width + 1⟩, by simp [arcs], rfl, rfl⟩
    · exact .refl
  | plus e he =>
    have hinner : ∀ s, e.Covers k s → ReflTransGen (Arc.Joins ((plus e).arcs k)) s
        (k + e.width + 1) := fun s hs =>
      leads_of_operand (fun _ => he) (fun b hb => by simp [arcs, hb]) (by simp [arcs]) hs
    rcases covers_plus_iff.mp hs with hs | rfl | rfl
    · exact hinner s hs
    · exact .head ⟨⟨_, none, (e.fragment k).entry⟩, by simp [arcs], rfl, rfl⟩
        (hinner _ (e.covers_entry k))
    · exact .refl

end Expr

/-! ### Moves -/

namespace Enfa

variable {n : Enfa} {S : StateSet}

/-- Some move, with a symbol or without, leads from one state to the other. -/
def Moves (n : Enfa) (s t : Nat) : Prop := ∃ l, n.Edge s l t

/-- From every state moves lead to a final state. -/
def Coaccessible (n : Enfa) : Prop :=
  ∀ s < n.numStates, ∃ t ∈ n.finals, ReflTransGen n.Moves s t

lemma numStates_ofPostfix (p : Postfix) : (ofPostfix p).numStates = p.expr.width := by
  obtain ⟨n, hn, h⟩ := exists_ofPostfix_eq p
  have hentry := (p.expr.covers_entry 0).2
  have hexit := (p.expr.covers_exit 0).2
  have hempty : n.numStates = 0 + p.expr.width := hn.numStates_eq
  rw [h, numStates_addFinal, numStates_setStart]
  omega

lemma HasArc.moves {b : Arc} (h : n.HasArc b) : n.Moves b.source b.target := by
  obtain ⟨s, _ | a, t⟩ := b
  · exact ⟨.epsilon, h⟩
  · obtain ⟨id, -, hedge⟩ := h
    exact ⟨.symbol id, hedge⟩

lemma moves_of_leads {arcs : List Arc} (harcs : ∀ b, n.HasArc b ↔ b ∈ arcs) {s t : Nat}
    (h : ReflTransGen (Arc.Joins arcs) s t) : ReflTransGen n.Moves s t := by
  refine ReflTransGen.mono ?_ _ _ h
  rintro x y ⟨b, hb, rfl, rfl⟩
  exact ((harcs b).mpr hb).moves

lemma coaccessible_ofPostfix (p : Postfix) : (ofPostfix p).Coaccessible := by
  intro s hs
  rw [numStates_ofPostfix] at hs
  have hcovers : p.expr.Covers 0 s := ⟨Nat.zero_le s, by omega⟩
  exact ⟨_, mem_finals_ofPostfix_iff.mpr rfl,
    moves_of_leads hasArc_ofPostfix_iff (p.expr.leads_exit hcovers)⟩

lemma Coaccessible.cacheClosures (h : n.Coaccessible) : n.cacheClosures.Coaccessible := by
  intro s hs
  rw [numStates_cacheClosures] at hs
  obtain ⟨t, ht, hmoves⟩ := h s hs
  refine ⟨t, by rwa [finals_cacheClosures], ReflTransGen.mono ?_ _ _ hmoves⟩
  rintro x y ⟨l, hedge⟩
  exact ⟨l, edge_cacheClosures.mpr hedge⟩

/-! ### Words -/

/-- The set holds what its members reach by epsilon moves. -/
def Closed (n : Enfa) (S : StateSet) : Prop := ∀ x ∈ S, ∀ y, n.epsilon.Reaches x y → y ∈ S

lemma WellFormed.closed_move (h : n.WellFormed) (l : Label) : n.Closed (n.move S l) := by
  intro x hx y hxy
  obtain ⟨s, hs, m, hedge, hreach⟩ := h.mem_move.mp hx
  exact h.mem_move.mpr ⟨s, hs, m, hedge, hreach.trans hxy⟩

lemma WellFormed.closed_closure (h : n.WellFormed) : n.Closed (n.closure S) := by
  intro x hx y hxy
  obtain ⟨s, hs, hreach⟩ := h.mem_closure.mp hx
  exact h.mem_closure.mpr ⟨s, hs, hreach.trans hxy⟩

lemma WellFormed.closed_sweep (h : n.WellFormed) (hS : n.Closed S) (u : List Nat) :
    n.Closed (n.sweep S u) := by
  induction u generalizing S with
  | nil => exact hS
  | cons a u ih => exact ih (h.closed_move _)

/-- What is reached by moves from a member of a closed set is reached from the set by a word. -/
lemma WellFormed.exists_sweep (h : n.WellFormed) (hS : n.Closed S) {x t : Nat} (hx : x ∈ S)
    (hmoves : ReflTransGen n.Moves x t) :
    ∃ u, (∀ a ∈ u, a ∈ n.alphabet.ids) ∧ t ∈ n.sweep S u := by
  induction hmoves using ReflTransGen.head_induction_on generalizing S with
  | refl => exact ⟨[], by simp, hx⟩
  | @head x m hmove _ ih =>
    obtain ⟨l, hedge⟩ := hmove
    cases l with
    | epsilon => exact ih hS (hS x hx m (.tail (.refl x) hedge))
    | symbol a =>
      have hm : m ∈ n.move S (.symbol a) := h.mem_move.mpr ⟨x, hx, m, hedge, .refl m⟩
      obtain ⟨u, hu, ht⟩ := ih (h.closed_move _) hm
      have ha : a ∈ n.alphabet.ids := Alphabet.mem_ids.mpr (h.symbol_lt x a m hedge)
      exact ⟨a :: u, List.forall_mem_cons.mpr ⟨ha, hu⟩, ht⟩

/-! ### Determinization -/

lemma trim_ofSubsets (h : n.WellFormed) (hn : n.Coaccessible) {s : Nat} (hs : s < n.numStates) :
    (n.ofSubsets (n.subsets s)).Trim := by
  intro i hi
  obtain ⟨⟨w, hw, hrun⟩, hlive⟩ := Dfa.mem_live.mp hi
  obtain ⟨j, hrun', hj⟩ := run_ofSubsets h hs hw
  obtain rfl : i = j := Option.some.inj (hrun.symm.trans hrun')
  -- the set is not empty, or it would be the dead state
  have hne : ∃ x, x ∈ n.sweep (n.closure (StateSet.singleton s)) w := by
    by_contra hno
    push Not at hno
    have hempty : n.sweep (n.closure (StateSet.singleton s)) w = ∅ := by
      ext x
      simpa using hno x
    rw [hempty] at hj
    exact hlive (Numbering.number?_eq_some_iff.mpr hj)
  obtain ⟨x, hx⟩ := hne
  have hlt : x < n.numStates :=
    (exploring_subsets h hs).lt_numStates _ (Numbering.mem_toList_iff.mpr ⟨i, hj⟩) x hx
  obtain ⟨t, ht, hmoves⟩ := hn x hlt
  obtain ⟨u, hu, htu⟩ := h.exists_sweep (h.closed_sweep h.closed_closure w) hx hmoves
  refine ⟨u, hu, ?_⟩
  rw [← Dfa.acceptsWord_append_iff hrun,
    acceptsWord_ofSubsets_iff h hs (List.forall_mem_append.mpr ⟨hw, hu⟩), sweep_append]
  exact ⟨t, htu, ht⟩

/-- The deterministic automaton of a coaccessible automaton is trim. -/
lemma WellFormed.trim_determinize (h : n.WellFormed) (hn : n.Coaccessible) : n.determinize.Trim := by
  cases hs : n.start? with
  | none =>
    rw [determinize_eq_ofAlphabet hs]
    intro i hi
    obtain ⟨⟨w, -, hrun⟩, -⟩ := Dfa.mem_live.mp hi
    exact absurd hrun (by simp [Dfa.run, Dfa.ofAlphabet])
  | some s =>
    rw [determinize_eq_ofSubsets hs]
    have hwf := h.cacheClosures
    exact trim_ofSubsets hwf hn.cacheClosures
      (hwf.start_lt s (by rw [start?_cacheClosures, hs]))

end Enfa
end RegexAutomata
