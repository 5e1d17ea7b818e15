/-
# Acceptance and paths of arcs

A string is accepted exactly if a path of arcs leads from the start state to a final state whose symbols,
epsilon arcs left out, admit the characters of the string one by one
(`Enfa.Built.accepts_iff_exists_path`).  `Enfa.Reads` says so of a path and a string at once; here the
path is a list of labels of its own, which may be much longer than the string.
-/
import Mathlib.Data.List.ReduceOption
import RegexAutomata.Proofs.Enfa.Acceptance
import RegexAutomata.Proofs.Enfa.Arcs
import RegexAutomata.Proofs.Paths

namespace RegexAutomata

/-- Symbols admit the characters of a string, one after the other. -/
def SymbolsAdmit (symbols : List Symbol) (w : List Char) : Prop :=
  List.Forall₂ (fun a x => a.admits x = true) symbols w

namespace Enfa

variable {n : Enfa}

/-- The arcs of an automaton as moves that are labelled with their symbols. -/
def ArcMove (n : Enfa) (s : Nat) (a? : Option Symbol) (t : Nat) : Prop := n.HasArc ⟨s, a?, t⟩

/-- What is read from one state to another is read along a list of arcs. -/
lemma reads_iff_exists_path {s t : Nat} {w : List Char} :
    n.Reads s w t ↔ ∃ labels, LabelPath n.ArcMove s labels t ∧ SymbolsAdmit labels.reduceOption w := by
  constructor
  · intro h
    induction h with
    | refl s => exact ⟨[], .refl s, .nil⟩
    | epsilon edge _ ih =>
      obtain ⟨labels, path, hw⟩ := ih
      exact ⟨none :: labels, .cons edge path, hw⟩
    | symbol edge known admits _ ih =>
      obtain ⟨labels, path, hw⟩ := ih
      refine ⟨some _ :: labels, .cons ⟨_, known, edge⟩ path, ?_⟩
      rw [List.reduceOption_cons_of_some]
      exact .cons admits hw
  · rintro ⟨labels, path, hw⟩
    induction path generalizing w with
    | refl s =>
      cases hw
      exact .refl s
    | @cons s m t a? labels arc _ ih =>
      cases a? with
      | none => exact .epsilon arc (ih hw)
      | some a =>
        obtain ⟨id, known, edge⟩ := arc
        rw [List.reduceOption_cons_of_some] at hw
        cases hw with
        | cons admits hw => exact .symbol edge known admits (ih hw)

lemma WellFormed.accepts_iff_arcPath (h : n.WellFormed) {w : List Char} :
    n.accepts w = true ↔ ∃ s t labels, n.start? = some s ∧ t ∈ n.finals ∧
      LabelPath n.ArcMove s labels t ∧ SymbolsAdmit labels.reduceOption w := by
  simp only [h.accepts_iff_reads, reads_iff_exists_path]
  constructor
  · rintro ⟨s, hs, t, ht, labels, path, hw⟩
    exact ⟨s, t, labels, hs, ht, path, hw⟩
  · rintro ⟨s, t, labels, hs, ht, path, hw⟩
    exact ⟨s, hs, t, ht, labels, path, hw⟩

/-- An automaton that is built, with closures kept or not, accepts a string exactly if there is a path
from the start state to a final state whose symbols, as many as the string has characters, admit the
characters in order. -/
theorem Built.accepts_iff_exists_path (h : n.Built) (w : List Char) :
    n.accepts w = true ↔ ∃ s t labels, n.start? = some s ∧ t ∈ n.finals ∧
      LabelPath n.ArcMove s labels t ∧ SymbolsAdmit labels.reduceOption w :=
  h.wellFormed.accepts_iff_arcPath

/-- An automaton with a cycle of epsilon moves and two symbols that match `b`, whose closures have been
computed before and after it got its last move. -/
theorem Built.accepts_iff_exists_path_of_cycle :
    ∃ n : Enfa, n.Built ∧ n.closures?.isSome = true ∧ n.Edge 0 .epsilon 1 ∧ n.Edge 1 .epsilon 0 ∧
      (∃ s t labels, n.start? = some s ∧ t ∈ n.finals ∧ LabelPath n.ArcMove s labels t ∧
        SymbolsAdmit labels.reduceOption ['b', 'b', 'c']) ∧
      ¬∃ s t labels, n.start? = some s ∧ t ∈ n.finals ∧ LabelPath n.ArcMove s labels t ∧
        SymbolsAdmit labels.reduceOption ['c', 'b'] := by
  have hbuilt := Built.empty
    |>.addEpsilon 0 1 |>.addEpsilon 1 0 |>.addTransition 1 (.literal 'b') 0 |>.setStart 0
    |>.cacheClosures |>.addTransition 0 (.range 'a' 'c') 2 |>.addFinal 2 |>.cacheClosures
  refine ⟨_, hbuilt, by decide +kernel, by simp, by simp, ?_, ?_⟩
  · exact (Built.accepts_iff_exists_path hbuilt _).mp (by decide +kernel)
  · rw [← Built.accepts_iff_exists_path hbuilt]
    decide +kernel

/-! ### Strings that get stuck -/

lemma read_empty (n : Enfa) (x : Char) : n.read ∅ x = ∅ := by
  have hclosure : n.closure ∅ = ∅ := by
    ext y
    rw [closure]
    cases n.closures? with
    | none => simp [Graph.mem_reach]
    | some closures => rfl
  ext y
  simp only [mem_read, StateSet.not_mem_empty, iff_false, not_exists, not_and]
  intro a _
  have hmove : n.move ∅ (.symbol a) = n.closure ∅ := rfl
  rw [hmove, hclosure]
  exact StateSet.not_mem_empty

/-- Once no state is left, the rest of the string does not matter: it is not accepted. -/
theorem accepts_append_of_stuck {s : Nat} {u : List Char} (hs : n.start? = some s)
    (hu : u.foldl n.read (n.closure (StateSet.singleton s)) = ∅) (v : List Char) :
    n.accepts (u ++ v) = false := by
  have hv : v.foldl n.read ∅ = ∅ := by
    induction v with
    | nil => rfl
    | cons x v ih => rw [List.foldl_cons, read_empty, ih]
  simp only [accepts, hs, List.foldl_append, hu, hv]
  rfl

end Enfa
end RegexAutomata
