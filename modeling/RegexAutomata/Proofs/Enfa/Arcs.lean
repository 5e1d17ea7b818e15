/-
# Automata as lists of arcs

An *arc* is a move that carries its symbol itself and not the id of the symbol.  Ids depend on the
order in which symbols are met; arcs do not, and every operation that adds a move adds one arc.  What
an automaton reads is determined by its arcs (`Enfa.reads_iff_path`).
-/
import RegexAutomata.Enfa.Path
import RegexAutomata.Proofs.Enfa.Built

namespace RegexAutomata

/-- A move with its symbol; an epsilon move has none. -/
structure Arc where
  source : Nat
  symbol? : Option Symbol
  target : Nat
deriving DecidableEq

namespace Arc

/-- There is a path along arcs that reads a string. -/
inductive Path (arcs : List Arc) : Nat → List Char → Nat → Prop
  | refl (s : Nat) : Path arcs s [] s
  | epsilon {s m d : Nat} {w : List Char} (arc : ⟨s, none, m⟩ ∈ arcs) (path : Path arcs m w d) :
    Path arcs s w d
  | symbol {s m d : Nat} {a : Symbol} {x : Char} {w : List Char} (arc : ⟨s, some a, m⟩ ∈ arcs)
    (admits : a.admits x = true) (path : Path arcs m w d) : Path arcs s (x :: w) d

namespace Path

variable {arcs arcs' : List Arc} {s m d : Nat} {u v w : List Char}

lemma append (h : Path arcs s u m) (h' : Path arcs m v d) : Path arcs s (u ++ v) d := by
  induction h with
  | refl => exact h'
  | epsilon arc _ ih => exact .epsilon arc (ih h')
  | symbol arc admits _ ih => exact .symbol arc admits (ih h')

lemma mono (hsub : arcs ⊆ arcs') (h : Path arcs s w d) : Path arcs' s w d := by
  induction h with
  | refl s => exact .refl s
  | epsilon arc _ ih => exact .epsilon (hsub arc) ih
  | symbol arc admits _ ih => exact .symbol (hsub arc) admits ih

/-- No path leads on from a state without arcs. -/
lemma eq_of_no_source (hs : ∀ b ∈ arcs, b.source ≠ s) (h : Path arcs s w d) : w = [] ∧ s = d := by
  cases h with
  | refl => exact ⟨rfl, rfl⟩
  | epsilon arc _ => exact absurd rfl (hs _ arc)
  | symbol arc _ _ => exact absurd rfl (hs _ arc)

/-- If all arcs from a state are epsilon arcs, a path to another state begins with one of them. -/
lemma first_of_epsilon {P : Nat → Prop}
    (hs : ∀ b ∈ arcs, b.source = s → b.symbol? = none ∧ P b.target) (hsd : s ≠ d)
    (h : Path arcs s w d) : ∃ m, P m ∧ Path arcs m w d := by
  cases h with
  | refl => exact absurd rfl hsd
  | epsilon arc path => exact ⟨_, (hs _ arc rfl).2, path⟩
  | symbol arc _ _ => exact absurd (hs _ arc rfl).1 (by simp)

/-- If all arcs from a region are inner arcs and lead back into the region, a path that begins there
has inner arcs only. -/
lemma confined {inner : List Arc} {R : Nat → Prop}
    (hR : ∀ b ∈ arcs, R b.source → b ∈ inner ∧ R b.target) (h : Path arcs s w d) (hs : R s) :
    Path inner s w d := by
  induction h with
  | refl s => exact .refl s
  | epsilon arc _ ih =>
    obtain ⟨hmem, htarget⟩ := hR _ arc hs
    exact .epsilon hmem (ih htarget)
  | symbol arc admits _ ih =>
    obtain ⟨hmem, htarget⟩ := hR _ arc hs
    exact .symbol hmem admits (ih htarget)

/-- If a region can be left only by epsilon arcs from its exit, a path out of the region consists of a
path of inner arcs to the exit and of a rest.  What is said of the rest may use that the rest, should it
begin in the region again, consists of two such parts itself. -/
lemma exits {inner : List Arc} {R : Nat → Prop} {exit : Nat} {rest : List Char → Prop}
    (hR : ∀ b ∈ arcs, R b.source → b ∈ inner ∧ R b.target ∨ b.source = exit ∧ b.symbol? = none)
    (hrest : ∀ m v, ⟨exit, none, m⟩ ∈ arcs → Path arcs m v d →
      (R m → ∃ v₁ v₂, v = v₁ ++ v₂ ∧ Path inner m v₁ exit ∧ rest v₂) → rest v)
    (hd : ¬R d) (h : Path arcs s w d) (hs : R s) :
    ∃ u v, w = u ++ v ∧ Path inner s u exit ∧ rest v := by
  induction h with
  | refl s => exact absurd hs hd
  | @epsilon s m d w arc path ih =>
    rcases hR _ arc hs with ⟨hmem, htarget⟩ | ⟨hsource, -⟩
    · obtain ⟨u, v, rfl, hu, hv⟩ := ih hrest hd htarget
      exact ⟨u, v, rfl, .epsilon hmem hu, hv⟩
    · -- the path leaves the region here
      obtain rfl : s = exit := hsource
      exact ⟨[], w, rfl, .refl s, hrest m w arc path fun hm => ih hrest hd hm⟩
  | symbol arc admits _ ih =>
    rcases hR _ arc hs with ⟨hmem, htarget⟩ | ⟨-, hnone⟩
    · obtain ⟨u, v, rfl, hu, hv⟩ := ih hrest hd htarget
      exact ⟨_ :: u, v, rfl, .symbol hmem admits hu, hv⟩
    · exact absurd hnone (by simp)

end Path

end Arc

namespace Enfa

variable {n : Enfa} {b : Arc}

/-- The automaton has a move that is given as an arc. -/
def HasArc (n : Enfa) (b : Arc) : Prop :=
  match b.symbol? with
  | none => n.Edge b.source .epsilon b.target
  | some a => ∃ id, n.alphabet.symbol? id = some a ∧ n.Edge b.source (.symbol id) b.target

lemma not_hasArc_empty : ¬empty.HasArc b := by
  obtain ⟨s, _ | a, d⟩ := b <;> simp [HasArc, Edge, destinations, empty]

@[simp] lemma hasArc_addState : n.addState.HasArc b ↔ n.HasArc b := by
  obtain ⟨s, _ | a, d⟩ := b <;> simp [HasArc, Enfa.addState, Edge, destinations]

@[simp] lemma hasArc_setStart {s : Nat} : (n.setStart s).HasArc b ↔ n.HasArc b := by
  obtain ⟨s', _ | a, d⟩ := b <;> simp [HasArc]

@[simp] lemma hasArc_addFinal {s : Nat} : (n.addFinal s).HasArc b ↔ n.HasArc b := by
  obtain ⟨s', _ | a, d⟩ := b <;> simp [HasArc]

lemma hasArc_addEpsilon {s d : Nat} :
    (n.addEpsilon s d).HasArc b ↔ b = ⟨s, none, d⟩ ∨ n.HasArc b := by
  obtain ⟨s', _ | a, d'⟩ := b <;> simp [HasArc]

@[simp] lemma hasArc_cacheClosures : n.cacheClosures.HasArc b ↔ n.HasArc b := by
  obtain ⟨s, _ | a, d⟩ := b <;> simp [HasArc]

/-- The symbol of a new move may be new, but the symbols of the old moves are known. -/
lemma WellFormed.hasArc_addTransition (h : n.WellFormed) {s d : Nat} {a : Symbol} :
    (n.addTransition s a d).HasArc b ↔ b = ⟨s, some a, d⟩ ∨ n.HasArc b := by
  obtain ⟨s', _ | c, d'⟩ := b
  · simp [HasArc]
  · simp only [HasArc, edge_addTransition, alphabet_addTransition, Label.symbol.injEq, Arc.mk.injEq,
      Option.some.injEq]
    constructor
    · rintro ⟨id, hid, ⟨rfl, rfl, rfl⟩ | hedge⟩
      · rw [Alphabet.symbol?_insert_idOf, Option.some.injEq] at hid
        exact Or.inl ⟨rfl, hid.symm, rfl⟩
      · rw [Alphabet.symbol?_insert_of_lt (h.symbol_lt s' id d' hedge)] at hid
        exact Or.inr ⟨id, hid, hedge⟩
    · rintro (⟨rfl, rfl, rfl⟩ | ⟨id, hid, hedge⟩)
      · exact ⟨_, Alphabet.symbol?_insert_idOf _ _, Or.inl ⟨rfl, rfl, rfl⟩⟩
      · refine ⟨id, ?_, Or.inr hedge⟩
        rw [Alphabet.symbol?_insert_of_lt (h.symbol_lt s' id d' hedge), hid]

lemma WellFormed.source_lt (h : n.WellFormed) (hb : n.HasArc b) : b.source < n.numStates := by
  obtain ⟨s, _ | a, d⟩ := b
  · exact (h.edge_lt s _ d hb).1
  · obtain ⟨id, -, hedge⟩ := hb
    exact (h.edge_lt s _ d hedge).1

/-- What an automaton reads is what can be read along its arcs. -/
lemma reads_iff_path {arcs : List Arc} (harcs : ∀ b, n.HasArc b ↔ b ∈ arcs) {s d : Nat}
    {w : List Char} : n.Reads s w d ↔ Arc.Path arcs s w d := by
  constructor
  · intro h
    induction h with
    | refl s => exact .refl s
    | epsilon edge _ ih => exact .epsilon ((harcs ⟨_, none, _⟩).mp edge) ih
    | symbol edge known admits _ ih =>
      exact .symbol ((harcs ⟨_, some _, _⟩).mp ⟨_, known, edge⟩) admits ih
  · intro h
    induction h with
    | refl s => exact .refl s
    | epsilon arc _ ih => exact .epsilon ((harcs ⟨_, none, _⟩).mpr arc) ih
    | symbol arc admits _ ih =>
      obtain ⟨id, known, edge⟩ := (harcs ⟨_, some _, _⟩).mpr arc
      exact .symbol edge known admits ih

end Enfa
end RegexAutomata
