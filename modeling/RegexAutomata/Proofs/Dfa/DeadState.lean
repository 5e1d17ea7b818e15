/-
# The dead state of an automaton that is changed

Nothing keeps a caller from setting moves of states and symbols that do not exist yet, and such moves count
as soon as they do.  So a state may have moves when it becomes the dead state, and the dead state may have one
on a symbol before the symbol is added.  What is done about this is that creating the dead state and adding
a symbol, new or not, set the moves of the dead state anew.

Hence each operation keeps that the dead state exists and moves to itself on every symbol
(`Dfa.DeadLoops.apply`), unless it sets a move of the dead state, and so does every sequence of operations.
No operation replaces the dead state.  The main result is `Dfa.Begun.dead_loops`.
-/
import RegexAutomata.Proofs.Compiled
import RegexAutomata.Proofs.Dfa.Draft
import RegexAutomata.Proofs.Produced

namespace RegexAutomata
namespace Dfa

variable {d : Dfa} {s t : Nat}

/-! ### Sequences of operations -/

/-- What changes an automaton. -/
inductive Operation where
  | addState
  | ensureDead
  | addSymbol (a : Symbol)
  | addTransition (s a t : Nat)
  | addFinal (s : Nat)
  | setStart (s : Nat)
deriving DecidableEq

/-- Carry out an operation. -/
def apply (d : Dfa) : Operation → Dfa
  | .addState => d.addState
  | .ensureDead => d.ensureDead
  | .addSymbol a => d.addSymbol a
  | .addTransition s a t => d.addTransition s a t
  | .addFinal s => d.addFinal s
  | .setStart s => d.setStart s

/-- Carry out operations from left to right. -/
def applyAll (d : Dfa) (ops : List Operation) : Dfa := ops.foldl apply d

/-- The operation does not set a move of the dead state. -/
def Spares (d : Dfa) : Operation → Prop
  | .addTransition s _ _ => d.dead? ≠ some s
  | _ => True

instance (d : Dfa) (op : Operation) : Decidable (d.Spares op) :=
  match op with
  | .addTransition s _ _ => inferInstanceAs (Decidable (d.dead? ≠ some s))
  | .addState | .ensureDead | .addSymbol _ | .addFinal _ | .setStart _ => isTrue trivial

/-- None of the operations sets a move of the dead state that there is at its time. -/
def SparesAlways (d : Dfa) : List Operation → Prop
  | [] => True
  | op :: ops => d.Spares op ∧ (d.apply op).SparesAlways ops

instance decidableSparesAlways (d : Dfa) : (ops : List Operation) → Decidable (d.SparesAlways ops)
  | [] => isTrue trivial
  | op :: ops =>
    have : Decidable ((d.apply op).SparesAlways ops) := decidableSparesAlways (d.apply op) ops
    inferInstanceAs (Decidable (d.Spares op ∧ (d.apply op).SparesAlways ops))

/-- The automata that operations may begin with: those without states, those that are read from a text or
built for an expression, and those that are minimized. -/
inductive Begun : Dfa → Prop
  | ofAlphabet (A : Alphabet) : Begun (ofAlphabet A)
  | read {text : String} {d : Dfa} (h : ofText text = .ok d) : Begun d
  | compiled {text : String} {c : Compiled} (h : compile text = .ok c) : Begun c.dfa
  | compiledMinimized {text : String} {c : Compiled} (h : compile text = .ok c) : Begun c.minimized
  | minimized {d m : Dfa} (h : d.minimize? = some m) : Begun m

/-! ### What one operation keeps -/

/-- The dead state exists and moves to itself on every symbol. -/
structure DeadLoops (d : Dfa) : Prop where
  dead_lt : ∀ s, d.dead? = some s → s < d.numStates
  dead_step : ∀ s, d.dead? = some s → ∀ a ∈ d.alphabet.ids, d.step s a = some s

lemma Complete.deadLoops (h : d.Complete) : d.DeadLoops := ⟨h.dead_lt, h.dead_step⟩

/-- No operation replaces the dead state. -/
lemma dead?_apply (h : d.dead? = some s) (op : Operation) : (d.apply op).dead? = some s := by
  cases op with
  | ensureDead => rwa [apply, ensureDead, h]
  | _ => exact h

lemma dead?_applyAll (h : d.dead? = some s) (ops : List Operation) :
    (d.applyAll ops).dead? = some s := by
  induction ops generalizing d with
  | nil => exact h
  | cons op ops ih => exact ih (dead?_apply h op)

namespace DeadLoops

lemma addState (h : d.DeadLoops) : d.addState.DeadLoops where
  dead_lt := fun s hs => Nat.lt_succ_of_lt (h.dead_lt s hs)
  dead_step := h.dead_step

/-- A new dead state gets its moves, whatever moves its number had. -/
lemma ensureDead (h : d.DeadLoops) : d.ensureDead.DeadLoops := by
  cases hdead : d.dead? with
  | some _ => rwa [Dfa.ensureDead, hdead]
  | none =>
    rw [Dfa.ensureDead, hdead]
    refine ⟨?_, ?_⟩
    · intro s hs
      exact Option.some.inj hs ▸ Nat.lt_succ_self d.numStates
    · intro s hs a ha
      obtain rfl : d.numStates = s := Option.some.inj hs
      have hloop : (loop d.table d.numStates d.alphabet.ids).get? d.numStates a = some d.numStates := by
        rw [get?_loop, if_pos ⟨rfl, ha⟩]
      exact hloop

/-- On the symbol that is added the dead state gets its move, and on the others it has it. -/
lemma addSymbol (h : d.DeadLoops) (a : Symbol) : (d.addSymbol a).DeadLoops where
  dead_lt := h.dead_lt
  dead_step := by
    intro s hs b hb
    have hdead : d.dead? = some s := hs
    have htable : (d.addSymbol a).step s b = (d.table.set s (d.alphabet.idOf a) s).get? s b := by
      simp only [step, Dfa.addSymbol, hdead]
    rw [htable, Table.get?_set]
    split
    · rfl
    · rename_i hne
      have hb' : b ∈ d.alphabet.ids := by
        rcases Alphabet.mem_ids_insert.mp hb with hb' | rfl
        · exact hb'
        · exact absurd ⟨rfl, rfl⟩ hne
      exact h.dead_step s hdead b hb'

lemma addTransition (h : d.DeadLoops) (hs : d.dead? ≠ some s) (a t : Nat) :
    (d.addTransition s a t).DeadLoops where
  dead_lt := h.dead_lt
  dead_step := by
    intro dead hdead b hb
    have hne : dead ≠ s := fun heq => hs (heq ▸ hdead)
    rw [step, Dfa.addTransition, Table.get?_set, if_neg fun heq => hne heq.1]
    exact h.dead_step dead hdead b hb

/-- What an operation keeps that does not set a move of the dead state. -/
lemma apply (h : d.DeadLoops) {op : Operation} (hop : d.Spares op) : (d.apply op).DeadLoops := by
  cases op with
  | addState => exact h.addState
  | ensureDead => exact h.ensureDead
  | addSymbol a => exact h.addSymbol a
  | addTransition s a t => exact h.addTransition hop a t
  | addFinal s => exact ⟨h.dead_lt, h.dead_step⟩
  | setStart s => exact ⟨h.dead_lt, h.dead_step⟩

/-! ### What sequences of operations keep -/

lemma applyAll (h : d.DeadLoops) {ops : List Operation} (hops : d.SparesAlways ops) :
    (d.applyAll ops).DeadLoops := by
  induction ops generalizing d with
  | nil => exact h
  | cons op ops ih => exact ih (h.apply hops.1) hops.2

/-- Words do not lead away from the dead state. -/
lemma walk_eq (h : d.DeadLoops) (hs : d.dead? = some s) {u : List Nat}
    (hu : ∀ a ∈ u, a ∈ d.alphabet.ids) : d.walk s u = some s := by
  induction u with
  | nil => rfl
  | cons a u ih =>
    obtain ⟨ha, hu⟩ := List.forall_mem_cons.mp hu
    rw [walk_cons, h.dead_step s hs a ha, Option.bind_some, ih hu]

end DeadLoops

/-- The automata that operations may begin with are complete. -/
lemma Begun.complete (h : d.Begun) : d.Complete := by
  cases h with
  | ofAlphabet A => exact complete_ofAlphabet A
  | read h => exact complete_ofText h
  | compiled h =>
    rw [Compiled.dfa_of_compile h]
    exact (Compiled.wellFormed_nfa_of_compile h).complete_determinize
  | compiledMinimized h =>
    rw [Compiled.minimized_of_compile h]
    exact complete_minimize _
  | minimized h => exact minimize_of_minimize? h ▸ complete_minimize _

/-- Begin with an automaton without states or one that has been read, compiled or minimized, and carry out
any operations, none of which sets a move of the dead state once it is there.  Then the dead state exists,
moves to itself on every symbol and is not left by any word, and whatever operations follow, it stays the dead
state and is the one that is given out.  Asking for it when there is none creates it. -/
theorem Begun.dead_loops (h : d.Begun) {ops : List Operation} (hops : d.SparesAlways ops) :
    (∀ s, (d.applyAll ops).dead? = some s →
      s < (d.applyAll ops).numStates ∧
      (∀ a ∈ (d.applyAll ops).alphabet.ids, (d.applyAll ops).step s a = some s) ∧
      (∀ u, (∀ a ∈ u, a ∈ (d.applyAll ops).alphabet.ids) → (d.applyAll ops).walk s u = some s) ∧
      ∀ more, ((d.applyAll ops).applyAll more).dead? = some s ∧
        ((d.applyAll ops).applyAll more).deadState = s) ∧
      (d.applyAll ops).ensureDead.dead? = some (d.applyAll ops).deadState := by
  have hloops := h.complete.deadLoops.applyAll hops
  refine ⟨fun s hs => ⟨hloops.dead_lt s hs, hloops.dead_step s hs, ?_, ?_⟩, dead?_ensureDead _⟩
  · exact fun u hu => hloops.walk_eq hs hu
  · intro more
    have hdead := dead?_applyAll hs more
    exact ⟨hdead, by rw [deadState, hdead, Option.getD_some]⟩

/-- Moves for the state 1 and for the symbol id 1, neither of which exists yet; then the state becomes the
dead state, the symbol is added, and a symbol that is there is added once more. -/
def earlyMoves : List Operation :=
  [.addTransition 1 0 0, .addTransition 1 1 7, .addState, .ensureDead, .addSymbol (.literal 'b'),
    .addSymbol (.literal 'a')]

theorem Begun.dead_loops_of_earlyMoves :
    (Dfa.ofAlphabet (.ofList [.literal 'a'])).SparesAlways earlyMoves ∧
      ((Dfa.ofAlphabet (.ofList [.literal 'a'])).applyAll earlyMoves).step 1 0 = some 1 ∧
      ((Dfa.ofAlphabet (.ofList [.literal 'a'])).applyAll earlyMoves).step 1 1 = some 1 := by
  have hops : (Dfa.ofAlphabet (.ofList [.literal 'a'])).SparesAlways earlyMoves := by decide
  obtain ⟨-, hstep, -⟩ :=
    (Begun.dead_loops (.ofAlphabet (.ofList [.literal 'a'])) hops).1 1 (by decide)
  exact ⟨hops, hstep 0 (by decide), hstep 1 (by decide)⟩

end Dfa
end RegexAutomata
