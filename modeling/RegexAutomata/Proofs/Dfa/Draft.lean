/-
# Automata that are built move by move

Some automata are made of a number of states that are known from the beginning, and a dead state that comes
behind them if it is needed (`Dfa.DeadLast`).  A *draft* of such an automaton has some of its moves and no
others, and it has the dead state as soon as something leads there (`Dfa.Draft`).  Connecting a state makes
another draft, whether the dead state is created or not (`Dfa.Draft.connect`), and a draft in which all moves
are done is alike to the automaton (`Dfa.Draft.alike`).
-/
import RegexAutomata.Proofs.Dfa.Alike
import RegexAutomata.Proofs.Dfa.Complete
import RegexAutomata.Proofs.Failure

namespace RegexAutomata
namespace Dfa

variable {d e : Dfa} {s t a k x b : Nat} {t? : Option Nat}

/-! ### Moves that are set -/

lemma get?_loop {table : Table Nat} {ids : List Nat} :
    (loop table s ids).get? x a = if x = s ∧ a ∈ ids then some s else table.get? x a := by
  induction ids generalizing table with
  | nil => simp [loop]
  | cons b ids ih =>
    rw [loop, List.foldl_cons, ← loop, ih, Table.get?_set]
    grind

lemma step_addTransition :
    (d.addTransition s a t).step x b = if x = s ∧ b = a then some t else d.step x b :=
  Table.get?_set

/-- The dead state is the one whose number is given out, whether it has been there or not. -/
lemma dead?_ensureDead (d : Dfa) : d.ensureDead.dead? = some d.deadState := by
  rw [ensureDead, deadState]
  cases hdead : d.dead? with
  | none => rfl
  | some s => exact hdead

lemma ensureDead_eq_self (h : d.dead? = some s) : d.ensureDead = d := by
  rw [ensureDead, h]

lemma step_ensureDead (h : d.dead? = none) : d.ensureDead.step x a =
    if x = d.numStates ∧ a ∈ d.alphabet.ids then some d.numStates else d.step x a := by
  rw [ensureDead, h]
  exact get?_loop

/-- Two automata have the same alphabet, start state, final states and mapping, whatever their moves are. -/
structure SameFrame (d e : Dfa) : Prop where
  alphabet_eq : d.alphabet = e.alphabet
  start?_eq : d.start? = e.start?
  finals_eq : d.finals = e.finals
  mapping?_eq : d.mapping? = e.mapping?

namespace SameFrame

lemma refl (d : Dfa) : d.SameFrame d := ⟨rfl, rfl, rfl, rfl⟩

lemma trans {c : Dfa} (h : c.SameFrame d) (h' : d.SameFrame e) : c.SameFrame e :=
  ⟨h.alphabet_eq.trans h'.alphabet_eq, h.start?_eq.trans h'.start?_eq, h.finals_eq.trans h'.finals_eq,
    h.mapping?_eq.trans h'.mapping?_eq⟩

lemma ensureDead (d : Dfa) : d.ensureDead.SameFrame d := by
  rw [Dfa.ensureDead]
  cases d.dead? <;> exact ⟨rfl, rfl, rfl, rfl⟩

lemma addTransition (d : Dfa) (s a t : Nat) : (d.addTransition s a t).SameFrame d := ⟨rfl, rfl, rfl, rfl⟩

lemma connect (d : Dfa) (s a : Nat) (t? : Option Nat) : (d.connect s a t?).SameFrame d := by
  cases t? with
  | some t => exact addTransition d s a t
  | none => exact (addTransition d.ensureDead s a d.deadState).trans (ensureDead d)

end SameFrame

lemma finals_startIn : (d.startIn t?).finals = d.finals := by
  cases t? with
  | some t => rfl
  | none => exact (SameFrame.ensureDead d).finals_eq

lemma mapping?_startIn : (d.startIn t?).mapping? = d.mapping? := by
  cases t? with
  | some t => rfl
  | none => exact (SameFrame.ensureDead d).mapping?_eq

/-! ### Drafts -/

/-- An automaton has `k` states with given labels, and behind them a dead state if the start or some move needs
one. -/
structure DeadLast (k : Nat) (labels : Array Nat) (e : Dfa) : Prop where
  complete : e.Complete
  numStates_eq : e.numStates = if e.dead? = none then k else k + 1
  labels_eq : e.labels = if e.dead? = none then labels else labels.push k
  dead_eq : ∀ x, e.dead? = some x → x = k
  needed : e.dead? = some k → e.start? = some k ∨ ∃ x < k, ∃ a ∈ e.alphabet.ids, e.step x a = some k

/-- What a state is given as: another state than the dead state by its number, and the dead state by none. -/
structure Denotes (k : Nat) (e : Dfa) (t? : Option Nat) : Prop where
  ne : ∀ t, t? = some t → t ≠ k
  dead?_eq : t? = none → e.dead? = some k

/-- An automaton is a draft of such an automaton: those of the moves that are `done` have been set, nothing
has been set that the other automaton does not have, and the dead state is there as soon as it is needed. -/
structure Draft (k : Nat) (labels : Array Nat) (done : Nat → Nat → Prop) (d e : Dfa) : Prop where
  alphabet_eq : d.alphabet = e.alphabet
  numStates_eq : d.numStates = if d.dead? = none then k else k + 1
  labels_eq : d.labels = if d.dead? = none then labels else labels.push k
  dead_eq : ∀ x, d.dead? = some x → x = k ∧ e.dead? = some k
  dead_step : ∀ x, d.dead? = some x → ∀ a ∈ d.alphabet.ids, d.step x a = some x
  step_of_done : ∀ x a, done x a → d.step x a = e.step x a
  step_of_some : ∀ x a t, d.step x a = some t → e.step x a = some t
  dead_of_step : ∀ x a, d.step x a = some k → e.dead? = some k → d.dead? = some k
  dead_of_start : d.start? = some k → e.dead? = some k → d.dead? = some k

namespace Draft

variable {labels : Array Nat} {done done' : Nat → Nat → Prop}

/-- In the beginning no move has been set. -/
lemma of_table_eq_empty (halphabet : d.alphabet = e.alphabet) (hnum : d.numStates = k)
    (hlabels : d.labels = labels) (hdead : d.dead? = none) (hstart : d.start? = none)
    (htable : d.table = .empty) : Draft k labels (fun _ _ => False) d e := by
  have hstep : ∀ x a, d.step x a = none := fun x a => by rw [step, htable, Table.get?_empty]
  exact ⟨halphabet, by rw [if_pos hdead, hnum], by rw [if_pos hdead, hlabels], by simp [hdead],
    by simp [hdead], fun _ _ h => h.elim, by simp [hstep], by simp [hstep], by simp [hstart]⟩

lemma mono (h : Draft k labels done d e) (hdone : ∀ x a, done' x a → done x a) :
    Draft k labels done' d e :=
  { h with step_of_done := fun x a hxa => h.step_of_done x a (hdone x a hxa) }

lemma addFinal (h : Draft k labels done d e) (s : Nat) : Draft k labels done (d.addFinal s) e :=
  ⟨h.alphabet_eq, h.numStates_eq, h.labels_eq, h.dead_eq, h.dead_step, h.step_of_done, h.step_of_some,
    h.dead_of_step, h.dead_of_start⟩

lemma setMapping (h : Draft k labels done d e) (mapping : List StateSet) :
    Draft k labels done (d.setMapping mapping) e :=
  ⟨h.alphabet_eq, h.numStates_eq, h.labels_eq, h.dead_eq, h.dead_step, h.step_of_done, h.step_of_some,
    h.dead_of_step, h.dead_of_start⟩

lemma setStart (h : Draft k labels done d e) (hs : s = k → e.dead? = some k → d.dead? = some k) :
    Draft k labels done (d.setStart s) e :=
  ⟨h.alphabet_eq, h.numStates_eq, h.labels_eq, h.dead_eq, h.dead_step, h.step_of_done, h.step_of_some,
    h.dead_of_step, fun hstart => hs (Option.some.inj hstart)⟩

/-- The number that is given out for the dead state comes behind all others. -/
lemma deadState_eq (h : Draft k labels done d e) : d.deadState = k := by
  rw [deadState]
  cases hdead : d.dead? with
  | some x => exact (h.dead_eq x hdead).1
  | none => rw [Option.getD_none, h.numStates_eq, if_pos hdead]

lemma dead?_ensureDead (h : Draft k labels done d e) : d.ensureDead.dead? = some k := by
  rw [Dfa.dead?_ensureDead, h.deadState_eq]

/-- The dead state comes with its own label and all of its moves. -/
lemma ensureDead (h : Draft k labels done d e) (he : e.DeadLast k labels) (hk : e.dead? = some k) :
    Draft k labels done d.ensureDead e := by
  cases hdead : d.dead? with
  | some x => rwa [ensureDead_eq_self hdead]
  | none =>
    have hnum : d.numStates = k := by rw [h.numStates_eq, if_pos hdead]
    have hnew := h.dead?_ensureDead
    have hloop : ∀ a ∈ d.alphabet.ids, e.step k a = some k := fun a ha =>
      he.complete.dead_step k hk a (h.alphabet_eq ▸ ha)
    exact {
      alphabet_eq := (SameFrame.ensureDead d).alphabet_eq.trans h.alphabet_eq
      numStates_eq := by
        rw [hnew, Dfa.ensureDead, hdead, if_neg (by simp), ← hnum]
        rfl
      labels_eq := by
        rw [hnew, Dfa.ensureDead, hdead, if_neg (by simp), ← hnum, addState, h.labels_eq, if_pos hdead]
      dead_eq := fun x hx => ⟨(Option.some.inj (hnew.symm.trans hx)).symm, hk⟩
      dead_step := by
        intro x hx a ha
        obtain rfl : k = x := Option.some.inj (hnew.symm.trans hx)
        rw [step_ensureDead hdead, hnum, if_pos ⟨rfl, (SameFrame.ensureDead d).alphabet_eq ▸ ha⟩]
      step_of_done := by
        intro x a hxa
        rw [step_ensureDead hdead, hnum]
        split
        · rename_i hloops
          rw [hloops.1, hloop a hloops.2]
        · exact h.step_of_done x a hxa
      step_of_some := by
        intro x a t hstep
        rw [step_ensureDead hdead, hnum] at hstep
        split at hstep
        · rename_i hloops
          rw [hloops.1, hloop a hloops.2, hstep]
        · exact h.step_of_some x a t hstep
      dead_of_step := fun _ _ _ _ => hnew
      dead_of_start := fun _ _ => hnew }

/-- A move is set.  If it leads to the dead state, there is one. -/
lemma addTransition (h : Draft k labels done d e) (he : e.DeadLast k labels)
    (hstep : e.step s a = some t) (hdead : t = k → e.dead? = some k → d.dead? = some k) :
    Draft k labels (fun x b => done x b ∨ x = s ∧ b = a) (d.addTransition s a t) e where
  alphabet_eq := h.alphabet_eq
  numStates_eq := h.numStates_eq
  labels_eq := h.labels_eq
  dead_eq := h.dead_eq
  dead_step := by
    intro x hx b hb
    rw [step_addTransition]
    split
    · rename_i hset
      obtain ⟨rfl, hk⟩ := h.dead_eq x hx
      rw [← hstep, ← hset.1, ← hset.2]
      exact he.complete.dead_step _ hk b (h.alphabet_eq ▸ hb)
    · exact h.dead_step x hx b hb
  step_of_done := by
    intro x b hxb
    rw [step_addTransition]
    split
    · rename_i hset
      rw [hset.1, hset.2, hstep]
    · rename_i hset
      exact h.step_of_done x b (hxb.resolve_right hset)
  step_of_some := by
    intro x b y hy
    rw [step_addTransition] at hy
    split at hy
    · rename_i hset
      rw [hset.1, hset.2, hstep, hy]
    · exact h.step_of_some x b y hy
  dead_of_step := by
    intro x b hy hk
    rw [step_addTransition] at hy
    split at hy
    · exact hdead (Option.some.inj hy) hk
    · exact h.dead_of_step x b hy hk
  dead_of_start := h.dead_of_start

/-- A state is connected with the destination it has in the other automaton. -/
lemma connect (h : Draft k labels done d e) (he : e.DeadLast k labels)
    (hstep : e.step s a = some (t?.getD k)) (ht : e.Denotes k t?) :
    Draft k labels (fun x b => done x b ∨ x = s ∧ b = a) (d.connect s a t?) e := by
  cases t? with
  | some t => exact h.addTransition he hstep fun htk => absurd htk (ht.ne t rfl)
  | none =>
    rw [Dfa.connect, h.deadState_eq]
    exact (h.ensureDead he (ht.dead?_eq rfl)).addTransition he hstep fun _ _ => h.dead?_ensureDead

/-- A state is connected on all symbols, one after the other. -/
lemma exists_foldlM_connect {ε : Type} {f : Dfa → Nat → Except ε Dfa} (h : Draft k labels done d e)
    (he : e.DeadLast k labels) (hf : ∀ a ∈ e.alphabet.ids, ∃ t?,
      (∀ m : Dfa, m.alphabet = e.alphabet → f m a = .ok (m.connect s a t?)) ∧
        e.step s a = some (t?.getD k) ∧ e.Denotes k t?) :
    ∃ d', e.alphabet.ids.foldlM f d = .ok d' ∧ d'.SameFrame d ∧
      Draft k labels (fun x b => done x b ∨ x = s ∧ b ∈ e.alphabet.ids) d' e := by
  have hfold : ∃ d', e.alphabet.ids.foldlM f d = .ok d' ∧ d'.SameFrame d ∧ Draft k labels
      (fun x b => done x b ∨ x = s ∧ b ∈ e.alphabet.ids.take e.alphabet.ids.length) d' e := by
    refine exists_foldlM (fun c d' => SameFrame d' d ∧
      Draft k labels (fun x b => done x b ∨ x = s ∧ b ∈ e.alphabet.ids.take c) d' e) ?_ ?_
    · exact ⟨.refl d, h.mono fun x b hxb => hxb.resolve_right (by simp)⟩
    · rintro c a ha m ⟨hframe, hm⟩
      obtain ⟨t?, hconnect, hstep, ht⟩ := hf a (List.mem_of_getElem? ha)
      refine ⟨_, hconnect m hm.alphabet_eq, (SameFrame.connect m s a t?).trans hframe,
        (hm.connect he hstep ht).mono fun x b hxb => ?_⟩
      rw [List.take_add_one, ha, Option.toList_some, List.mem_append, List.mem_singleton] at hxb
      tauto
  rwa [List.take_length] at hfold

lemma startIn (h : Draft k labels done d e) (he : e.DeadLast k labels) (ht : e.Denotes k t?) :
    Draft k labels done (d.startIn t?) e := by
  cases t? with
  | some t => exact h.setStart fun htk => absurd htk (ht.ne t rfl)
  | none => exact (h.ensureDead he (ht.dead?_eq rfl)).setStart fun _ _ => h.dead?_ensureDead

lemma start?_startIn (h : Draft k labels done d e) : (d.startIn t?).start? = some (t?.getD k) := by
  cases t? with
  | some t => rfl
  | none => exact congrArg some h.deadState_eq

/-! ### Drafts in which all moves are done -/

section

variable (h : Draft k labels done d e) (he : e.DeadLast k labels)
  (hdone : ∀ x < k, ∀ a ∈ e.alphabet.ids, done x a)

include h he hdone

/-- The dead state is there if it is needed. -/
lemma dead?_eq (hstart : d.start? = e.start?) : d.dead? = e.dead? := by
  cases hy : e.dead? with
  | none =>
    refine Option.eq_none_iff_forall_ne_some.mpr fun x hx => ?_
    exact absurd (hy.symm.trans (h.dead_eq x hx).2) (by simp)
  | some y =>
    obtain rfl := he.dead_eq y hy
    rcases he.needed hy with hneeded | ⟨x, hx, a, ha, hneeded⟩
    · exact h.dead_of_start (hstart.trans hneeded) hy
    · exact h.dead_of_step x a ((h.step_of_done x a (hdone x hx a ha)).trans hneeded) hy

lemma step_eq (hdead : d.dead? = e.dead?) : d.step = e.step := by
  funext x a
  cases hstep : e.step x a with
  | none =>
    refine Option.eq_none_iff_forall_ne_some.mpr fun t ht => ?_
    exact absurd (hstep.symm.trans (h.step_of_some x a t ht)) (by simp)
  | some t =>
    obtain ⟨hx, ha, -⟩ := he.complete.step_lt x a t hstep
    rw [he.numStates_eq] at hx
    by_cases hlt : x < k
    · rw [h.step_of_done x a (hdone x hlt a ha), hstep]
    · -- only the dead state is behind the others
      obtain ⟨y, hy⟩ : ∃ y, e.dead? = some y := by
        refine Option.ne_none_iff_exists'.mp fun hnone => ?_
        rw [if_pos hnone] at hx
        exact hlt hx
      obtain rfl := he.dead_eq y hy
      obtain rfl : x = y := by
        rw [if_neg (by simp [hy])] at hx
        omega
      rw [h.dead_step x (hdead.trans hy) a (h.alphabet_eq ▸ ha), ← hstep, he.complete.dead_step x hy a ha]

/-- Such a draft has all states and moves. -/
lemma alike (hstart : d.start? = e.start?) (hfinals : d.finals = e.finals)
    (hmapping : d.mapping? = e.mapping?) : d.Alike e := by
  have hdead := h.dead?_eq he hdone hstart
  refine ⟨?_, hstart, hfinals, hdead, h.alphabet_eq, h.step_eq he hdone hdead, hmapping, ?_⟩
  · rw [h.numStates_eq, he.numStates_eq, hdead]
  · rw [h.labels_eq, he.labels_eq, hdead]

end

end Draft

end Dfa
end RegexAutomata
