/-
# Sets of states that are changed

Sets of states with different capacities are made, changed and combined in any order.  A set can have grown
for states that it has lost again, so its capacity says nothing about its members.

Beside the sets themselves two other accounts are kept of a sequence of operations: the members that each set
should have, and the sets that the operations give when there is no capacity.  One operation keeps the three
in agreement (`StateBits.exists_result?`, `StateBits.holds_states`), and so does every sequence, in which
no operation fails.  The main result is `StateBits.run_agrees_with_sets`.
-/
import Mathlib.Logic.Function.Basic
import RegexAutomata.Proofs.StateBits.Members

namespace RegexAutomata
namespace StateBits

variable {B : Type} [BitSet B]

/-! ### Sequences of operations -/

/-- What makes or changes a set; the sets are named by numbers. -/
inductive Operation where
  | withCapacity (x capacity : Nat)
  | singleton (x : Nat) (s : UInt32) (capacity : Nat)
  | ofList (x : Nat) (states : List UInt32)
  | insertAll (x : Nat) (states : List UInt32)
  | insert (x : Nat) (s : UInt32)
  | erase (x : Nat) (s : UInt32)
  | union (x y : Nat)
  | inter (x y z : Nat)
  | diff (x y z : Nat)
deriving DecidableEq

namespace Operation

/-- The name of the set that is made or changed. -/
def target : Operation → Nat
  | .withCapacity x _ | .singleton x _ _ | .ofList x _ | .insertAll x _ | .insert x _ | .erase x _
  | .union x _ | .inter x _ _ | .diff x _ _ => x

/-- The set that an operation gives. -/
def result? (sets : Nat → StateBits B) : Operation → Option (StateBits B)
  | .withCapacity _ capacity => some (StateBits.withCapacity capacity)
  | .singleton _ s capacity => singleton? s capacity
  | .ofList _ states => ofList? states
  | .insertAll x states => (sets x).insertAll? states
  | .insert x s => ((sets x).insert? s).map Prod.snd
  | .erase x s => (sets x).erase? s
  | .union x y => some ((sets x).union (sets y))
  | .inter _ y z => some ((sets y).inter (sets z))
  | .diff _ y z => some ((sets y).diff (sets z))

/-- The members that the set should have. -/
def members (M : Nat → Set UInt32) : Operation → Set UInt32
  | .withCapacity _ _ => ∅
  | .singleton _ s _ => {s}
  | .ofList _ states => {s | s ∈ states}
  | .insertAll x states => M x ∪ {s | s ∈ states}
  | .insert x s => Insert.insert s (M x)
  | .erase x s => M x \ {s}
  | .union x y => M x ∪ M y
  | .inter _ y z => M y ∩ M z
  | .diff _ y z => M y \ M z

/-- The set without a capacity that the operation gives. -/
def states (T : Nat → StateSet) : Operation → StateSet
  | .withCapacity _ _ => ∅
  | .singleton _ s _ => StateSet.singleton s.toNat
  | .ofList _ states => StateSet.ofList (states.map UInt32.toNat)
  | .insertAll x states => (T x).union (StateSet.ofList (states.map UInt32.toNat))
  | .insert x s => (T x).insert s.toNat
  | .erase x s => (T x).erase s.toNat
  | .union x y => (T x).union (T y)
  | .inter _ y z => (T y).inter (T z)
  | .diff _ y z => (T y).diff (T z)

end Operation

/-- Carry out an operation. -/
def step? (sets : Nat → StateBits B) (op : Operation) : Option (Nat → StateBits B) :=
  (op.result? sets).map (Function.update sets op.target)

/-- Carry out operations from left to right.  In the beginning no set has members or room for any. -/
def run? (ops : List Operation) : Option (Nat → StateBits B) :=
  ops.foldlM step? fun _ => withCapacity 0

/-- The members that an operation leaves each set. -/
def stepMembers (M : Nat → Set UInt32) (op : Operation) : Nat → Set UInt32 :=
  Function.update M op.target (op.members M)

/-- The members that each set should have in the end. -/
def membersAfter (ops : List Operation) : Nat → Set UInt32 := ops.foldl stepMembers fun _ => ∅

/-- Carry out an operation without capacities. -/
def stepStates (T : Nat → StateSet) (op : Operation) : Nat → StateSet :=
  Function.update T op.target (op.states T)

/-- The sets without a capacity in the end. -/
def statesAfter (ops : List Operation) : Nat → StateSet := ops.foldl stepStates fun _ => ∅

/-! ### What one operation does -/

variable {sets : Nat → StateBits B} {M : Nat → Set UInt32} {T : Nat → StateSet}

/-- A relation between things of one name holds as well when both get another thing of that name, if
those are related. -/
lemma forall_update {α β : Type} {r : α → β → Prop} {f : Nat → α} {g : Nat → β} {a : α} {b : β}
    (h : ∀ x, r (f x) (g x)) (hab : r a b) (t x : Nat) :
    r (Function.update f t a x) (Function.update g t b x) := by
  by_cases hx : x = t
  · subst hx
    simpa using hab
  · simpa [hx] using h x

lemma holds_states (h : ∀ x, (T x).Holds (M x)) (op : Operation) :
    (op.states T).Holds (op.members M) := by
  cases op with
  | withCapacity x capacity => simp [StateSet.Holds, Operation.states, Operation.members]
  | singleton x s capacity => simp [StateSet.Holds, Operation.states, Operation.members]
  | ofList x states =>
    ext n
    simp [Operation.states, Operation.members]
  | insertAll x states =>
    rw [StateSet.Holds, Operation.members, Set.image_union, ← h x]
    ext n
    simp [Operation.states]
  | insert x s =>
    rw [StateSet.Holds, Operation.members, Set.image_insert_eq, ← h x]
    ext n
    simp [Operation.states]
  | erase x s =>
    rw [StateSet.Holds, Operation.members, Set.image_sdiff toNat_injective, Set.image_singleton, ← h x]
    ext n
    simp [Operation.states]
  | union x y =>
    rw [StateSet.Holds, Operation.members, Set.image_union, ← h x, ← h y]
    ext n
    simp [Operation.states]
  | inter x y z =>
    rw [StateSet.Holds, Operation.members, Set.image_inter toNat_injective, ← h y, ← h z]
    ext n
    simp [Operation.states]
  | diff x y z =>
    rw [StateSet.Holds, Operation.members, Set.image_sdiff toNat_injective, ← h y, ← h z]
    ext n
    simp [Operation.states]

variable [LawfulBitSet B]

/-- No operation fails, and the set that it gives has the members that it should have. -/
lemma exists_result? (h : ∀ x, (sets x).Holds (M x)) (op : Operation) :
    ∃ S, op.result? sets = some S ∧ S.Holds (op.members M) := by
  cases op with
  | withCapacity x capacity => exact ⟨_, rfl, holds_withCapacity capacity⟩
  | singleton x s capacity =>
    obtain ⟨new, S, hS, -, hSM⟩ := (holds_withCapacity (B := B) capacity).insert? s
    refine ⟨S, ?_, by simpa [Operation.members] using hSM⟩
    rw [Operation.result?, singleton?, hS, Option.map_some]
  | ofList x states =>
    obtain ⟨S, hS, hSM⟩ := (holds_withCapacity (B := B) 0).insertAll? states
    exact ⟨S, hS, by simpa [Operation.members] using hSM⟩
  | insertAll x states => exact (h x).insertAll? states
  | insert x s =>
    obtain ⟨new, S, hS, -, hSM⟩ := (h x).insert? s
    refine ⟨S, ?_, hSM⟩
    rw [Operation.result?, hS, Option.map_some]
  | erase x s => exact (h x).erase? s
  | union x y => exact ⟨_, rfl, (h x).union (h y)⟩
  | inter x y z => exact ⟨_, rfl, (h y).inter (h z)⟩
  | diff x y z => exact ⟨_, rfl, (h y).diff (h z)⟩

/-! ### What sequences of operations do -/

lemma holds_foldl_stepStates (h : ∀ x, (T x).Holds (M x)) (ops : List Operation) (x : Nat) :
    (ops.foldl stepStates T x).Holds (ops.foldl stepMembers M x) := by
  induction ops generalizing T M with
  | nil => exact h x
  | cons op ops ih => exact ih (forall_update h (holds_states h op) op.target)

lemma exists_foldlM_step? (h : ∀ x, (sets x).Holds (M x)) (ops : List Operation) :
    ∃ sets', ops.foldlM step? sets = some sets' ∧
      ∀ x, (sets' x).Holds (ops.foldl stepMembers M x) := by
  induction ops generalizing sets M with
  | nil => exact ⟨sets, rfl, h⟩
  | cons op ops ih =>
    obtain ⟨S, hS, hSM⟩ := exists_result? h op
    obtain ⟨sets', hsets', hM⟩ := ih (forall_update h hSM op.target)
    refine ⟨sets', ?_, hM⟩
    rw [List.foldlM_cons, step?, hS]
    exact hsets'

lemma holds_statesAfter (ops : List Operation) (x : Nat) :
    (statesAfter ops x).Holds (membersAfter ops x) := by
  refine holds_foldl_stepStates (fun _ => ?_) ops x
  simp [StateSet.Holds]

/-- Make, change and combine sets of any capacities by any operations.  None of them fails, and in the end
each set has the members that it should have, whatever its capacity has become: it answers every question
accordingly, among them whether a state is new when it is added, and lists them in the order of the set
without a capacity.  Two sets have a member in common if their members meet, and they are equal, and no
hash map tells them apart, exactly if they have the same members. -/
theorem run_agrees_with_sets (ops : List Operation) :
    ∃ sets : Nat → StateBits B, run? ops = some sets ∧
      (∀ x, (sets x).Answers (membersAfter ops x)) ∧
      (∀ x, (sets x).toList.map UInt32.toNat = (statesAfter ops x).toList) ∧
      ∀ x y,
        ((sets x).intersects (sets y) = true ↔ (membersAfter ops x ∩ membersAfter ops y).Nonempty) ∧
        ((sets x == sets y) = true ↔ membersAfter ops x = membersAfter ops y) ∧
        ∀ H, @Interchangeable _ _ (hashable H) (sets x) (sets y) ↔
          membersAfter ops x = membersAfter ops y := by
  have hstart : ∀ _ : Nat, (withCapacity 0 : StateBits B).Holds ∅ := fun _ => holds_withCapacity 0
  obtain ⟨sets, hrun, hM⟩ := exists_foldlM_step? hstart ops
  refine ⟨sets, hrun, fun x => (hM x).answers, ?_, ?_⟩
  · exact fun x => (hM x).map_toNat_toList_eq (holds_statesAfter ops x)
  · intro x y
    exact ⟨(hM x).intersects_iff (hM y), (hM x).beq_iff_members_eq (hM y),
      (hM x).interchangeable_iff (hM y)⟩

/-- Four sets: one with little room, one that has grown for a state and lost it, one of two states, and what
the last two have in common. -/
def unevenCapacities : List Operation :=
  [.withCapacity 0 4, .insert 0 2, .singleton 1 2 8, .insert 1 50, .erase 1 50, .ofList 2 [70, 2],
    .inter 3 2 1]

theorem run_agrees_with_sets_of_unevenCapacities :
    ∃ sets : Nat → StateBits (List Bool), run? unevenCapacities = some sets ∧
      [0, 1, 2, 3].map (fun x => BitSet.length (sets x).bits) = [4, 51, 71, 71] ∧
      (sets 0 == sets 1) = true ∧ (sets 0 == sets 2) = false ∧ (sets 0).intersects (sets 2) = true ∧
      ∀ H, @Interchangeable _ _ (hashable H) (sets 0) (sets 3) := by
  obtain ⟨sets, hrun, -, -, htwo⟩ := run_agrees_with_sets (B := List Bool) unevenCapacities
  -- the laws do not say how long the bit sets are, so the lengths are evaluated
  have hlengths : (run? unevenCapacities).map (fun sets : Nat → StateBits (List Bool) =>
      [0, 1, 2, 3].map fun x => BitSet.length (sets x).bits) = some [4, 51, 71, 71] := by decide
  rw [hrun, Option.map_some, Option.some.injEq] at hlengths
  obtain ⟨h0, h1, h2, h3⟩ : membersAfter unevenCapacities 0 = {2} ∧
      membersAfter unevenCapacities 1 = {2} ∧ membersAfter unevenCapacities 2 = {s | s ∈ [70, 2]} ∧
      membersAfter unevenCapacities 3 = {2} := by
    simp [membersAfter, unevenCapacities, stepMembers, Operation.members, Operation.target]
  have h02 : membersAfter unevenCapacities 0 ≠ membersAfter unevenCapacities 2 := by
    rw [h0, h2]
    intro heq
    have hmem : (70 : UInt32) ∈ ({2} : Set UInt32) := heq ▸ List.mem_cons_self
    exact absurd hmem (by decide)
  refine ⟨sets, hrun, hlengths, (htwo 0 1).2.1.mpr (h0.trans h1.symm), ?_, (htwo 0 2).1.mpr ?_,
    fun H => ((htwo 0 3).2.2 H).mpr (h0.trans h3.symm)⟩
  · exact Bool.eq_false_iff.mpr fun heq => h02 ((htwo 0 2).2.1.mp heq)
  · rw [h0, h2]
    exact ⟨2, by simp⟩

end StateBits
end RegexAutomata
