/-
# Sets of states with a capacity

A set of states can be kept as a bit set, with one bit for each state below its *capacity*.  States are
numbers of 32 bits here.  A set gets room for a state when the state is added, so its capacity
depends on how it was made, and sets with the same members can have different capacities.

Nothing a set is asked looks at its capacity: two sets are equal if they list the same members, and for a hash
the members are written one after the other.

Bits beyond the capacity cannot be changed, so the operations that change single bits could fail
(`StateBits.insert?`, `StateBits.erase?` and those that rest on them).
-/
import RegexAutomata.BitSet

namespace RegexAutomata

/-- A set of states, kept as a bit for each state below its capacity. -/
structure StateBits (B : Type) where
  /-- The bit of a state is on if the state is a member. -/
  bits : B

/-- What makes a hash of words of 32 bits that are written one after the other. -/
structure Hasher where
  /-- What is known of the words written so far. -/
  State : Type
  start : State
  write : State → UInt32 → State
  finish : State → UInt64

namespace StateBits

variable {B : Type} [BitSet B]

/-! ### Making and changing sets -/

/-- The set without members, with a given capacity. -/
def withCapacity (capacity : Nat) : StateBits B := ⟨BitSet.ofLength capacity⟩

/-- Add a state, and tell whether it was not a member before. -/
def insert? (S : StateBits B) (s : UInt32) : Option (Bool × StateBits B) :=
  (BitSet.put? (BitSet.reserve S.bits (s.toNat + 1)) s.toNat).map fun (was, bits) => (!was, ⟨bits⟩)

/-- Add states one after the other. -/
def insertAll? (S : StateBits B) (states : List UInt32) : Option (StateBits B) :=
  states.foldlM (fun S s => (S.insert? s).map Prod.snd) S

/-- The set of one state, with a given capacity if the state is below it. -/
def singleton? (s : UInt32) (capacity : Nat) : Option (StateBits B) :=
  ((withCapacity capacity).insert? s).map Prod.snd

/-- The set of the states in a list. -/
def ofList? (states : List UInt32) : Option (StateBits B) := (withCapacity 0).insertAll? states

/-- Take a state away.  Beyond the capacity there is nothing to take away. -/
def erase? (S : StateBits B) (s : UInt32) : Option (StateBits B) :=
  if s.toNat < BitSet.length S.bits then (BitSet.assign? S.bits s.toNat false).map (⟨·⟩)
  else some S

/-- The members of either set. -/
def union (S T : StateBits B) : StateBits B :=
  ⟨BitSet.union (BitSet.reserve S.bits (BitSet.length T.bits)) T.bits⟩

/-- The members of both sets. -/
def inter (S T : StateBits B) : StateBits B := ⟨BitSet.inter S.bits T.bits⟩

/-- The members of the first set that are not in the second. -/
def diff (S T : StateBits B) : StateBits B := ⟨BitSet.diff S.bits T.bits⟩

/-! ### Asking a set -/

/-- Whether a state is a member. -/
def contains (S : StateBits B) (s : UInt32) : Bool := BitSet.get S.bits s.toNat

/-- Whether the set has no member. -/
def isEmpty (S : StateBits B) : Bool := BitSet.isClear S.bits

/-- The number of members. -/
def size (S : StateBits B) : Nat := BitSet.count S.bits

/-- The places of the bits that are on, as states: of a place only the lowest 32 bits count. -/
def toList (S : StateBits B) : List UInt32 := (BitSet.ones S.bits).map UInt32.ofNat

/-- The first member that is listed. -/
def min? (S : StateBits B) : Option UInt32 := S.toList.head?

/-- Whether two sets have a member in common. -/
def intersects (S T : StateBits B) : Bool := (BitSet.common S.bits T.bits).head?.isSome

/-- Sets are equal if they list the same members. -/
instance : BEq (StateBits B) := ⟨fun S T => S.toList == T.toList⟩

/-- Write the members, in the order in which they are listed. -/
def hashInto (S : StateBits B) (H : Hasher) (h : H.State) : H.State := S.toList.foldl H.write h

/-- The hash of a set is made of its members. -/
@[reducible] def hashable (H : Hasher) : Hashable (StateBits B) :=
  ⟨fun S => H.finish (S.hashInto H H.start)⟩

end StateBits

end RegexAutomata
