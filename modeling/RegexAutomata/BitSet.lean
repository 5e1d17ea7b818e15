/-
# Bit sets

A bit set is a row of bits, each of them on or off, with a length.  A bit beyond the length is off, and what
comes of changing it is not said: it can fail.  One has to make the set longer first.

How a bit set keeps its bits is left open.  `BitSet` lists what bit sets can do, and `LawfulBitSet` says
what comes of it, as far as the bits tell.  Lists of truth values are bit sets of the plainest kind.
-/

namespace RegexAutomata

/-- What bit sets can do. -/
class BitSet (B : Type) where
  /-- As many bits as given, all off. -/
  ofLength : Nat → B
  /-- The number of bits, on or off. -/
  length : B → Nat
  /-- Whether a bit is on. -/
  get : B → Nat → Bool
  /-- Add bits that are off until there are as many as given. -/
  grow : B → Nat → B
  /-- Turn a bit on, and tell whether it was on before. -/
  put? : B → Nat → Option (Bool × B)
  /-- Turn a bit on or off. -/
  assign? : B → Nat → Bool → Option B
  /-- Whether no bit is on. -/
  isClear : B → Bool
  /-- The number of bits that are on. -/
  count : B → Nat
  /-- The places of the bits that are on. -/
  ones : B → List Nat
  /-- Turn the bits on that are on in the second set. -/
  union : B → B → B
  /-- Turn the bits off that are off in the second set. -/
  inter : B → B → B
  /-- Turn the bits off that are on in the second set. -/
  diff : B → B → B
  /-- The places of the bits that are on in both sets. -/
  common : B → B → List Nat

open BitSet

/-- What comes of the operations of bit sets. -/
class LawfulBitSet (B : Type) [BitSet B] : Prop where
  /-- A bit beyond the length is off. -/
  get_of_length_le {b : B} {i : Nat} : length b ≤ i → get b i = false
  get_ofLength (n i : Nat) : get (ofLength n : B) i = false
  le_length_grow (b : B) (n : Nat) : n ≤ length (grow b n)
  get_grow (b : B) (n i : Nat) : get (grow b n) i = get b i
  /-- A bit within the length can be turned on, and no other bit changes. -/
  put?_of_lt {b : B} {i : Nat} : i < length b →
    ∃ c, put? b i = some (get b i, c) ∧ ∀ j, get c j = (get b j || j == i)
  /-- A bit within the length can be turned on or off, and no other bit changes. -/
  assign?_of_lt {b : B} {i : Nat} (on : Bool) : i < length b →
    ∃ c, assign? b i on = some c ∧ ∀ j, get c j = if j = i then on else get b j
  isClear_iff {b : B} : isClear b = true ↔ ∀ i, get b i = false
  count_eq (b : B) : count b = (List.range (length b)).countP (get b)
  /-- The places are listed in ascending order. -/
  ones_eq (b : B) : ones b = (List.range (length b)).filter (get b)
  /-- A set can be joined with one that is no longer. -/
  get_union {a b : B} (i : Nat) : length b ≤ length a → get (union a b) i = (get a i || get b i)
  get_inter (a b : B) (i : Nat) : get (inter a b) i = (get a i && get b i)
  get_diff (a b : B) (i : Nat) : get (diff a b) i = (get a i && !get b i)
  mem_common {a b : B} {i : Nat} : i ∈ common a b ↔ get a i = true ∧ get b i = true

namespace BitSet

/-- A bit set that has at least as many bits as given: one that is too short grows. -/
def reserve {B : Type} [BitSet B] (b : B) (n : Nat) : B := if length b < n then grow b n else b

/-- A list of truth values is a bit set, and a place beyond its end is off. -/
instance : BitSet (List Bool) where
  ofLength n := List.replicate n false
  length b := b.length
  get b i := b[i]?.getD false
  grow b n := b ++ List.replicate (n - b.length) false
  put? b i := if i < b.length then some (b[i]?.getD false, b.set i true) else none
  assign? b i on := if i < b.length then some (b.set i on) else none
  isClear b := b.all (!·)
  count b := b.count true
  ones b := (List.range b.length).filter (b[·]?.getD false)
  union a b := (List.range (max a.length b.length)).map fun i => a[i]?.getD false || b[i]?.getD false
  inter a b := (List.range a.length).map fun i => a[i]?.getD false && b[i]?.getD false
  diff a b := (List.range a.length).map fun i => a[i]?.getD false && !b[i]?.getD false
  common a b := (List.range a.length).filter fun i => a[i]?.getD false && b[i]?.getD false

end BitSet

end RegexAutomata
