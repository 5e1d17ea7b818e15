/-
# The members of sets with a capacity

What a set of states holds is a matter of its bits: those that are on are the bits of the members
(`StateBits.Holds`).  So no bit is on whose place is too great for a number of 32 bits, and that is why the
places can be listed as states without two of them becoming one.

Each operation succeeds and has the effect on the members that one expects (`Holds.insert?` and what
follows it), and each question is answered by the members alone (`Holds.answers`, `Holds.intersects_iff`,
`Holds.beq_iff_members_eq`).  The capacity takes no part in either.

Sets with the same members also have the same hash, whatever the hash function, so that no hash map tells them
apart (`Holds.interchangeable_iff`).
-/
import Std.Data.HashMap
import Mathlib.Data.Set.Card
import RegexAutomata.Proofs.BitSet
import RegexAutomata.StateBits
import RegexAutomata.StateSet

namespace RegexAutomata

lemma toNat_injective : Function.Injective UInt32.toNat := fun _ _ h => UInt32.toNat_inj.mp h

/-- The states that a set without a capacity has are those of `M`. -/
def StateSet.Holds (T : StateSet) (M : Set UInt32) : Prop := {n | n ∈ T} = UInt32.toNat '' M

/-! ### Keys of hash maps -/

/-- No hash map tells the keys apart: they find the same value, and it makes no difference for which of them
a value is set or taken away. -/
structure Interchangeable {K : Type} [BEq K] [Hashable K] (a b : K) : Prop where
  getElem? : ∀ {V : Type} (m : Std.HashMap K V), m[a]? = m[b]?
  insert : ∀ {V : Type} (m : Std.HashMap K V) (v : V) (c : K), (m.insert a v)[c]? = (m.insert b v)[c]?
  erase : ∀ {V : Type} (m : Std.HashMap K V) (c : K), (m.erase a)[c]? = (m.erase b)[c]?

lemma interchangeable_iff_beq {K : Type} [BEq K] [Hashable K] [EquivBEq K] [LawfulHashable K]
    {a b : K} : Interchangeable a b ↔ (a == b) = true := by
  constructor
  · intro h
    have hone := h.getElem? ((∅ : Std.HashMap K Unit).insert a ())
    simp only [Std.HashMap.getElem?_insert, BEq.rfl, if_true] at hone
    by_contra hne
    simp [hne] at hone
  · intro h
    have hcongr : ∀ c, (a == c) = (b == c) := fun c => BEq.congr_left h
    refine ⟨fun m => Std.HashMap.getElem?_congr h, fun m v c => ?_, fun m c => ?_⟩
    · simp only [Std.HashMap.getElem?_insert, hcongr]
    · simp only [Std.HashMap.getElem?_erase, hcongr]

namespace StateBits

variable {B : Type} [BitSet B] {S T : StateBits B} {M N : Set UInt32} {s : UInt32} {i : Nat}

lemma beq_iff_toList_eq : (S == T) = true ↔ S.toList = T.toList := beq_iff_eq (α := List UInt32)

instance : EquivBEq (StateBits B) where
  rfl := beq_iff_toList_eq.mpr rfl
  symm := fun h => beq_iff_toList_eq.mpr (beq_iff_toList_eq.mp h).symm
  trans := fun h h' => beq_iff_toList_eq.mpr ((beq_iff_toList_eq.mp h).trans (beq_iff_toList_eq.mp h'))

/-- Equal sets write the same words. -/
lemma lawfulHashable (H : Hasher) : @LawfulHashable (StateBits B) _ (hashable H) := by
  let _ := hashable (B := B) H
  refine ⟨fun S T h => ?_⟩
  change H.finish (S.hashInto H H.start) = H.finish (T.hashInto H H.start)
  rw [hashInto, beq_iff_toList_eq.mp h, ← hashInto]

/-! ### What a set holds -/

/-- The bits that are on are those of the states of `M`. -/
def Holds (S : StateBits B) (M : Set UInt32) : Prop :=
  {i | BitSet.get S.bits i = true} = UInt32.toNat '' M

/-- What a set with the members `M` is to answer. -/
structure Answers (S : StateBits B) (M : Set UInt32) : Prop where
  contains_iff : ∀ s, S.contains s = true ↔ s ∈ M
  size_eq_ncard : S.size = M.ncard
  isEmpty_iff : S.isEmpty = true ↔ M = ∅
  min?_eq_some_iff : ∀ s, S.min? = some s ↔ IsLeast M s
  mem_toList : ∀ s, s ∈ S.toList ↔ s ∈ M
  ascending : S.toList.Pairwise (· < ·)
  insert? : ∀ s, ∃ new T, S.insert? s = some (new, T) ∧ (new = true ↔ s ∉ M)

namespace Holds

lemma get_iff (h : S.Holds M) : BitSet.get S.bits i = true ↔ ∃ s ∈ M, s.toNat = i :=
  Set.ext_iff.mp h i

lemma contains_iff (h : S.Holds M) : S.contains s = true ↔ s ∈ M :=
  (Set.ext_iff.mp h s.toNat).trans toNat_injective.mem_set_image

end Holds

variable [LawfulBitSet B]

/-! ### What the operations do -/

lemma holds_withCapacity (capacity : Nat) : (withCapacity capacity : StateBits B).Holds ∅ := by
  simp [Holds, withCapacity, LawfulBitSet.get_ofLength]

namespace Holds

lemma insert? (h : S.Holds M) (s : UInt32) :
    ∃ new T, S.insert? s = some (new, T) ∧ (new = true ↔ s ∉ M) ∧ T.Holds (insert s M) := by
  obtain ⟨c, hput, hc⟩ := LawfulBitSet.put?_of_lt (BitSet.le_length_reserve S.bits (s.toNat + 1))
  simp only [BitSet.get_reserve] at hput hc
  refine ⟨!BitSet.get S.bits s.toNat, ⟨c⟩, ?_, ?_, ?_⟩
  · rw [StateBits.insert?, hput]
    rfl
  · rw [Bool.not_eq_true', ← Bool.not_eq_true]
    exact not_congr h.contains_iff
  · -- making room has left the bits as they were, and one bit was turned on
    calc {i | BitSet.get c i = true}
        = insert s.toNat {i | BitSet.get S.bits i = true} := by ext i; simp [hc, or_comm]
      _ = UInt32.toNat '' insert s M := by rw [h, Set.image_insert_eq]

lemma insertAll? (h : S.Holds M) (states : List UInt32) :
    ∃ T, S.insertAll? states = some T ∧ T.Holds (M ∪ {s | s ∈ states}) := by
  induction states generalizing S M with
  | nil => exact ⟨S, rfl, by simpa using h⟩
  | cons s states ih =>
    obtain ⟨new, T, hT, -, hTM⟩ := h.insert? s
    obtain ⟨U, hU, hUM⟩ := ih hTM
    refine ⟨U, ?_, ?_⟩
    · rw [StateBits.insertAll?, List.foldlM_cons, hT]
      exact hU
    · have hmem : insert s M ∪ {x | x ∈ states} = M ∪ {x | x ∈ s :: states} := by
        ext x
        simp only [Set.mem_union, Set.mem_insert_iff, Set.mem_ofPred_eq, List.mem_cons]
        tauto
      rwa [hmem] at hUM

/-- A state beyond the capacity is no member, so there is nothing to take away. -/
lemma erase? (h : S.Holds M) (s : UInt32) : ∃ T, S.erase? s = some T ∧ T.Holds (M \ {s}) := by
  rw [StateBits.erase?]
  split
  · rename_i hs
    obtain ⟨c, hassign, hc⟩ := LawfulBitSet.assign?_of_lt false hs
    refine ⟨⟨c⟩, by rw [hassign]; rfl, ?_⟩
    calc {i | BitSet.get c i = true}
        = {i | BitSet.get S.bits i = true} \ {s.toNat} := by ext i; simp [hc, and_comm]
      _ = UInt32.toNat '' (M \ {s}) := by
        rw [h, Set.image_sdiff toNat_injective, Set.image_singleton]
  · rename_i hs
    have hnot : s ∉ M := fun hsM => hs (BitSet.lt_length_of_get (h.contains_iff.mpr hsM))
    exact ⟨S, rfl, by rwa [Set.sdiff_singleton_eq_self hnot]⟩

lemma union (h : S.Holds M) (h' : T.Holds N) : (S.union T).Holds (M ∪ N) := by
  have hlen := BitSet.le_length_reserve S.bits (BitSet.length T.bits)
  calc {i | BitSet.get (S.union T).bits i = true}
      = {i | BitSet.get S.bits i = true} ∪ {i | BitSet.get T.bits i = true} := by
        ext i; simp [StateBits.union, LawfulBitSet.get_union i hlen]
    _ = UInt32.toNat '' (M ∪ N) := by rw [h, h', Set.image_union]

lemma inter (h : S.Holds M) (h' : T.Holds N) : (S.inter T).Holds (M ∩ N) := by
  calc {i | BitSet.get (S.inter T).bits i = true}
      = {i | BitSet.get S.bits i = true} ∩ {i | BitSet.get T.bits i = true} := by
        ext i; simp [StateBits.inter, LawfulBitSet.get_inter]
    _ = UInt32.toNat '' (M ∩ N) := by rw [h, h', Set.image_inter toNat_injective]

lemma diff (h : S.Holds M) (h' : T.Holds N) : (S.diff T).Holds (M \ N) := by
  calc {i | BitSet.get (S.diff T).bits i = true}
      = {i | BitSet.get S.bits i = true} \ {i | BitSet.get T.bits i = true} := by
        ext i; simp [StateBits.diff, LawfulBitSet.get_diff]
    _ = UInt32.toNat '' (M \ N) := by rw [h, h', Set.image_sdiff toNat_injective]

/-! ### What one set answers -/

/-- Listed as states the places of the bits that are on stay what they are. -/
lemma map_toNat_toList (h : S.Holds M) : S.toList.map UInt32.toNat = BitSet.ones S.bits := by
  rw [toList, List.map_map]
  refine (List.map_congr_left fun i hi => ?_).trans (List.map_id _)
  -- the place is the number of a member, so its lowest 32 bits are all of it
  obtain ⟨s, -, rfl⟩ := h.get_iff.mp (BitSet.mem_ones.mp hi)
  rw [Function.comp_apply, UInt32.ofNat_toNat, id]

lemma mem_toList (h : S.Holds M) : s ∈ S.toList ↔ s ∈ M := by
  rw [← h.contains_iff, contains, ← BitSet.mem_ones, ← h.map_toNat_toList,
    List.mem_map_of_injective toNat_injective]

lemma ascending (h : S.Holds M) : S.toList.Pairwise (· < ·) := by
  have hones := BitSet.pairwise_ones S.bits
  rw [← h.map_toNat_toList, List.pairwise_map] at hones
  exact hones.imp UInt32.lt_iff_toNat_lt.mpr

lemma size_eq_ncard (h : S.Holds M) : S.size = M.ncard := by
  have hM : M = S.toList.toFinset := by
    ext s
    simp [h.mem_toList]
  have hnodup : S.toList.Nodup := h.ascending.imp fun hlt heq => by simp [heq] at hlt
  rw [size, BitSet.count_eq_length_ones, ← h.map_toNat_toList, List.length_map, hM,
    Set.ncard_coe_finset, List.toFinset_card_of_nodup hnodup]

lemma isEmpty_iff (h : S.Holds M) : S.isEmpty = true ↔ M = ∅ := by
  rw [← Set.image_eq_empty (f := UInt32.toNat), ← h, Set.eq_empty_iff_forall_notMem, isEmpty,
    LawfulBitSet.isClear_iff]
  simp

/-- The first member that is listed is the least. -/
lemma isLeast_of_min? (h : S.Holds M) (hs : S.min? = some s) : IsLeast M s := by
  obtain ⟨rest, hrest⟩ := List.head?_eq_some_iff.mp hs
  have hasc := h.ascending
  rw [hrest, List.pairwise_cons] at hasc
  refine ⟨h.mem_toList.mp (by simp [hrest]), fun t ht => ?_⟩
  have ht := h.mem_toList.mpr ht
  rw [hrest, List.mem_cons] at ht
  rcases ht with rfl | ht
  · exact UInt32.le_refl _
  · exact UInt32.le_of_lt (hasc.1 t ht)

lemma min?_eq_some_iff (h : S.Holds M) : S.min? = some s ↔ IsLeast M s := by
  refine ⟨h.isLeast_of_min?, fun hs => ?_⟩
  have hmem := h.mem_toList.mpr hs.1
  cases hmin : S.min? with
  | none => simp [List.head?_eq_none_iff.mp hmin] at hmem
  | some t =>
    have ht := h.isLeast_of_min? hmin
    rw [UInt32.le_antisymm (hs.2 ht.1) (ht.2 hs.1)]

lemma answers (h : S.Holds M) : S.Answers M where
  contains_iff := fun _ => h.contains_iff
  size_eq_ncard := h.size_eq_ncard
  isEmpty_iff := h.isEmpty_iff
  min?_eq_some_iff := fun _ => h.min?_eq_some_iff
  mem_toList := fun _ => h.mem_toList
  ascending := h.ascending
  insert? := by
    intro s
    obtain ⟨new, T, hT, hnew, -⟩ := h.insert? s
    exact ⟨new, T, hT, hnew⟩

/-- A set without a capacity that has the same members lists them in the same order. -/
lemma map_toNat_toList_eq (h : S.Holds M) {U : StateSet} (hU : U.Holds M) :
    S.toList.map UInt32.toNat = U.toList := by
  rw [h.map_toNat_toList]
  refine StateSet.eq_of_ascending (BitSet.pairwise_ones S.bits) U.ascending fun n => ?_
  exact BitSet.mem_ones.trans (Set.ext_iff.mp (Eq.trans h (Eq.symm hU)) n)

/-! ### What two sets answer -/

lemma intersects_iff (h : S.Holds M) (h' : T.Holds N) :
    S.intersects T = true ↔ (M ∩ N).Nonempty := by
  rw [← Set.image_nonempty (f := UInt32.toNat), Set.image_inter toNat_injective, ← h, ← h', intersects,
    List.isSome_head?, Ne, List.eq_nil_iff_forall_not_mem, not_forall_not]
  simp [Set.Nonempty, LawfulBitSet.mem_common]

lemma beq_iff_members_eq (h : S.Holds M) (h' : T.Holds N) : (S == T) = true ↔ M = N := by
  rw [beq_iff_toList_eq]
  constructor
  · intro heq
    ext s
    rw [← h.mem_toList, heq, h'.mem_toList]
  · rintro rfl
    exact h.ascending.eq_of_mem_iff h'.ascending fun s => h.mem_toList.trans h'.mem_toList.symm

lemma interchangeable_iff (h : S.Holds M) (h' : T.Holds N) (H : Hasher) :
    @Interchangeable _ _ (hashable H) S T ↔ M = N := by
  let _ := hashable (B := B) H
  have _ := lawfulHashable (B := B) H
  exact interchangeable_iff_beq.trans (h.beq_iff_members_eq h')

end Holds

end StateBits

end RegexAutomata
