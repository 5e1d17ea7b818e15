/-
# The laws of bit sets

Lists of truth values obey the laws of bit sets.

From the laws follows what sets of states need: the places of the bits that are on are listed in ascending
order (`BitSet.pairwise_ones`), and room can be made for a bit without changing any
(`BitSet.le_length_reserve`, `BitSet.get_reserve`).
-/
import Mathlib.Tactic.Lemma
import RegexAutomata.BitSet

namespace RegexAutomata
namespace BitSet

/-! ### Lists of truth values -/

section Bools

variable {b : List Bool} {i n : Nat}

lemma get_bools (b : List Bool) (i : Nat) : get b i = b[i]?.getD false := rfl

lemma get_bools_of_length_le (h : b.length ≤ i) : get b i = false := by
  simp [get_bools, h]

lemma get_bools_map_range {f : Nat → Bool} (h : n ≤ i → f i = false) :
    get ((List.range n).map f) i = f i := by
  by_cases hi : i < n
  · simp [get_bools, hi]
  · simp [get_bools, hi, h (Nat.le_of_not_lt hi)]

lemma get_bools_set (h : i < b.length) (on : Bool) (j : Nat) :
    get (b.set i on) j = if j = i then on else get b j := by
  by_cases hj : j = i
  · subst hj
    simp [get_bools, h]
  · simp [get_bools, hj, Ne.symm hj]

lemma count_bools (b : List Bool) : b.count true = (List.range b.length).countP (get b) := by
  induction b with
  | nil => rfl
  | cons on b ih =>
    have hrest : get (on :: b) ∘ Nat.succ = get b := by
      funext i
      simp [get_bools]
    rw [List.length_cons, List.range_succ_eq_map, List.countP_cons, List.countP_map, hrest, ← ih,
      List.count_cons]
    cases on <;> rfl

instance : LawfulBitSet (List Bool) where
  get_of_length_le := get_bools_of_length_le
  get_ofLength := by
    intro n i
    by_cases hi : i < n <;> simp [get_bools, ofLength, hi]
  le_length_grow := by
    intro b n
    simp only [length, grow, List.length_append, List.length_replicate]
    omega
  get_grow := by
    intro b n i
    by_cases hi : i < b.length
    · simp [get_bools, grow, List.getElem?_append_left hi]
    · have hi : b.length ≤ i := Nat.le_of_not_lt hi
      simp only [get_bools, grow, List.getElem?_append_right hi]
      by_cases hn : i - b.length < n - b.length <;> simp [hn, hi]
  put?_of_lt := by
    intro b i hi
    refine ⟨b.set i true, if_pos hi, fun j => ?_⟩
    rw [get_bools_set hi]
    by_cases hj : j = i <;> simp [hj]
  assign?_of_lt := fun {b i} on hi => ⟨b.set i on, if_pos hi, get_bools_set hi on⟩
  isClear_iff := by
    intro b
    simp only [isClear, List.all_eq_true, Bool.not_eq_true']
    constructor
    · intro h i
      cases hi : b[i]? with
      | none => simp [get_bools, hi]
      | some on =>
        rw [get_bools, hi]
        exact h on (List.mem_of_getElem? hi)
    · intro h on hon
      obtain ⟨i, hi⟩ := List.getElem?_of_mem hon
      simpa [get_bools, hi] using h i
  count_eq := count_bools
  ones_eq := fun _ => rfl
  get_union := by
    intro a b i _
    refine get_bools_map_range fun hi => ?_
    obtain ⟨ha, hb⟩ := Nat.max_le.mp hi
    simp [ha, hb]
  get_inter := fun a b i => get_bools_map_range fun hi => by simp [hi]
  get_diff := fun a b i => get_bools_map_range fun hi => by simp [hi]
  mem_common := by
    intro a b i
    simp only [common, List.mem_filter, List.mem_range, Bool.and_eq_true]
    refine and_iff_right_of_imp fun h => Nat.lt_of_not_le fun hi => ?_
    exact Bool.false_ne_true ((get_bools_of_length_le hi).symm.trans h.1)

end Bools

/-! ### What follows from the laws -/

variable {B : Type} [BitSet B] [LawfulBitSet B] {b : B} {i : Nat}

open LawfulBitSet

lemma lt_length_of_get (h : get b i = true) : i < length b :=
  Nat.lt_of_not_le fun hi => Bool.false_ne_true ((get_of_length_le hi).symm.trans h)

lemma le_length_reserve (b : B) (n : Nat) : n ≤ length (reserve b n) := by
  rw [reserve]
  split
  · exact le_length_grow b n
  · omega

@[simp] lemma get_reserve (b : B) (n i : Nat) : get (reserve b n) i = get b i := by
  rw [reserve]
  split
  · exact get_grow b n i
  · rfl

lemma mem_ones : i ∈ ones b ↔ get b i = true := by
  rw [ones_eq, List.mem_filter, List.mem_range]
  exact and_iff_right_of_imp lt_length_of_get

lemma pairwise_ones (b : B) : (ones b).Pairwise (· < ·) := by
  rw [ones_eq]
  exact List.pairwise_lt_range.filter _

lemma count_eq_length_ones (b : B) : count b = (ones b).length := by
  rw [count_eq, ones_eq, List.countP_eq_length_filter]

end BitSet
end RegexAutomata
