/-
# Brackets that match

A text is balanced if it closes as many brackets as it opens and no beginning of it closes more than it
opens.  The rest of such a text stands behind some open brackets, so `Balanced` speaks of a text behind
`depth` open brackets, and a whole text has the depth 0.

Read from the left, an opening bracket adds one to the depth, a closing bracket needs an open one and
takes it away, and all else leaves the depth as it is (`balanced_cons_opening`, `balanced_cons_closing`,
`balanced_cons_of_ne`).
-/
import Mathlib.Data.List.Infix
import Mathlib.Tactic.Lemma

namespace RegexAutomata

variable {α : Type}

/-- The beginnings of a nonempty list are the empty list and its first element with the beginnings of its
rest. -/
lemma forall_prefix_cons_iff {P : List α → Prop} {x : α} {xs : List α} :
    (∀ us, us <+: x :: xs → P us) ↔ P [] ∧ ∀ us, us <+: xs → P (x :: us) := by
  constructor
  · intro h
    refine ⟨h [] List.nil_prefix, fun us hus => h _ ?_⟩
    exact List.cons_prefix_cons.mpr ⟨rfl, hus⟩
  · rintro ⟨hnil, hcons⟩ us hus
    rcases List.prefix_cons_iff.mp hus with rfl | ⟨us', rfl, hus'⟩
    · exact hnil
    · exact hcons us' hus'

variable [DecidableEq α]

/-- Behind `depth` open brackets a text closes these and all that it opens, and no beginning of it closes
more than are open. -/
structure Balanced (opening closing : α) (depth : Nat) (xs : List α) : Prop where
  count_eq : xs.count closing = depth + xs.count opening
  count_le : ∀ us, us <+: xs → us.count closing ≤ depth + us.count opening

variable {opening closing x : α} {depth : Nat} {xs : List α}

@[simp] lemma balanced_nil : Balanced opening closing depth [] ↔ depth = 0 := by
  constructor
  · intro h
    have heq := h.count_eq
    simp only [List.count_nil] at heq
    omega
  · rintro rfl
    refine ⟨rfl, fun us hus => ?_⟩
    rw [List.prefix_nil.mp hus]
    exact Nat.le_refl 0

/-- An element changes the depth by the brackets that it opens and closes. -/
lemma balanced_cons_iff {depth' : Nat}
    (hdepth : depth' + [x].count closing = depth + [x].count opening) :
    Balanced opening closing depth (x :: xs) ↔ Balanced opening closing depth' xs := by
  have hcount : ∀ us : List α, (x :: us).count closing = [x].count closing + us.count closing ∧
      (x :: us).count opening = [x].count opening + us.count opening := fun us =>
    ⟨by rw [← List.singleton_append, List.count_append],
      by rw [← List.singleton_append, List.count_append]⟩
  constructor
  · rintro ⟨heq, hle⟩
    rw [forall_prefix_cons_iff] at hle
    refine ⟨?_, fun us hus => ?_⟩
    · have h := hcount xs
      omega
    · have h := hcount us
      have hle' := hle.2 us hus
      omega
  · rintro ⟨heq, hle⟩
    refine ⟨?_, forall_prefix_cons_iff.mpr ⟨Nat.zero_le _, fun us hus => ?_⟩⟩
    · have h := hcount xs
      omega
    · have h := hcount us
      have hle' := hle us hus
      omega

lemma balanced_cons_opening (hne : opening ≠ closing) :
    Balanced opening closing depth (opening :: xs) ↔ Balanced opening closing (depth + 1) xs := by
  have hopening : [opening].count opening = 1 := by simp
  have hclosing : [opening].count closing = 0 := by simp [hne]
  exact balanced_cons_iff (by omega)

lemma balanced_cons_closing (hne : opening ≠ closing) :
    Balanced opening closing depth (closing :: xs) ↔
      0 < depth ∧ Balanced opening closing (depth - 1) xs := by
  have hopening : [closing].count opening = 0 := by simp [hne.symm]
  have hclosing : [closing].count closing = 1 := by simp
  constructor
  · intro h
    -- the closing bracket alone is a beginning
    have hle := h.count_le [closing] (List.prefix_append [closing] xs)
    exact ⟨by omega, (balanced_cons_iff (by omega)).mp h⟩
  · rintro ⟨hpos, h⟩
    exact (balanced_cons_iff (by omega)).mpr h

lemma balanced_cons_of_ne (hopening : x ≠ opening) (hclosing : x ≠ closing) :
    Balanced opening closing depth (x :: xs) ↔ Balanced opening closing depth xs := by
  have hopening' : [x].count opening = 0 := by simp [hopening]
  have hclosing' : [x].count closing = 0 := by simp [hclosing]
  exact balanced_cons_iff (by omega)

/-- Texts without brackets leave the depth as it is. -/
lemma balanced_append_of_not_mem {us : List α} (hopening : opening ∉ us) (hclosing : closing ∉ us) :
    Balanced opening closing depth (us ++ xs) ↔ Balanced opening closing depth xs := by
  induction us with
  | nil => rfl
  | cons x us ih =>
    rw [List.mem_cons, not_or] at hopening hclosing
    rw [List.cons_append, balanced_cons_of_ne (Ne.symm hopening.1) (Ne.symm hclosing.1),
      ih hopening.2 hclosing.2]

/-- A balanced text begins with no closing bracket. -/
lemma Balanced.head?_ne (h : Balanced opening closing 0 xs) (hne : opening ≠ closing) :
    xs.head? ≠ some closing := by
  intro hhead
  obtain ⟨ys, rfl⟩ := List.head?_eq_some_iff.mp hhead
  exact absurd ((balanced_cons_closing hne).mp h).1 (Nat.lt_irrefl 0)

/-- A balanced text ends with no opening bracket. -/
lemma Balanced.getLast?_ne (h : Balanced opening closing 0 xs) (hne : opening ≠ closing) :
    xs.getLast? ≠ some opening := by
  intro hlast
  obtain ⟨ys, rfl⟩ := List.getLast?_eq_some_iff.mp hlast
  -- the text without its last bracket would close one more than it opens
  have heq := h.count_eq
  have hle := h.count_le ys (List.prefix_append ys [opening])
  rw [List.count_append, List.count_append, List.count_singleton_self,
    List.count_singleton, if_neg (by simpa using hne)] at heq
  omega

end RegexAutomata
