/-
# Paths of labelled moves

States and labelled moves between them are met in several forms: as the table of an automaton, as its
arcs, as the records of a file.  A path is the same in all of them: a sequence of moves, each of which
begins where the one before it ends.  If every move of one form is answered by a move of another, then
so is every path, and the labels of the two paths correspond one to one (`LabelPath.follow`).
-/
import Mathlib.Data.List.Forall2
import Mathlib.Tactic.Lemma

namespace RegexAutomata

/-- There is a path of moves from one state to another on which some labels are met in order. -/
inductive LabelPath {σ α : Type} (move : σ → α → σ → Prop) : σ → List α → σ → Prop
  /-- The empty path has no labels. -/
  | refl (s : σ) : LabelPath move s [] s
  /-- A path is extended in front by a move to where it begins. -/
  | cons {s m t : σ} {a : α} {labels : List α} (first : move s a m)
    (rest : LabelPath move m labels t) : LabelPath move s (a :: labels) t

namespace LabelPath

variable {σ τ α β : Type} {move : σ → α → σ → Prop} {move' : τ → β → τ → Prop}

@[simp] lemma nil_iff {s t : σ} : LabelPath move s [] t ↔ s = t := by
  constructor
  · rintro ⟨⟩
    rfl
  · rintro rfl
    exact .refl s

@[simp] lemma cons_iff {s t : σ} {a : α} {labels : List α} :
    LabelPath move s (a :: labels) t ↔ ∃ m, move s a m ∧ LabelPath move m labels t := by
  constructor
  · rintro (_ | ⟨first, rest⟩)
    exact ⟨_, first, rest⟩
  · rintro ⟨m, first, rest⟩
    exact .cons first rest

/-- A path is followed by a path from any related state, if each move is. -/
lemma follow {s t : σ} {labels : List α} (h : LabelPath move s labels t) {R : σ → τ → Prop}
    {Q : α → β → Prop} {s' : τ} (hs : R s s')
    (hmove : ∀ s a m s', R s s' → move s a m → ∃ b m', Q a b ∧ move' s' b m' ∧ R m m') :
    ∃ labels' t', List.Forall₂ Q labels labels' ∧ LabelPath move' s' labels' t' ∧ R t t' := by
  induction h generalizing s' with
  | refl => exact ⟨[], s', .nil, .refl s', hs⟩
  | cons first _ ih =>
    obtain ⟨b, m', hb, first', hm⟩ := hmove _ _ _ _ hs first
    obtain ⟨labels', t', hlabels, rest', ht⟩ := ih hm
    exact ⟨b :: labels', t', .cons hb hlabels, .cons first' rest', ht⟩

end LabelPath

/-- If lists correspond one to one, what is said of the elements of one in turn can be said of the
elements of the other. -/
lemma forall₂_congr_of_forall₂ {α β γ : Type} {P : α → β → Prop} {Q : α → γ → Prop} {R : β → γ → Prop}
    (h : ∀ {a b}, P a b → ∀ c, Q a c ↔ R b c) {xs : List α} {ys : List β} {zs : List γ}
    (hP : List.Forall₂ P xs ys) : List.Forall₂ Q xs zs ↔ List.Forall₂ R ys zs := by
  induction hP generalizing zs with
  | nil => simp only [List.forall₂_nil_left_iff]
  | cons hab _ ih => simp only [List.forall₂_cons_left_iff, h hab, ih]

end RegexAutomata
