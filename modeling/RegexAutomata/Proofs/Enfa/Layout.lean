/-
# Where the parts of an automaton lie

Assembling an expression adds states and arcs to an automaton.  If the next free number is `k`, the
states are `k, k + 1, …, k + e.width - 1`: first those of the operands, from left to right, and then
the two states that the operator adds.  So each subexpression has an interval of its own, and its arcs
stay in that interval; the only arcs that join the intervals are the epsilon arcs of the operators.

What can be read from the entry to the exit of an expression (`Expr.Spans`) is computed here for each
operator from what can be read in its operands.
-/
import Mathlib.Tactic.Lemma
import Mathlib.Tactic.Tauto
import RegexAutomata.Enfa.Thompson
import RegexAutomata.Proofs.Enfa.Arcs
import RegexAutomata.Regex.Expr

namespace RegexAutomata
namespace Expr

/-- The number of states of an expression. -/
def width : Expr → Nat
  | symbol _ => 2
  | concat e f => e.width + f.width
  | alternate e f => e.width + f.width + 2
  | star e | plus e => e.width + 2

/-- The fragment of an expression with first state `k`. -/
def fragment (k : Nat) : Expr → Enfa.Fragment
  | symbol _ => ⟨k, k + 1⟩
  | concat e f => ⟨(e.fragment k).entry, (f.fragment (k + e.width)).exit⟩
  | alternate e f => ⟨k + e.width + f.width, k + e.width + f.width + 1⟩
  | star e | plus e => ⟨k + e.width, k + e.width + 1⟩

/-- The arcs of an expression with first state `k`, the latest first. -/
def arcs (k : Nat) : Expr → List Arc
  | symbol a => [⟨k, some a, k + 1⟩]
  | concat e f =>
    ⟨(e.fragment k).exit, none, (f.fragment (k + e.width)).entry⟩ ::
      (e.arcs k ++ f.arcs (k + e.width))
  | alternate e f =>
    let left := e.fragment k
    let right := f.fragment (k + e.width)
    let whole := k + e.width + f.width
    ⟨right.exit, none, whole + 1⟩ :: ⟨left.exit, none, whole + 1⟩ ::
      ⟨whole, none, right.entry⟩ :: ⟨whole, none, left.entry⟩ ::
        (e.arcs k ++ f.arcs (k + e.width))
  | star e =>
    let inner := e.fragment k
    let whole := k + e.width
    ⟨inner.exit, none, whole + 1⟩ :: ⟨inner.exit, none, inner.entry⟩ ::
      ⟨whole, none, whole + 1⟩ :: ⟨whole, none, inner.entry⟩ :: e.arcs k
  | plus e =>
    let inner := e.fragment k
    let whole := k + e.width
    ⟨inner.exit, none, whole + 1⟩ :: ⟨inner.exit, none, inner.entry⟩ ::
      ⟨whole, none, inner.entry⟩ :: e.arcs k

/-- A string can be read from the entry to the exit of an expression. -/
def Spans (e : Expr) (k : Nat) (w : List Char) : Prop :=
  Arc.Path (e.arcs k) (e.fragment k).entry w (e.fragment k).exit

variable {e f : Expr} {k : Nat} {b : Arc} {w : List Char}

/-! ### Every expression has an interval of its own -/

/-- The state lies in the interval of the expression. -/
def Covers (e : Expr) (k s : Nat) : Prop := k ≤ s ∧ s < k + e.width

lemma covers_concat_iff {s : Nat} :
    (concat e f).Covers k s ↔ e.Covers k s ∨ f.Covers (k + e.width) s := by
  simp only [Covers, width]
  omega

lemma covers_alternate_iff {s : Nat} :
    (alternate e f).Covers k s ↔ e.Covers k s ∨ f.Covers (k + e.width) s ∨
      s = k + e.width + f.width ∨ s = k + e.width + f.width + 1 := by
  simp only [Covers, width]
  omega

lemma covers_star_iff {s : Nat} :
    (star e).Covers k s ↔ e.Covers k s ∨ s = k + e.width ∨ s = k + e.width + 1 := by
  simp only [Covers, width]
  omega

lemma covers_plus_iff {s : Nat} :
    (plus e).Covers k s ↔ e.Covers k s ∨ s = k + e.width ∨ s = k + e.width + 1 := by
  simp only [Covers, width]
  omega

lemma covers_symbol_iff {a : Symbol} {s : Nat} : (symbol a).Covers k s ↔ s = k ∨ s = k + 1 := by
  simp only [Covers, width]
  omega

lemma covers_entry (e : Expr) (k : Nat) : e.Covers k (e.fragment k).entry := by
  induction e generalizing k with
  | symbol a => exact ⟨Nat.le_refl k, by simp [fragment, width]⟩
  | concat e f he _ =>
    have h := he k
    simp only [Covers, fragment, width] at h ⊢
    omega
  | alternate e f _ _ | star e _ | plus e _ =>
    simp only [Covers, fragment, width]
    omega

lemma covers_exit (e : Expr) (k : Nat) : e.Covers k (e.fragment k).exit := by
  induction e generalizing k with
  | symbol a => exact ⟨Nat.le_succ k, by simp [fragment, width]⟩
  | concat e f _ hf =>
    have h := hf (k + e.width)
    simp only [Covers, fragment, width] at h ⊢
    omega
  | alternate e f _ _ | star e _ | plus e _ =>
    simp only [Covers, fragment, width]
    omega

/-- The arcs of an expression stay in its interval, and none leads on from its exit. -/
lemma covers_of_mem_arcs (hb : b ∈ e.arcs k) :
    e.Covers k b.source ∧ e.Covers k b.target ∧ b.source ≠ (e.fragment k).exit := by
  induction e generalizing k with
  | symbol a =>
    obtain rfl : b = ⟨k, some a, k + 1⟩ := by simpa [arcs] using hb
    simp only [Covers, fragment, width]
    omega
  | concat e f he hf =>
    have hexit := e.covers_exit k
    have hentry := f.covers_entry (k + e.width)
    have hexit' := f.covers_exit (k + e.width)
    simp only [arcs, List.mem_cons, List.mem_append] at hb
    simp only [Covers, fragment, width] at he hf hexit hentry hexit' ⊢
    rcases hb with rfl | hb | hb
    · simp only
      omega
    · have h := he hb
      omega
    · have h := hf hb
      omega
  | alternate e f he hf =>
    have hentry := e.covers_entry k
    have hexit := e.covers_exit k
    have hentry' := f.covers_entry (k + e.width)
    have hexit' := f.covers_exit (k + e.width)
    simp only [arcs, List.mem_cons, List.mem_append] at hb
    simp only [Covers, fragment, width] at he hf hentry hexit hentry' hexit' ⊢
    rcases hb with rfl | rfl | rfl | rfl | hb | hb
    -- first the arcs of the operator
    any_goals (simp only; omega)
    · have h := he hb
      omega
    · have h := hf hb
      omega
  | star e he =>
    have hentry := e.covers_entry k
    have hexit := e.covers_exit k
    simp only [arcs, List.mem_cons] at hb
    simp only [Covers, fragment, width] at he hentry hexit ⊢
    rcases hb with rfl | rfl | rfl | rfl | hb
    any_goals (simp only; omega)
    have h := he hb
    omega
  | plus e he =>
    have hentry := e.covers_entry k
    have hexit := e.covers_exit k
    simp only [arcs, List.mem_cons] at hb
    simp only [Covers, fragment, width] at he hentry hexit ⊢
    rcases hb with rfl | rfl | rfl | hb
    any_goals (simp only; omega)
    have h := he hb
    omega

lemma not_covers_of_le {s : Nat} (h : k + e.width ≤ s) : ¬e.Covers k s :=
  fun hs => Nat.not_lt.mpr h hs.2

lemma not_covers_right {s : Nat} (h : e.Covers k s) : ¬f.Covers (k + e.width) s :=
  fun hs => not_covers_of_le hs.1 h

/-! ### What an operator reads -/

/-- No path leads on from the exit of an expression. -/
lemma eq_of_path_exit {d : Nat} (h : Arc.Path (e.arcs k) (e.fragment k).exit w d) :
    w = [] ∧ (e.fragment k).exit = d :=
  h.eq_of_no_source fun _ hb => (covers_of_mem_arcs hb).2.2

/-- A symbol reads one character that it admits. -/
lemma spans_symbol_iff {a : Symbol} :
    (symbol a).Spans k w ↔ ∃ x, w = [x] ∧ a.admits x = true := by
  constructor
  · intro h
    cases h with
    | epsilon arc _ => exact absurd arc (by simp [arcs])
    | symbol arc admits path =>
      obtain ⟨-, rfl, rfl⟩ : _ ∧ _ = a ∧ _ = k + 1 := by simpa [arcs] using arc
      obtain ⟨rfl, -⟩ := eq_of_path_exit path
      exact ⟨_, rfl, admits⟩
  · rintro ⟨x, rfl, admits⟩
    exact .symbol (List.mem_singleton_self _) admits (.refl _)

/-- A path through a concatenation goes through the first operand, over the joint and through the
second operand. -/
lemma spans_concat_iff :
    (concat e f).Spans k w ↔ ∃ u v, w = u ++ v ∧ e.Spans k u ∧ f.Spans (k + e.width) v := by
  constructor
  · intro h
    have hexit : ¬e.Covers k (f.fragment (k + e.width)).exit :=
      fun hs => not_covers_right hs (f.covers_exit _)
    refine Arc.Path.exits ?_ ?_ hexit h (e.covers_entry k)
    · -- the first operand is left over the joint only
      intro b hb hs
      simp only [arcs, List.mem_cons, List.mem_append] at hb
      rcases hb with rfl | hb | hb
      · exact Or.inr ⟨rfl, rfl⟩
      · exact Or.inl ⟨hb, (covers_of_mem_arcs hb).2.1⟩
      · exact absurd (covers_of_mem_arcs hb).1 (not_covers_right hs)
    · intro m v hm hv _
      have hm' : m = (f.fragment (k + e.width)).entry := by
        simp only [arcs, List.mem_cons, List.mem_append, Arc.mk.injEq, true_and] at hm
        rcases hm with rfl | hb | hb
        · rfl
        · exact absurd rfl (covers_of_mem_arcs hb).2.2
        · exact absurd (covers_of_mem_arcs hb).1 (not_covers_right (e.covers_exit k))
      subst hm'
      -- the second operand cannot be left
      refine Arc.Path.confined ?_ hv (f.covers_entry _)
      intro b hb hs
      simp only [arcs, List.mem_cons, List.mem_append] at hb
      rcases hb with rfl | hb | hb
      · exact absurd hs (not_covers_right (e.covers_exit k))
      · exact absurd hs (not_covers_right (covers_of_mem_arcs hb).1)
      · exact ⟨hb, (covers_of_mem_arcs hb).2.1⟩
  · rintro ⟨u, v, rfl, hu, hv⟩
    have hjoint : ⟨(e.fragment k).exit, none, (f.fragment (k + e.width)).entry⟩ ∈
        (concat e f).arcs k := List.mem_cons_self
    have hsub : e.arcs k ⊆ (concat e f).arcs k := fun b hb => by simp [arcs, hb]
    have hsub' : f.arcs (k + e.width) ⊆ (concat e f).arcs k := fun b hb => by simp [arcs, hb]
    exact (hu.mono hsub).append (.epsilon hjoint (hv.mono hsub'))

section
variable {arcs : List Arc} {d : Nat} {u : List Char} {us : List (List Char)}

/-- If an operand can be left for `d` only, a path from its entry to `d` reads what the operand reads. -/
lemma spans_of_path (hd : ¬e.Covers k d) (hsink : ∀ b ∈ arcs, b.source ≠ d)
    (hleave : ∀ b ∈ arcs, e.Covers k b.source →
      b ∈ e.arcs k ∨ b = ⟨(e.fragment k).exit, none, d⟩)
    (h : Arc.Path arcs (e.fragment k).entry w d) : e.Spans k w := by
  have hsplit : ∃ u v, w = u ++ v ∧ e.Spans k u ∧ v = [] := by
    refine Arc.Path.exits ?_ ?_ hd h (e.covers_entry k)
    · intro b hb hs
      rcases hleave b hb hs with hb | rfl
      · exact Or.inl ⟨hb, (covers_of_mem_arcs hb).2.1⟩
      · exact Or.inr ⟨rfl, rfl⟩
    · intro m v hm hv _
      rcases hleave _ hm (e.covers_exit k) with hb | hb
      · exact absurd rfl (covers_of_mem_arcs hb).2.2
      · -- the path has come to `d`, from which no arc leads on
        obtain rfl : m = d := (Arc.mk.inj hb).2.2
        exact (hv.eq_of_no_source hsink).1
  obtain ⟨u, v, rfl, hu, rfl⟩ := hsplit
  rwa [List.append_nil]

/-- If an operand can be left for `d` and for its own entry only, a path from its entry to `d` reads
one string of the operand after the other. -/
lemma spans_flatten_of_path (hd : ¬e.Covers k d) (hsink : ∀ b ∈ arcs, b.source ≠ d)
    (hleave : ∀ b ∈ arcs, e.Covers k b.source → b ∈ e.arcs k ∨
      b = ⟨(e.fragment k).exit, none, (e.fragment k).entry⟩ ∨ b = ⟨(e.fragment k).exit, none, d⟩)
    (h : Arc.Path arcs (e.fragment k).entry w d) :
    ∃ u us, w = u ++ List.flatten us ∧ e.Spans k u ∧ ∀ u ∈ us, e.Spans k u := by
  have hsplit : ∃ u v, w = u ++ v ∧ e.Spans k u ∧
      ∃ us, v = List.flatten us ∧ ∀ u ∈ us, e.Spans k u := by
    refine Arc.Path.exits ?_ ?_ hd h (e.covers_entry k)
    · intro b hb hs
      rcases hleave b hb hs with hb | rfl | rfl
      · exact Or.inl ⟨hb, (covers_of_mem_arcs hb).2.1⟩
      · exact Or.inr ⟨rfl, rfl⟩
      · exact Or.inr ⟨rfl, rfl⟩
    · intro m v hm hv hagain
      rcases hleave _ hm (e.covers_exit k) with hb | hb | hb
      · exact absurd rfl (covers_of_mem_arcs hb).2.2
      · -- the path begins the operand once more
        obtain rfl : m = (e.fragment k).entry := (Arc.mk.inj hb).2.2
        obtain ⟨u, _, rfl, hu, us, rfl, hus⟩ := hagain (e.covers_entry k)
        exact ⟨u :: us, rfl, List.forall_mem_cons.mpr ⟨hu, hus⟩⟩
      · obtain rfl : m = d := (Arc.mk.inj hb).2.2
        exact ⟨[], (hv.eq_of_no_source hsink).1, by simp⟩
  obtain ⟨u, _, rfl, hu, us, rfl, hus⟩ := hsplit
  exact ⟨u, us, rfl, hu, hus⟩

lemma path_of_spans (hsub : e.arcs k ⊆ arcs) (hout : ⟨(e.fragment k).exit, none, d⟩ ∈ arcs)
    (h : e.Spans k w) : Arc.Path arcs (e.fragment k).entry w d := by
  have hpath := (h.mono hsub).append (.epsilon hout (.refl d))
  rwa [List.append_nil] at hpath

lemma path_of_spans_flatten (hsub : e.arcs k ⊆ arcs)
    (hloop : ⟨(e.fragment k).exit, none, (e.fragment k).entry⟩ ∈ arcs)
    (hout : ⟨(e.fragment k).exit, none, d⟩ ∈ arcs) (hu : e.Spans k u)
    (hus : ∀ u ∈ us, e.Spans k u) : Arc.Path arcs (e.fragment k).entry (u ++ us.flatten) d := by
  induction us generalizing u with
  | nil => simpa using path_of_spans hsub hout hu
  | cons v us ih =>
    obtain ⟨hv, hus⟩ := List.forall_mem_cons.mp hus
    exact (hu.mono hsub).append (.epsilon hloop (ih hv hus))

end

/-- The arcs of an alternation by source: in the left operand, in the right operand, or its entry. -/
lemma source_of_mem_arcs_alternate (hb : b ∈ (alternate e f).arcs k) :
    (e.Covers k b.source ∧
      (b ∈ e.arcs k ∨ b = ⟨(e.fragment k).exit, none, k + e.width + f.width + 1⟩)) ∨
    (f.Covers (k + e.width) b.source ∧
      (b ∈ f.arcs (k + e.width) ∨
        b = ⟨(f.fragment (k + e.width)).exit, none, k + e.width + f.width + 1⟩)) ∨
    (b.source = k + e.width + f.width ∧ b.symbol? = none ∧
      (b.target = (e.fragment k).entry ∨ b.target = (f.fragment (k + e.width)).entry)) := by
  simp only [arcs, List.mem_cons, List.mem_append] at hb
  rcases hb with rfl | rfl | rfl | rfl | hb | hb
  · exact Or.inr (Or.inl ⟨f.covers_exit _, Or.inr rfl⟩)
  · exact Or.inl ⟨e.covers_exit k, Or.inr rfl⟩
  · exact Or.inr (Or.inr ⟨rfl, rfl, Or.inr rfl⟩)
  · exact Or.inr (Or.inr ⟨rfl, rfl, Or.inl rfl⟩)
  · exact Or.inl ⟨(covers_of_mem_arcs hb).1, Or.inl hb⟩
  · exact Or.inr (Or.inl ⟨(covers_of_mem_arcs hb).1, Or.inl hb⟩)

/-- A path through an alternation goes through one of the operands. -/
lemma spans_alternate_iff :
    (alternate e f).Spans k w ↔ e.Spans k w ∨ f.Spans (k + e.width) w := by
  constructor
  · intro h
    have hsink : ∀ b ∈ (alternate e f).arcs k, b.source ≠ ((alternate e f).fragment k).exit :=
      fun b hb => (covers_of_mem_arcs hb).2.2
    have hfirst : ∃ m, (m = (e.fragment k).entry ∨ m = (f.fragment (k + e.width)).entry) ∧
        Arc.Path ((alternate e f).arcs k) m w ((alternate e f).fragment k).exit := by
      refine h.first_of_epsilon ?_ (Nat.ne_of_lt (Nat.lt_succ_self _))
      intro b hb hs
      replace hs : b.source = k + e.width + f.width := hs
      rcases source_of_mem_arcs_alternate hb with ⟨hc, -⟩ | ⟨hc, -⟩ | ⟨-, htarget⟩
      · exact absurd hc (not_covers_of_le (by omega))
      · exact absurd hc (not_covers_of_le (by omega))
      · exact htarget
    have hexit : ((alternate e f).fragment k).exit = k + e.width + f.width + 1 := rfl
    obtain ⟨_, rfl | rfl, h⟩ := hfirst
    · refine Or.inl (spans_of_path (not_covers_of_le (by omega)) hsink ?_ h)
      intro b hb hs
      rcases source_of_mem_arcs_alternate hb with ⟨-, hb⟩ | ⟨hc, -⟩ | ⟨hc, -⟩
      · exact hb
      · exact absurd hc (not_covers_right hs)
      · exact absurd hs (not_covers_of_le (by omega))
    · refine Or.inr (spans_of_path (not_covers_of_le (by omega)) hsink ?_ h)
      intro b hb hs
      rcases source_of_mem_arcs_alternate hb with ⟨hc, -⟩ | ⟨-, hb⟩ | ⟨hc, -⟩
      · exact absurd hs (not_covers_right hc)
      · exact hb
      · exact absurd hs (not_covers_of_le (by omega))
  · have hsub : e.arcs k ⊆ (alternate e f).arcs k := fun b hb => by simp [arcs, hb]
    have hsub' : f.arcs (k + e.width) ⊆ (alternate e f).arcs k := fun b hb => by simp [arcs, hb]
    rintro (h | h)
    · have hpath := path_of_spans (d := ((alternate e f).fragment k).exit) hsub
        (by simp [arcs, fragment]) h
      exact .epsilon (by simp [arcs, fragment]) hpath
    · have hpath := path_of_spans (d := ((alternate e f).fragment k).exit) hsub'
        (by simp [arcs, fragment]) h
      exact .epsilon (by simp [arcs, fragment]) hpath

/-- The arcs of a repetition by source: in its body, or its entry. -/
lemma source_of_mem_arcs_plus (hb : b ∈ (plus e).arcs k) :
    (e.Covers k b.source ∧ (b ∈ e.arcs k ∨ b = ⟨(e.fragment k).exit, none, (e.fragment k).entry⟩ ∨
      b = ⟨(e.fragment k).exit, none, k + e.width + 1⟩)) ∨
    (b.source = k + e.width ∧ b.symbol? = none ∧ b.target = (e.fragment k).entry) := by
  simp only [arcs, List.mem_cons] at hb
  rcases hb with rfl | rfl | rfl | hb
  · exact Or.inl ⟨e.covers_exit k, Or.inr (Or.inr rfl)⟩
  · exact Or.inl ⟨e.covers_exit k, Or.inr (Or.inl rfl)⟩
  · exact Or.inr ⟨rfl, rfl, rfl⟩
  · exact Or.inl ⟨(covers_of_mem_arcs hb).1, Or.inl hb⟩

/-- A repetition that may be empty has one arc more, from its entry to its exit. -/
lemma mem_arcs_star_iff :
    b ∈ (star e).arcs k ↔ b = ⟨k + e.width, none, k + e.width + 1⟩ ∨ b ∈ (plus e).arcs k := by
  simp only [arcs, List.mem_cons]
  tauto

/-- From the body of a repetition an arc leads on in the body, to its entry again, or out. -/
lemma mem_arcs_plus_of_covers (hb : b ∈ (plus e).arcs k) (hs : e.Covers k b.source) :
    b ∈ e.arcs k ∨ b = ⟨(e.fragment k).exit, none, (e.fragment k).entry⟩ ∨
      b = ⟨(e.fragment k).exit, none, k + e.width + 1⟩ := by
  rcases source_of_mem_arcs_plus hb with ⟨-, hb⟩ | ⟨hsource, -⟩
  · exact hb
  · exact absurd hs (not_covers_of_le (Nat.le_of_eq hsource.symm))

lemma mem_arcs_star_of_covers (hb : b ∈ (star e).arcs k) (hs : e.Covers k b.source) :
    b ∈ e.arcs k ∨ b = ⟨(e.fragment k).exit, none, (e.fragment k).entry⟩ ∨
      b = ⟨(e.fragment k).exit, none, k + e.width + 1⟩ := by
  rcases mem_arcs_star_iff.mp hb with rfl | hb
  · exact absurd hs (not_covers_of_le (Nat.le_refl _))
  · exact mem_arcs_plus_of_covers hb hs

/-- The entry of a repetition leads to its body. -/
lemma target_of_mem_arcs_plus (hb : b ∈ (plus e).arcs k) (hs : b.source = k + e.width) :
    b.symbol? = none ∧ b.target = (e.fragment k).entry := by
  rcases source_of_mem_arcs_plus hb with ⟨hc, -⟩ | ⟨-, htarget⟩
  · exact absurd hc (not_covers_of_le (Nat.le_of_eq hs.symm))
  · exact htarget

/-- A path through a repetition goes through its body at least once. -/
lemma spans_plus_iff_flatten :
    (plus e).Spans k w ↔ ∃ u us, w = u ++ List.flatten us ∧ e.Spans k u ∧ ∀ u ∈ us, e.Spans k u := by
  have hsink : ∀ b ∈ (plus e).arcs k, b.source ≠ k + e.width + 1 :=
    fun b hb => (covers_of_mem_arcs hb).2.2
  constructor
  · intro h
    have hfirst : ∃ m, m = (e.fragment k).entry ∧
        Arc.Path ((plus e).arcs k) m w (k + e.width + 1) :=
      Arc.Path.first_of_epsilon (fun b hb hs => target_of_mem_arcs_plus hb hs)
        (Nat.ne_of_lt (Nat.lt_succ_self _)) h
    obtain ⟨_, rfl, h⟩ := hfirst
    exact spans_flatten_of_path (not_covers_of_le (Nat.le_succ _)) hsink
      (fun b hb hs => mem_arcs_plus_of_covers hb hs) h
  · rintro ⟨u, us, rfl, hu, hus⟩
    have hsub : e.arcs k ⊆ (plus e).arcs k := fun b hb => by simp [arcs, hb]
    have hpath := path_of_spans_flatten (d := k + e.width + 1) hsub (by simp [arcs])
      (by simp [arcs]) hu hus
    exact .epsilon (by simp [arcs, fragment]) hpath

/-- A path through a repetition that may be empty goes around its body or through it. -/
lemma spans_star_iff :
    (star e).Spans k w ↔ ∃ us : List (List Char), w = us.flatten ∧ ∀ u ∈ us, e.Spans k u := by
  have hsink : ∀ b ∈ (star e).arcs k, b.source ≠ k + e.width + 1 :=
    fun b hb => (covers_of_mem_arcs hb).2.2
  constructor
  · intro h
    have hfirst : ∃ m, (m = (e.fragment k).entry ∨ m = k + e.width + 1) ∧
        Arc.Path ((star e).arcs k) m w (k + e.width + 1) := by
      refine Arc.Path.first_of_epsilon ?_ (Nat.ne_of_lt (Nat.lt_succ_self _)) h
      intro b hb hs
      rcases mem_arcs_star_iff.mp hb with rfl | hb
      · exact ⟨rfl, Or.inr rfl⟩
      · obtain ⟨hnone, htarget⟩ := target_of_mem_arcs_plus hb hs
        exact ⟨hnone, Or.inl htarget⟩
    obtain ⟨_, rfl | rfl, h⟩ := hfirst
    · obtain ⟨u, us, rfl, hu, hus⟩ := spans_flatten_of_path (not_covers_of_le (Nat.le_succ _)) hsink
        (fun b hb hs => mem_arcs_star_of_covers hb hs) h
      exact ⟨u :: us, rfl, List.forall_mem_cons.mpr ⟨hu, hus⟩⟩
    · exact ⟨[], (h.eq_of_no_source hsink).1, by simp⟩
  · rintro ⟨_ | ⟨u, us⟩, rfl, hus⟩
    · -- around the body
      exact .epsilon (mem_arcs_star_iff.mpr (Or.inl rfl)) (.refl _)
    · obtain ⟨hu, hus⟩ := List.forall_mem_cons.mp hus
      have hplus : (plus e).Spans k (u ++ us.flatten) :=
        spans_plus_iff_flatten.mpr ⟨u, us, rfl, hu, hus⟩
      exact hplus.mono fun b hb => mem_arcs_star_iff.mpr (Or.inr hb)

lemma spans_plus_iff :
    (plus e).Spans k w ↔ ∃ u v, w = u ++ v ∧ e.Spans k u ∧ (star e).Spans k v := by
  rw [spans_plus_iff_flatten]
  constructor
  · rintro ⟨u, us, rfl, hu, hus⟩
    exact ⟨u, _, rfl, hu, spans_star_iff.mpr ⟨us, rfl, hus⟩⟩
  · rintro ⟨u, v, rfl, hu, hv⟩
    obtain ⟨us, rfl, hus⟩ := spans_star_iff.mp hv
    exact ⟨u, us, rfl, hu, hus⟩

/-- What can be read from the entry to the exit of an expression is what the expression stands for. -/
lemma spans_iff_matches : e.Spans k w ↔ e.Matches w := by
  induction e generalizing k w with
  | symbol a => rw [spans_symbol_iff, matches_symbol_iff]
  | concat e f he hf => simp only [spans_concat_iff, matches_concat_iff, he, hf]
  | alternate e f he hf => simp only [spans_alternate_iff, matches_alternate_iff, he, hf]
  | star e he => simp only [spans_star_iff, matches_star_iff, he]
  | plus e he => simp only [spans_plus_iff, matches_plus_iff, spans_star_iff, matches_star_iff, he]

end Expr
end RegexAutomata
