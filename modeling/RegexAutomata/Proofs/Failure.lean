/-
# Computations that may fail

A sequence of computations succeeds exactly if each of them does, and what every step of a fold keeps
is kept by the fold.

If a sequence of computations fails, its fault is that of the first that fails (`fault?_mapM`,
`fault?_foldlM`).
-/
import Mathlib.Data.List.Forall2
import Mathlib.Tactic.Lemma

namespace RegexAutomata

variable {α β ε : Type}

lemma ok_bind {a : α} {f : α → Except ε β} : (.ok a >>= f) = f a := rfl

lemma error_bind {e : ε} {f : α → Except ε β} : (.error e >>= f) = .error e := rfl

lemma bind_eq_ok_iff {x : Except ε α} {f : α → Except ε β} {b : β} :
    (x >>= f) = .ok b ↔ ∃ a, x = .ok a ∧ f a = .ok b := by
  cases x with
  | error e => simp [bind, Except.bind]
  | ok a => simp [bind, Except.bind]

lemma bind_eq_error_iff {x : Except ε α} {f : α → Except ε β} {e : ε} :
    (x >>= f) = .error e ↔ x = .error e ∨ ∃ a, x = .ok a ∧ f a = .error e := by
  cases x with
  | error e => simp [bind, Except.bind]
  | ok a => simp [bind, Except.bind]

lemma map_eq_ok_iff {x : Except ε α} {f : α → β} {b : β} :
    f <$> x = .ok b ↔ ∃ a, x = .ok a ∧ f a = b := by
  cases x with
  | error e => simp [Functor.map, Except.map]
  | ok a => simp [Functor.map, Except.map]

lemma map_eq_error_iff {x : Except ε α} {f : α → β} {e : ε} : f <$> x = .error e ↔ x = .error e := by
  cases x with
  | error e => simp [Functor.map, Except.map]
  | ok a => simp [Functor.map, Except.map]

/-- What is returned in the end adds no faults. -/
lemma bind_pure_eq_error_iff {x : Except ε α} {f : α → β} {e : ε} :
    (x >>= fun a => pure (f a)) = .error e ↔ x = .error e := by
  rw [bind_pure_comp, map_eq_error_iff]

/-- A computation succeeds if a check of its result does, and what follows from the check holds of the
result. -/
lemma exists_eq_ok_and {x : Except ε α} {p q : α → Prop} [DecidablePred p]
    (h : (x.toOption.any fun a => p a) = true) (hq : ∀ a, x = .ok a → p a → q a) :
    ∃ a, x = .ok a ∧ q a := by
  cases x with
  | error e => exact absurd h (by simp [Except.toOption])
  | ok a => exact ⟨a, rfl, hq a rfl (by simpa [Except.toOption] using h)⟩

/-- A computation for each element of a list succeeds exactly if all of them do. -/
lemma mapM_eq_ok_iff {f : α → Except ε β} {xs : List α} {ys : List β} :
    xs.mapM f = .ok ys ↔ List.Forall₂ (fun x y => f x = .ok y) xs ys := by
  induction xs generalizing ys with
  | nil =>
    rw [List.mapM_nil, List.forall₂_nil_left_iff]
    exact ⟨fun h => (Except.ok.inj h).symm, fun h => h ▸ rfl⟩
  | cons x xs ih =>
    rw [List.mapM_cons, bind_eq_ok_iff, List.forall₂_cons_left_iff]
    simp only [bind_eq_ok_iff, ih]
    constructor
    · rintro ⟨y, hy, ys', hys', h⟩
      exact ⟨y, ys', hy, hys', (Except.ok.inj h).symm⟩
    · rintro ⟨y, ys', hy, hys', rfl⟩
      exact ⟨y, hy, ys', hys', rfl⟩

/-- If what is made of each element of a list gives the element back, then so does the list. -/
lemma mapM_map_eq_pure {m : Type → Type} [Monad m] [LawfulMonad m] {f : β → m α} {g : α → β}
    {xs : List α} (h : ∀ x ∈ xs, f (g x) = pure x) : (xs.map g).mapM f = pure xs := by
  induction xs with
  | nil => rfl
  | cons x xs ih =>
    obtain ⟨hx, hxs⟩ := List.forall_mem_cons.mp h
    rw [List.map_cons, List.mapM_cons, hx, ih hxs, pure_bind, pure_bind]

/-- If nothing is computed for some element of a list, nothing is computed for the list. -/
lemma mapM_eq_none_of_mem {f : α → Option β} {xs : List α} {x : α} (hx : x ∈ xs)
    (hnone : f x = none) : xs.mapM f = none := by
  induction xs with
  | nil => exact absurd hx List.not_mem_nil
  | cons y xs ih =>
    rw [List.mapM_cons]
    rcases List.mem_cons.mp hx with rfl | hx
    · rw [hnone]
      rfl
    · rw [ih hx]
      cases f y <;> rfl

/-- What is computed for the elements of a list is computed for one of them. -/
lemma exists_mem_of_forall₂ {R : α → β → Prop} {xs : List α} {ys : List β} {y : β}
    (h : List.Forall₂ R xs ys) (hy : y ∈ ys) : ∃ x ∈ xs, R x y := by
  induction h with
  | nil => exact absurd hy (by simp)
  | cons hxy _ ih =>
    rcases List.mem_cons.mp hy with rfl | hy
    · exact ⟨_, List.mem_cons_self, hxy⟩
    · obtain ⟨x, hx, hxy⟩ := ih hy
      exact ⟨x, List.mem_cons_of_mem _ hx, hxy⟩

/-- A fold that may fail keeps what each of its steps keeps. -/
lemma foldlM_keeps {keeps : β → Prop} {f : β → α → Except ε β}
    (hf : ∀ b a b', keeps b → f b a = .ok b' → keeps b') {xs : List α} {b b' : β} (hb : keeps b)
    (h : xs.foldlM f b = .ok b') : keeps b' := by
  induction xs generalizing b with
  | nil =>
    rw [List.foldlM_nil] at h
    exact Except.ok.inj h ▸ hb
  | cons a xs ih =>
    rw [List.foldlM_cons] at h
    obtain ⟨m, hm, h⟩ := bind_eq_ok_iff.mp h
    exact ih (hf b a m hb hm) h

/-- If each step of a fold reads something from its element and goes on with what it has read, the fold
succeeds exactly if something can be read from every element. -/
lemma foldlM_eq_ok_iff {γ : Type} {f : β → α → Except ε β} {R : α → γ → Prop} {g : β → γ → β}
    (hf : ∀ b a b', f b a = .ok b' ↔ ∃ c, R a c ∧ g b c = b') {xs : List α} {b b' : β} :
    xs.foldlM f b = .ok b' ↔ ∃ cs, List.Forall₂ R xs cs ∧ cs.foldl g b = b' := by
  induction xs generalizing b with
  | nil =>
    rw [List.foldlM_nil]
    simp only [List.forall₂_nil_left_iff, exists_eq_left, List.foldl_nil]
    exact ⟨Except.ok.inj, fun h => h ▸ rfl⟩
  | cons a xs ih =>
    simp only [List.foldlM_cons, bind_eq_ok_iff, hf, ih, List.forall₂_cons_left_iff]
    constructor
    · rintro ⟨_, ⟨c, hc, rfl⟩, cs, hcs, h⟩
      exact ⟨c :: cs, ⟨c, cs, hc, hcs, rfl⟩, h⟩
    · rintro ⟨_, ⟨c, cs, hc, hcs, rfl⟩, h⟩
      exact ⟨_, ⟨c, hc, rfl⟩, cs, hcs, h⟩

/-- A fold succeeds if each step does, as long as what is kept holds of the steps so far. -/
lemma exists_foldlM (keeps : Nat → β → Prop) {f : β → α → Except ε β} {xs : List α} {b : β}
    (hb : keeps 0 b)
    (hf : ∀ i x, xs[i]? = some x → ∀ b, keeps i b → ∃ b', f b x = .ok b' ∧ keeps (i + 1) b') :
    ∃ b', xs.foldlM f b = .ok b' ∧ keeps xs.length b' := by
  induction xs generalizing b keeps with
  | nil => exact ⟨b, rfl, hb⟩
  | cons x xs ih =>
    obtain ⟨m, hm, hkeeps⟩ := hf 0 x rfl b hb
    obtain ⟨b', hfold, hb'⟩ :=
      ih (fun i => keeps (i + 1)) hkeeps fun i y hy => hf (i + 1) y hy
    exact ⟨b', by rw [List.foldlM_cons, hm, ok_bind, hfold], hb'⟩

/-! ### Faults -/

/-- Why a computation fails, if it does. -/
def fault? : Except ε α → Option ε
  | .error e => some e
  | .ok _ => none

lemma fault?_eq_some_iff {x : Except ε α} {e : ε} : fault? x = some e ↔ x = .error e := by
  cases x <;> simp [fault?]

lemma fault?_eq_none_iff {x : Except ε α} : fault? x = none ↔ ∃ a, x = .ok a := by
  cases x <;> simp [fault?]

/-- If a computation fails, its fault comes first. -/
lemma fault?_bind {x : Except ε α} {f : α → Except ε β} {e? : Option ε}
    (hf : ∀ a, x = .ok a → fault? (f a) = e?) : fault? (x >>= f) = (fault? x).or e? := by
  cases x with
  | error e => rfl
  | ok a => exact hf a rfl

/-- A step that cannot fail adds no faults. -/
lemma fault?_bind_of_none {x : Except ε α} {f : α → Except ε β} (hf : ∀ a, fault? (f a) = none) :
    fault? (x >>= f) = fault? x := by
  rw [fault?_bind fun a _ => hf a, Option.or_none]

lemma fault?_map {f : α → β} {x : Except ε α} : fault? (f <$> x) = fault? x := by
  cases x <;> rfl

lemma fault?_mapM {f : α → Except ε β} {xs : List α} :
    fault? (xs.mapM f) = xs.findSome? fun x => fault? (f x) := by
  induction xs with
  | nil => rfl
  | cons x xs ih =>
    have hrest : ∀ y, fault? (xs.mapM f >>= fun ys => pure (y :: ys)) =
        xs.findSome? fun x => fault? (f x) := fun y => (fault?_bind_of_none fun _ => rfl).trans ih
    rw [List.mapM_cons, fault?_bind fun y _ => hrest y, List.findSome?_cons]
    cases fault? (f x) <;> rfl

/-- The faults of the steps of a fold may depend on the elements only, as long as something is kept. -/
lemma fault?_foldlM_of_keeps (keeps : β → Prop) {f : β → α → Except ε β} {g : α → Option ε} {xs : List α}
    {b : β} (hb : keeps b) (hf : ∀ b, keeps b → ∀ a ∈ xs, fault? (f b a) = g a)
    (hkeeps : ∀ b a b', keeps b → f b a = .ok b' → keeps b') :
    fault? (xs.foldlM f b) = xs.findSome? g := by
  induction xs generalizing b with
  | nil => rfl
  | cons a xs ih =>
    have hrest : ∀ m, f b a = .ok m → fault? (xs.foldlM f m) = xs.findSome? g := fun m hm =>
      ih (hkeeps b a m hb hm) fun b hb a ha => hf b hb a (List.mem_cons_of_mem _ ha)
    rw [List.foldlM_cons, fault?_bind hrest, hf b hb a List.mem_cons_self, List.findSome?_cons]
    cases g a <;> rfl

lemma fault?_foldlM {f : β → α → Except ε β} {g : α → Option ε} {xs : List α} {b : β}
    (hf : ∀ b, ∀ a ∈ xs, fault? (f b a) = g a) : fault? (xs.foldlM f b) = xs.findSome? g :=
  fault?_foldlM_of_keeps (fun _ => True) trivial (fun b _ => hf b) fun _ _ _ _ _ => trivial

end RegexAutomata
