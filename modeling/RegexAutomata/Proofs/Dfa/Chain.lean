/-
# Rounds of refinement as they are gone through

Scanning the members of a class in order puts each of them into the first group whose least member agrees
with it.  Agreeing is an equivalence, so the first group gets exactly the members that agree with the first of
them, and the others are scanned as if they were alone (`foldl_joinGroup_cons`): scanning divides the class as
`StateSet.splitBy` does.  Hence the rounds that scan are the rounds of `Dfa.refine`
(`Dfa.refineScanning_eq`).

The loop stops after the first round that changes nothing (`Dfa.loopAfter_eq`).  Each round before makes more
classes, so it always stops.  The main result is `Dfa.loop_refines`.
-/
import RegexAutomata.Dfa.Scan
import RegexAutomata.Proofs.Dfa.ClassTable
import RegexAutomata.Proofs.Dfa.Order
import RegexAutomata.Proofs.Dfa.Reachability

namespace RegexAutomata

/-! ### Scanning a class -/

namespace StateSet

variable {C : StateSet} {r x : Nat} {xs : List Nat}

lemma min?_insert (hmin : C.min? = some r) (hlt : r < x) : (C.insert x).min? = some r := by
  obtain ⟨hr, hle⟩ := min?_eq_some_iff.mp hmin
  refine min?_eq_some_iff.mpr ⟨mem_insert.mpr (.inr hr), fun y hy => ?_⟩
  rcases mem_insert.mp hy with rfl | hy
  · exact Nat.le_of_lt hlt
  · exact hle y hy

lemma mem_foldl_insert : x ∈ xs.foldl insert C ↔ x ∈ C ∨ x ∈ xs := by
  induction xs generalizing C with
  | nil => simp
  | cons y xs ih => rw [List.foldl_cons, ih, mem_insert, List.mem_cons, or_comm (a := x = y), or_assoc]

lemma foldl_insert_singleton : xs.foldl insert (singleton x) = ofList (x :: xs) := by
  ext y
  rw [mem_foldl_insert, mem_singleton, mem_ofList, List.mem_cons]

end StateSet

section

variable {agrees : Nat → Nat → Bool} {groups refined : List StateSet} {C : StateSet} {xs : List Nat}

/-- The first group takes the states that agree with its least member, and the other groups take the rest. -/
lemma foldl_joinGroup_cons {r : Nat} (hmin : C.min? = some r) (hlt : ∀ x ∈ xs, r < x) :
    xs.foldl (joinGroup agrees) (C :: groups) =
      (xs.filter (agrees r)).foldl StateSet.insert C ::
        (xs.filter (!agrees r ·)).foldl (joinGroup agrees) groups := by
  induction xs generalizing C groups with
  | nil => rfl
  | cons x xs ih =>
    obtain ⟨hx, hlt⟩ := List.forall_mem_cons.mp hlt
    rw [List.foldl_cons, joinGroup, hmin, Option.any_some]
    by_cases hagree : agrees r x = true
    · have hmin' := StateSet.min?_insert hmin hx
      rw [if_pos hagree, ih hmin' hlt, List.filter_cons_of_pos hagree, List.foldl_cons,
        List.filter_cons_of_neg (by simp [hagree])]
    · rw [if_neg hagree, ih hmin hlt, List.filter_cons_of_neg hagree,
        List.filter_cons_of_pos (by simp [hagree]), List.foldl_cons]

variable {κ : Type} [DecidableEq κ] {key : Nat → κ}

lemma groupByKey_map_cons (x : Nat) (xs : List Nat) :
    groupByKey ((x :: xs).map fun s => (key s, s)) =
      (x :: xs.filter (key · = key x)) ::
        groupByKey ((xs.filter (key · ≠ key x)).map fun s => (key s, s)) := by
  rw [List.map_cons, groupByKey]
  simp [List.filter_map, Function.comp_def]

/-- Scanning groups states by a value, if states agree that have the same value. -/
lemma foldl_joinGroup_eq (hagrees : ∀ s t, agrees s t = true ↔ key s = key t)
    (hxs : xs.Pairwise (· < ·)) :
    xs.foldl (joinGroup agrees) [] =
      (groupByKey (xs.map fun s => (key s, s))).map StateSet.ofList := by
  induction hn : xs.length using Nat.strongRecOn generalizing xs with
  | ind n ih =>
    subst hn
    cases xs with
    | nil => rw [List.foldl_nil, List.map_nil, groupByKey, List.map_nil]
    | cons x xs =>
      obtain ⟨hlt, hxs⟩ := List.pairwise_cons.mp hxs
      have hmin : (StateSet.singleton x).min? = some x := rfl
      have hsame : xs.filter (agrees x) = xs.filter (key · = key x) :=
        List.filter_congr fun y _ => by
          rw [Bool.eq_iff_iff, hagrees, decide_eq_true_iff, eq_comm]
      have hother : xs.filter (!agrees x ·) = xs.filter (key · ≠ key x) :=
        List.filter_congr fun y _ => by
          rw [Bool.eq_iff_iff, Bool.not_eq_true', ← Bool.not_eq_true, hagrees, decide_eq_true_iff, eq_comm]
      have hlength : (xs.filter (key · ≠ key x)).length < (x :: xs).length :=
        Nat.lt_succ_of_le (List.length_filter_le _ _)
      rw [List.foldl_cons, joinGroup, foldl_joinGroup_cons hmin hlt, hsame, hother,
        ih _ hlength (hxs.filter _) rfl, groupByKey_map_cons, List.map_cons,
        StateSet.foldl_insert_singleton]

/-- Groups of earlier classes are not touched. -/
lemma foldl_joinGroup_append :
    xs.foldl (fun groups s =>
      groups.take refined.length ++ joinGroup agrees (groups.drop refined.length) s)
        (refined ++ groups) = refined ++ xs.foldl (joinGroup agrees) groups := by
  induction xs generalizing groups with
  | nil => rfl
  | cons x xs ih =>
    rw [List.foldl_cons, List.take_left, List.drop_left, ih, List.foldl_cons]

lemma scanClass_eq (hagrees : ∀ s t, agrees s t = true ↔ key s = key t) :
    scanClass agrees refined C = refined ++ C.splitBy key := by
  have hparts : Divides (C.splitBy key) C := StateSet.divides_splitBy
  rw [scanClass]
  split
  · rename_i hsize
    have hsome : 0 < C.toList.length := Nat.lt_of_lt_of_eq Nat.one_pos hsize.symm
    have hpos := hparts.length_pos (List.getElem_mem hsome)
    have hle := hparts.length_le_size
    rw [hparts.eq_singleton (by omega)]
  · have happend := @foldl_joinGroup_append agrees [] refined C.toList
    rw [List.append_nil] at happend
    rw [happend, foldl_joinGroup_eq hagrees C.ascending]
    rfl

end

/-! ### A round -/

namespace Dfa

variable {d : Dfa} {P : List StateSet} {S : StateSet} {table : Array (Option Nat)} {n k : Nat}

lemma agree_iff {s t : Nat} : d.agree table s t = true ↔
    d.alphabet.ids.map (d.destinationClass table s) = d.alphabet.ids.map (d.destinationClass table t) := by
  simp only [agree, List.all_eq_true, beq_iff_eq, List.map_inj_left]

/-- A round that scans the classes divides them as one that compares what the states of a class lead to. -/
lemma refineScanning_eq (d : Dfa) (P : List StateSet) : d.refineScanning P = d.refineChecked P := by
  rw [refineScanning, refineChecked]
  refine congrArg _ (funext fun table => congrArg _ ?_)
  rw [List.flatMap_eq_foldl]
  exact congrArg (fun f => P.foldl f []) (funext₂ fun _ _ => scanClass_eq fun _ _ => agree_iff)

/-- What a round makes of the classes one by one. -/
lemma exists_parts (h : Divides P S) (hS : ∀ s ∈ S, s < d.numStates) :
    ∃ parts, d.refineScanning P = .ok parts.flatten ∧ Divides parts.flatten S ∧
      List.Forall₂ (fun C Ds => Divides Ds C ∧ Ds.Pairwise StateSet.Precedes) P parts := by
  refine ⟨P.map (StateSet.splitBy (d.signature (classIndex P))), ?_, ?_, ?_⟩
  · rw [refineScanning_eq, refineChecked_eq h hS, refine, List.flatMap_def]
  · rw [← List.flatMap_def]
    exact divides_refine h
  · rw [List.forall₂_map_right_iff, List.forall₂_same]
    exact fun C _ => ⟨StateSet.divides_splitBy, StateSet.pairwise_precedes_splitBy⟩

/-! ### Acceptance -/

/-- The classes of states that are not final come first, and then those of final states. -/
def FinalsLast (d : Dfa) (P : List StateSet) : Prop :=
  ∃ Q R, P = Q ++ R ∧ (∀ C ∈ Q, ∀ x ∈ C, x ∉ d.finals) ∧ ∀ C ∈ R, ∀ x ∈ C, x ∈ d.finals

lemma finalsLast_initialClasses (d : Dfa) : d.FinalsLast d.initialClasses := by
  refine ⟨[d.live.diff d.finals].filter (!·.isEmpty), [d.live.inter d.finals].filter (!·.isEmpty),
    ?_, ?_, ?_⟩
  · rw [← List.filter_append]
    rfl
  · intro C hC x hx
    rw [List.mem_singleton.mp (List.mem_filter.mp hC).1] at hx
    exact (StateSet.mem_diff.mp hx).2
  · intro C hC x hx
    rw [List.mem_singleton.mp (List.mem_filter.mp hC).1] at hx
    exact (StateSet.mem_inter.mp hx).2

/-- What holds of the members of classes holds of the members of their parts. -/
lemma forall_mem_parts {p : Nat → Prop} {key : Nat → List (Option Nat)} (h : ∀ C ∈ P, ∀ x ∈ C, p x) :
    ∀ C ∈ P.flatMap (StateSet.splitBy key), ∀ x ∈ C, p x := by
  intro C hC x hx
  obtain ⟨D, hD, hC⟩ := List.mem_flatMap.mp hC
  exact h D hD x (StateSet.divides_splitBy.mem_of_mem hC hx)

/-- The parts of a class stand where the class has stood. -/
lemma FinalsLast.refine (h : d.FinalsLast P) : d.FinalsLast (d.refine P) := by
  obtain ⟨Q, R, hP, hQ, hR⟩ := h
  refine ⟨Q.flatMap (StateSet.splitBy (d.signature (classIndex P))),
    R.flatMap (StateSet.splitBy (d.signature (classIndex P))), ?_, forall_mem_parts hQ,
    forall_mem_parts hR⟩
  rw [← List.flatMap_append, ← hP, Dfa.refine]

lemma finalsLast_iterate_refine (h : d.FinalsLast P) (n : Nat) : d.FinalsLast (d.refine^[n] P) := by
  induction n with
  | zero => exact h
  | succ n ih =>
    rw [Function.iterate_succ_apply']
    exact ih.refine

/-! ### The loop -/

/-- The members of a class move, on each symbol, to members of the same class, or none of them moves to a
member of any. -/
def Settled (d : Dfa) (P : List StateSet) : Prop :=
  ∀ C ∈ P, ∀ x ∈ C, ∀ y ∈ C, ∀ a ∈ d.alphabet.ids, ∀ D ∈ P,
    (∃ t ∈ D, d.step x a = some t) ↔ ∃ t ∈ D, d.step y a = some t

lemma Stable.settled (h : d.Stable P S) : d.Settled P := by
  intro C hC x hx y hy a ha D hD
  obtain ⟨i, hi⟩ := List.mem_iff_getElem?.mp hD
  have hlead : ∀ s, (∃ t ∈ D, d.step s a = some t) ↔
      (d.step s a).bind ((classIndex P)[·]?) = some i := by
    intro s
    rw [Option.bind_eq_some_iff]
    constructor
    · rintro ⟨t, ht, hstep⟩
      exact ⟨t, hstep, (getElem?_classIndex h.divides.disjoint).mpr ⟨D, hi, ht⟩⟩
    · rintro ⟨t, hstep, ht⟩
      obtain ⟨D', hD', ht⟩ := (getElem?_classIndex h.divides.disjoint).mp ht
      rw [hi, Option.some.injEq] at hD'
      exact ⟨t, hD' ▸ ht, hstep⟩
  have hsig := h.signature_eq C hC x hx y hy
  rw [signature, signature, List.map_inj_left] at hsig
  rw [hlead x, hlead y, hsig a ha]

section

variable (hk : d.EndsAfter d.initialClasses k) (hlive : ∀ s ∈ d.live, s < d.numStates)

include hk hlive

/-- As long as rounds make more classes, the loop goes on with the classes of the last round. -/
lemma loopAfter_of_le (hn : n ≤ k) : d.loopAfter n = .ok ⟨d.refine^[n] d.initialClasses, n, false⟩ := by
  have hdivides : Divides d.initialClasses d.live := divides_initialClasses
  induction n with
  | zero => rfl
  | succ n ih =>
    have hround := refineChecked_eq (divides_iterate_refine (d := d) hdivides n) hlive
    have hchanged := mt (hk.samePartition_iff hdivides (j := n) (by omega)).mp (by omega)
    rw [loopAfter, ih (by omega), ok_bind, advance, if_neg Bool.false_ne_true, refineScanning_eq, hround,
      ok_bind, if_neg hchanged, Function.iterate_succ_apply']
    rfl

/-- The round after those stops the loop. -/
lemma loopAfter_of_lt (hn : k < n) :
    d.loopAfter n = .ok ⟨d.refine^[k] d.initialClasses, k + 1, true⟩ := by
  have hdivides : Divides d.initialClasses d.live := divides_initialClasses
  induction n, hn using Nat.le_induction with
  | base =>
    have hround := refineChecked_eq (divides_iterate_refine (d := d) hdivides k) hlive
    have hsame := (hk.samePartition_iff hdivides (Nat.le_refl k)).mpr rfl
    rw [loopAfter, loopAfter_of_le hk hlive (Nat.le_refl k), ok_bind, advance, if_neg Bool.false_ne_true,
      refineScanning_eq, hround, ok_bind, if_pos hsame]
    rfl
  | succ n _ ih =>
    rw [loopAfter, ih, ok_bind, advance, if_pos rfl]
    rfl

end

/-- If all reachable states are states, then at every time the classes of the loop of refinement divide the
reachable states other than the dead one, those of states that are not final first.  The loop stops after as
many rounds as there are such states or earlier, or after one round, and then the members of a class agree on
the class to which they move.  A round divides the classes in their places, and lists the parts of a class by
their least members. -/
theorem loop_refines (h : ∀ s ∈ d.reachable, s < d.numStates) :
    (∀ n, ∃ l, d.loopAfter n = .ok l ∧ Divides l.classes d.live ∧ d.FinalsLast l.classes ∧
      l.rounds ≤ max 1 d.live.size ∧
      (l.stopped = false → l.rounds = n) ∧
      (l.stopped = true → d.Settled l.classes ∧ l.classes = d.refinement.2)) ∧
    (∃ l, d.loopAfter (max 1 d.live.size) = .ok l ∧ l.stopped = true) ∧
    ∀ P S, Divides P S → (∀ s ∈ S, s < d.numStates) →
      ∃ parts, d.refineScanning P = .ok parts.flatten ∧ Divides parts.flatten S ∧
        List.Forall₂ (fun C Ds => Divides Ds C ∧ Ds.Pairwise StateSet.Precedes) P parts := by
  have hdivides : Divides d.initialClasses d.live := divides_initialClasses
  have hlive : ∀ s ∈ d.live, s < d.numStates := fun s hs =>
    h s (mem_reachable.mpr (mem_live.mp hs).1)
  obtain ⟨k, hk, hrefinement⟩ := d.exists_endsAfter_refinement
  have hbound := hk.succ_le_max hdivides
  refine ⟨fun n => ?_, ?_, fun P S hP hS => exists_parts hP hS⟩
  · rcases Nat.lt_or_ge k n with hn | hn
    · refine ⟨_, loopAfter_of_lt hk hlive hn, divides_iterate_refine hdivides k,
        finalsLast_iterate_refine d.finalsLast_initialClasses k, hbound, fun hf => ?_, fun _ => ?_⟩
      · exact absurd hf (by simp)
      · have hclasses : d.refinement.2 = d.refine^[k] d.initialClasses := by rw [hrefinement]
        exact ⟨hclasses ▸ d.stable_refinement.settled, hclasses.symm⟩
    · exact ⟨_, loopAfter_of_le hk hlive hn, divides_iterate_refine hdivides n,
        finalsLast_iterate_refine d.finalsLast_initialClasses n, by simp only; omega, fun _ => rfl,
        fun hs => absurd hs Bool.false_ne_true⟩
  · exact ⟨_, loopAfter_of_lt hk hlive (by omega), rfl⟩

/-- The states 0, 1, 2 and 3 in a row, of which the last is final and moves to the dead state. -/
def inARow : Dfa :=
  ofAlphabet (.ofList [.literal 'a']) |>.addState |>.addState |>.addState |>.addState |>.ensureDead
    |>.addTransition 0 0 1 |>.addTransition 1 0 2 |>.addTransition 2 0 3 |>.addTransition 3 0 4
    |>.setStart 0 |>.addFinal 3

theorem loop_refines_of_inARow :
    (∀ s ∈ inARow.reachable, s < inARow.numStates) ∧
      ∃ l, inARow.loopAfter 4 = .ok l ∧ l.stopped = true ∧ Divides l.classes inARow.live ∧
        inARow.Settled l.classes := by
  have hreach : ∀ s ∈ inARow.reachable.toList, s < inARow.numStates := by decide +kernel
  have hsize : max 1 inARow.live.size = 4 := by decide +kernel
  obtain ⟨hloop, ⟨l, hl, hstopped⟩, -⟩ := loop_refines hreach
  rw [hsize] at hl
  obtain ⟨l', hl', hdivides, -, -, -, hsettled⟩ := hloop 4
  obtain rfl : l = l' := Except.ok.inj (hl.symm.trans hl')
  exact ⟨hreach, l, hl, hstopped, hdivides, (hsettled hstopped).1⟩

end Dfa
end RegexAutomata
