/-
# The shape of the automaton of an expression

The automaton of an expression has two ends: moves lead from its start state to every state, and from every
state to its only final state, but none leads into the start state or out of the final state.  In between,
either one move with a symbol leads on from a state, or at most two epsilon moves.

These are properties of the arcs of an expression, and are proved for each operator from its operands
(`Expr.target_ne_entry`, `Expr.leads_entry`, `Expr.branching_arcs`).  The main statement is
`Enfa.ofPostfix_is_trim_and_two_ended`.
-/
import RegexAutomata.Proofs.Enfa.Appearance
import RegexAutomata.Proofs.Enfa.Trim
import RegexAutomata.Proofs.Regex.Conversion

namespace RegexAutomata

open Relation

/-! ### The arcs from one state -/

namespace Arc

variable {arcs arcs' : List Arc} {b : Arc} {s s' d d' : Nat} {a : Option Symbol}

/-- The arcs that lead on from a state. -/
def leaving (arcs : List Arc) (s : Nat) : List Arc := arcs.filter (·.source = s)

lemma mem_leaving : b ∈ leaving arcs s ↔ b ∈ arcs ∧ b.source = s := by
  rw [leaving, List.mem_filter, decide_eq_true_iff]

lemma leaving_cons_self : leaving (⟨s, a, d⟩ :: arcs) s = ⟨s, a, d⟩ :: leaving arcs s :=
  List.filter_cons_of_pos (decide_eq_true rfl)

lemma leaving_cons_of_ne (h : s' ≠ s) : leaving (⟨s', a, d⟩ :: arcs) s = leaving arcs s :=
  List.filter_cons_of_neg (by simpa using h)

lemma leaving_append : leaving (arcs ++ arcs') s = leaving arcs s ++ leaving arcs' s :=
  List.filter_append arcs arcs'

/-- From each state one arc with a symbol leads on, or at most two epsilon arcs. -/
def Branching (arcs : List Arc) : Prop :=
  ∀ s, (∃ a d, leaving arcs s = [⟨s, some a, d⟩]) ∨
    (∀ b ∈ leaving arcs s, b.symbol? = none) ∧ (leaving arcs s).length ≤ 2

/-- An epsilon arc may be added where no arc leads on. -/
lemma Branching.cons (h : Branching arcs) (hnone : leaving arcs s = []) :
    Branching (⟨s, none, d⟩ :: arcs) := by
  intro t
  by_cases hst : s = t
  · subst hst
    rw [leaving_cons_self, hnone]
    exact Or.inr ⟨by simp, by simp⟩
  · rw [leaving_cons_of_ne hst]
    exact h t

/-- Two epsilon arcs may be added where no arc leads on. -/
lemma Branching.cons_cons (h : Branching arcs) (hnone : leaving arcs s = []) :
    Branching (⟨s, none, d⟩ :: ⟨s, none, d'⟩ :: arcs) := by
  intro t
  by_cases hst : s = t
  · subst hst
    rw [leaving_cons_self, leaving_cons_self, hnone]
    exact Or.inr ⟨by simp, by simp⟩
  · rw [leaving_cons_of_ne hst, leaving_cons_of_ne hst]
    exact h t

end Arc

namespace Expr

open Arc

variable {e f : Expr} {k s : Nat} {b : Arc} {arcs : List Arc}

lemma leaving_of_lt (hs : s < k) : leaving (e.arcs k) s = [] := by
  refine List.filter_eq_nil_iff.mpr fun b hb hsource => ?_
  obtain rfl := of_decide_eq_true hsource
  exact Nat.not_le.mpr hs (covers_of_mem_arcs hb).1.1

lemma leaving_of_le (hs : k + e.width ≤ s) : leaving (e.arcs k) s = [] := by
  refine List.filter_eq_nil_iff.mpr fun b hb hsource => ?_
  obtain rfl := of_decide_eq_true hsource
  exact not_covers_of_le hs (covers_of_mem_arcs hb).1

lemma leaving_exit : leaving (e.arcs k) (e.fragment k).exit = [] := by
  refine List.filter_eq_nil_iff.mpr fun b hb hsource => ?_
  exact (covers_of_mem_arcs hb).2.2 (of_decide_eq_true hsource)

/-- The arcs of two operands lead on from different states. -/
lemma branching_operands (he : Branching (e.arcs k)) (hf : Branching (f.arcs (k + e.width))) :
    Branching (e.arcs k ++ f.arcs (k + e.width)) := by
  intro s
  rw [leaving_append]
  by_cases hs : s < k + e.width
  · rw [leaving_of_lt hs, List.append_nil]
    exact he s
  · rw [leaving_of_le (Nat.not_lt.mp hs), List.nil_append]
    exact hf s

/-- An operator adds one or two epsilon arcs where no arc leads on: from the exit of an operand and from its
own entry. -/
lemma branching_arcs (e : Expr) (k : Nat) : Branching (e.arcs k) := by
  induction e generalizing k with
  | symbol a =>
    intro s
    by_cases hs : k = s
    · subst hs
      exact Or.inl ⟨a, k + 1, leaving_cons_self⟩
    · have hnone : leaving ((symbol a).arcs k) s = [] := leaving_cons_of_ne hs
      rw [hnone]
      exact Or.inr ⟨by simp, by simp⟩
  | concat e f he hf =>
    have hexit := (e.covers_exit k).2
    refine (branching_operands (he k) (hf _)).cons ?_
    rw [leaving_append, leaving_exit, leaving_of_lt hexit, List.append_nil]
  | alternate e f he hf =>
    have hexit := (e.covers_exit k).2
    obtain ⟨hlo, hhi⟩ := f.covers_exit (k + e.width)
    refine Branching.cons (Branching.cons ((branching_operands (he k) (hf _)).cons_cons ?_) ?_) ?_
    · rw [leaving_append, leaving_of_le (by omega), leaving_of_le (Nat.le_refl _), List.append_nil]
    · rw [leaving_cons_of_ne (by omega), leaving_cons_of_ne (by omega), leaving_append, leaving_exit,
        leaving_of_lt hexit, List.append_nil]
    · rw [leaving_cons_of_ne (by omega), leaving_cons_of_ne (by omega), leaving_cons_of_ne (by omega),
        leaving_append, leaving_exit, leaving_of_le hlo, List.append_nil]
  | star e he =>
    have hexit := (e.covers_exit k).2
    refine Branching.cons_cons ((he k).cons_cons (leaving_of_le (Nat.le_refl _))) ?_
    rw [leaving_cons_of_ne (by omega), leaving_cons_of_ne (by omega), leaving_exit]
  | plus e he =>
    have hexit := (e.covers_exit k).2
    refine Branching.cons_cons ((he k).cons (leaving_of_le (Nat.le_refl _))) ?_
    rw [leaving_cons_of_ne (by omega), leaving_exit]

/-! ### The two ends -/

lemma entry_ne_exit (e : Expr) (k : Nat) : (e.fragment k).entry ≠ (e.fragment k).exit := by
  cases e with
  | symbol a | star e | plus e => exact Nat.ne_of_lt (Nat.lt_succ_self _)
  | alternate e f => exact Nat.ne_of_lt (Nat.lt_succ_self _)
  | concat e f =>
    have hentry := (e.covers_entry k).2
    have hexit := (f.covers_exit (k + e.width)).1
    show (e.fragment k).entry ≠ (f.fragment (k + e.width)).exit
    omega

/-- No arc of an expression leads into its entry. -/
lemma target_ne_entry (hb : b ∈ e.arcs k) : b.target ≠ (e.fragment k).entry := by
  induction e generalizing k with
  | symbol a =>
    obtain rfl := List.mem_singleton.mp hb
    exact Nat.succ_ne_self k
  | concat e f he hf =>
    have hentry := (e.covers_entry k).2
    have hentry' := (f.covers_entry (k + e.width)).1
    show b.target ≠ (e.fragment k).entry
    simp only [arcs, List.mem_cons, List.mem_append] at hb
    rcases hb with rfl | hb | hb
    · show (f.fragment (k + e.width)).entry ≠ (e.fragment k).entry
      omega
    · exact he hb
    · have htarget := (covers_of_mem_arcs hb).2.1.1
      omega
  | alternate e f he hf =>
    have hentry := (e.covers_entry k).2
    have hentry' := (f.covers_entry (k + e.width)).2
    show b.target ≠ k + e.width + f.width
    simp only [arcs, List.mem_cons, List.mem_append] at hb
    rcases hb with rfl | rfl | rfl | rfl | hb | hb
    any_goals (simp only; omega)
    · have htarget := (covers_of_mem_arcs hb).2.1.2
      omega
    · have htarget := (covers_of_mem_arcs hb).2.1.2
      omega
  | star e he =>
    have hentry := (e.covers_entry k).2
    show b.target ≠ k + e.width
    simp only [arcs, List.mem_cons] at hb
    rcases hb with rfl | rfl | rfl | rfl | hb
    any_goals (simp only; omega)
    have htarget := (covers_of_mem_arcs hb).2.1.2
    omega
  | plus e he =>
    have hentry := (e.covers_entry k).2
    show b.target ≠ k + e.width
    simp only [arcs, List.mem_cons] at hb
    rcases hb with rfl | rfl | rfl | hb
    any_goals (simp only; omega)
    have htarget := (covers_of_mem_arcs hb).2.1.2
    omega

/-- An arc to the entry of an operand can be continued to every state of the operand. -/
lemma leads_to_operand (hentry : ∀ s, e.Covers k s →
      ReflTransGen (Arc.Joins (e.arcs k)) (e.fragment k).entry s) (hsub : e.arcs k ⊆ arcs) {d : Nat}
    (hin : ⟨d, none, (e.fragment k).entry⟩ ∈ arcs) (hs : e.Covers k s) :
    ReflTransGen (Arc.Joins arcs) d s :=
  .head ⟨_, hin, rfl, rfl⟩ (Arc.leads_mono hsub (hentry s hs))

/-- From the entry of an expression arcs lead to every state. -/
lemma leads_entry (e : Expr) {k s : Nat} (hs : e.Covers k s) :
    ReflTransGen (Arc.Joins (e.arcs k)) (e.fragment k).entry s := by
  induction e generalizing k s with
  | symbol a =>
    rcases covers_symbol_iff.mp hs with rfl | rfl
    · exact .refl
    · exact .single ⟨_, List.mem_singleton_self _, rfl, rfl⟩
  | concat e f he hf =>
    have hleft : ∀ s, e.Covers k s →
        ReflTransGen (Arc.Joins ((concat e f).arcs k)) ((concat e f).fragment k).entry s := fun s hs =>
      Arc.leads_mono (fun b hb => by simp [arcs, hb]) (he hs)
    rcases covers_concat_iff.mp hs with hs | hs
    · exact hleft s hs
    · have hjoint : ReflTransGen (Arc.Joins ((concat e f).arcs k)) (e.fragment k).exit s :=
        leads_to_operand (fun _ => hf) (fun b hb => by simp [arcs, hb]) (by simp [arcs]) hs
      exact (hleft _ (e.covers_exit k)).trans hjoint
  | alternate e f he hf =>
    have hleft : ∀ s, e.Covers k s → ReflTransGen (Arc.Joins ((alternate e f).arcs k))
        (k + e.width + f.width) s := fun s hs =>
      leads_to_operand (fun _ => he) (fun b hb => by simp [arcs, hb]) (by simp [arcs]) hs
    rcases covers_alternate_iff.mp hs with hs | hs | rfl | rfl
    · exact hleft s hs
    · exact leads_to_operand (fun _ => hf) (fun b hb => by simp [arcs, hb])
        (by simp [arcs, fragment]) hs
    · exact .refl
    · exact (hleft _ (e.covers_exit k)).tail
        ⟨⟨_, none, k + e.width + f.width + 1⟩, by simp [arcs], rfl, rfl⟩
  | star e he =>
    rcases covers_star_iff.mp hs with hs | rfl | rfl
    · exact leads_to_operand (fun _ => he) (fun b hb => by simp [arcs, hb]) (by simp [arcs, fragment])
        hs
    · exact .refl
    · exact .single ⟨⟨k + e.width, none, k + e.width + 1⟩, by simp [arcs], rfl, rfl⟩
  | plus e he =>
    have hinner : ∀ s, e.Covers k s → ReflTransGen (Arc.Joins ((plus e).arcs k))
        (k + e.width) s := fun s hs =>
      leads_to_operand (fun _ => he) (fun b hb => by simp [arcs, hb]) (by simp [arcs]) hs
    rcases covers_plus_iff.mp hs with hs | rfl | rfl
    · exact hinner s hs
    · exact .refl
    · exact (hinner _ (e.covers_exit k)).tail ⟨⟨_, none, k + e.width + 1⟩, by simp [arcs], rfl, rfl⟩

/-- Every symbol adds two states, and so does every operator but concatenation. -/
lemma width_eq (e : Expr) : e.width = 2 * ((e.postorder.filterMap Token.symbol?).length +
    e.postorder.count .star + e.postorder.count .plus + e.postorder.count .alternate) := by
  induction e with
  | symbol a => rfl
  | concat e f he hf | alternate e f he hf =>
    simp [width, postorder, he, hf, List.filterMap_cons, Token.symbol?]
    omega
  | star e he | plus e he =>
    simp [width, postorder, he, List.filterMap_cons, Token.symbol?]
    omega

end Expr

/-! ### The moves of an automaton -/

namespace Enfa

variable {n : Enfa} {s entry exit : Nat} {arcs : List Arc}

/-- From a state one move with a symbol leads on, or at most two epsilon moves. -/
def Branches (n : Enfa) (s : Nat) : Prop :=
  (∃ id d, ∀ l t, n.Edge s l t ↔ l = .symbol id ∧ t = d) ∨
    (∀ id t, ¬n.Edge s (.symbol id) t) ∧ (n.destinations s .epsilon).size ≤ 2

/-- The automaton begins in one state, into which no move leads, and ends in another, out of which no move
leads, and every state lies on a way from the one to the other. -/
structure TwoEnded (n : Enfa) (entry exit : Nat) : Prop where
  start?_eq : n.start? = some entry
  mem_finals_iff : ∀ s, s ∈ n.finals ↔ s = exit
  entry_ne_exit : entry ≠ exit
  not_edge_entry : ∀ s l, ¬n.Edge s l entry
  not_edge_exit : ∀ l d, ¬n.Edge exit l d
  branches : ∀ s < n.numStates, n.Branches s
  on_path : ∀ s < n.numStates, ReflTransGen n.Moves entry s ∧ ReflTransGen n.Moves s exit

lemma WellFormed.exists_hasArc_symbol (h : n.WellFormed) {id d : Nat} (hedge : n.Edge s (.symbol id) d) :
    ∃ a, n.alphabet.symbol? id = some a ∧ n.HasArc ⟨s, some a, d⟩ := by
  have hlt := h.symbol_lt s id d hedge
  exact ⟨n.alphabet.symbols[id], List.getElem?_eq_getElem hlt, id, List.getElem?_eq_getElem hlt, hedge⟩

/-- Every move is an arc. -/
lemma WellFormed.exists_hasArc (h : n.WellFormed) {l : Label} {d : Nat} (hedge : n.Edge s l d) :
    ∃ a, n.HasArc ⟨s, a, d⟩ := by
  cases l with
  | epsilon => exact ⟨none, hedge⟩
  | symbol id =>
    obtain ⟨a, -, harc⟩ := h.exists_hasArc_symbol hedge
    exact ⟨some a, harc⟩

/-- An automaton branches as its arcs do. -/
lemma WellFormed.branches (h : n.WellFormed) (harcs : ∀ b, n.HasArc b ↔ b ∈ arcs)
    (hbranching : Arc.Branching arcs) (s : Nat) : n.Branches s := by
  have hleaving : ∀ a d, n.HasArc ⟨s, a, d⟩ ↔ ⟨s, a, d⟩ ∈ Arc.leaving arcs s := by
    intro a d
    rw [harcs, Arc.mem_leaving]
    exact (and_iff_left rfl).symm
  rcases hbranching s with ⟨a, d, hone⟩ | ⟨hnone, hlength⟩
  · have harc : n.HasArc ⟨s, some a, d⟩ := by
      rw [hleaving, hone]
      exact List.mem_singleton_self _
    refine Or.inl ⟨n.alphabet.idOf a, d, fun l t => ⟨fun hedge => ?_, ?_⟩⟩
    · cases l with
      | epsilon =>
        have hmem := (hleaving none t).mp hedge
        rw [hone] at hmem
        exact absurd hmem (by simp)
      | symbol id =>
        obtain ⟨b, hid, hmem⟩ := h.exists_hasArc_symbol hedge
        rw [hleaving, hone] at hmem
        obtain ⟨rfl, rfl⟩ : b = a ∧ t = d := by simpa using hmem
        exact ⟨congrArg _ ((Alphabet.symbol?_eq_some_iff harc.mem_symbols).mp hid), rfl⟩
    · rintro ⟨rfl, rfl⟩
      exact (hasArc_symbol_iff harc.mem_symbols).mp harc
  · refine Or.inr ⟨fun id t hedge => ?_, ?_⟩
    · obtain ⟨a, -, harc⟩ := h.exists_hasArc_symbol hedge
      exact absurd (hnone _ ((hleaving _ _).mp harc)) (by simp)
    · -- every epsilon move is an arc of its own
      have hsub : (n.destinations s .epsilon).toList ⊆ (Arc.leaving arcs s).map Arc.target :=
        fun d hd => List.mem_map.mpr ⟨⟨s, none, d⟩, (hleaving none d).mp hd, rfl⟩
      have hnodup : (n.destinations s .epsilon).toList.Nodup :=
        (n.destinations s .epsilon).ascending.imp Nat.ne_of_lt
      have hle := (List.subperm_of_subset hnodup hsub).length_le
      rw [List.length_map] at hle
      exact hle.trans hlength

/-- The two ends of the automaton of a postfix expression are the ends of the fragment of its tree. -/
lemma twoEnded_ofPostfix (p : Postfix) :
    (ofPostfix p).TwoEnded (p.expr.fragment 0).entry (p.expr.fragment 0).exit where
  start?_eq := start?_ofPostfix p
  mem_finals_iff _ := mem_finals_ofPostfix_iff
  entry_ne_exit := p.expr.entry_ne_exit 0
  not_edge_entry s l hedge := by
    obtain ⟨a, harc⟩ := (built_ofPostfix p).wellFormed.exists_hasArc hedge
    exact Expr.target_ne_entry ((hasArc_ofPostfix_iff _).mp harc) rfl
  not_edge_exit l d hedge := by
    obtain ⟨a, harc⟩ := (built_ofPostfix p).wellFormed.exists_hasArc hedge
    exact (Expr.covers_of_mem_arcs ((hasArc_ofPostfix_iff _).mp harc)).2.2 rfl
  branches s _ :=
    (built_ofPostfix p).wellFormed.branches hasArc_ofPostfix_iff (p.expr.branching_arcs 0) s
  on_path s hs := by
    rw [numStates_ofPostfix] at hs
    have hcovers : p.expr.Covers 0 s := ⟨Nat.zero_le s, by omega⟩
    exact ⟨moves_of_leads hasArc_ofPostfix_iff (p.expr.leads_entry hcovers),
      moves_of_leads hasArc_ofPostfix_iff (p.expr.leads_exit hcovers)⟩

/-- If tokens have a postfix form, assembling it never lacks a fragment and meets no parenthesis, and one
fragment remains, the ends of which are the two ends of the automaton.  Every symbol of the postfix form and
every operator but concatenation adds two states, and the alphabet lists the symbols, which are those of the
tokens, in the order of their first occurrence. -/
theorem ofPostfix_is_trim_and_two_ended {ts : List Token} {p : Postfix}
    (h : Postfix.ofTokens ts = .ok p) :
    ∃ n whole, assemble .empty [] p.tokens = some (n, [whole]) ∧
      ofPostfix p = (n.setStart whole.entry).addFinal whole.exit ∧
      (ofPostfix p).TwoEnded whole.entry whole.exit ∧
      (ofPostfix p).numStates = 2 * ((p.tokens.filterMap Token.symbol?).length +
        p.tokens.count .star + p.tokens.count .plus + p.tokens.count .alternate) ∧
      (ofPostfix p).alphabet.symbols = (p.tokens.filterMap Token.symbol?).eraseDups ∧
      p.tokens.filterMap Token.symbol? = ts.filterMap Token.symbol? := by
  obtain ⟨n, -, hassemble⟩ := exists_assemble_tokens_eq p
  refine ⟨n, p.expr.fragment 0, hassemble, ?_, twoEnded_ofPostfix p, ?_, ?_, ?_⟩
  · rw [ofPostfix, hassemble]
  · rw [numStates_ofPostfix, Expr.width_eq, Postfix.postorder_expr]
  · rw [alphabet_ofPostfix, Alphabet.symbols_ofList]
  · exact (Token.shunted_of_shunt (Postfix.ofTokens_eq_ok_iff.mp h)).symbols_eq

/-- In `(b|a)*b+` a symbol occurs twice. -/
theorem ofPostfix_is_trim_and_two_ended_of_repeated :
    ∃ p, Postfix.ofTokens [.lparen, .symbol (.literal 'b'), .alternate, .symbol (.literal 'a'), .rparen,
        .star, .concat, .symbol (.literal 'b'), .plus] = .ok p ∧
      ∃ n whole, assemble .empty [] p.tokens = some (n, [whole]) ∧
        ofPostfix p = (n.setStart whole.entry).addFinal whole.exit ∧
        (ofPostfix p).TwoEnded whole.entry whole.exit ∧
        (ofPostfix p).numStates = 12 ∧
        (ofPostfix p).alphabet.symbols = [.literal 'b', .literal 'a'] := by
  have h : Postfix.ofTokens [.lparen, .symbol (.literal 'b'), .alternate, .symbol (.literal 'a'), .rparen,
      .star, .concat, .symbol (.literal 'b'), .plus] =
      .ok ⟨[.symbol (.literal 'b'), .symbol (.literal 'a'), .alternate, .star, .symbol (.literal 'b'), .plus,
        .concat], by decide⟩ := by
    decide
  obtain ⟨n, whole, hassemble, heq, hends, hstates, halphabet, -⟩ := ofPostfix_is_trim_and_two_ended h
  exact ⟨_, h, n, whole, hassemble, heq, hends, hstates, halphabet⟩

end Enfa
end RegexAutomata
