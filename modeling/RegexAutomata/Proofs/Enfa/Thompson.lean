/-
# An assembled automaton accepts what its expression stands for

Reading the postorder of an expression adds the states and arcs of the expression to the automaton and
puts its fragment on the stack (`Enfa.Assembles`).  Hence the automaton of a postfix expression
has the arcs of its tree and no others, and what it accepts is what the tree stands for
(`Enfa.ofPostfix_accepts_iff`).  Whatever the tokens are that a postfix form was made of, its automaton
accepts the language of the tree (`Enfa.ofPostfix_recognizes_language`).
-/
import RegexAutomata.Proofs.Enfa.Acceptance
import RegexAutomata.Proofs.Enfa.Layout
import RegexAutomata.Proofs.Regex.Denotation
import RegexAutomata.Proofs.Regex.Shunting

namespace RegexAutomata
namespace Enfa

/-- One automaton arises from another by adding states and arcs. -/
structure Grows (n : Enfa) (count : Nat) (arcs : List Arc) (n' : Enfa) : Prop where
  built : n'.Built
  numStates_eq : n'.numStates = n.numStates + count
  hasArc_iff : ∀ b, n'.HasArc b ↔ b ∈ arcs ∨ n.HasArc b
  finals_eq : n'.finals = n.finals

namespace Grows

variable {n n' n'' : Enfa} {count count' : Nat} {arcs arcs' : List Arc}

lemma refl (h : n.Built) : Grows n 0 [] n := ⟨h, rfl, fun _ => by simp, rfl⟩

lemma trans (h : Grows n count arcs n') (h' : Grows n' count' arcs' n'') :
    Grows n (count + count') (arcs ++ arcs') n'' := by
  refine ⟨h'.built, ?_, ?_, h'.finals_eq.trans h.finals_eq⟩
  · rw [h'.numStates_eq, h.numStates_eq, Nat.add_assoc]
  · intro b
    rw [h'.hasArc_iff, h.hasArc_iff, List.mem_append, or_left_comm, or_assoc]

lemma addState (h : Grows n count arcs n') : Grows n (count + 1) arcs n'.addState := by
  refine ⟨h.built.addState, ?_, ?_, h.finals_eq⟩
  · rw [numStates_addState, h.numStates_eq, Nat.add_assoc]
  · intro b
    rw [hasArc_addState, h.hasArc_iff]

lemma addTransition (h : Grows n count arcs n') {s d : Nat} {a : Symbol}
    (hs : s < n.numStates + count) (hd : d < n.numStates + count) :
    Grows n count (⟨s, some a, d⟩ :: arcs) (n'.addTransition s a d) := by
  refine ⟨h.built.addTransition s a d, ?_, ?_, ?_⟩
  · rw [numStates_addTransition, h.numStates_eq]
    omega
  · intro b
    rw [h.built.wellFormed.hasArc_addTransition, h.hasArc_iff, List.mem_cons, or_assoc]
  · rw [← h.finals_eq]
    simp [Enfa.addTransition]

lemma addEpsilon (h : Grows n count arcs n') {s d : Nat} (hs : s < n.numStates + count)
    (hd : d < n.numStates + count) :
    Grows n count (⟨s, none, d⟩ :: arcs) (n'.addEpsilon s d) := by
  refine ⟨h.built.addEpsilon s d, ?_, ?_, ?_⟩
  · rw [numStates_addEpsilon, h.numStates_eq]
    omega
  · intro b
    rw [hasArc_addEpsilon, h.hasArc_iff, List.mem_cons, or_assoc]
  · rw [← h.finals_eq]
    simp [Enfa.addEpsilon]

end Grows

/-- Reading the postorder of an expression adds its states and arcs and puts its fragment on the
stack. -/
structure Assembles (n : Enfa) (e : Expr) (n' : Enfa) : Prop where
  grows : Grows n e.width (e.arcs n.numStates) n'
  run : ∀ stack rest, assemble n stack (e.postorder ++ rest) =
    assemble n' (e.fragment n.numStates :: stack) rest

namespace Assembles

variable {n m m' : Enfa} {e f : Expr}

lemma symbol (hn : n.Built) (a : Symbol) : ∃ n', Assembles n (.symbol a) n' := by
  have hstates := (Grows.refl hn).addState.addState
  exact ⟨_, hstates.addTransition (by omega) (by omega), fun stack rest => rfl⟩

/-- Two operands, one after the other. -/
lemma grows_operands (he : Assembles n e m) (hf : Assembles m f m') :
    Grows n (e.width + f.width) (e.arcs n.numStates ++ f.arcs (n.numStates + e.width)) m' := by
  have h := he.grows.trans hf.grows
  rwa [he.grows.numStates_eq] at h

lemma run_operands (he : Assembles n e m) (hf : Assembles m f m') (stack : List Fragment)
    (rest : List Token) :
    assemble n stack (e.postorder ++ (f.postorder ++ rest)) =
      assemble m' (f.fragment (n.numStates + e.width) :: e.fragment n.numStates :: stack) rest := by
  rw [he.run, hf.run, he.grows.numStates_eq]

lemma concat (he : Assembles n e m) (hf : Assembles m f m') :
    ∃ n', Assembles n (.concat e f) n' := by
  have hexit := e.covers_exit n.numStates
  have hentry := f.covers_entry (n.numStates + e.width)
  simp only [Expr.Covers] at hexit hentry
  have hjoined := (he.grows_operands hf).addEpsilon
    (s := (e.fragment n.numStates).exit) (d := (f.fragment (n.numStates + e.width)).entry)
    (by omega) (by omega)
  refine ⟨_, hjoined, ?_⟩
  intro stack rest
  rw [Expr.postorder, List.append_assoc, List.append_assoc, he.run_operands hf]
  rfl

lemma alternate (he : Assembles n e m) (hf : Assembles m f m') :
    ∃ n', Assembles n (.alternate e f) n' := by
  have hentry := e.covers_entry n.numStates
  have hexit := e.covers_exit n.numStates
  have hentry' := f.covers_entry (n.numStates + e.width)
  have hexit' := f.covers_exit (n.numStates + e.width)
  simp only [Expr.Covers] at hentry hexit hentry' hexit'
  have hstates := (he.grows_operands hf).addState.addState
  -- in the order of `assembleStep`: from the new entry to both operands, from both to the new exit
  have hleft := hstates.addEpsilon (s := n.numStates + e.width + f.width)
    (d := (e.fragment n.numStates).entry) (by omega) (by omega)
  have hright := hleft.addEpsilon (s := n.numStates + e.width + f.width)
    (d := (f.fragment (n.numStates + e.width)).entry) (by omega) (by omega)
  have hleft' := hright.addEpsilon (s := (e.fragment n.numStates).exit)
    (d := n.numStates + e.width + f.width + 1) (by omega) (by omega)
  have hright' := hleft'.addEpsilon (s := (f.fragment (n.numStates + e.width)).exit)
    (d := n.numStates + e.width + f.width + 1) (by omega) (by omega)
  have hwhole : m'.numStates = n.numStates + e.width + f.width := by
    rw [hf.grows.numStates_eq, he.grows.numStates_eq]
  refine ⟨_, hright', ?_⟩
  intro stack rest
  rw [Expr.postorder, List.append_assoc, List.append_assoc, he.run_operands hf]
  simp only [List.cons_append, List.nil_append, assemble, assembleStep, hwhole, Expr.fragment]

lemma star (he : Assembles n e m) : ∃ n', Assembles n (.star e) n' := by
  have hentry := e.covers_entry n.numStates
  have hexit := e.covers_exit n.numStates
  simp only [Expr.Covers] at hentry hexit
  have hstates := he.grows.addState.addState
  have henter := hstates.addEpsilon (s := n.numStates + e.width)
    (d := (e.fragment n.numStates).entry) (by omega) (by omega)
  have hskip := henter.addEpsilon (s := n.numStates + e.width)
    (d := n.numStates + e.width + 1) (by omega) (by omega)
  have hagain := hskip.addEpsilon (s := (e.fragment n.numStates).exit)
    (d := (e.fragment n.numStates).entry) (by omega) (by omega)
  have hleave := hagain.addEpsilon (s := (e.fragment n.numStates).exit)
    (d := n.numStates + e.width + 1) (by omega) (by omega)
  refine ⟨_, hleave, ?_⟩
  intro stack rest
  rw [Expr.postorder, List.append_assoc, he.run]
  simp only [List.cons_append, List.nil_append, assemble, assembleStep, he.grows.numStates_eq,
    Expr.fragment]

lemma plus (he : Assembles n e m) : ∃ n', Assembles n (.plus e) n' := by
  have hentry := e.covers_entry n.numStates
  have hexit := e.covers_exit n.numStates
  simp only [Expr.Covers] at hentry hexit
  have hstates := he.grows.addState.addState
  have henter := hstates.addEpsilon (s := n.numStates + e.width)
    (d := (e.fragment n.numStates).entry) (by omega) (by omega)
  have hagain := henter.addEpsilon (s := (e.fragment n.numStates).exit)
    (d := (e.fragment n.numStates).entry) (by omega) (by omega)
  have hleave := hagain.addEpsilon (s := (e.fragment n.numStates).exit)
    (d := n.numStates + e.width + 1) (by omega) (by omega)
  refine ⟨_, hleave, ?_⟩
  intro stack rest
  rw [Expr.postorder, List.append_assoc, he.run]
  simp only [List.cons_append, List.nil_append, assemble, assembleStep, he.grows.numStates_eq,
    Expr.fragment]

end Assembles

variable {n : Enfa}

lemma exists_assembles (e : Expr) (hn : n.Built) : ∃ n', Assembles n e n' := by
  induction e generalizing n with
  | symbol a => exact Assembles.symbol hn a
  | concat e f he hf =>
    obtain ⟨m, hm⟩ := he hn
    obtain ⟨m', hm'⟩ := hf hm.grows.built
    exact hm.concat hm'
  | alternate e f he hf =>
    obtain ⟨m, hm⟩ := he hn
    obtain ⟨m', hm'⟩ := hf hm.grows.built
    exact hm.alternate hm'
  | star e he =>
    obtain ⟨m, hm⟩ := he hn
    exact hm.star
  | plus e he =>
    obtain ⟨m, hm⟩ := he hn
    exact hm.plus

/-! ### The whole automaton -/

/-- Assembling a postfix expression leaves the fragment of its tree. -/
lemma exists_assemble_tokens_eq (p : Postfix) :
    ∃ n, Grows empty p.expr.width (p.expr.arcs 0) n ∧
      assemble .empty [] p.tokens = some (n, [p.expr.fragment 0]) := by
  obtain ⟨n, h⟩ := exists_assembles p.expr .empty
  have hrun := h.run [] []
  rw [List.append_nil, Postfix.postorder_expr] at hrun
  exact ⟨n, h.grows, hrun⟩

/-- The automaton of a postfix expression is the one assembled for its tree, with start and final
state set. -/
lemma exists_ofPostfix_eq (p : Postfix) :
    ∃ n, Grows empty p.expr.width (p.expr.arcs 0) n ∧
      ofPostfix p = (n.setStart (p.expr.fragment 0).entry).addFinal (p.expr.fragment 0).exit := by
  obtain ⟨n, hn, hassemble⟩ := exists_assemble_tokens_eq p
  refine ⟨n, hn, ?_⟩
  rw [ofPostfix, hassemble]

lemma built_ofPostfix (p : Postfix) : (ofPostfix p).Built := by
  obtain ⟨n, hn, h⟩ := exists_ofPostfix_eq p
  rw [h]
  exact (hn.built.setStart _).addFinal _

/-- The automaton of a postfix expression has the arcs of its tree. -/
lemma hasArc_ofPostfix_iff {p : Postfix} (b : Arc) :
    (ofPostfix p).HasArc b ↔ b ∈ p.expr.arcs 0 := by
  obtain ⟨n, hn, h⟩ := exists_ofPostfix_eq p
  rw [h, hasArc_addFinal, hasArc_setStart, hn.hasArc_iff]
  exact or_iff_left not_hasArc_empty

lemma start?_ofPostfix (p : Postfix) : (ofPostfix p).start? = some (p.expr.fragment 0).entry := by
  obtain ⟨n, hn, h⟩ := exists_ofPostfix_eq p
  rw [h]
  exact start?_ensureState _ _

lemma mem_finals_ofPostfix_iff {p : Postfix} {x : Nat} :
    x ∈ (ofPostfix p).finals ↔ x = (p.expr.fragment 0).exit := by
  obtain ⟨n, hn, h⟩ := exists_ofPostfix_eq p
  have hempty : n.finals = ∅ := hn.finals_eq
  rw [h]
  simp [Enfa.addFinal, Enfa.setStart, hempty]

/-- The automaton of a postfix expression accepts what the tree of the expression stands for. -/
theorem ofPostfix_accepts_iff {p : Postfix} {w : List Char} :
    (ofPostfix p).accepts w = true ↔ p.expr.Matches w := by
  rw [(built_ofPostfix p).wellFormed.accepts_iff_reads, ← Expr.spans_iff_matches (k := 0)]
  simp only [start?_ofPostfix, mem_finals_ofPostfix_iff, reads_iff_path hasArc_ofPostfix_iff,
    Option.some.injEq]
  constructor
  · rintro ⟨_, rfl, _, rfl, h⟩
    exact h
  · intro h
    exact ⟨_, rfl, _, rfl, h⟩

/-- If tokens have a postfix form, then moving their operators gives the postorder of a tree, which is found
by reading the postfix form, and the automaton of the postfix form accepts the language of this tree. -/
theorem ofPostfix_recognizes_language {ts : List Token} {p : Postfix}
    (h : Postfix.ofTokens ts = .ok p) :
    ∃ e, Token.shunt [] ts = some e.postorder ∧ Expr.ofPostorder? p.tokens = some e ∧
      ∀ w, (ofPostfix p).accepts w = true ↔ w ∈ e.language := by
  refine ⟨p.expr, ?_, p.ofPostorder?_tokens, ?_⟩
  · rw [p.postorder_expr]
    exact Postfix.ofTokens_eq_ok_iff.mp h
  · intro w
    rw [ofPostfix_accepts_iff, Expr.mem_language_iff]

/-- The range in `((z-a|b)+c)*` is reversed, and it has no member. -/
theorem ofPostfix_recognizes_language_of_reversed :
    ∃ p, Postfix.ofTokens [.lparen, .lparen, .symbol (.range 'z' 'a'), .alternate, .symbol (.literal 'b'),
        .rparen, .plus, .concat, .symbol (.literal 'c'), .rparen, .star] = .ok p ∧
      ∃ e, Token.shunt [] [.lparen, .lparen, .symbol (.range 'z' 'a'), .alternate, .symbol (.literal 'b'),
          .rparen, .plus, .concat, .symbol (.literal 'c'), .rparen, .star] = some e.postorder ∧
        Expr.ofPostorder? p.tokens = some e ∧
        ∀ w, (ofPostfix p).accepts w = true ↔ w ∈ e.language :=
  have h : Postfix.ofTokens [.lparen, .lparen, .symbol (.range 'z' 'a'), .alternate,
      .symbol (.literal 'b'), .rparen, .plus, .concat, .symbol (.literal 'c'), .rparen, .star] =
      .ok ⟨[.symbol (.range 'z' 'a'), .symbol (.literal 'b'), .alternate, .plus, .symbol (.literal 'c'),
        .concat, .star], by decide⟩ := by
    decide
  ⟨_, h, ofPostfix_recognizes_language h⟩

end Enfa
end RegexAutomata
