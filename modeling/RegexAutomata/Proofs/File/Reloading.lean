/-
# Writing, reading and minimizing

The states of an automaton that is written and read are numbered anew: those with records by their places
among them, and the dead state, if it is needed, behind all others (`Dfa.place`).  What is read is the
automaton that is listed in this way (`Dfa.Storable.toFile_listing`), and the live states have only been
renumbered (`Dfa.Storable.renumbers`).

Hence it does not matter for the text of the minimized automaton whether the automaton is written and read
before it is minimized (`Dfa.text_minimize_of_reloaded`).
-/
import RegexAutomata.Proofs.Dfa.Minimality
import RegexAutomata.Proofs.Dfa.Renumbering
import RegexAutomata.Proofs.Emptiness
import RegexAutomata.Proofs.Symbols

namespace RegexAutomata
namespace Dfa

/-- An automaton that its file describes without loss: it is total, its dead state absorbs, no two states
have one name, no range is reversed, and the labels have 32 bits. -/
structure Storable (d : Dfa) : Prop where
  total : d.Total
  deadAbsorbs : d.DeadAbsorbs
  namesDistinct : d.NamesDistinct
  inOrder : d.alphabet.InOrder
  labelOf_lt : ∀ s < d.numStates, d.dead? ≠ some s → d.labelOf s < 4294967296

variable {d : Dfa} {s t a : Nat}

/-! ### Total automata -/

lemma Total.not_empty (h : d.Total) : ¬(d.numStates = 0 ∨ d.start? = none) := by
  obtain ⟨s, hlt, hstart⟩ := h.exists_start
  rintro (hzero | hnone)
  · omega
  · exact absurd (hnone.symm.trans hstart) (by simp)

lemma Complete.total (h : d.Complete) (hs : d.start? = some s) : d.Total where
  exists_start := ⟨s, h.start_lt s hs, hs⟩
  exists_step := by
    intro r hr a ha
    obtain ⟨t, ht⟩ := h.exists_step r hr a ha
    exact ⟨t, (h.step_lt r a t ht).2.2, ht⟩

/-! ### Places -/

/-- The number that a state gets: its place among the states with records, and the number behind all of
them for the dead state. -/
def place (d : Dfa) (s : Nat) : Nat := d.recordedStates.idxOf s

lemma place_lt_length_iff : d.place s < d.recordedStates.length ↔ s ∈ d.recordedStates :=
  List.idxOf_lt_length_iff

lemma place_of_dead (h : d.dead? = some s) : d.place s = d.recordedStates.length :=
  List.idxOf_eq_length fun hs => (mem_recordedStates.mp hs).2 h

lemma getElem?_recordedStates_place (hs : s ∈ d.recordedStates) :
    d.recordedStates[d.place s]? = some s := by
  rw [List.getElem?_eq_getElem (place_lt_length_iff.mpr hs)]
  exact congrArg some (List.getElem_idxOf _)

lemma place_getElem {i : Nat} (hi : i < d.recordedStates.length) :
    d.place d.recordedStates[i] = i :=
  d.pairwise_lt_recordedStates.nodup.idxOf_getElem i hi

lemma place_lt_place (hs : s ∈ d.recordedStates) (ht : t ∈ d.recordedStates) (hst : s < t) :
    d.place s < d.place t := by
  obtain ⟨i, hi, rfl⟩ := List.mem_iff_getElem.mp hs
  obtain ⟨j, hj, rfl⟩ := List.mem_iff_getElem.mp ht
  rw [place_getElem hi, place_getElem hj]
  by_contra hle
  rcases Nat.lt_or_eq_of_le (Nat.not_lt.mp hle) with hlt | rfl
  · exact Nat.lt_asymm hst (List.pairwise_iff_getElem.mp d.pairwise_lt_recordedStates j i hj hi hlt)
  · exact Nat.lt_irrefl _ hst

namespace Storable

lemma wellFormed (h : d.Storable) : d.WellFormed := by
  refine ⟨h.deadAbsorbs, fun u hu s hrun => ?_⟩
  obtain ⟨t, ht, hrun'⟩ := h.total.exists_run hu
  exact Option.some.inj (hrun'.symm.trans hrun) ▸ ht

lemma mem_recordedStates_of_live (h : d.Storable) (hs : s ∈ d.live) : s ∈ d.recordedStates :=
  h.wellFormed.mem_recordedStates_of_live hs

/-! ### The listing of an automaton -/

/-- The destinations of a state. -/
def row (d : Dfa) (s : Nat) : List Nat :=
  d.alphabet.ids.map fun a => d.place ((d.step s a).getD s)

lemma nodup_labels (h : d.Storable) : (d.recordedStates.map d.labelOf).Nodup := by
  refine (List.nodup_map_iff_inj_on d.pairwise_lt_recordedStates.nodup).mpr ?_
  intro s hs t ht
  obtain ⟨hs, hsd⟩ := mem_recordedStates.mp hs
  obtain ⟨ht, htd⟩ := mem_recordedStates.mp ht
  exact h.namesDistinct.eq_of_labelOf_eq hs ht hsd htd

/-- Each name is made of a label, so every state keeps its label. -/
lemma labels_again (h : d.Storable) :
    labelsOfNames ((d.recordedStates.map d.labelOf).map nameOfLabel) =
      d.recordedStates.map d.labelOf := by
  have hown : (d.recordedStates.map d.labelOf).map (labelOfName? ∘ nameOfLabel) =
      (d.recordedStates.map d.labelOf).map some := by
    refine List.map_congr_left fun label hlabel => ?_
    obtain ⟨s, hs, rfl⟩ := List.mem_map.mp hlabel
    obtain ⟨hs, hsd⟩ := mem_recordedStates.mp hs
    rw [Function.comp_apply, labelOfName?_nameOfLabel, if_pos (h.labelOf_lt s hs hsd)]
  rw [labelsOfNames_eq, List.map_map, hown, assignLabels_map_some]

/-- The parts of an automaton as its file lists them, if there is a record. -/
def listing (h : d.Storable) (hrecords : d.recordedStates ≠ []) : Listing where
  alphabet := d.alphabet
  rows := d.recordedStates.map (row d)
  start := d.place (d.start?.getD 0)
  isFinal := d.recordedStates.map fun s => decide (s ∈ d.finals)
  labels := d.recordedStates.map d.labelOf
  length_isFinal := by simp
  length_labels := by simp
  nodup_labels := h.nodup_labels
  labels_again := h.labels_again
  start_le := by
    rw [List.length_map]
    exact List.idxOf_le_length
  row_fits := by
    intro row hrow
    obtain ⟨s, -, rfl⟩ := List.mem_map.mp hrow
    refine ⟨by simp [Storable.row, Alphabet.ids], fun t ht => ?_⟩
    obtain ⟨a, -, rfl⟩ := List.mem_map.mp ht
    rw [List.length_map]
    exact List.idxOf_le_length
  ofLabel?_label := fun a ha => Symbol.ofLabel?_label_iff.mpr (h.inOrder a ha)
  symbols_eq_nil := fun hlen => absurd (by simpa using hlen) hrecords

section

variable (h : d.Storable) (hrecords : d.recordedStates ≠ [])

lemma length_rows : (h.listing hrecords).rows.length = d.recordedStates.length := List.length_map _

lemma start?_listing (hs : d.start? = some s) :
    (h.listing hrecords).dfa.start? = some (d.place s) := by
  have hstart : (h.listing hrecords).dfa.start? = some (d.place (d.start?.getD 0)) := rfl
  rw [hstart, hs, Option.getD_some]

lemma place_lt_numStates (hs : s ∈ d.recordedStates) :
    d.place s < (h.listing hrecords).dfa.numStates := by
  rw [Listing.lt_numStates, length_rows, place_lt_length_iff]
  exact Or.inl hs

/-- A state that is read stands for one with a record, or for the dead state. -/
lemma place_lt_numStates_iff (hs : s < d.numStates) :
    d.place s < (h.listing hrecords).dfa.numStates ↔
      s ∈ d.recordedStates ∨ d.dead? = some s ∧ (h.listing hrecords).dfa.dead? = some (d.place s) := by
  rw [Listing.lt_numStates, length_rows, place_lt_length_iff]
  refine or_congr_right' fun hnot => ?_
  have hdead : d.dead? = some s := by
    by_contra hne
    exact hnot (mem_recordedStates.mpr ⟨hs, hne⟩)
  rw [place_of_dead hdead]
  simp [hdead]

lemma stateName_place (hs : s < d.numStates)
    (hlt : d.place s < (h.listing hrecords).dfa.numStates) :
    (h.listing hrecords).dfa.stateName (d.place s) = d.stateName s := by
  rcases (h.place_lt_numStates_iff hrecords hs).mp hlt with hrec | ⟨hdead, hdead'⟩
  · have hlabel : (h.listing hrecords).labels[d.place s]? = some (d.labelOf s) := by
      simp [listing, getElem?_recordedStates_place hrec]
    rw [Listing.stateName_of_label _ hlabel, stateName_of_live (mem_recordedStates.mp hrec).2]
  · rw [stateName_of_dead hdead, stateName_of_dead hdead']

/-- The moves lead from place to place. -/
lemma step_place (hs : s < d.numStates) (hlt : d.place s < (h.listing hrecords).dfa.numStates)
    (ha : a ∈ d.alphabet.ids) (ht : d.step s a = some t) :
    (h.listing hrecords).dfa.step (d.place s) a = some (d.place t) := by
  rcases (h.place_lt_numStates_iff hrecords hs).mp hlt with hrec | ⟨hdead, hdead'⟩
  · have hrow : (h.listing hrecords).rows[d.place s]? = some (row d s) := by
      simp [listing, getElem?_recordedStates_place hrec]
    refine (h.listing hrecords).step_of_row hrow ?_
    rw [row, List.getElem?_map, Alphabet.ids, List.getElem?_range (Alphabet.mem_ids.mp ha),
      Option.map_some, ht, Option.getD_some]
  · obtain rfl := h.deadAbsorbs.step_eq s hdead a ha t ht
    exact (h.listing hrecords).complete.dead_step _ hdead' a ha

/-! ### The file -/

lemma mem_finals_place_iff (hs : s ∈ d.recordedStates) :
    d.place s ∈ (h.listing hrecords).dfa.finals ↔ s ∈ d.finals := by
  rw [Listing.dfa, mem_finals_ofRows, length_rows, place_lt_length_iff]
  simp [listing, getElem?_recordedStates_place hs, hs]

lemma recordOf_place (hs : s ∈ d.recordedStates) :
    (h.listing hrecords).dfa.recordOf (d.place s) = d.recordOf s := by
  have hlt : s < d.numStates := (mem_recordedStates.mp hs).1
  have hlt' := h.place_lt_numStates hrecords hs
  have hfinal : decide (d.place s ∈ (h.listing hrecords).dfa.finals) = decide (s ∈ d.finals) := by
    rw [decide_eq_decide]
    exact h.mem_finals_place_iff hrecords hs
  have hmoves : (h.listing hrecords).dfa.namedMoves (d.place s) = d.namedMoves s := by
    refine List.filterMap_congr fun a ha => ?_
    obtain ⟨t, ht, hstep⟩ := h.total.exists_step s hlt a ha
    have hstep' := h.step_place hrecords hlt hlt' ha hstep
    have hplace := ((h.listing hrecords).complete.step_lt _ _ _ hstep').2.2
    rw [hstep', hstep, Option.map_some, Option.map_some, h.stateName_place hrecords ht hplace]
    rfl
  have hrecord : ∀ e s, recordOf e s = ⟨decide (s ∈ e.finals), .ofList (e.namedMoves s)⟩ :=
    fun _ _ => rfl
  rw [hrecord, hrecord, hfinal, hmoves]

/-- The listing has the same file. -/
lemma toFile_listing : (h.listing hrecords).dfa.toFile = d.toFile := by
  obtain ⟨s, hs, hstart⟩ := h.total.exists_start
  have hstart' := h.start?_listing hrecords hstart
  have hplace := (h.listing hrecords).complete.start_lt _ hstart'
  have hrecorded : (h.listing hrecords).dfa.recordedStates = d.recordedStates.map d.place := by
    rw [Listing.recordedStates_eq, length_rows]
    refine List.ext_getElem (by simp) fun i _ hi => ?_
    rw [List.length_map] at hi
    rw [List.getElem_map, List.getElem_range, place_getElem hi]
  rw [toFile_eq, toFile_eq, hstart', hstart, hrecorded, List.map_map, Option.map_some, Option.map_some,
    Option.getD_some, Option.getD_some, h.stateName_place hrecords hs hplace]
  refine congrArg (AutomatonFile.mk _ <| NameMap.ofList ·) (List.map_congr_left fun t ht => ?_)
  have hlt := (mem_recordedStates.mp ht).1
  have hlt' := h.place_lt_numStates hrecords ht
  rw [Function.comp_apply, h.stateName_place hrecords hlt hlt', h.recordOf_place hrecords ht]

lemma ofText_text : ofText d.text = .ok (h.listing hrecords).dfa := by
  refine ofText_eq_ok_iff.mpr ⟨_, ofText_text_eq_toFile d, ?_⟩
  rw [← h.toFile_listing hrecords]
  exact (h.listing hrecords).ofFile_toFile

/-! ### The live states -/

lemma run_place {u : List Nat} (hu : ∀ a ∈ u, a ∈ d.alphabet.ids) (hrun : d.run u = some s) :
    (h.listing hrecords).dfa.run u = some (d.place s) := by
  induction u using List.reverseRecOn generalizing s with
  | nil =>
    obtain ⟨s', -, hstart⟩ := h.total.exists_start
    rw [run, hstart, Option.bind_some, walk_nil] at hrun
    rw [run, h.start?_listing hrecords hstart, Option.bind_some, walk_nil, ← Option.some.inj hrun]
  | append_singleton u a ih =>
    obtain ⟨hu, ha⟩ := List.forall_mem_append.mp hu
    rw [List.forall_mem_singleton] at ha
    rw [run_append_singleton] at hrun ⊢
    obtain ⟨t, ht, hstep⟩ := Option.bind_eq_some_iff.mp hrun
    have hrun' := ih hu ht
    have hlt := (h.listing hrecords).complete.wellFormed.run_lt u hu _ hrun'
    rw [hrun', Option.bind_some]
    exact h.step_place hrecords (h.wellFormed.run_lt u hu t ht) hlt ha hstep

lemma live_listing : (h.listing hrecords).dfa.live = d.live.image d.place := by
  ext i
  rw [mem_live, StateSet.mem_image]
  constructor
  · rintro ⟨⟨u, hu, hrun⟩, hlive⟩
    obtain ⟨s, hs, hrun'⟩ := h.total.exists_run hu
    obtain rfl := Option.some.inj ((h.run_place hrecords hu hrun').symm.trans hrun)
    refine ⟨s, mem_live.mpr ⟨⟨u, hu, hrun'⟩, fun hdead => ?_⟩, rfl⟩
    have hlt := (h.listing hrecords).complete.wellFormed.run_lt u hu _ hrun
    rcases (h.place_lt_numStates_iff hrecords hs).mp hlt with hrec | ⟨-, hdead'⟩
    · exact (mem_recordedStates.mp hrec).2 hdead
    · exact hlive hdead'
  · rintro ⟨s, hs, rfl⟩
    obtain ⟨⟨u, hu, hrun⟩, -⟩ := mem_live.mp hs
    refine ⟨⟨u, hu, h.run_place hrecords hu hrun⟩, fun hdead => ?_⟩
    have hlt := place_lt_length_iff.mpr (h.mem_recordedStates_of_live hs)
    rw [eq_of_dead?_ofRows hdead, length_rows] at hlt
    exact Nat.lt_irrefl _ hlt

/-- The place of the dead state is not live. -/
lemma place_not_mem_live (hdead : d.dead? = some s) : d.place s ∉ (h.listing hrecords).dfa.live := by
  rw [live_listing, StateSet.mem_image]
  rintro ⟨t, ht, hst⟩
  have hlt := place_lt_length_iff.mpr (h.mem_recordedStates_of_live ht)
  rw [hst, place_of_dead hdead] at hlt
  exact Nat.lt_irrefl _ hlt

lemma step_place_of_live (hs : s ∈ d.live) (ha : a ∈ d.alphabet.ids) (ht : d.step s a = some t) :
    (h.listing hrecords).dfa.step (d.place s) a = some (d.place t) :=
  h.step_place hrecords (h.wellFormed.lt_of_mem_live hs)
    (h.place_lt_numStates hrecords (h.mem_recordedStates_of_live hs)) ha ht

/-- What a word leads to is live or dead. -/
lemma dead_of_not_live {u : List Nat} (hu : ∀ a ∈ u, a ∈ d.alphabet.ids) (hrun : d.run u = some s)
    (hs : s ∉ d.live) : d.dead? = some s := by
  by_contra hne
  exact hs (mem_live.mpr ⟨⟨u, hu, hrun⟩, hne⟩)

/-- What is read has the live states renumbered in the same order. -/
lemma renumbers : Renumbers d.place d (h.listing hrecords).dfa where
  alphabet_eq := rfl
  live_eq := h.live_listing hrecords
  final_iff := fun s hs => h.mem_finals_place_iff hrecords (h.mem_recordedStates_of_live hs)
  step_of_live := fun s hs a ha t _ hstep => h.step_place_of_live hrecords hs ha hstep
  step_of_not_live := by
    intro s hs a ha hnone j hj hstep
    obtain ⟨⟨u, hu, hrun⟩, -⟩ := mem_live.mp hs
    obtain ⟨t, -, hstep'⟩ := h.total.exists_step s (h.wellFormed.lt_of_mem_live hs) a ha
    have hplace := h.step_place_of_live hrecords hs ha hstep'
    have hrun' : d.run (u ++ [a]) = some t := by
      rw [run_append_singleton, hrun, Option.bind_some, hstep']
    have hdead := dead_of_not_live (List.forall_mem_append.mpr ⟨hu, List.forall_mem_singleton.mpr ha⟩)
      hrun' fun ht => hnone t ht hstep'
    obtain rfl := Option.some.inj (hplace.symm.trans hstep)
    exact h.place_not_mem_live hrecords hdead hj
  lt_of_lt := fun s hs t ht =>
    place_lt_place (h.mem_recordedStates_of_live hs) (h.mem_recordedStates_of_live ht)
  labelOf_eq := by
    intro s hs
    have hlt := h.wellFormed.lt_of_mem_live hs
    have hlt' := h.place_lt_numStates hrecords (h.mem_recordedStates_of_live hs)
    have hname := h.stateName_place hrecords hlt hlt'
    have hlive : d.place s ∈ (h.listing hrecords).dfa.live := by
      rw [live_listing]
      exact StateSet.mem_image.mpr ⟨s, hs, rfl⟩
    rw [stateName_of_live (mem_live.mp hs).2, stateName_of_live (mem_live.mp hlive).2] at hname
    exact nameOfLabel_injective hname
  start_of_live := fun s _ hstart => h.start?_listing hrecords hstart
  start_of_not_live := by
    intro hnone j hj hstart
    obtain ⟨s, -, hs⟩ := h.total.exists_start
    have hrun : d.run [] = some s := by rw [run, hs, Option.bind_some, walk_nil]
    have hdead := dead_of_not_live (by simp) hrun fun hlive => hnone s hlive hs
    obtain rfl := Option.some.inj ((h.start?_listing hrecords hs).symm.trans hstart)
    exact h.place_not_mem_live hrecords hdead hj

end

/-! ### Minimizing what is read -/

/-- If there are no records, the dead state is the start state. -/
lemma toFile_eq_of_no_records (h : d.Storable) (hnil : d.recordedStates = []) :
    d.toFile = ⟨deadName, .empty⟩ := by
  obtain ⟨s, hs, hstart⟩ := h.total.exists_start
  have hdead : d.dead? = some s := by
    by_contra hne
    have hmem := mem_recordedStates.mpr ⟨hs, hne⟩
    rw [hnil] at hmem
    exact absurd hmem List.not_mem_nil
  rw [toFile_eq, hnil, hstart, Option.map_some, Option.getD_some, stateName_of_dead hdead]
  rfl

/-- What is read can be minimized, and the result has the same text. -/
lemma exists_ofText_text (h : d.Storable) :
    ∃ e, ofText d.text = .ok e ∧ e.WellFormed ∧ e.minimize.text = d.minimize.text := by
  by_cases hrecords : d.recordedStates = []
  · -- only a dead state is read, and it has no symbols
    have hlive : ∀ s, s ∉ d.live := by
      intro s hs
      have hmem := h.mem_recordedStates_of_live hs
      rw [hrecords] at hmem
      exact absurd hmem List.not_mem_nil
    refine ⟨ofRows .empty [] 0 [] [], ofText_eq_ok_iff.mpr ⟨_, ofText_text_eq_toFile d, ?_⟩, ?_, ?_⟩
    · rw [h.toFile_eq_of_no_records hrecords]
      rfl
    · decide +kernel
    · rw [text, text, toFile_minimize_of_live_empty hlive h.total.not_empty]
      rfl
  · have hcomplete := (h.listing hrecords).complete
    obtain ⟨s, -, hs⟩ := h.total.exists_start
    have htotal := hcomplete.total (h.start?_listing hrecords hs)
    exact ⟨_, h.ofText_text hrecords, hcomplete.wellFormed,
      (h.renumbers hrecords).text_minimize_eq h.total.not_empty htotal.not_empty⟩

end Storable

/-! ### Automata that are built -/

lemma storable_determinize {n : Enfa} (hn : n.WellFormed) (hs : n.start? = some s)
    (horder : n.alphabet.InOrder) (hcount : n.determinize.numStates ≤ 4294967296) :
    n.determinize.Storable where
  total := by
    have hstart : n.determinize.start? = some 0 := by
      rw [Enfa.determinize_eq_ofSubsets hs]
      rfl
    exact hn.complete_determinize.total hstart
  deadAbsorbs := hn.complete_determinize.deadAbsorbs
  namesDistinct := (wellNamed_determinize n).distinct
  inOrder := by rwa [Enfa.alphabet_determinize]
  labelOf_lt := by
    intro t ht _
    rw [Enfa.determinize_eq_ofSubsets hs] at ht hcount ⊢
    rw [labelOf_ofSubsets ht]
    exact Nat.lt_of_lt_of_le ht hcount

/-- Classes keep the labels of their representatives. -/
lemma Storable.minimize (h : d.Storable) : d.minimize.Storable := by
  have hP := (stable_refinement d).divides
  have hlive : ∀ r ∈ d.live, r < d.numStates ∧ d.dead? ≠ some r := fun r hr =>
    ⟨h.wellFormed.lt_of_mem_live hr, (mem_live.mp hr).2⟩
  rw [minimize_eq_quotient h.total.not_empty]
  refine ⟨(complete_quotient hP).total start?_quotient, deadAbsorbs_quotient,
    h.namesDistinct.quotient hP hlive, h.inOrder, ?_⟩
  intro i hi hdead
  obtain ⟨C, hC, r, hr, hlabel⟩ := exists_labelOf_quotient hP hi hdead
  obtain ⟨hlt, hrdead⟩ := hlive r (hP.mem_of_mem (List.mem_of_getElem? hC) hr)
  rw [hlabel]
  exact h.labelOf_lt r hlt hrdead

lemma storable_of_compile {source : String} {c : Compiled} (hc : compile source = .ok c)
    (hcount : c.dfa.numStates ≤ 4294967296) : c.dfa.Storable := by
  have hstart : ∃ s, c.nfa.start? = some s := by
    rw [Compiled.nfa_of_compile hc, Enfa.start?_cacheClosures]
    exact ⟨_, Enfa.start?_ofPostfix _⟩
  obtain ⟨s, hs⟩ := hstart
  rw [Compiled.dfa_of_compile hc] at hcount ⊢
  exact storable_determinize (Compiled.wellFormed_nfa_of_compile hc) hs (Compiled.inOrder_nfa hc) hcount

/-- Let an automaton be described by its file without loss, or be built for an expression, or be read
from a text.  Whether it is written and read before it is minimized makes no difference to the text of
the minimized automaton. -/
theorem text_minimize_of_reloaded (h : d.Storable ∨
      (∃ source c, compile source = .ok c ∧ c.dfa.numStates ≤ 4294967296 ∧
        (d = c.dfa ∨ d = c.minimized)) ∨
      ∃ source, ofText source = .ok d) :
    ∃ e m m', ofText d.text = .ok e ∧ d.minimize? = some m ∧ e.minimize? = some m' ∧
      m'.text = m.text := by
  have hreload : d.WellFormed ∧
      ∃ e, ofText d.text = .ok e ∧ e.WellFormed ∧ e.minimize.text = d.minimize.text := by
    rcases h with h | ⟨source, c, hc, hcount, rfl | rfl⟩ | ⟨source, h⟩
    · exact ⟨h.wellFormed, h.exists_ofText_text⟩
    · have h := storable_of_compile hc hcount
      exact ⟨h.wellFormed, h.exists_ofText_text⟩
    · have h := (storable_of_compile hc hcount).minimize
      rw [← Compiled.minimized_of_compile hc] at h
      exact ⟨h.wellFormed, h.exists_ofText_text⟩
    · have hwf := (complete_ofText h).wellFormed
      exact ⟨hwf, d, ofText_text h, hwf, rfl⟩
  obtain ⟨hwf, e, he, hwf', htext⟩ := hreload
  exact ⟨e, _, _, he, hwf.minimize?_eq, hwf'.minimize?_eq, htext⟩

/-- The dead state of this automaton comes first, so all other states get new numbers when it is read,
and two of them are joined. -/
theorem text_minimize_of_reloaded_of_dead_first :
    ∃ d : Dfa, d.dead? = some 0 ∧ d.minimize.toFile.states.names = ["S1", "S2"] ∧ d.Storable ∧
      ∃ e m m', ofText d.text = .ok e ∧ d.minimize? = some m ∧ e.minimize? = some m' ∧
        m'.text = m.text := by
  let d : Dfa := (ofAlphabet (.ofList [.literal 'x', .range 'a' 'c'])).ensureDead
    |>.addState |>.addState |>.addState |>.setStart 1
    |>.addTransition 1 0 2 |>.addTransition 1 1 3 |>.addFinal 2 |>.addFinal 3
    |>.addTransition 2 0 0 |>.addTransition 2 1 0 |>.addTransition 3 0 0 |>.addTransition 3 1 0
  have hstorable : d.Storable :=
    ⟨⟨⟨1, by decide +kernel, rfl⟩, by decide +kernel⟩, by decide +kernel, by decide +kernel,
      by decide +kernel, by decide +kernel⟩
  exact ⟨d, rfl, by decide +kernel, hstorable, text_minimize_of_reloaded (Or.inl hstorable)⟩

end Dfa
end RegexAutomata
