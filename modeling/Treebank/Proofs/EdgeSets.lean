import Mathlib.Data.List.Nodup
import Treebank.Proofs.Renumbering
import Treebank.Proofs.RoundTrip

/-! Enhanced dependencies as sets of edges.

Reading, pushing, editing and building never bring an edge in twice. Numbering words anew can:
an edge from a word goes with the word, an edge from no word or from 0 stays, and the two may come
to be the same (`MergesEdges`); where sums wrap around, the new number of a word can also be 0.
`edgesDistinct_step` says that this is the only way, so a session has distinct edges at all times
just when no numbering in it merges any (`edgesDistinct_run_iff`). Where sums end the program, that
is about the numberings before its end. -/
namespace Treebank

theorem EnhancedDep.unlinked_eq_iff {a b : EnhancedDep} :
    a.unlinked = b.unlinked ↔ a.head = b.head ∧ a.sub? = b.sub? ∧ a.deprel = b.deprel := by
  simp [unlinked]

/-- Where lists are added one after the other, those that are added at one id are joined. -/
theorem IdMap.get?_foldl_append {α β : Type} {new : Nat → Nat} {f : Nat × α → List β}
    (entries : List (Nat × α)) (moved : IdMap (List β)) {id : Nat} :
    (entries.foldl (fun moved entry => moved.append (new entry.1) (f entry)) moved).get? id =
      if entries.filter (new ·.1 = id) = [] then moved.get? id
      else some ((moved.get? id).getD [] ++ (entries.filter (new ·.1 = id)).flatMap f) := by
  induction entries generalizing moved with
  | nil => rfl
  | cons entry rest ih =>
    rw [List.foldl_cons, ih, append, get?_insert]
    by_cases hid : new entry.1 = id
    · rw [List.filter_cons_of_pos (by simpa using hid), if_pos hid.symm]
      by_cases hrest : rest.filter (new ·.1 = id) = [] <;> simp [hid, hrest]
    · rw [List.filter_cons_of_neg (by simpa using hid), if_neg (Ne.symm hid)]

/-! ### Columns -/

namespace Columns

/-- No two dependencies are the same edge. -/
def EdgesDistinct (columns : Columns) : Prop :=
  columns.deps.Pairwise fun a b => ¬ (a.head = b.head ∧ a.sub? = b.sub? ∧ a.deprel = b.deprel)

instance (columns : Columns) : Decidable columns.EdgesDistinct :=
  inferInstanceAs (Decidable (List.Pairwise _ _))

theorem edgesDistinct_iff_nodup {columns : Columns} :
    columns.EdgesDistinct ↔ (columns.deps.map (·.unlinked)).Nodup := by
  rw [List.Nodup, List.pairwise_map]
  simp only [ne_eq, EnhancedDep.unlinked_eq_iff]
  rfl

theorem edgesDistinct_addDep {columns : Columns} (h : columns.EdgesDistinct) (dep : EnhancedDep) :
    (columns.addDep dep).EdgesDistinct := by
  unfold addDep
  split
  · exact h
  · next hnew =>
    refine List.pairwise_append.2 ⟨h, List.pairwise_singleton _ dep, fun a ha b hb hsame => hnew ?_⟩
    rw [List.mem_singleton.1 hb, ← EnhancedDep.unlinked_eq_iff] at hsame
    exact List.any_eq_true.2 ⟨a, ha, decide_eq_true hsame.symm⟩

theorem edgesDistinct_applyAll {columns : Columns} (h : columns.EdgesDistinct) (edits : List Edit) :
    (Edit.applyAll edits columns).EdgesDistinct := by
  refine List.foldlRecOn edits _ h fun c hc edit _ => ?_
  cases edit
  case addDep => exact edgesDistinct_addDep hc _
  case eraseDepsFrom => exact List.Pairwise.filter _ hc
  all_goals exact hc

@[simp] theorem edgesDistinct_unlinked {columns : Columns} :
    columns.unlinked.EdgesDistinct ↔ columns.EdgesDistinct := by
  rw [edgesDistinct_iff_nodup, edgesDistinct_iff_nodup, unlinked, List.map_map]
  rfl

end Columns

/-! ### Sentences -/

/-- A step that brings in no edge twice by itself: what is pushed has distinct edges, and words are
changed by edits. -/
def Step.IsCareful : Step → Prop
  | .push token => token.toColumns.EdgesDistinct
  | .change _ f => ∃ edits, f = Edit.applyAll edits
  | _ => True

namespace Sentence

/-- The edges of every token are a set. -/
def EdgesDistinct (s : Sentence) : Prop := ∀ token ∈ s.stored, token.toColumns.EdgesDistinct

instance (s : Sentence) : Decidable s.EdgesDistinct :=
  inferInstanceAs (Decidable (∀ token ∈ s.stored, token.toColumns.EdgesDistinct))

/-- The sentence after all steps of a session that do not end the program. -/
def run? (s : Sentence) (steps : List Step) (overflow : Overflow) : Option Sentence :=
  steps.foldlM (·.step? · overflow) s

/-- Whether the id is one that is numbered anew: that of a word, and not 0. -/
def Names (s : Sentence) (id : Nat) : Prop := id ≠ 0 ∧ ∃ word ∈ s.words, word.id = id

instance (s : Sentence) (id : Nat) : Decidable (s.Names id) :=
  inferInstanceAs (Decidable (id ≠ 0 ∧ ∃ word ∈ s.words, word.id = id))

/-- Two edges become the same when words are numbered from `first` on: one is from a word, the
other is not from the same one, but its head becomes the number that the word gets
(`newId_eq_of_ne`: it is from no word then, and from that very number). -/
def Merges (s : Sentence) (first : Nat) (columns : Columns) : Prop :=
  ∃ a ∈ columns.deps, ∃ b ∈ columns.deps, a.sub? = b.sub? ∧ a.deprel = b.deprel ∧
    s.Names a.head ∧ a.head ≠ b.head ∧ s.newId first a.head = s.newId first b.head

instance (s : Sentence) (first : Nat) (columns : Columns) : Decidable (s.Merges first columns) :=
  inferInstanceAs (Decidable (∃ a ∈ columns.deps, ∃ b ∈ columns.deps, _))

/-- Two edges of a word or of an empty node become the same. Ranges keep theirs. -/
def MergesEdges (s : Sentence) (first : Nat) : Prop :=
  (∃ word ∈ s.words, s.Merges first word.toColumns) ∨
    ∃ anchor, ∃ node ∈ s.emptiesAt anchor, s.Merges first node.toColumns

theorem edgesDistinct_iff {s : Sentence} : s.EdgesDistinct ↔
    (∀ word ∈ s.words, word.toColumns.EdgesDistinct) ∧
      (∀ range ∈ s.multiwords.values, range.toColumns.EdgesDistinct) ∧
        ∀ anchor, ∀ node ∈ s.emptiesAt anchor, node.toColumns.EdgesDistinct := by
  constructor
  · intro h
    refine ⟨fun word hword => ?_, fun range hrange => ?_, fun anchor node hnode => ?_⟩
    · exact h word.token (mem_stored.2 (.inl ⟨word, hword, rfl⟩))
    · obtain ⟨⟨first, range⟩, hentry, rfl⟩ := List.mem_map.1 hrange
      have hget := IdMap.mem_entries_iff.1 hentry
      exact h range.token (mem_stored.2 (.inr (.inl ⟨first, range, hget, rfl⟩)))
    · exact h node.token (mem_stored.2 (.inr (.inr ⟨anchor, node, hnode, rfl⟩)))
  · intro h token htoken
    obtain ⟨hwords, hranges, hempties⟩ := h
    rcases mem_stored.1 htoken with ⟨word, hword, rfl⟩ | ⟨first, range, hget, rfl⟩ |
      ⟨anchor, node, hnode, rfl⟩
    · exact hwords word hword
    · exact hranges range (IdMap.mem_values_of_get? hget)
    · exact hempties anchor node hnode

theorem edgesDistinct_push {s : Sentence} {token : Token} (h : s.EdgesDistinct)
    (htoken : token.toColumns.EdgesDistinct) : (s.push token).EdgesDistinct := by
  intro other hother
  rcases mem_stored_of_mem_push hother with rfl | hold
  · exact htoken
  · exact h other hold

/-- A build changes nothing in what is written. -/
theorem edgesDistinct_relink {s : Sentence} : s.relink.1.EdgesDistinct ↔ s.EdgesDistinct := by
  have hunlinked : ∀ t : Sentence, t.unlinked.EdgesDistinct ↔ t.EdgesDistinct := by
    intro t
    rw [edgesDistinct_iff, edgesDistinct_iff]
    simp only [emptiesAt_unlinked, List.forall_mem_map]
    simp only [unlinked, List.forall_mem_map, Word.unlinked, EmptyNode.unlinked,
      Columns.edgesDistinct_unlinked]
  rw [← hunlinked, unlinked_relink, hunlinked]

theorem edgesDistinct_change {s : Sentence} (h : s.EdgesDistinct) (id : Nat) {f : Columns → Columns}
    (hf : ∀ columns : Columns, columns.EdgesDistinct → (f columns).EdgesDistinct) :
    (s.step (.change id f)).EdgesDistinct := by
  rw [step_change]
  split
  · exact h
  · obtain ⟨hwords, hothers⟩ := edgesDistinct_iff.1 h
    refine edgesDistinct_iff.2 ⟨fun word hword => ?_, hothers⟩
    obtain ⟨other, hother⟩ := List.getElem?_of_mem hword
    rw [List.getElem?_modify] at hother
    obtain ⟨old, hold, rfl⟩ := Option.map_eq_some_iff.1 hother
    have hdistinct := hwords old (List.mem_of_getElem? hold)
    split
    · exact hf _ hdistinct
    · exact hdistinct

/-! ### Numbering anew -/

section Renumber
variable {s : Sentence} {first : Nat}

theorem newId_of_not_names {id : Nat} (h : ¬ s.Names id) : s.newId first id = id := by
  unfold newId
  split
  · next hzero => exact hzero.symm
  · next hpos =>
    split
    · next node hnode =>
      obtain ⟨word, hword, hid⟩ := lastIdx?_eq_some hnode
      exact absurd ⟨hpos, word, List.mem_of_getElem? hword, of_decide_eq_true hid⟩ h
    · rfl

/-- The node of the last word with the id. -/
structure IsLast (s : Sentence) (id last : Nat) : Prop where
  lt : last < s.words.length
  hasId : (s.wordAt last).id = id
  later : ∀ node, last < node → node < s.words.length → (s.wordAt node).id ≠ id

theorem IsLast.eq {id last other : Nat} (h : s.IsLast id last) (hother : s.IsLast id other) :
    last = other := by
  rcases Nat.lt_trichotomy last other with hlt | heq | hgt
  · exact absurd hother.hasId (h.later other hlt hother.lt)
  · exact heq
  · exact absurd h.hasId (hother.later last hgt h.lt)

theorem lastIdx?_eq_some_iff {id node : Nat} :
    lastIdx? (·.id = id) s.words = some node ↔ s.IsLast id node := by
  have hlast : ∀ {node}, lastIdx? (·.id = id) s.words = some node → s.IsLast id node := by
    intro node hnode
    obtain ⟨word, hword, hid⟩ := lastIdx?_eq_some hnode
    refine ⟨lt_of_getElem?_words hword, ?_, fun later hlt hlater => ?_⟩
    · rw [wordAt_eq hword]
      exact of_decide_eq_true hid
    · have hnot := not_of_lastIdx?_lt hnode hlt (getElem?_words hlater)
      exact of_decide_eq_false hnot
  refine ⟨hlast, fun hisLast => ?_⟩
  cases hnode : lastIdx? (·.id = id) s.words with
  | none =>
    have hnot := not_mem_of_lastIdx?_eq_none hnode _ (wordAt_mem hisLast.lt)
    exact absurd hisLast.hasId (of_decide_eq_false hnot)
  | some other => rw [hisLast.eq (hlast hnode)]

/-- An id that is numbered anew goes with the last word that has it. -/
theorem exists_newId (first : Nat) {id : Nat} (h : s.Names id) :
    ∃ last, s.IsLast id last ∧ s.newId first id = wrappedSum first last := by
  obtain ⟨hpos, word, hword, rfl⟩ := h
  unfold newId
  rw [if_neg hpos]
  split
  · next last hlast => exact ⟨last, lastIdx?_eq_some_iff.1 hlast, rfl⟩
  · next hnone =>
    exact absurd rfl (of_decide_eq_false (not_mem_of_lastIdx?_eq_none hnone word hword))

/-- Two numbers that are not the same can only become the same if one is numbered anew. -/
theorem names_or_names {a b : Nat} (hne : a ≠ b) (h : s.newId first a = s.newId first b) :
    s.Names a ∨ s.Names b := by
  by_contra hnot
  rw [not_or] at hnot
  rw [newId_of_not_names hnot.1, newId_of_not_names hnot.2] at h
  exact hne h

section Count
variable (hcount : s.words.length ≤ Text.numberBound) {a b : Nat}

include hcount

/-- Two ids that are numbered anew stay apart, if there are no more words than numbers. -/
theorem newId_inj (ha : s.Names a) (hb : s.Names b) (h : s.newId first a = s.newId first b) :
    a = b := by
  obtain ⟨node, hnode, hnew⟩ := exists_newId first ha
  obtain ⟨other, hother, hnewOther⟩ := exists_newId first hb
  rw [hnew, hnewOther] at h
  have hsame := wrappedSum_inj (Nat.lt_of_lt_of_le hnode.lt hcount)
    (Nat.lt_of_lt_of_le hother.lt hcount) h
  rw [← hnode.hasId, ← hother.hasId, hsame]

/-- What becomes the same as the number of a word, and was not, is of no word and stays. -/
theorem newId_eq_of_ne (ha : s.Names a) (hne : a ≠ b) (h : s.newId first a = s.newId first b) :
    ¬ s.Names b ∧ s.newId first a = b := by
  have hstays : ¬ s.Names b := fun hb => hne (newId_inj hcount ha hb h)
  exact ⟨hstays, by rw [h, newId_of_not_names hstays]⟩

end Count

theorem edgesDistinct_renumberDeps {columns : Columns} (h : columns.EdgesDistinct) :
    (columns.renumberDeps (s.newId first)).EdgesDistinct ↔ ¬ s.Merges first columns := by
  have hedges : (columns.renumberDeps (s.newId first)).deps.map (·.unlinked) =
      (columns.deps.map (·.unlinked)).map fun dep =>
        { dep with head := s.newId first dep.head } := by
    rw [Columns.renumberDeps, List.map_map, List.map_map]
    rfl
  rw [Columns.edgesDistinct_iff_nodup, hedges,
    List.nodup_map_iff_inj_on (Columns.edgesDistinct_iff_nodup.1 h)]
  simp only [List.forall_mem_map]
  constructor
  · intro hinj hmerges
    obtain ⟨a, ha, b, hb, hsub, hlabel, -, hne, hnew⟩ := hmerges
    have hsame := hinj a ha b hb (by simp only [EnhancedDep.unlinked, hnew, hsub, hlabel])
    rw [EnhancedDep.unlinked_eq_iff] at hsame
    exact hne hsame.1
  · intro hfree a ha b hb hnew
    simp only [EnhancedDep.unlinked, EnhancedDep.mk.injEq, and_true] at hnew
    obtain ⟨hhead, hsub, hlabel⟩ := hnew
    refine EnhancedDep.unlinked_eq_iff.2 ⟨?_, hsub, hlabel⟩
    by_contra hne
    rcases names_or_names hne hhead with hnames | hnames
    · exact hfree ⟨a, ha, b, hb, hsub, hlabel, hnames, hne, hhead⟩
    · exact hfree ⟨b, hb, a, ha, hsub.symm, hlabel.symm, hnames, Ne.symm hne, hhead.symm⟩

theorem mem_emptiesAt {anchor : Nat} {node : EmptyNode} :
    node ∈ s.emptiesAt anchor ↔ ∃ nodes, (anchor, nodes) ∈ s.empties.entries ∧ node ∈ nodes := by
  simp only [IdMap.mem_entries_iff, emptiesAt]
  cases s.empties.get? anchor <;> simp

/-- The lists of all anchors that get the same number are joined. -/
theorem get?_empties_renumber (s : Sentence) (first anchor : Nat) :
    (s.renumber first).empties.get? anchor =
      if s.empties.entries.filter (s.newId first ·.1 = anchor) = [] then none
      else some ((s.empties.entries.filter (s.newId first ·.1 = anchor)).flatMap fun entry =>
        entry.2.map fun node => node.renumber (s.newId first) anchor) := by
  refine (IdMap.get?_foldl_append _ ∅).trans ?_
  congr 2
  refine List.flatMap_congr fun entry hentry => ?_
  rw [← of_decide_eq_true (List.mem_filter.1 hentry).2]

theorem emptiesAt_renumber (s : Sentence) (first anchor : Nat) :
    (s.renumber first).emptiesAt anchor =
      (s.empties.entries.filter (s.newId first ·.1 = anchor)).flatMap fun entry =>
        entry.2.map fun node => node.renumber (s.newId first) anchor := by
  rw [emptiesAt, get?_empties_renumber]
  split
  · next hnone =>
    rw [hnone]
    rfl
  · rfl

theorem edgesDistinct_renumber (h : s.EdgesDistinct) :
    (s.renumber first).EdgesDistinct ↔ ¬ s.MergesEdges first := by
  obtain ⟨hwords, hranges, hempties⟩ := edgesDistinct_iff.1 h
  have hword : (∀ word ∈ (s.renumber first).words, word.toColumns.EdgesDistinct) ↔
      ∀ word ∈ s.words, ¬ s.Merges first word.toColumns := by
    rw [renumber, List.forall_mem_map]
    exact forall₂_congr fun word hword => edgesDistinct_renumberDeps (hwords word hword)
  have hrange : ∀ range ∈ (s.renumber first).multiwords.values, range.toColumns.EdgesDistinct := by
    intro range hrange
    obtain ⟨old, hold, rfl⟩ := mem_values_renumberRanges hrange
    exact hranges old hold
  have hempty : (∀ anchor, ∀ node ∈ (s.renumber first).emptiesAt anchor,
        node.toColumns.EdgesDistinct) ↔
      ∀ anchor, ∀ node ∈ s.emptiesAt anchor, ¬ s.Merges first node.toColumns := by
    have hnode : ∀ {anchor node} again, node ∈ s.emptiesAt anchor →
        ((node.renumber (s.newId first) again).toColumns.EdgesDistinct ↔
          ¬ s.Merges first node.toColumns) :=
      fun _ hmem => edgesDistinct_renumberDeps (hempties _ _ hmem)
    constructor
    · intro hall anchor node hmem
      obtain ⟨nodes, hentry, hold⟩ := mem_emptiesAt.1 hmem
      refine (hnode (s.newId first anchor) hmem).1 (hall (s.newId first anchor) _ ?_)
      rw [emptiesAt_renumber]
      exact List.mem_flatMap.2 ⟨_, List.mem_filter.2 ⟨hentry, decide_eq_true rfl⟩,
        List.mem_map_of_mem hold⟩
    · intro hall anchor node hmem
      rw [emptiesAt_renumber] at hmem
      obtain ⟨entry, hentry, hmem⟩ := List.mem_flatMap.1 hmem
      obtain ⟨old, hold, rfl⟩ := List.mem_map.1 hmem
      have hmem := mem_emptiesAt.2 ⟨entry.2, (List.mem_filter.1 hentry).1, hold⟩
      exact (hnode anchor hmem).2 (hall _ _ hmem)
  rw [edgesDistinct_iff, hword, hempty, and_iff_right hrange, MergesEdges]
  push Not
  rfl

end Renumber

/-! ### Sessions -/

/-- Only numbering anew can make two edges the same. -/
theorem edgesDistinct_step {s : Sentence} (h : s.EdgesDistinct) {step : Step}
    (hstep : step.IsCareful) :
    (s.step step).EdgesDistinct ↔ ∀ first, step = .renumber first → ¬ s.MergesEdges first := by
  cases step with
  | push token => exact iff_of_true (edgesDistinct_push h hstep) fun first heq => by cases heq
  | build => exact iff_of_true (edgesDistinct_relink.2 h) fun first heq => by cases heq
  | renumber first =>
    refine (edgesDistinct_renumber h).trans ⟨fun hfree other heq => ?_, fun hall => hall first rfl⟩
    cases heq
    exact hfree
  | annotate metadata => exact iff_of_true h fun first heq => by cases heq
  | change id f =>
    obtain ⟨edits, rfl⟩ := hstep
    have hchange := edgesDistinct_change h id fun columns hcolumns =>
      Columns.edgesDistinct_applyAll hcolumns edits
    exact iff_of_true hchange fun first heq => by cases heq

theorem edgesDistinct_of_read {text : List Char} {s : Sentence} (h : Sentence.read text = .ok s) :
    s.EdgesDistinct := by
  refine read_invariant ?_ ?_ ?_ h
  · exact fun token htoken => absurd htoken List.not_mem_nil
  · intro s line token hread hs
    have hdeps : token.deps.map (·.unlinked) = token.deps :=
      congrArg Columns.deps (Columns.unlinked_eq_self (Token.isUnlinked_of_read hread))
    refine edgesDistinct_push hs (Columns.edgesDistinct_iff_nodup.2 ?_)
    rw [hdeps]
    exact (Token.read_eq_ok hread).1.nodup
  · exact fun _ hs => hs

theorem step?_eq_some_iff {s t : Sentence} {step : Step} {overflow : Overflow} :
    s.step? step overflow = some t ↔
      (∀ first, step = .renumber first → overflow = .wraps ∨ s.FitsFrom first) ∧
        s.step step = t := by
  cases step with
  | renumber first =>
    have hall : (∀ other, Step.renumber first = .renumber other →
        overflow = .wraps ∨ s.FitsFrom other) ↔ overflow = .wraps ∨ s.FitsFrom first :=
      ⟨fun hall => hall first rfl, fun hgoes other heq => by cases heq; exact hgoes⟩
    rw [step?, renumber?_eq, hall]
    simp only [Option.ite_none_right_eq_some, Option.some.injEq]
    rfl
  | push | build | annotate | change =>
    show some _ = some t ↔ _
    rw [Option.some.injEq]
    exact (and_iff_right nofun).symm

theorem run?_concat (s : Sentence) (steps : List Step) (step : Step) (overflow : Overflow) :
    s.run? (steps ++ [step]) overflow =
      (s.run? steps overflow).bind (·.step? step overflow) := by
  rw [run?, List.foldlM_append]
  simp only [List.foldlM_cons, List.foldlM_nil, bind_pure]
  rfl

/-- **The edges of a session are sets at all times if and only if** no numbering in it takes an edge
from a word to where another edge is, which is not from this word. -/
theorem edgesDistinct_run_iff {text : List Char} {s : Sentence} (h : Sentence.read text = .ok s)
    {steps : List Step} (hsteps : ∀ step ∈ steps, step.IsCareful) (overflow : Overflow) :
    (∀ before, before <+: steps → ∀ t, s.run? before overflow = some t → t.EdgesDistinct) ↔
      ∀ before first, before ++ [.renumber first] <+: steps → ∀ t,
        s.run? before overflow = some t → (overflow = .wraps ∨ t.FitsFrom first) →
          ¬ t.MergesEdges first := by
  have hcareful : ∀ {before : List Step} {step : Step}, before ++ [step] <+: steps →
      step.IsCareful := fun hinit => hsteps _ (hinit.subset (by simp))
  have hshorter : ∀ {before : List Step} {step : Step}, before ++ [step] <+: steps →
      before <+: steps := fun hinit => (List.prefix_append _ _).trans hinit
  constructor
  · intro hall before first hinit t ht hgoes
    have hdistinct := hall before (hshorter hinit) t ht
    have hstep : t.step? (.renumber first) overflow = some (t.step (.renumber first)) :=
      step?_eq_some_iff.2 ⟨fun other heq => by cases heq; exact hgoes, rfl⟩
    have hlonger : s.run? (before ++ [.renumber first]) overflow =
        some (t.step (.renumber first)) := by
      rw [run?_concat, ht]
      exact hstep
    exact (edgesDistinct_step hdistinct (hcareful hinit)).1 (hall _ hinit _ hlonger) first rfl
  · intro hfree before
    -- step after step, each from a sentence whose edges are distinct
    induction before using List.reverseRecOn with
    | nil =>
      rintro - t ht
      cases ht
      exact edgesDistinct_of_read h
    | append_singleton before step ih =>
      intro hinit t ht
      rw [run?_concat, Option.bind_eq_some_iff] at ht
      obtain ⟨last, hlast, hstep⟩ := ht
      obtain ⟨hgoes, rfl⟩ := step?_eq_some_iff.1 hstep
      have hdistinct := ih (hshorter hinit) last hlast
      refine (edgesDistinct_step hdistinct (hcareful hinit)).2 fun first heq => ?_
      exact hfree before first (heq ▸ hinit) last hlast (hgoes first heq)

/-- The edge from 2 is there and is not added again. The one from 1, which is no word, is added, and
then both are from 1. -/
theorem edgesDistinct_run_of_two :
    let edits := [Edit.addDep 2 none "x", .addDep 1 none "x"]
    let steps := [Step.build, .change 3 (Edit.applyAll edits), .renumber 1]
    ∃ s, Sentence.read ("2\ta\t_\t_\t_\t_\t0\troot\t_\t_\n" ++
        "3\tb\t_\t_\t_\t_\t_\t_\t2:x\t_\n").toList = .ok s ∧
      ((s.run? (steps.take 2) .stops).map fun t => (t.wordAt 1).deps) = some
        [{ head := 2, deprel := "x", headword := some (.word 0) }, { head := 1, deprel := "x" }] ∧
      ¬ ∀ before, before <+: steps → ∀ t, s.run? before .stops = some t → t.EdgesDistinct := by
  intro edits steps
  let s : Sentence :=
    { words :=
        [{ id := 2, form := "a", head := some 0, deprel := "root" },
         { id := 3, form := "b", deps := [{ head := 2, deprel := "x" }] }] }
  have hread : Sentence.read ("2\ta\t_\t_\t_\t_\t0\troot\t_\t_\n" ++
      "3\tb\t_\t_\t_\t_\t_\t_\t2:x\t_\n").toList = .ok s := by decide +kernel
  have hcareful : ∀ step ∈ steps, step.IsCareful := by
    simp only [steps, List.forall_mem_cons]
    exact ⟨trivial, ⟨edits, rfl⟩, trivial, fun _ hnone => absurd hnone List.not_mem_nil⟩
  let t := (s.step .build).step (.change 3 (Edit.applyAll edits))
  refine ⟨s, hread, by decide +kernel, fun hall => ?_⟩
  refine (edgesDistinct_run_iff hread hcareful .stops).1 hall (steps.take 2) 1
    (List.prefix_refl _) t rfl (by decide +kernel) ?_
  exact .inl ⟨t.wordAt 1, by decide +kernel, by decide +kernel⟩

/-- Two edges that are read, one from a word and one from none, are the same after the words are
numbered from 1 on. -/
theorem edges_met :
    ∃ s, Reachable Step.IsCareful s ∧ s.words.map (·.deps) =
        [[], [{ head := 1, deprel := "x" }, { head := 1, deprel := "x" }]] ∧
      ¬ s.EdgesDistinct := by
  have hread : Sentence.read ("2\ta\t_\t_\t_\t_\t0\troot\t_\t_\n" ++
      "3\tb\t_\t_\t_\t_\t2\tdep\t1:x|2:x\t_\n").toList = .ok
      { words :=
          [{ id := 2, form := "a", head := some 0, deprel := "root" },
           { id := 3, form := "b", head := some 2, deprel := "dep",
             deps := [{ head := 1, deprel := "x" }, { head := 2, deprel := "x" }] }] } := by
    decide +kernel
  have hreachable : Reachable Step.IsCareful (Sentence.step _ (.renumber 1)) :=
    (Reachable.read hread).step trivial
  exact ⟨_, hreachable, by decide +kernel, by decide +kernel⟩

end Sentence
end Treebank
