import Treebank.Proofs.NewIds

/-! Positions of tokens.

A build counts the tokens as it comes to them, word by word with the empty nodes after each, and
the lines of a sentence are written in the same order (`map_tokenAt?_lineRefs`). When no two words
share an id and every empty node follows a word or comes first, no list of empty nodes is come to
twice and none is left out. Then the positions count the lines up from 1, ranges left out
(`positions_of_lines`). -/
namespace Treebank

/-! ### Counting -/

theorem EmptyNode.map_position_placeAll (position : Nat) (nodes : List EmptyNode) :
    (placeAll position nodes).map (·.position) = List.range' position nodes.length := by
  induction nodes generalizing position with
  | nil => rfl
  | cons node rest ih =>
    rw [placeAll, List.map_cons, ih]
    rfl

theorem IdMap.get?_modify {α : Type} (map : IdMap α) (id other : Nat) (f : α → α) :
    (map.modify id f).get? other =
      (map.get? other).map fun value => if other = id then f value else value := by
  rw [modify, get?_mapValues]

/-- The empty nodes at an anchor that none of the words has are left as they are. -/
theorem Word.get?_placeAll {words : List Word} {anchor : Nat}
    (h : anchor ∉ words.map (·.id)) (position : Nat) (empties : IdMap (List EmptyNode)) :
    (placeAll position words empties).2.get? anchor = empties.get? anchor := by
  induction words generalizing position empties with
  | nil => rfl
  | cons word rest ih =>
    rw [List.map_cons, List.mem_cons, not_or] at h
    rw [placeAll, ih h.2, IdMap.get?_modify]
    simp [h.1]

theorem EmptyNode.map_position_modify (empties : IdMap (List EmptyNode)) (anchor position : Nat) :
    (((empties.modify anchor (placeAll position)).get? anchor).getD []).map (·.position) =
      List.range' position ((empties.get? anchor).getD []).length := by
  rw [IdMap.get?_modify]
  simp only [if_pos]
  cases empties.get? anchor with
  | none => rfl
  | some nodes => exact map_position_placeAll position nodes

/-- Words with different ids are counted up, each with the empty nodes that follow it. -/
theorem Word.positions_placeAll {words : List Word} (h : (words.map (·.id)).Nodup)
    (position : Nat) (empties : IdMap (List EmptyNode)) :
    ∃ count, ((placeAll position words empties).1.flatMap fun word => word.links.position ::
        (((placeAll position words empties).2.get? word.id).getD []).map (·.position)) =
      List.range' position count := by
  induction words generalizing position empties with
  | nil => exact ⟨0, rfl⟩
  | cons word rest ih =>
    obtain ⟨hnew, hrest⟩ := List.nodup_cons.1 h
    obtain ⟨count, hcount⟩ := ih hrest (position + 1 + ((empties.get? word.id).getD []).length)
      (empties.modify word.id (EmptyNode.placeAll (position + 1)))
    refine ⟨((empties.get? word.id).getD []).length + count + 1, ?_⟩
    simp only [placeAll, List.flatMap_cons]
    -- the words after this one have other ids, so they leave its empty nodes where they are
    rw [hcount, get?_placeAll hnew, EmptyNode.map_position_modify, List.range'_succ,
      ← List.range'_append_1]
    rfl

def TokenId.isRange : TokenId → Bool
  | range _ _ => true
  | _ => false

namespace Sentence

/-! ### Positions in the order of lines -/

/-- The positions of words and empty nodes in the order of their lines. -/
def linePositions (s : Sentence) : List Nat :=
  (s.emptiesAt 0).map (·.position) ++
    s.words.flatMap fun word => word.links.position :: (s.emptiesAt word.id).map (·.position)

theorem linePositions_congr {s t : Sentence}
    (hwords : t.words.map (fun word => (word.id, word.links.position)) =
      s.words.map fun word => (word.id, word.links.position))
    (hempties : ∀ anchor, (t.emptiesAt anchor).map (·.position) =
      (s.emptiesAt anchor).map (·.position)) :
    t.linePositions = s.linePositions := by
  have hflat : ∀ u : Sentence, u.linePositions = (u.emptiesAt 0).map (·.position) ++
      (u.words.map fun word => (word.id, word.links.position)).flatMap fun word =>
        word.2 :: (u.emptiesAt word.1).map (·.position) := by
    intro u
    rw [linePositions, List.flatMap_map]
  simp only [hflat, hwords, hempties]

theorem linePositions_place {s : Sentence} (hids : (s.words.map (·.id)).Nodup)
    (hzero : 0 ∉ s.words.map (·.id)) : ∃ count, s.place.linePositions = List.range' 1 count := by
  obtain ⟨count, hcount⟩ := Word.positions_placeAll hids (1 + (s.emptiesAt 0).length)
    (s.empties.modify 0 (EmptyNode.placeAll 1))
  refine ⟨(s.emptiesAt 0).length + count, ?_⟩
  have hfirst : (s.place.emptiesAt 0).map (·.position) = List.range' 1 (s.emptiesAt 0).length := by
    -- no word has the id 0, so what comes before the first word is counted once only
    simp only [emptiesAt, place, Word.get?_placeAll hzero]
    exact EmptyNode.map_position_modify s.empties 0 1
  rw [linePositions, hfirst, ← List.range'_append_1]
  congr 1

theorem linePositions_join (s : Sentence) (node head id : Nat) :
    (s.join node head id).linePositions = s.linePositions := by
  refine linePositions_congr ?_ fun _ => rfl
  simp only [join]
  rw [map_modify_of_eq ?_ _ head, map_modify_of_eq ?_ _ node]
  · exact fun _ => rfl
  · exact fun _ => rfl

theorem linePositions_resolve (s : Sentence) : s.resolve.linePositions = s.linePositions := by
  refine linePositions_congr ?_ fun anchor => ?_
  · rw [resolve, List.map_map]
    rfl
  · rw [emptiesAt, emptiesAt, resolve, IdMap.get?_mapValues]
    cases s.empties.get? anchor with
    | none => rfl
    | some nodes => exact List.map_map

/-- Only placing gives positions, and what a build does after that leaves them as they are. -/
theorem linePositions_of_build {s linked : Sentence} (h : s.build = .ok linked)
    (hids : (s.words.map (·.id)).Nodup) (hzero : 0 ∉ s.words.map (·.id)) :
    ∃ count, linked.linePositions = List.range' 1 count := by
  obtain ⟨attached, hrun, rfl⟩ := exists_attached h
  have hids' : s.unlinked.words.map (·.id) = s.words.map (·.id) := by
    rw [unlinked, List.map_map]
    rfl
  obtain ⟨count, hcount⟩ := linePositions_place (s := s.unlinked) (hids' ▸ hids) (hids' ▸ hzero)
  have hattached := attachAll_eq_of (fun _ _ => rfl) linePositions_join s.unlinked.place
    (List.range s.words.length)
  rw [hrun, hcount] at hattached
  exact ⟨count, (linePositions_resolve attached).trans hattached⟩

/-! ### References in the order of lines -/

def positionAt? (s : Sentence) : NodeRef → Option Nat
  | .word node => (s.words[node]?).map (·.links.position)
  | .empty anchor index => ((s.emptiesAt anchor)[index]?).map (·.position)

/-- References to the empty nodes at an anchor. -/
def emptyRefs (s : Sentence) (anchor : Nat) : List NodeRef :=
  (List.range (s.emptiesAt anchor).length).map (.empty anchor)

/-- References to words and empty nodes, as the tokens they name are written. -/
def lineRefs (s : Sentence) : List NodeRef :=
  s.emptyRefs 0 ++ (List.range s.words.length).flatMap fun node =>
    .word node :: s.emptyRefs (s.wordAt node).id

theorem map_range_getElem? {α β : Type} (xs : List α) (f : α → β) :
    (List.range xs.length).map (fun i => xs[i]?.map f) = xs.map (some ∘ f) := by
  apply List.ext_getElem?
  intro i
  rw [List.getElem?_map, List.getElem?_map]
  by_cases hi : i < xs.length
  · simp [hi]
  · simp [hi]

theorem map_wordAt_range (s : Sentence) : (List.range s.words.length).map s.wordAt = s.words := by
  apply List.ext_getElem?
  intro node
  rw [List.getElem?_map]
  by_cases hnode : node < s.words.length
  · rw [List.getElem?_range hnode, getElem?_words hnode]
    rfl
  · simp [hnode]

section Map
variable {α : Type} {s : Sentence} {look : NodeRef → Option α} {f : Word → α}
  {g : EmptyNode → α} (hword : ∀ node, look (.word node) = (s.words[node]?).map f)
  (hempty : ∀ anchor index,
    look (.empty anchor index) = ((s.emptiesAt anchor)[index]?).map g)

include hempty in
theorem map_emptyRefs (anchor : Nat) :
    (s.emptyRefs anchor).map look = ((s.emptiesAt anchor).map g).map some := by
  rw [emptyRefs, List.map_map, List.map_map, ← map_range_getElem?]
  exact List.map_congr_left fun index _ => hempty anchor index

include hword hempty

/-- What is looked up line by line is what is there in the order of the lines. -/
theorem map_lineRefs : s.lineRefs.map look =
    ((s.emptiesAt 0).map g ++
      s.words.flatMap fun word => f word :: (s.emptiesAt word.id).map g).map some := by
  have hline : ∀ node ∈ List.range s.words.length,
      (NodeRef.word node :: s.emptyRefs (s.wordAt node).id).map look =
        (f (s.wordAt node) ::
          (s.emptiesAt (s.wordAt node).id).map g).map some := by
    intro node hnode
    rw [List.map_cons, List.map_cons, hword, getElem?_words (List.mem_range.1 hnode),
      map_emptyRefs hempty]
    rfl
  rw [lineRefs, List.map_append, List.map_append, map_emptyRefs hempty, List.map_flatMap,
    List.flatMap_congr hline, List.map_flatMap]
  conv_rhs => rw [← map_wordAt_range s, List.flatMap_map]

end Map

/-- The references name the written tokens in their order, all but the ranges. -/
theorem map_tokenAt?_lineRefs (s : Sentence) : s.lineRefs.map s.tokenAt? =
    (s.tokens.filter fun token => token.id.isRange = false).map some := by
  have hempties : ∀ anchor, ((s.emptiesAt anchor).map (·.token)).filter
      (fun token => token.id.isRange = false) = (s.emptiesAt anchor).map (·.token) := by
    intro anchor
    refine List.filter_eq_self.2 fun token htoken => ?_
    obtain ⟨node, -, rfl⟩ := List.mem_map.1 htoken
    rfl
  have hrange : ∀ range : Option Multiword,
      (range.map (·.token)).toList.filter (fun token => token.id.isRange = false) = [] := by
    intro range
    cases range <;> rfl
  have hword : ∀ (word : Word) (rest : List Token),
      (word.token :: rest).filter (fun token => token.id.isRange = false) =
        word.token :: rest.filter fun token => token.id.isRange = false :=
    fun _ _ => List.filter_cons_of_pos rfl
  rw [map_lineRefs (f := (·.token)) (g := (·.token)) (fun _ => rfl) fun _ _ => rfl]
  simp only [tokens, List.filter_append, List.filter_flatMap, hempties, hrange, hword,
    List.nil_append]

theorem map_positionAt?_lineRefs (s : Sentence) :
    s.lineRefs.map s.positionAt? = s.linePositions.map some :=
  map_lineRefs (f := (·.links.position)) (g := (·.position)) (fun _ => rfl) fun _ _ => rfl

/-! ### All references -/

/-- References to all words and all empty nodes, those by their anchors. -/
def refs (s : Sentence) : List NodeRef :=
  (List.range s.words.length).map .word ++ (s.empties.entries.map Prod.fst).flatMap s.emptyRefs

theorem mem_emptyRefs {s : Sentence} {anchor : Nat} {ref : NodeRef} :
    ref ∈ s.emptyRefs anchor ↔
      ∃ index < (s.emptiesAt anchor).length, ref = .empty anchor index := by
  simp only [emptyRefs, List.mem_map, List.mem_range, eq_comm]

theorem nodup_emptyRefs (s : Sentence) (anchor : Nat) : (s.emptyRefs anchor).Nodup :=
  List.nodup_range.map fun _ _ h => by injection h

theorem eq_of_mem_emptyRefs {s : Sentence} {anchor other : Nat} {ref : NodeRef}
    (h : ref ∈ s.emptyRefs anchor) (hother : ref ∈ s.emptyRefs other) : anchor = other := by
  obtain ⟨_, _, rfl⟩ := mem_emptyRefs.1 h
  obtain ⟨_, _, hsame⟩ := mem_emptyRefs.1 hother
  injection hsame

theorem nodup_refs (s : Sentence) : s.refs.Nodup := by
  have hwords : ((List.range s.words.length).map NodeRef.word).Nodup :=
    List.nodup_range.map fun _ _ h => by injection h
  have hempties : ((s.empties.entries.map Prod.fst).flatMap s.emptyRefs).Nodup := by
    refine List.nodup_flatMap.2 ⟨fun anchor _ => s.nodup_emptyRefs anchor, ?_⟩
    exact s.empties.nodup_ids.imp fun hne _ h hother => hne (eq_of_mem_emptyRefs h hother)
  refine hwords.append hempties fun ref hword hempty => ?_
  obtain ⟨_, _, rfl⟩ := List.mem_map.1 hword
  obtain ⟨_, _, hempty⟩ := List.mem_flatMap.1 hempty
  obtain ⟨_, _, hsame⟩ := mem_emptyRefs.1 hempty
  cases hsame

theorem length_refs (s : Sentence) : s.refs.length = s.words.length + s.emptyCount := by
  have hentry : ∀ entry ∈ s.empties.entries, (s.emptyRefs entry.1).length = entry.2.length := by
    intro entry hentry
    rw [emptyRefs, List.length_map, List.length_range, emptiesAt, IdMap.mem_entries_iff.1 hentry]
    rfl
  rw [refs, List.length_append, List.length_map, List.length_range, List.length_flatMap,
    List.map_map, emptyCount, IdMap.values, List.length_flatten, List.map_map]
  congr 2
  exact List.map_congr_left hentry

theorem isSome_tokenAt? {s : Sentence} {ref : NodeRef} : (s.tokenAt? ref).isSome ↔
    (∃ node < s.words.length, .word node = ref) ∨ ∃ anchor, ref ∈ s.emptyRefs anchor := by
  cases ref <;> simp [tokenAt?, mem_emptyRefs]

/-- A list with the anchors of all empty nodes gives the references to all of them. -/
theorem exists_mem_emptyRefs_iff {s : Sentence} {anchors : List Nat}
    (h : ∀ anchor, s.emptiesAt anchor ≠ [] → anchor ∈ anchors) {ref : NodeRef} :
    (∃ anchor ∈ anchors, ref ∈ s.emptyRefs anchor) ↔ ∃ anchor, ref ∈ s.emptyRefs anchor := by
  constructor
  · rintro ⟨anchor, -, href⟩
    exact ⟨anchor, href⟩
  · rintro ⟨anchor, href⟩
    obtain ⟨_, hindex, -⟩ := mem_emptyRefs.1 href
    exact ⟨anchor, h anchor (List.ne_nil_of_length_pos (Nat.zero_lt_of_lt hindex)), href⟩

theorem mem_anchors {s : Sentence} {anchor : Nat} (h : s.emptiesAt anchor ≠ []) :
    anchor ∈ s.empties.entries.map Prod.fst := by
  cases hnodes : s.empties.get? anchor with
  | none => exact absurd (congrArg (·.getD []) hnodes) h
  | some nodes => exact List.mem_map_of_mem (f := Prod.fst) (IdMap.mem_entries_iff.2 hnodes)

theorem mem_refs {s : Sentence} {ref : NodeRef} : ref ∈ s.refs ↔ (s.tokenAt? ref).isSome := by
  rw [isSome_tokenAt?, ← exists_mem_emptyRefs_iff fun _ => mem_anchors, refs, List.mem_append,
    List.mem_map, List.mem_flatMap]
  simp only [List.mem_range]

/-- The lines come to all tokens if every empty node follows a word or comes first. -/
theorem mem_lineRefs {s : Sentence}
    (h : ∀ anchor ≠ 0, s.emptiesAt anchor ≠ [] → anchor ∈ s.words.map (·.id)) {ref : NodeRef} :
    ref ∈ s.lineRefs ↔ (s.tokenAt? ref).isSome := by
  have hanchors : ∀ anchor, s.emptiesAt anchor ≠ [] → anchor ∈ 0 :: s.words.map (·.id) := by
    intro anchor hne
    by_cases hzero : anchor = 0
    · exact hzero ▸ List.mem_cons_self
    · exact List.mem_cons_of_mem _ (h anchor hzero hne)
  have hwords : s.words.map (·.id) =
      (List.range s.words.length).map fun node => (s.wordAt node).id := by
    conv_lhs => rw [← map_wordAt_range s, List.map_map]
    rfl
  rw [isSome_tokenAt?, ← exists_mem_emptyRefs_iff hanchors, hwords, lineRefs]
  simp only [List.mem_append, List.mem_flatMap, List.mem_cons, List.mem_map, List.mem_range,
    exists_eq_or_imp, exists_exists_and_eq_and, and_or_left, exists_or, eq_comm (b := ref)]
  exact or_left_comm

/-- **Positions count the lines up from 1**, ranges left out. Among references in the order of the
lines every word and every empty node has its place, and the place is its position. -/
theorem positions_of_lines {s : Sentence} (h : s.IsBuilt) (hids : (s.words.map (·.id)).Nodup)
    (hpositive : ∀ word ∈ s.words, 0 < word.id)
    (hanchors : ∀ anchor ≠ 0, s.emptiesAt anchor ≠ [] → anchor ∈ s.words.map (·.id)) :
    s.lineRefs.map s.tokenAt? =
        (s.tokens.filter fun token => token.id.isRange = false).map some ∧
      s.lineRefs.map s.positionAt? =
        (List.range' 1 (s.words.length + s.emptyCount)).map some ∧
      s.lineRefs.Nodup ∧ ∀ ref, ref ∈ s.lineRefs ↔ (s.tokenAt? ref).isSome := by
  have hzero : 0 ∉ s.words.map (·.id) := by
    intro hmem
    obtain ⟨word, hword, hid⟩ := List.mem_map.1 hmem
    exact Nat.ne_of_gt (hpositive word hword) hid
  obtain ⟨count, hcount⟩ := linePositions_of_build h hids hzero
  have hpositions := s.map_positionAt?_lineRefs
  rw [hcount] at hpositions
  -- different positions are those of different tokens, so no reference comes twice
  have hnodup : s.lineRefs.Nodup := by
    refine List.Nodup.of_map s.positionAt? ?_
    rw [hpositions]
    exact List.Nodup.map (Option.some_injective _) List.nodup_range'
  have hperm : s.lineRefs.Perm s.refs := by
    refine (List.perm_ext_iff_of_nodup hnodup s.nodup_refs).2 fun ref => ?_
    rw [mem_lineRefs hanchors, mem_refs]
  have hlength : count = s.words.length + s.emptyCount := by
    have hsame := congrArg List.length hpositions
    rw [List.length_map, List.length_map, List.length_range', hperm.length_eq, length_refs] at hsame
    exact hsame.symm
  exact ⟨s.map_tokenAt?_lineRefs, hlength ▸ hpositions, hnodup, fun ref => mem_lineRefs hanchors⟩

/-- Ids out of order and with gaps, a range, an empty node before the first word and two after the
word 3. -/
theorem positions_of_seven :
    let s := (ofTokens
      [{ id := .empty 0 1 }, { id := .range 7 8 }, { id := .word 7, head := some 0 },
       { id := .empty 3 1 }, { id := .word 3 }, { id := .empty 7 1 }, { id := .empty 3 2 },
       { id := .word 1, head := some 3 }]).step .build
    s.IsBuilt ∧
      s.lineRefs = [.empty 0 0, .word 0, .empty 7 0, .word 1, .empty 3 0, .empty 3 1, .word 2] ∧
      s.tokens.map (·.id) = [.empty 0 1, .range 7 8, .word 7, .empty 7 1, .word 3, .empty 3 1,
        .empty 3 2, .word 1] ∧
      s.lineRefs.map s.tokenAt? =
        (s.tokens.filter fun token => token.id.isRange = false).map some ∧
      s.lineRefs.map s.positionAt? = [some 1, some 2, some 3, some 4, some 5, some 6, some 7] := by
  intro s
  have hreachable : Reachable (fun _ => True) s := .step (.ofTokens fun _ _ => trivial) trivial
  have hbuilt : s.IsBuilt := (isBuilt_iff_of_reachable hreachable).2 (by decide +kernel)
  have hkeys : ∀ anchor ∈ s.empties.entries.map Prod.fst, anchor ≠ 0 →
      anchor ∈ s.words.map (·.id) := by decide +kernel
  have hcount : s.words.length + s.emptyCount = 7 := by decide +kernel
  obtain ⟨htokens, hpositions, -⟩ :=
    positions_of_lines hbuilt (by decide +kernel) (by decide +kernel)
      fun anchor hzero hnodes => hkeys anchor (mem_anchors hnodes) hzero
  rw [hcount] at hpositions
  exact ⟨hbuilt, by decide +kernel, by decide +kernel, htokens, hpositions⟩

end Sentence
end Treebank
