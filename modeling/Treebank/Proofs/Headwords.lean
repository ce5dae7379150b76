import Treebank.Proofs.LinkIndexes

/-! Where the heads of enhanced edges are found.

A build looks for the head of every edge among the words and the empty nodes. A search that
finds something finds a token with the id asked for, and one that finds nothing has passed over
no such token (`mem_find?`, `find?_eq_none_iff`). The search does not look at links and links
change no id, so what it says of the sentence that is linked holds of the linked one as well:
`headwords_of_build` says it of the edges of words and of empty nodes, and that a build changes
nothing else of a token. -/
namespace Treebank.Sentence

/-! ### Searching for an id -/

section Find
variable {s : Sentence} {id : TokenId}

theorem mem_idTable {ref : NodeRef} :
    (id, ref) ∈ s.idTable ↔ ∃ token, s.tokenAt? ref = some token ∧ token.id = id := by
  unfold idTable
  cases ref with
  | word node => simp [tokenAt?, List.mem_zipIdx_iff_getElem?, Word.token]
  | empty anchor index =>
    cases hnodes : s.empties.get? anchor <;>
      simp [tokenAt?, List.mem_zipIdx_iff_getElem?, EmptyNode.token, IdMap.mem_entries_iff,
        emptiesAt, hnodes]

/-- What a search finds has the id. -/
theorem mem_find? {ref : NodeRef} (h : s.find? id = some ref) :
    ∃ token, s.tokenAt? ref = some token ∧ token.id = id := by
  obtain ⟨front, back, htable, -⟩ := List.lookup_eq_some_iff.1 h
  refine mem_idTable.1 (List.mem_reverse.1 ?_)
  rw [htable]
  exact List.mem_append_right _ List.mem_cons_self

/-- A search finds nothing just when no word and no empty node has the id. -/
theorem find?_eq_none_iff :
    s.find? id = none ↔ ∀ ref token, s.tokenAt? ref = some token → token.id ≠ id := by
  rw [find?, List.lookup_eq_none_iff]
  constructor
  · intro hnone ref token htoken hid
    have hpassed := hnone _ (List.mem_reverse.2 (mem_idTable.2 ⟨token, htoken, hid⟩))
    exact absurd hpassed (by simp)
  · intro hall entry hentry
    obtain ⟨token, htoken, hid⟩ := mem_idTable.1 (List.mem_reverse.1 hentry)
    exact bne_iff_ne.2 fun heq => hall entry.2 token htoken (hid.trans heq.symm)

end Find

/-! ### Tokens without their links -/

section Unlinked
variable {s t : Sentence}

theorem tokenAt?_unlinked (s : Sentence) (ref : NodeRef) :
    s.unlinked.tokenAt? ref = (s.tokenAt? ref).map Token.unlinked := by
  cases ref with
  | word node =>
    simp only [tokenAt?, unlinked, List.getElem?_map, Option.map_map]
    rfl
  | empty anchor index =>
    simp only [tokenAt?, emptiesAt_unlinked, List.getElem?_map, Option.map_map]
    rfl

theorem tokenAt?_of_unlinked (h : t.unlinked = s.unlinked) (ref : NodeRef) :
    (t.tokenAt? ref).map Token.unlinked = (s.tokenAt? ref).map Token.unlinked := by
  rw [← tokenAt?_unlinked, ← tokenAt?_unlinked, h]

/-- A token of one sentence has its place in the other. -/
theorem exists_tokenAt?_of_unlinked (h : t.unlinked = s.unlinked) {ref : NodeRef} {token : Token}
    (htoken : s.tokenAt? ref = some token) :
    ∃ other, t.tokenAt? ref = some other ∧ other.id = token.id := by
  have hmap := tokenAt?_of_unlinked h ref
  rw [htoken, Option.map_some, Option.map_eq_some_iff] at hmap
  obtain ⟨other, hother, heq⟩ := hmap
  have hid : other.unlinked.id = token.unlinked.id := congrArg Token.id heq
  exact ⟨other, hother, hid⟩

end Unlinked

/-! ### Edges of a linked sentence -/

/-- The edges of a token of the resolved sentence lead to where their heads are found. -/
theorem headword_resolve {s : Sentence} {ref : NodeRef} {token : Token}
    (h : s.resolve.tokenAt? ref = some token) :
    ∀ dep ∈ token.deps, dep.headword = s.find? dep.headId := by
  have hcolumns : ∃ columns : Columns, token.deps = (columns.resolve s.find?).deps := by
    cases ref with
    | word node =>
      simp only [tokenAt?, resolve, List.getElem?_map, Option.map_map] at h
      obtain ⟨word, -, rfl⟩ := Option.map_eq_some_iff.1 h
      exact ⟨word.toColumns, rfl⟩
    | empty anchor index =>
      have hempties : s.resolve.emptiesAt anchor = (s.emptiesAt anchor).map fun n =>
          { n with toColumns := n.toColumns.resolve s.find? } := by
        rw [emptiesAt, emptiesAt, resolve, IdMap.get?_mapValues]
        cases s.empties.get? anchor <;> rfl
      simp only [tokenAt?, hempties, List.getElem?_map, Option.map_map] at h
      obtain ⟨node, -, rfl⟩ := Option.map_eq_some_iff.1 h
      exact ⟨node.toColumns, rfl⟩
  obtain ⟨columns, hdeps⟩ := hcolumns
  intro dep hdep
  rw [hdeps] at hdep
  obtain ⟨edge, -, rfl⟩ := List.mem_map.1 hdep
  rfl

/-- A build looks for the head of every edge in a sentence that has the same tokens. -/
theorem exists_headword_of_token {s linked : Sentence} (h : s.build = .ok linked) :
    ∃ t : Sentence, t.unlinked = linked.unlinked ∧
      ∀ ref token, linked.tokenAt? ref = some token →
        ∀ dep ∈ token.deps, dep.headword = t.find? dep.headId := by
  obtain ⟨attached, -, rfl⟩ := exists_attached h
  exact ⟨attached, (unlinked_resolve attached).symm, fun _ _ htoken => headword_resolve htoken⟩

/-- **Where a build finds the heads of edges.** All that a build changes of a word or an empty node
is where the heads of its edges are: nowhere just when no word and no empty node has the id of the
head, and otherwise at a token with that id. -/
theorem headwords_of_build {s linked : Sentence} (h : s.build = .ok linked) (ref : NodeRef) :
    (linked.tokenAt? ref).map Token.unlinked = (s.tokenAt? ref).map Token.unlinked ∧
      ∀ token, linked.tokenAt? ref = some token → ∀ dep ∈ token.deps,
        (dep.headword = none ↔
          ∀ other head, linked.tokenAt? other = some head → head.id ≠ dep.headId) ∧
        ∀ place, dep.headword = some place →
          ∃ head, linked.tokenAt? place = some head ∧ head.id = dep.headId := by
  refine ⟨tokenAt?_of_unlinked (build_linked h).2 ref, fun token htoken dep hdep => ?_⟩
  obtain ⟨t, hraw, hheadword⟩ := exists_headword_of_token h
  rw [hheadword ref token htoken dep hdep]
  constructor
  · rw [find?_eq_none_iff]
    constructor
    · intro hall other head hother
      obtain ⟨twin, htwin, hid⟩ := exists_tokenAt?_of_unlinked hraw hother
      exact hid ▸ hall other twin htwin
    · intro hall other head hother
      obtain ⟨twin, htwin, hid⟩ := exists_tokenAt?_of_unlinked hraw.symm hother
      exact hid ▸ hall other twin htwin
  · intro place hplace
    obtain ⟨found, hfound, hid⟩ := mem_find? hplace
    obtain ⟨head, hhead, hsame⟩ := exists_tokenAt?_of_unlinked hraw.symm hfound
    exact ⟨head, hhead, hsame.trans hid⟩

/-- A session in which a linked sentence is added to, renumbered and edited before it is linked
again. Of the four edges of its last word one comes from a word, one from the second of two empty
nodes, and two from ids that no token has. -/
theorem headwords_of_session : ∃ s linked, Reachable (fun _ => True) s ∧ s.build = .ok linked ∧
    ∃ token, linked.tokenAt? (.word 2) = some token ∧
      token.deps.map (·.headword) = [some (.word 0), some (.empty 3 1), none, none] ∧
      (∃ head, linked.tokenAt? (.empty 3 1) = some head ∧ head.id = .empty 3 2) ∧
      ∀ other head, linked.tokenAt? other = some head → head.id ≠ .word 1 := by
  let first := ofTokens
    [{ id := .word 1, head := some 0 }, { id := .word 2, head := some 1 }, { id := .empty 2 1 }]
  let edges : List EnhancedDep :=
    [{ head := 2, deprel := "a" }, { head := 3, sub? := some 2, deprel := "b" },
     { head := 1, deprel := "c" }, { head := 2, sub? := some 1, deprel := "d" }]
  let s := ((((first.step .build).step (.push { id := .word 3, head := some 2 })).step
    (.push { id := .empty 2 2 })).step (.renumber 2)).step
    (.change 4 fun columns => { columns with head := some 0, deps := edges })
  have hreachable : Reachable (fun _ => True) s :=
    (((((Reachable.ofTokens fun _ _ => trivial).step trivial).step trivial).step trivial).step
      trivial).step trivial
  have hbuild : s.build = .ok s.afterBuild := by
    rw [build_eq_ok_iff, afterBuild]
    decide +kernel
  have hedges : (s.afterBuild.tokenAt? (.word 2)).map (fun token => token.deps) = some
      [{ head := 2, deprel := "a", headword := some (.word 0) },
       { head := 3, sub? := some 2, deprel := "b", headword := some (.empty 3 1) },
       { head := 1, deprel := "c" }, { head := 2, sub? := some 1, deprel := "d" }] := by
    decide +kernel
  obtain ⟨token, htoken, hdeps⟩ := Option.map_eq_some_iff.1 hedges
  obtain ⟨-, hall⟩ := headwords_of_build hbuild (.word 2)
  refine ⟨s, s.afterBuild, hreachable, hbuild, token, htoken, by rw [hdeps]; rfl, ?_, ?_⟩
  · have hdep : { head := 3, sub? := some 2, deprel := "b", headword := some (.empty 3 1) } ∈
        token.deps := by
      rw [hdeps]
      decide
    exact (hall token htoken _ hdep).2 _ rfl
  · have hdep : { head := 1, deprel := "c" } ∈ token.deps := by
      rw [hdeps]
      decide
    exact (hall token htoken _ hdep).1.1 rfl

end Treebank.Sentence
