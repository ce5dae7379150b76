import Treebank.Proofs.NewIds

/-! The indexes of a linked sentence.

A build keeps three things by id: the dependents of a word, a second time, under their ids; the
heads of enhanced edges, which it takes from a table of all ids; and the roots, which it files in
the order of the words. Where words share an id the last of them stands in the file and in the
table (`get?_fileById`, `headword_iff_isLast`), while the search for a head stops at another.
`indexes_of_build` says what each index holds and that they agree just when ids tell apart what
is kept by them (`IdsTellApart`). -/
namespace Treebank.Sentence

/-- Whatever way one takes from an id or to one, one comes to the same words. -/
structure IndexesAgree (s : Sentence) : Prop where
  /-- Every dependent has an entry of its own under its id, and there are no others. -/
  dependents : ∀ node < s.words.length,
    (s.wordAt node).links.dependentsById.entries.Perm
      ((s.wordAt node).links.dependents.map fun dep => ((s.wordAt dep).id, dep))
  /-- An edge comes from the word that a head with the same number would name. -/
  headwords : ∀ word ∈ s.words, ∀ dep ∈ word.deps, dep.sub? = none → 0 < dep.head →
    ∀ node, dep.headword = some (.word node) ↔ s.nodeOf? dep.head = some node
  roots : (s.outline.roots.map fun node => (s.wordAt node).id).Pairwise (· < ·)

/-- No two dependents of a word share an id, no edge comes from an id that a later word has than
the one found for it, and the roots have ascending ids. -/
structure IdsTellApart (s : Sentence) : Prop where
  dependents : ∀ a b head, s.headNode? a = some head → s.headNode? b = some head →
    (s.wordAt a).id = (s.wordAt b).id → a = b
  headwords : ∀ word ∈ s.words, ∀ dep ∈ word.deps, dep.sub? = none → 0 < dep.head →
    ∀ node, s.nodeOf? dep.head = some node → s.IsLast dep.head node
  roots : ∀ a b, a < b → b < s.words.length → (s.wordAt a).head = some 0 →
    (s.wordAt b).head = some 0 → (s.wordAt a).id < (s.wordAt b).id

/-! ### Dependents by id -/

section File
variable {s : Sentence} {nodes : List Nat}

theorem fileById_eq_file (s : Sentence) (nodes : List Nat) :
    s.fileById nodes = IdMap.file id id (nodes.map fun node => ((s.wordAt node).id, node)) := by
  rw [fileById, IdMap.file, List.foldl_map]
  rfl

/-- Under an id stands the last of the nodes whose word has it. -/
theorem get?_fileById (s : Sentence) (nodes : List Nat) (id : Nat) :
    (s.fileById nodes).get? id = (nodes.filter fun node => (s.wordAt node).id = id).getLast? := by
  induction nodes using List.reverseRecOn with
  | nil => rfl
  | append_singleton earlier node ih =>
    rw [fileById_append, IdMap.get?_insert, List.filter_append, ih]
    by_cases hid : (s.wordAt node).id = id
    · simp [hid]
    · simp [hid, Ne.symm hid]

/-- All nodes have entries just when no two of them have words with one id. -/
theorem perm_fileById_iff (hnodes : nodes.Nodup) :
    (s.fileById nodes).entries.Perm (nodes.map fun node => ((s.wordAt node).id, node)) ↔
      ∀ a ∈ nodes, ∀ b ∈ nodes, (s.wordAt a).id = (s.wordAt b).id → a = b := by
  have hids : (nodes.map fun node => ((s.wordAt node).id, node)).map Prod.fst =
      nodes.map fun node => (s.wordAt node).id := by
    rw [List.map_map]
    rfl
  rw [← List.nodup_map_iff_inj_on hnodes, ← hids]
  constructor
  · intro hperm
    exact (hperm.map Prod.fst).nodup_iff.1 (IdMap.nodup_ids _)
  · intro hdistinct
    have hentries : (nodes.map fun node => ((s.wordAt node).id, node)).Nodup := hdistinct.of_map _
    refine (List.perm_ext_iff_of_nodup ((IdMap.nodup_ids _).of_map _) hentries).2 fun entry => ?_
    rw [fileById_eq_file, IdMap.mem_file hdistinct]
    simp

end File

/-! ### Heads of edges -/

/-- In a table of places the last one with an id counts. -/
theorem lookup_reverse_zipIdx {α : Type} (key : α → TokenId) (ref : Nat → NodeRef) (id : TokenId)
    (values : List α) (count : Nat) :
    ((values.zipIdx count).map fun (value, i) => (key value, ref i)).reverse.lookup id =
      (lastIdx? (key · = id) values).map fun i => ref (count + i) := by
  induction values generalizing count with
  | nil => rfl
  | cons value rest ih =>
    rw [List.zipIdx_cons, List.map_cons, List.reverse_cons, List.lookup_append, ih, lastIdx?]
    cases lastIdx? (key · = id) rest with
    | some i => simp [Nat.add_assoc, Nat.add_comm 1]
    | none =>
      by_cases hkey : key value = id
      · simp [hkey]
      · have hne : (id == key value) = false := beq_false_of_ne (Ne.symm hkey)
        simp [List.lookup_cons, hne, hkey]

theorem find?_word (s : Sentence) (id : Nat) :
    s.find? (.word id) = (lastIdx? (·.id = id) s.words).map .word := by
  rw [find?, idTable, List.reverse_append, List.lookup_append, List.lookup_eq_none_iff.2 ?_,
    Option.none_or, lookup_reverse_zipIdx (fun word : Word => .word word.id)]
  · simp only [TokenId.word.injEq, Nat.zero_add]
  · -- an empty node has no id of a word
    intro entry hentry
    obtain ⟨list, -, hmem⟩ := List.mem_flatMap.1 (List.mem_reverse.1 hentry)
    obtain ⟨node, -, rfl⟩ := List.mem_map.1 hmem
    rfl

theorem find?_word_eq_some_iff {s : Sentence} {id node : Nat} :
    s.find? (.word id) = some (.word node) ↔ s.IsLast id node := by
  rw [← lastIdx?_eq_some_iff, find?_word, Option.map_eq_some_iff]
  simp

theorem isLast_of_unlinked {s t : Sentence} (h : t.unlinked = s.unlinked) {id node : Nat} :
    t.IsLast id node ↔ s.IsLast id node := by
  have hlength := length_words_of_unlinked h
  constructor
  · rintro ⟨hlt, hid, hlater⟩
    simp only [id_wordAt_of_unlinked h, hlength] at hlt hid hlater
    exact ⟨hlt, hid, hlater⟩
  · rintro ⟨hlt, hid, hlater⟩
    simp only [← id_wordAt_of_unlinked h, ← hlength] at hlt hid hlater
    exact ⟨hlt, hid, hlater⟩

/-- A build looks for the head of every edge of a word among all tokens. -/
theorem exists_headword {s linked : Sentence} (h : s.build = .ok linked) :
    ∃ t : Sentence, t.unlinked = s.unlinked ∧
      ∀ word ∈ linked.words, ∀ dep ∈ word.deps, dep.headword = t.find? dep.headId := by
  obtain ⟨attached, hrun, rfl⟩ := exists_attached h
  have hraw := unlinked_attachAll s.unlinked.place (List.range s.words.length)
  rw [hrun, unlinked_place, unlinked_unlinked] at hraw
  refine ⟨attached, hraw, fun word hword dep hdep => ?_⟩
  obtain ⟨old, -, rfl⟩ := List.mem_map.1 hword
  obtain ⟨edge, -, rfl⟩ := List.mem_map.1 hdep
  rfl

theorem headword_iff_isLast {s linked : Sentence} (h : s.build = .ok linked) {word : Word}
    (hword : word ∈ linked.words) {dep : EnhancedDep} (hdep : dep ∈ word.deps)
    (hsub : dep.sub? = none) {node : Nat} :
    dep.headword = some (.word node) ↔ s.IsLast dep.head node := by
  obtain ⟨t, hraw, hheadword⟩ := exists_headword h
  have hid : dep.headId = .word dep.head := by
    rw [EnhancedDep.headId, hsub]
  rw [hheadword word hword dep hdep, hid, find?_word_eq_some_iff, isLast_of_unlinked hraw]

/-- The last word with an id is the one that a search for the id finds, if that is the last. -/
theorem isLast_iff_nodeOf? {s : Sentence} {id : Nat} :
    (∀ node, s.IsLast id node ↔ s.nodeOf? id = some node) ↔
      ∀ node, s.nodeOf? id = some node → s.IsLast id node := by
  refine ⟨fun h node => (h node).2, fun h node => ⟨fun hlast => ?_, h node⟩⟩
  cases hnode : s.nodeOf? id with
  | none => exact absurd hlast.hasId (nodeOf?_eq_none_iff.1 hnode _ (wordAt_mem hlast.lt))
  | some other => rw [hlast.eq (h other hnode)]

/-! ### Agreement -/

/-- Links are nothing to a condition on edges that does not look at where their heads were found. -/
theorem forall_deps_unlinked {P : EnhancedDep → Prop} (hP : ∀ dep, P dep.unlinked ↔ P dep)
    (s : Sentence) : (∀ word ∈ s.unlinked.words, ∀ dep ∈ word.deps, P dep) ↔
      ∀ word ∈ s.words, ∀ dep ∈ word.deps, P dep := by
  simp only [unlinked, List.forall_mem_map, Word.unlinked, Columns.unlinked, hP]

theorem pairwise_range_iff {n : Nat} {R : Nat → Nat → Prop} :
    (List.range n).Pairwise R ↔ ∀ a b, a < b → b < n → R a b := by
  rw [List.pairwise_iff_getElem]
  simp only [List.length_range, List.getElem_range]
  exact ⟨fun h a b hlt hb => h a b (Nat.lt_trans hlt hb) hb hlt, fun h a b _ hb hlt => h a b hlt hb⟩

section Agree
variable {s linked : Sentence} (h : s.build = .ok linked)

include h

/-- The file of dependents is complete just when their ids differ. -/
theorem dependents_agree_iff :
    (∀ node < linked.words.length, (linked.wordAt node).links.dependentsById.entries.Perm
      ((linked.wordAt node).links.dependents.map fun dep => ((linked.wordAt dep).id, dep))) ↔
      ∀ a b head, s.headNode? a = some head → s.headNode? b = some head →
        (s.wordAt a).id = (s.wordAt b).id → a = b := by
  obtain ⟨hlinked, hraw⟩ := build_linked h
  have hnode : ∀ node, (linked.wordAt node).links.dependentsById.entries.Perm
      ((linked.wordAt node).links.dependents.map fun dep => ((linked.wordAt dep).id, dep)) ↔
      ∀ a, s.headNode? a = some node → ∀ b, s.headNode? b = some node →
        (s.wordAt a).id = (s.wordAt b).id → a = b := by
    intro node
    rw [hlinked.dependents, hlinked.dependentsById, perm_fileById_iff (nodup_below ..)]
    simp only [mem_below_iff, headNode?_of_unlinked hraw, id_wordAt_of_unlinked hraw]
  simp only [hnode]
  constructor
  · intro hall a b head ha hb
    have hhead := (headNode?_lt ha).2
    exact hall head (length_words_of_unlinked hraw ▸ hhead) a ha b hb
  · exact fun hall node _ a ha b hb => hall a b node ha hb

/-- Edges come from the words that heads would name just when these are the last with their ids. -/
theorem headwords_agree_iff :
    (∀ word ∈ linked.words, ∀ dep ∈ word.deps, dep.sub? = none → 0 < dep.head →
      ∀ node, dep.headword = some (.word node) ↔ linked.nodeOf? dep.head = some node) ↔
      ∀ word ∈ s.words, ∀ dep ∈ word.deps, dep.sub? = none → 0 < dep.head →
        ∀ node, s.nodeOf? dep.head = some node → s.IsLast dep.head node := by
  have hraw := (build_linked h).2
  have hplain := forall_deps_unlinked (P := fun dep => dep.sub? = none → 0 < dep.head →
    ∀ node, s.nodeOf? dep.head = some node → s.IsLast dep.head node) (fun _ => Iff.rfl)
  rw [← hplain s, ← hraw, hplain linked]
  refine forall₂_congr fun word hword => forall₂_congr fun dep hdep => forall₂_congr fun hsub _ => ?_
  simp only [headword_iff_isLast h hword hdep hsub, nodeOf?_of_unlinked hraw]
  exact isLast_iff_nodeOf?

theorem roots_agree_iff :
    (linked.outline.roots.map fun node => (linked.wordAt node).id).Pairwise (· < ·) ↔
      ∀ a b, a < b → b < s.words.length → (s.wordAt a).head = some 0 →
        (s.wordAt b).head = some 0 → (s.wordAt a).id < (s.wordAt b).id := by
  obtain ⟨hlinked, hraw⟩ := build_linked h
  rw [hlinked.roots, tops_of_unlinked hraw, tops, length_words_of_unlinked hraw, List.pairwise_map,
    List.pairwise_filter, pairwise_range_iff]
  simp only [decide_eq_true_iff, id_wordAt_of_unlinked hraw]

theorem indexesAgree_iff : linked.IndexesAgree ↔ s.IdsTellApart := by
  constructor
  · rintro ⟨hdependents, hheadwords, hroots⟩
    exact ⟨(dependents_agree_iff h).1 hdependents, (headwords_agree_iff h).1 hheadwords,
      (roots_agree_iff h).1 hroots⟩
  · rintro ⟨hdependents, hheadwords, hroots⟩
    exact ⟨(dependents_agree_iff h).2 hdependents, (headwords_agree_iff h).2 hheadwords,
      (roots_agree_iff h).2 hroots⟩

end Agree

theorem idsTellApart_of_ascending {s : Sentence} (h : (s.words.map (·.id)).Pairwise (· < ·)) :
    s.IdsTellApart := by
  have hlt : ∀ a b, a < b → b < s.words.length → (s.wordAt a).id < (s.wordAt b).id := by
    intro a b hab hb
    have ha := Nat.lt_trans hab hb
    have hids := List.pairwise_iff_getElem.1 h a b (by simpa using ha) (by simpa using hb) hab
    rw [List.getElem_map, List.getElem_map] at hids
    rw [wordAt_eq (List.getElem?_eq_getElem ha), wordAt_eq (List.getElem?_eq_getElem hb)]
    exact hids
  have hinj : ∀ a b, a < s.words.length → b < s.words.length →
      (s.wordAt a).id = (s.wordAt b).id → a = b := by
    intro a b ha hb hid
    rcases Nat.lt_trichotomy a b with hab | heq | hba
    · exact absurd hid (Nat.ne_of_lt (hlt a b hab hb))
    · exact heq
    · exact absurd hid.symm (Nat.ne_of_lt (hlt b a hba ha))
  constructor
  case dependents =>
    exact fun a b head ha hb => hinj a b (headNode?_lt ha).1 (headNode?_lt hb).1
  case headwords =>
    intro word _ dep _ _ _ node hnode
    obtain ⟨hnode, hid⟩ := nodeOf?_eq_some hnode
    refine ⟨hnode, hid, fun later hlater hlt hsame => ?_⟩
    exact Nat.ne_of_gt hlater (hinj later node hlt hnode (hsame.trans hid.symm))
  case roots => exact fun a b hab hb _ _ => hlt a b hab hb

/-- **What a build keeps by id.** Under an id stands the last dependent that has it, an edge comes
from the last word that has the id of its head, and roots stand in the order of the words. So the
indexes agree just when ids tell apart what is kept by them, as ascending ids do. -/
theorem indexes_of_build {s linked : Sentence} (h : s.build = .ok linked) :
    (∀ node id, (linked.wordAt node).links.dependentsById.get? id =
      ((linked.wordAt node).links.dependents.filter
        fun dep => (s.wordAt dep).id = id).getLast?) ∧
    (∀ word ∈ linked.words, ∀ dep ∈ word.deps, dep.sub? = none →
      ∀ node, dep.headword = some (.word node) ↔ s.IsLast dep.head node) ∧
    linked.outline.roots = s.tops s.words.length ∧
    (linked.IndexesAgree ↔ s.IdsTellApart) ∧
    ((s.words.map (·.id)).Pairwise (· < ·) → linked.IndexesAgree) := by
  obtain ⟨hlinked, hraw⟩ := build_linked h
  refine ⟨fun node id => ?_, fun word hword dep hdep hsub node => ?_, ?_, indexesAgree_iff h,
    fun hids => (indexesAgree_iff h).2 (idsTellApart_of_ascending hids)⟩
  · rw [hlinked.dependentsById, hlinked.dependents, get?_fileById]
    simp only [id_wordAt_of_unlinked hraw]
  · exact headword_iff_isLast h hword hdep hsub
  · rw [hlinked.roots, tops_of_unlinked hraw, length_words_of_unlinked hraw]

/-- Two words with the id 2 hang from different heads, and no edge comes from either. -/
theorem indexes_of_shared_id :
    let s := ofTokens
      [{ id := .word 1, head := some 0 }, { id := .word 2, head := some 1 },
       { id := .word 2, head := some 3, deps := [{ head := 3, deprel := "x" }] },
       { id := .word 3, head := some 1 }]
    ∃ linked, s.build = .ok linked ∧ linked.IndexesAgree ∧
      (linked.wordAt 0).links.dependentsById.entries = [(2, 1), (3, 3)] ∧
      (linked.wordAt 2).deps.map (·.headword) = [some (.word 3)] := by
  intro s
  have hbuild : s.build = .ok s.afterBuild := by
    rw [build_eq_ok_iff, afterBuild]
    decide +kernel
  obtain ⟨-, -, -, hagree, -⟩ := indexes_of_build hbuild
  refine ⟨_, hbuild, hagree.2 ⟨fun a b head ha hb => ?_, fun word hword dep hdep _ _ node hnode => ?_,
    fun a b hab hb => ?_⟩, by decide +kernel, by decide +kernel⟩
  · have hall : ∀ a < 4, ∀ b < 4, s.headNode? a = s.headNode? b →
        (s.wordAt a).id = (s.wordAt b).id → a = b := by
      decide +kernel
    exact hall a (headNode?_lt ha).1 b (headNode?_lt hb).1 (ha.trans hb.symm)
  · have hall : ∀ word ∈ s.words, ∀ dep ∈ word.deps,
        s.nodeOf? dep.head = lastIdx? (·.id = dep.head) s.words := by
      decide +kernel
    rw [hall word hword dep hdep] at hnode
    exact lastIdx?_eq_some_iff.1 hnode
  · have hall : ∀ b < 4, ∀ a < b, (s.wordAt a).head = some 0 → (s.wordAt b).head = some 0 →
        (s.wordAt a).id < (s.wordAt b).id := by
      decide +kernel
    exact hall b hb a hab

/-- Four words of which a build makes a tree: the two with the id 3 have one entry among the
dependents, the edge from 3 comes from the second of them and the head 3 would be the first, and the
roots are the words 2 and 1. -/
theorem indexes_disagree :
    let line : String → String → String → String := fun id head deps =>
      id ++ "\t_\t_\t_\t_\t_\t" ++ head ++ "\t_\t" ++ deps ++ "\t_\n"
    let text := (line "2" "0" "_" ++ line "1" "0" "_" ++ line "3" "2" "_" ++
      line "3" "2" "3:x").toList
    ∃ s linked, Sentence.read text = .ok s ∧ s.build = .ok linked ∧
      (linked.wordAt 0).links.dependents = [2, 3] ∧
      (linked.wordAt 0).links.dependentsById.entries = [(3, 3)] ∧
      (linked.wordAt 3).deps.map (·.headword) = [some (.word 3)] ∧ linked.nodeOf? 3 = some 2 ∧
      (linked.outline.roots.map fun node => (linked.wordAt node).id) = [2, 1] ∧
      ¬ linked.IndexesAgree := by
  intro line text
  let s := ofTokens
    [{ id := .word 2, head := some 0 }, { id := .word 1, head := some 0 },
     { id := .word 3, head := some 2 },
     { id := .word 3, head := some 2, deps := [{ head := 3, deprel := "x" }] }]
  have hread : Sentence.read text = .ok s := by decide +kernel
  refine ⟨s, s.afterBuild, hread, ?_, by decide +kernel, by decide +kernel, by decide +kernel,
    by decide +kernel, by decide +kernel, fun hagree => ?_⟩
  · rw [build_eq_ok_iff, afterBuild]
    decide +kernel
  · have hroots := hagree.roots
    revert hroots
    decide +kernel

end Treebank.Sentence
