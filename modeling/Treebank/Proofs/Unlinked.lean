import Treebank.Format.Block
import Treebank.Sentence.Build
import Treebank.Sentence.Surface
import Treebank.Session

/-! A sentence without its links.

`Sentence.unlinked` forgets what builds found out. Which word has an id, where heads
run in a circle, the written lines and the running text are read off what is left
(`nodeOf?_unlinked`, `cycles_unlinked`, `write_unlinked`, `surfaceText_unlinked`), and
linking changes nothing of it, at whatever point it stops (`unlinked_link`). -/
namespace Treebank

/-! ### Tokens -/

@[simp] theorem Columns.unlinked_unlinked (columns : Columns) :
    columns.unlinked.unlinked = columns.unlinked := by
  rw [Columns.unlinked, Columns.unlinked, List.map_map]
  rfl

theorem Columns.unlinked_eq_self {columns : Columns} (h : columns.IsUnlinked) :
    columns.unlinked = columns := by
  have hdeps : columns.deps.map (·.unlinked) = columns.deps := by
    refine (List.map_congr_left ?_).trans (List.map_id _)
    intro dep hdep
    rw [EnhancedDep.unlinked, ← h dep hdep]
    rfl
  rw [Columns.unlinked, hdeps]

theorem Columns.isUnlinked_unlinked (columns : Columns) : columns.unlinked.IsUnlinked := by
  intro dep hdep
  obtain ⟨other, _, rfl⟩ := List.mem_map.1 hdep
  rfl

@[simp] theorem Columns.unlinked_resolve (find : TokenId → Option NodeRef) (columns : Columns) :
    (columns.resolve find).unlinked = columns.unlinked := by
  simp [Columns.unlinked, Columns.resolve, EnhancedDep.unlinked]

@[simp] theorem Word.unlinked_unlinked (word : Word) : word.unlinked.unlinked = word.unlinked := by
  simp [Word.unlinked]

@[simp] theorem EmptyNode.unlinked_unlinked (node : EmptyNode) :
    node.unlinked.unlinked = node.unlinked := by
  simp [EmptyNode.unlinked]

/-! ### Reading a sentence -/

namespace Sentence

@[simp] theorem unlinked_unlinked (s : Sentence) : s.unlinked.unlinked = s.unlinked := by
  simp [unlinked, IdMap.mapValues_mapValues, Function.comp_def]

@[simp] theorem length_words_unlinked (s : Sentence) :
    s.unlinked.words.length = s.words.length := by
  simp [unlinked]

@[simp] theorem nodeOf?_unlinked (s : Sentence) (id : Nat) :
    s.unlinked.nodeOf? id = s.nodeOf? id := by
  have hfind : (s.words.map (·.unlinked)).findIdx? (·.id = id) = s.words.findIdx? (·.id = id) := by
    rw [List.findIdx?_map]
    rfl
  have hany : ((s.words.map (·.unlinked))[id - 1]?).any (·.id = id) =
      (s.words[id - 1]?).any (·.id = id) := by
    rw [List.getElem?_map]
    cases s.words[id - 1]? <;> rfl
  have hwords : s.unlinked.words = s.words.map (·.unlinked) := rfl
  rw [nodeOf?, nodeOf?, hwords, hany, hfind]

@[simp] theorem headNode?_unlinked (s : Sentence) (node : Nat) :
    s.unlinked.headNode? node = s.headNode? node := by
  unfold headNode?
  simp only [nodeOf?_unlinked]
  cases h : s.words[node]? <;>
    simp [unlinked, h, Word.unlinked, Columns.unlinked]

@[simp] theorem ids_unlinked (s : Sentence) : s.unlinked.ids = s.ids := by
  simp [ids, unlinked, Word.unlinked, Function.comp_def]

@[simp] theorem cycles_unlinked (s : Sentence) : s.unlinked.cycles = s.cycles := by
  have hheads : s.unlinked.headNodes = s.headNodes := by
    rw [headNodes, headNodes, length_words_unlinked]
    congr 2
    funext node
    exact s.headNode?_unlinked node
  simp only [cycles, hheads, ids_unlinked, length_words_unlinked]

theorem emptiesAt_unlinked (s : Sentence) (anchor : Nat) :
    s.unlinked.emptiesAt anchor = (s.emptiesAt anchor).map (·.unlinked) := by
  rw [emptiesAt, emptiesAt, unlinked, IdMap.get?_mapValues]
  cases s.empties.get? anchor <;> rfl

theorem surfaceFrom_unlinked (s : Sentence) (words : List Word) (covered : Nat) :
    s.unlinked.surfaceFrom covered (words.map (·.unlinked)) = s.surfaceFrom covered words := by
  induction words generalizing covered with
  | nil => rfl
  | cons word rest ih =>
    simp only [List.map_cons, surfaceFrom, ih]
    rfl

@[simp] theorem surfaceText_unlinked (s : Sentence) : s.unlinked.surfaceText = s.surfaceText := by
  have h := s.surfaceFrom_unlinked s.words 0
  rw [surfaceText, surfaceText, ← h]
  rfl

end Sentence

/-! ### Writing -/

/-- Sorting by head does not look at links. -/
theorem EnhancedDep.writeAll_unlinked (deps : List EnhancedDep) :
    writeAll (deps.map (·.unlinked)) = writeAll deps := by
  have hsort : (deps.map (·.unlinked)).mergeSort headLe =
      (deps.mergeSort headLe).map (·.unlinked) :=
    (List.map_mergeSort (f := EnhancedDep.unlinked) fun _ _ _ _ => rfl).symm
  rw [writeAll, hsort, List.map_map, writeAll]
  rfl

def Token.unlinked (token : Token) : Token :=
  { token with toColumns := token.toColumns.unlinked }

theorem Token.write_unlinked (token : Token) : token.unlinked.write = token.write := by
  simp only [Token.write, Token.writeColumns, Token.unlinked, Columns.unlinked,
    EnhancedDep.writeAll_unlinked]

namespace Sentence

theorem write_map_tokens_unlinked (s : Sentence) :
    s.unlinked.tokens.map Token.write = s.tokens.map Token.write := by
  have hempties : ∀ anchor,
      (s.unlinked.emptiesAt anchor).map (Token.write ∘ fun node => node.token) =
        (s.emptiesAt anchor).map (Token.write ∘ fun node => node.token) := by
    intro anchor
    rw [emptiesAt_unlinked, List.map_map]
    apply List.map_congr_left
    intro node _
    exact Token.write_unlinked node.token
  have hword : ∀ word : Word, Token.write word.unlinked.token = Token.write word.token :=
    fun word => Token.write_unlinked word.token
  simp only [tokens, List.map_append, List.map_map, List.map_flatMap, List.map_cons, hempties]
  simp only [unlinked, List.flatMap_map, hword]
  rfl

@[simp] theorem write_unlinked (s : Sentence) : s.unlinked.write = s.write := by
  rw [write, writeLines, write_map_tokens_unlinked]
  rfl

end Sentence

/-! ### Linking -/

theorem EmptyNode.map_unlinked_placeAll (position : Nat) (nodes : List EmptyNode) :
    (placeAll position nodes).map (·.unlinked) = nodes.map (·.unlinked) := by
  induction nodes generalizing position with
  | nil => rfl
  | cons node rest ih =>
    rw [placeAll, List.map_cons, List.map_cons, ih]
    rfl

/-- Positions that are given to the nodes of one anchor are no part of what is written. -/
theorem mapValues_unlinked_modify (empties : IdMap (List EmptyNode)) (anchor position : Nat) :
    ((empties.modify anchor (EmptyNode.placeAll position)).mapValues
        fun _ nodes => nodes.map (·.unlinked)) =
      empties.mapValues fun _ nodes => nodes.map (·.unlinked) := by
  rw [IdMap.modify, IdMap.mapValues_mapValues]
  congr 1
  funext other nodes
  split
  · exact EmptyNode.map_unlinked_placeAll position nodes
  · rfl

theorem Word.unlinked_placeAll (position : Nat) (words : List Word)
    (empties : IdMap (List EmptyNode)) :
    (placeAll position words empties).1.map (·.unlinked) = words.map (·.unlinked) ∧
      ((placeAll position words empties).2.mapValues fun _ nodes => nodes.map (·.unlinked)) =
        empties.mapValues fun _ nodes => nodes.map (·.unlinked) := by
  induction words generalizing position empties with
  | nil => exact ⟨rfl, rfl⟩
  | cons word rest ih =>
    obtain ⟨hwords, hempties⟩ := ih (position + 1 + ((empties.get? word.id).getD []).length)
      (empties.modify word.id (EmptyNode.placeAll (position + 1)))
    constructor
    · rw [placeAll, List.map_cons, List.map_cons, hwords]
      rfl
    · rw [placeAll, hempties, mapValues_unlinked_modify]

namespace Sentence

theorem unlinked_place (s : Sentence) : s.place.unlinked = s.unlinked := by
  obtain ⟨hwords, hempties⟩ := Word.unlinked_placeAll (1 + (s.emptiesAt 0).length) s.words
    (s.empties.modify 0 (EmptyNode.placeAll 1))
  rw [mapValues_unlinked_modify] at hempties
  simp only [unlinked, place, hwords, hempties]

/-- A change that cannot be seen in `g` is none to the values of `g`. -/
theorem map_modify_of_eq {α β : Type} {f : α → α} {g : α → β} (h : ∀ a, g (f a) = g a)
    (xs : List α) (place : Nat) : (xs.modify place f).map g = xs.map g := by
  apply List.ext_getElem?
  intro i
  rw [List.getElem?_map, List.getElem?_modify, List.getElem?_map]
  cases xs[i]? <;> by_cases hi : place = i <;> simp [hi, h]

theorem unlinked_join (s : Sentence) (node head id : Nat) :
    (s.join node head id).unlinked = s.unlinked := by
  simp only [unlinked, join]
  rw [map_modify_of_eq ?_ _ head, map_modify_of_eq ?_ _ node]
  · exact fun _ => rfl
  · exact fun _ => rfl

/-- Attaching a word changes nothing but the outline, or joins the word to its head. -/
theorem attach_cases {s t : Sentence} {node : Nat} (h : s.attach node = .ok t) :
    ∃ outline, t = { s with outline } ∨ ∃ head id, t = { s.join node head id with outline } := by
  unfold attach at h
  split at h
  · cases h
    exact ⟨s.outline, .inl rfl⟩
  · split at h
    · cases h
      exact ⟨s.outline, .inl rfl⟩
    · cases h
      exact ⟨_, .inl rfl⟩
    · split at h
      · cases h
      · next head _ =>
        cases h
        exact ⟨_, .inr ⟨head, _, rfl⟩⟩

/-- What does not depend on the outline and is kept by joins is the same wherever the run stops. -/
theorem attachAll_eq_of {α : Type} {f : Sentence → α}
    (houtline : ∀ (s : Sentence) outline, f { s with outline } = f s)
    (hjoin : ∀ (s : Sentence) node head id, f (s.join node head id) = f s)
    (s : Sentence) (nodes : List Nat) : f (s.attachAll nodes).1 = f s := by
  induction nodes generalizing s with
  | nil => rfl
  | cons node rest ih =>
    unfold attachAll
    split
    · next attached h =>
      refine (ih attached).trans ?_
      obtain ⟨outline, rfl | ⟨head, id, rfl⟩⟩ := attach_cases h
      · exact houtline s outline
      · exact (houtline _ outline).trans (hjoin s node head id)
    · rfl

theorem unlinked_attachAll (s : Sentence) (nodes : List Nat) :
    (s.attachAll nodes).1.unlinked = s.unlinked :=
  attachAll_eq_of (fun _ _ => rfl) unlinked_join s nodes

theorem unlinked_resolve (s : Sentence) : s.resolve.unlinked = s.unlinked := by
  simp only [unlinked, resolve, List.map_map, IdMap.mapValues_mapValues]
  congr 1
  · apply List.map_congr_left
    intro word _
    simp [Word.unlinked]
  · congr 1
    funext _ nodes
    apply List.map_congr_left
    intro node _
    simp [EmptyNode.unlinked]

/-- Wherever linking stops, nothing but links has changed. -/
theorem unlinked_link (s : Sentence) : s.link.1.unlinked = s.unlinked := by
  have h := unlinked_attachAll s.place (List.range s.words.length)
  unfold link
  split
  · next stuck error hstuck =>
    rw [hstuck] at h
    exact h.trans (unlinked_place s)
  · next attached hattached =>
    rw [hattached] at h
    exact (unlinked_resolve attached).trans (h.trans (unlinked_place s))

theorem unlinked_relink (s : Sentence) : s.relink.1.unlinked = s.unlinked := by
  have h := unlinked_link s.unlinked
  rw [unlinked_unlinked] at h
  unfold relink
  split
  · next stuck error hstuck =>
    rw [hstuck] at h
    exact (unlinked_unlinked stuck).trans h
  · next linked hlinked =>
    rw [hlinked] at h
    exact h

/-- A build that fails takes all links back. -/
theorem relink_eq_unlinked {s : Sentence} {error : TreeError} (h : s.relink.2 = some error) :
    s.relink.1 = s.unlinked := by
  have hraw := unlinked_relink s
  unfold relink at h hraw ⊢
  split
  · next stuck error hstuck =>
    rw [hstuck] at hraw
    exact (unlinked_unlinked stuck).symm.trans hraw
  · next linked hlinked =>
    rw [hlinked] at h
    cases h

end Sentence
end Treebank
