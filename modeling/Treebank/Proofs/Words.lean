import Treebank.Sentence.Build

/-! The words of a sentence by node and by id.

Statements about nodes read words with `Sentence.wordAt`. `nodeOf?_eq_some` and
`nodeOf?_eq_none_iff` say what the search for an id finds, whichever way it takes. -/
namespace Treebank.Sentence

/-- The word at a node; past the last word, one without columns. -/
def wordAt (s : Sentence) (node : Nat) : Word := s.words.getD node { id := 0 }

theorem wordAt_eq {s : Sentence} {node : Nat} {word : Word} (h : s.words[node]? = some word) :
    s.wordAt node = word := by
  rw [wordAt, List.getD_eq_getElem?_getD, h]
  rfl

theorem getElem?_words {s : Sentence} {node : Nat} (h : node < s.words.length) :
    s.words[node]? = some (s.wordAt node) := by
  rw [List.getElem?_eq_getElem h]
  congr 1
  exact (wordAt_eq (List.getElem?_eq_getElem h)).symm

theorem lt_of_getElem?_words {s : Sentence} {node : Nat} {word : Word}
    (h : s.words[node]? = some word) : node < s.words.length :=
  (List.getElem?_eq_some_iff.1 h).1

theorem wordAt_mem {s : Sentence} {node : Nat} (h : node < s.words.length) :
    s.wordAt node ∈ s.words :=
  List.mem_of_getElem? (getElem?_words h)

theorem mem_words_iff {s : Sentence} {word : Word} :
    word ∈ s.words ↔ ∃ node < s.words.length, s.wordAt node = word := by
  constructor
  · intro h
    obtain ⟨node, hnode⟩ := List.getElem?_of_mem h
    exact ⟨node, lt_of_getElem?_words hnode, wordAt_eq hnode⟩
  · intro hnode
    obtain ⟨node, hnode, rfl⟩ := hnode
    exact wordAt_mem hnode

theorem nodeOf?_eq_some {s : Sentence} {id node : Nat} (h : s.nodeOf? id = some node) :
    node < s.words.length ∧ (s.wordAt node).id = id := by
  unfold nodeOf? at h
  split at h
  · next hany =>
    obtain ⟨word, hword, hid⟩ := (Option.any_eq_true _ _).1 hany
    cases h
    exact ⟨lt_of_getElem?_words hword, by rw [wordAt_eq hword]; exact of_decide_eq_true hid⟩
  · obtain ⟨hlt, hid, -⟩ := List.findIdx?_eq_some_iff_getElem.1 h
    have hword : s.words[node]? = some s.words[node] := List.getElem?_eq_getElem hlt
    exact ⟨hlt, by rw [wordAt_eq hword]; exact of_decide_eq_true hid⟩

theorem nodeOf?_eq_none_iff {s : Sentence} {id : Nat} :
    s.nodeOf? id = none ↔ ∀ word ∈ s.words, word.id ≠ id := by
  constructor
  · intro h
    unfold nodeOf? at h
    split at h
    · cases h
    · intro word hword
      simpa using List.findIdx?_eq_none_iff.1 h word hword
  · intro h
    cases hnode : s.nodeOf? id with
    | none => rfl
    | some node =>
      obtain ⟨hlt, hid⟩ := nodeOf?_eq_some hnode
      exact absurd hid (h _ (wordAt_mem hlt))

/-- The head of a word is a node if the word has a head that is the id of some word. -/
theorem headNode?_eq_some_iff {s : Sentence} {node head : Nat} :
    s.headNode? node = some head ↔ node < s.words.length ∧
      ∃ id, (s.wordAt node).head = some id ∧ id ≠ 0 ∧ s.nodeOf? id = some head := by
  unfold headNode?
  by_cases hlt : node < s.words.length
  · rw [getElem?_words hlt]
    cases hhead : (s.wordAt node).head with
    | none => simp [hhead]
    | some id =>
      by_cases hzero : id = 0
      · simp [hhead, hzero]
      · simp [hhead, hzero, hlt]
  · rw [List.getElem?_eq_none (Nat.le_of_not_lt hlt)]
    simp [hlt]

theorem headNode?_lt {s : Sentence} {node head : Nat} (h : s.headNode? node = some head) :
    node < s.words.length ∧ head < s.words.length := by
  obtain ⟨hlt, id, -, -, hid⟩ := headNode?_eq_some_iff.1 h
  exact ⟨hlt, (nodeOf?_eq_some hid).1⟩

end Treebank.Sentence
