import Treebank.Edit
import Treebank.IdMap

/-! Sentences.

A sentence holds its words in order and refers to a word by its place in that
order, its *node*. Multiword ranges are filed under the id of their first word and
empty nodes under the id of the word that they follow, and both have these ids
themselves. What a build computes from the heads is kept in `Word.links`,
`EmptyNode.position`, `EnhancedDep.headword` and `Sentence.outline`; a change clears
`Outline.built` and leaves the rest as it was until the next build. -/
namespace Treebank

/-- What a build finds out about a word. Heads and dependents are nodes. -/
structure Links where
  position : Nat := 0
  head : Option Nat := none
  dependents : List Nat := []
  dependentsById : IdMap Nat := ∅
deriving DecidableEq

structure Word extends Columns where
  id : Nat
  links : Links := {}
deriving DecidableEq

/-- A multiword range, from the word with id `first` to the one with id `last`. -/
structure Multiword extends Columns where
  first : Nat
  last : Nat
deriving DecidableEq

/-- An empty node after the word with id `anchor`. -/
structure EmptyNode extends Columns where
  anchor : Nat
  sub : Nat
  position : Nat := 0
deriving DecidableEq

/-- The comments of a sentence and those among them that have a meaning. -/
structure Metadata where
  comments : List String := []
  sentId : Option String := none
  newdoc : Option String := none
  newpar : Option String := none
  text : Option String := none
deriving DecidableEq

/-- What a build finds out about a sentence. One of the roots is the designated one. -/
structure Outline where
  built : Bool := false
  root? : Option Nat := none
  roots : List Nat := []
  maxHeadDistance : Nat := 0
deriving DecidableEq

/-- A map without ranges has none under an id that is not its own. -/
theorem Multiword.filed_empty : (∅ : IdMap Multiword).Filed fun id range => range.first = id :=
  IdMap.filed_empty

theorem EmptyNode.filed_empty :
    (∅ : IdMap (List EmptyNode)).Filed fun id nodes => ∀ node ∈ nodes, node.anchor = id :=
  IdMap.filed_empty

structure Sentence where
  words : List Word := []
  multiwords : IdMap Multiword := ∅
  empties : IdMap (List EmptyNode) := ∅
  metadata : Metadata := {}
  outline : Outline := {}
  rangesFiled : multiwords.Filed fun id range => range.first = id := by
    first | exact Multiword.filed_empty | decide
  emptiesFiled : empties.Filed fun id nodes => ∀ node ∈ nodes, node.anchor = id := by
    first | exact EmptyNode.filed_empty | decide
deriving DecidableEq

/-! ### Tokens of a sentence -/

def Word.token (word : Word) : Token := { word.toColumns with id := .word word.id }

def Multiword.id (range : Multiword) : TokenId := .range range.first range.last

def Multiword.token (range : Multiword) : Token := { range.toColumns with id := range.id }

def EmptyNode.id (node : EmptyNode) : TokenId := .empty node.anchor node.sub

def EmptyNode.token (node : EmptyNode) : Token := { node.toColumns with id := node.id }

/-- The place of the last element with a property. -/
def lastIdx? {α : Type} (p : α → Bool) : List α → Option Nat
  | [] => none
  | a :: rest =>
    match lastIdx? p rest with
    | some i => some (i + 1)
    | none => if p a then some 0 else none

namespace Sentence

/-- The empty nodes that follow the word with the given id. -/
def emptiesAt (s : Sentence) (anchor : Nat) : List EmptyNode := (s.empties.get? anchor).getD []

theorem first_of_get? {s : Sentence} {id : Nat} {range : Multiword}
    (h : s.multiwords.get? id = some range) : range.first = id :=
  s.rangesFiled.get? h

theorem id_of_get? {s : Sentence} {id : Nat} {range : Multiword}
    (h : s.multiwords.get? id = some range) : range.id = .range id range.last := by
  rw [Multiword.id, first_of_get? h]

theorem anchor_of_mem_emptiesAt {s : Sentence} {anchor : Nat} {node : EmptyNode}
    (h : node ∈ s.emptiesAt anchor) : node.anchor = anchor := by
  unfold emptiesAt at h
  cases hnodes : s.empties.get? anchor with
  | none => rw [hnodes] at h; cases h
  | some nodes => rw [hnodes] at h; exact s.emptiesFiled.get? hnodes node h

theorem id_of_mem_emptiesAt {s : Sentence} {anchor : Nat} {node : EmptyNode}
    (h : node ∈ s.emptiesAt anchor) : node.id = .empty anchor node.sub := by
  rw [EmptyNode.id, anchor_of_mem_emptiesAt h]

def emptyCount (s : Sentence) : Nat := s.empties.values.flatten.length

/-- The node of the word with the given id. A word that stands where its id says is found first;
otherwise the first word with the id counts. -/
def nodeOf? (s : Sentence) (id : Nat) : Option Nat :=
  if (s.words[id - 1]?).any (·.id = id) then some (id - 1)
  else s.words.findIdx? (·.id = id)

def wordOf? (s : Sentence) (id : Nat) : Option Word := do s.words[← s.nodeOf? id]?

/-- The token that a reference names. -/
def tokenAt? (s : Sentence) : NodeRef → Option Token
  | .word node => (s.words[node]?).map (·.token)
  | .empty anchor index => ((s.emptiesAt anchor)[index]?).map (·.token)

/-! ### Changes -/

/-- The links no longer count as current. -/
def invalidate (s : Sentence) : Sentence := { s with outline := { s.outline with built := false } }

/-- A word goes to the end of the words and an empty node to the end of its anchor's; a range takes
the place of one that starts at the same word. -/
def push (s : Sentence) (token : Token) : Sentence :=
  let s := s.invalidate
  match token.id with
  | .word id => { s with words := s.words ++ [{ token.toColumns with id }] }
  | .range first last =>
    { s with
      multiwords := s.multiwords.insert first { token.toColumns with first, last }
      rangesFiled := s.rangesFiled.insert rfl }
  | .empty anchor sub =>
    { s with
      empties := s.empties.append anchor [{ token.toColumns with anchor, sub }]
      emptiesFiled := s.emptiesFiled.append (List.forall_mem_singleton.2 rfl) }

def ofTokens (tokens : List Token) : Sentence := tokens.foldl push {}

/-- The columns of the word with the given id are changed, if there is one. -/
def change? (s : Sentence) (id : Nat) (f : Columns → Columns) : Option Sentence := do
  let node ← s.nodeOf? id
  return { s.invalidate with
    words := s.words.modify node fun w => { w with toColumns := f w.toColumns } }

def edit? (s : Sentence) (id : Nat) (edits : List Edit) : Option Sentence :=
  s.change? id (Edit.applyAll edits)

end Sentence
end Treebank
