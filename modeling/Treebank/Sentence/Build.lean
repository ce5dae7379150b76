import Treebank.Sentence.Basic

/-! Linking the words of a sentence.

`Sentence.relink` starts from the sentence without links, numbers its tokens, attaches
each word to its head and each enhanced dependency to the token it comes from. It
refuses a sentence in which a head is no word, heads run in a circle or no word is
a root, and then takes back the links it has made. `Sentence.build` is its answer and
`Sentence.afterBuild` what it leaves behind. -/
namespace Treebank

inductive TreeError where
  | headOutOfRange (token head size : Nat)
  | noRoot
  | cycle (token : Nat)
deriving DecidableEq

def TreeError.message : TreeError → String
  | headOutOfRange token head size =>
    s!"Tree error: token {token} has head {head}, but the sentence has {size} tokens"
  | noRoot => "Tree error: no token has head 0"
  | cycle token => s!"Tree error: token {token} is part of a head cycle"

/-! ### Without links -/

def Columns.unlinked (columns : Columns) : Columns :=
  { columns with deps := columns.deps.map (·.unlinked) }

def Word.unlinked (word : Word) : Word :=
  { word with toColumns := word.toColumns.unlinked, links := {} }

def EmptyNode.unlinked (node : EmptyNode) : EmptyNode :=
  { node with toColumns := node.toColumns.unlinked, position := 0 }

/-- The sentence as if it had never been built. -/
def Sentence.unlinked (s : Sentence) : Sentence :=
  { s with
    words := s.words.map (·.unlinked)
    empties := s.empties.mapValues fun _ nodes => nodes.map (·.unlinked)
    emptiesFiled := s.emptiesFiled.mapValues fun _ _ h => List.forall_mem_map.2 h
    outline := {} }

/-! ### Positions -/

/-- Empty nodes one after the other, the first at `position`. -/
def EmptyNode.placeAll (position : Nat) : List EmptyNode → List EmptyNode
  | [] => []
  | node :: rest => { node with position } :: placeAll (position + 1) rest

theorem EmptyNode.anchor_of_mem_placeAll {position anchor : Nat} {nodes : List EmptyNode}
    (h : ∀ node ∈ nodes, node.anchor = anchor) :
    ∀ node ∈ placeAll position nodes, node.anchor = anchor := by
  induction nodes generalizing position with
  | nil => exact h
  | cons first rest ih =>
    obtain ⟨hfirst, hrest⟩ := List.forall_mem_cons.1 h
    exact List.forall_mem_cons.2 ⟨hfirst, ih hrest⟩

/-- The words from `position` on, each followed by the empty nodes that are anchored to it. -/
def Word.placeAll (position : Nat) :
    List Word → IdMap (List EmptyNode) → List Word × IdMap (List EmptyNode)
  | [], empties => ([], empties)
  | word :: rest, empties =>
    let next := position + 1
    let anchored := (empties.get? word.id).getD []
    let (rest, empties) :=
      placeAll (next + anchored.length) rest
        (empties.modify word.id (EmptyNode.placeAll next))
    ({ word with links.position := position } :: rest, empties)

section Filed
variable {empties : IdMap (List EmptyNode)}
  (h : empties.Filed fun id nodes => ∀ node ∈ nodes, node.anchor = id)

include h

theorem filed_modify_placeAll (anchor position : Nat) :
    (empties.modify anchor (EmptyNode.placeAll position)).Filed
      fun id nodes => ∀ node ∈ nodes, node.anchor = id := by
  refine h.mapValues fun id nodes hnodes => ?_
  split
  · exact EmptyNode.anchor_of_mem_placeAll hnodes
  · exact hnodes

theorem filed_placeAll (position : Nat) (words : List Word) :
    (Word.placeAll position words empties).2.Filed
      fun id nodes => ∀ node ∈ nodes, node.anchor = id := by
  induction words generalizing position empties with
  | nil => exact h
  | cons word rest ih => exact ih (filed_modify_placeAll h _ _) _

end Filed

namespace Sentence

/-- Tokens are numbered from 1 in the order in which they are written, ranges left out. -/
def place (s : Sentence) : Sentence :=
  let first := 1
  let placed :=
    Word.placeAll (first + (s.emptiesAt 0).length) s.words
      (s.empties.modify 0 (EmptyNode.placeAll first))
  { s with
    words := placed.1
    empties := placed.2
    emptiesFiled := filed_placeAll (filed_modify_placeAll s.emptiesFiled 0 first) _ _ }

/-! ### Heads -/

/-- The word at `node` becomes a dependent of the word at `head`. -/
def join (s : Sentence) (node head id : Nat) : Sentence :=
  let attached := s.words.modify node fun w => { w with links.head := some head }
  { s with
    words := attached.modify head fun w =>
      { w with
        links.dependents := w.links.dependents ++ [node]
        links.dependentsById := w.links.dependentsById.insert id node } }

/-- The distance between two ids. -/
def distance (a b : Nat) : Nat := (a - b) + (b - a)

/-- The word at `node` is filed among the roots. It is the designated one if there is none yet. -/
def addRoot (s : Sentence) (node : Nat) : Sentence :=
  { s with
    outline.root? := if s.outline.root?.isNone then some node else s.outline.root?
    outline.roots := s.outline.roots ++ [node] }

/-- The word at `node` is attached to its head, or filed among the roots if that is 0. -/
def attach (s : Sentence) (node : Nat) : Except TreeError Sentence :=
  match s.words[node]? with
  | none => .ok s
  | some word =>
    match word.head with
    | none => .ok s
    | some 0 => .ok (s.addRoot node)
    | some id =>
      match if s.words.length < id then none else s.nodeOf? id with
      | none => .error (.headOutOfRange word.id id s.words.length)
      | some head =>
        let reach := max s.outline.maxHeadDistance (distance word.id id)
        .ok { s.join node head word.id with
              outline := { s.outline with maxHeadDistance := reach } }

/-- The words at the nodes are attached in turn, up to the first that cannot be: the sentence then,
and why there is no more. -/
def attachAll (s : Sentence) : List Nat → Sentence × Option TreeError
  | [] => (s, none)
  | node :: rest =>
    match s.attach node with
    | .ok attached => attached.attachAll rest
    | .error error => (s, some error)

/-! ### Enhanced dependencies -/

/-- The ids of the words and of the empty nodes, each with a reference to its token. -/
def idTable (s : Sentence) : List (TokenId × NodeRef) :=
  s.words.zipIdx.map (fun (word, node) => (.word word.id, .word node)) ++
    s.empties.entries.flatMap fun (anchor, nodes) =>
      nodes.zipIdx.map fun (node, index) => (node.id, .empty anchor index)

/-- The token with the given id; if there are several, the last. -/
def find? (s : Sentence) (id : TokenId) : Option NodeRef := s.idTable.reverse.lookup id

end Sentence

/-- Every dependency is linked to what `find` gives for its head. -/
def Columns.resolve (find : TokenId → Option NodeRef) (columns : Columns) : Columns :=
  { columns with deps := columns.deps.map fun dep => { dep with headword := find dep.headId } }

namespace Sentence

def resolve (s : Sentence) : Sentence :=
  { s with
    words := s.words.map fun w => { w with toColumns := w.toColumns.resolve s.find? }
    empties := s.empties.mapValues fun _ nodes =>
      nodes.map fun n => { n with toColumns := n.toColumns.resolve s.find? }
    emptiesFiled := s.emptiesFiled.mapValues fun _ _ h => List.forall_mem_map.2 h }

/-! ### Circles -/

/-- The node that the head of the word at `node` names. -/
def headNode? (s : Sentence) (node : Nat) : Option Nat := do
  let word ← s.words[node]?
  let head ← word.head
  if head = 0 then none else s.nodeOf? head

/-- For every node the node that its head names. -/
def headNodes (s : Sentence) : Array (Option Nat) :=
  ((List.range s.words.length).map s.headNode?).toArray

/-- For every node the id of its word. -/
def ids (s : Sentence) : Array Nat := (s.words.map (·.id)).toArray

end Sentence

/-- The nodes from `node` upwards to the one below `start`, if `start` is reached in `steps`. -/
def walkTo? (heads : Array (Option Nat)) (start : Nat) : Nat → Nat → Option (List Nat)
  | 0, _ => none
  | steps + 1, node => do
    let head ← heads[node]?.join
    if head = start then return [node]
    else return node :: (← walkTo? heads start steps head)

/-- The nodes of the circle of heads through `start`. A circle has no more nodes than there are
words, so a longer walk is on no circle through `start`. -/
def circle? (heads : Array (Option Nat)) (start : Nat) : Option (List Nat) :=
  walkTo? heads start heads.size start

namespace Sentence

/-- The smallest id on each circle of heads, in ascending order. -/
def cycles (s : Sentence) : List Nat :=
  let heads := s.headNodes
  let ids := s.ids
  let starts := (List.range s.words.length).filter fun start =>
    (circle? heads start).any fun circle =>
      circle.all fun node => ids.getD start 0 ≤ ids.getD node 0
  (starts.map (ids.getD · 0)).mergeSort

/-! ### Building -/

/-- Why the heads of a linked sentence make no forest. -/
def fault? (s : Sentence) : Option TreeError :=
  match s.cycles.head? with
  | some token => some (.cycle token)
  | none => if s.outline.roots.isEmpty then some .noRoot else none

/-- The tokens of a sentence without links are linked. When that fails, what was linked by then is
still there. -/
def link (s : Sentence) : Sentence × Option TreeError :=
  match s.place.attachAll (List.range s.words.length) with
  | (stuck, some error) => (stuck, some error)
  | (attached, none) => (attached.resolve, attached.resolve.fault?)

/-- The sentence with fresh links, or without any and why it cannot be linked. -/
def relink (s : Sentence) : Sentence × Option TreeError :=
  match s.unlinked.link with
  | (stuck, some error) => (stuck.unlinked, some error)
  | (linked, none) => ({ linked with outline.built := true }, none)

def build (s : Sentence) : Except TreeError Sentence :=
  match s.relink with
  | (_, some error) => .error error
  | (linked, none) => .ok linked

def afterBuild (s : Sentence) : Sentence := s.relink.1

end Sentence
end Treebank
