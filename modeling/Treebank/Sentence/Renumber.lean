import Treebank.Sentence.Basic
import Treebank.Text.Number

/-! Numbering the words of a sentence anew.

The words get consecutive ids, and what refers to a word by its id follows: heads,
enhanced heads, the ends of ranges and the anchors of empty nodes. Head 0 and ids
that no word has stay. If several words share an id, references go with the last.
All new ids are computed first, so a sum that ends the program leaves the sentence as
it is; `renumber` is what happens when sums wrap around. -/
namespace Treebank

def Columns.renumberDeps (new : Nat → Nat) (columns : Columns) : Columns :=
  { columns with deps := columns.deps.map fun dep => { dep with head := new dep.head } }

def Word.renumber (new : Nat → Nat) (word : Word) : Word :=
  { word with
    toColumns := { word.toColumns.renumberDeps new with head := word.head.map new }
    id := new word.id }

def Multiword.renumber (new : Nat → Nat) (range : Multiword) : Multiword :=
  { range with first := new range.first, last := new range.last }

/-- An empty node keeps its second number when it moves to a new anchor. -/
def EmptyNode.renumber (new : Nat → Nat) (anchor : Nat) (node : EmptyNode) : EmptyNode :=
  { node with
    toColumns := node.toColumns.renumberDeps new
    anchor := (node.id.withMain anchor).main }

namespace Sentence

/-- The new id for an old one when the words are numbered from `first`. -/
def newId (s : Sentence) (first id : Nat) : Nat :=
  if id = 0 then 0
  else
    match lastIdx? (·.id = id) s.words with
    | some node => wrappedSum first node
    | none => id

/-- The ranges under their new first words; of two that meet, the later one stays. -/
def renumberRanges (new : Nat → Nat) (ranges : IdMap Multiword) : IdMap Multiword :=
  ranges.values.foldl
    (fun moved range => moved.insert (range.renumber new).first (range.renumber new)) ∅

/-- The empty nodes under their new anchors; lists that meet are joined in the old order. -/
def renumberEmpties (new : Nat → Nat) (empties : IdMap (List EmptyNode)) :
    IdMap (List EmptyNode) :=
  empties.entries.foldl
    (fun moved (anchor, nodes) =>
      moved.append (new anchor) (nodes.map (·.renumber new (new anchor)))) ∅

theorem filed_renumberRanges (new : Nat → Nat) (ranges : IdMap Multiword) :
    (renumberRanges new ranges).Filed fun id range => range.first = id :=
  List.foldlRecOn ranges.values _ IdMap.filed_empty fun _ hmoved _ _ => hmoved.insert rfl

theorem filed_renumberEmpties (new : Nat → Nat) (empties : IdMap (List EmptyNode)) :
    (renumberEmpties new empties).Filed fun id nodes => ∀ node ∈ nodes, node.anchor = id :=
  List.foldlRecOn empties.entries _ IdMap.filed_empty fun _ hmoved _ _ =>
    hmoved.append (List.forall_mem_map.2 fun _ _ => rfl)

/-- The words are numbered from `first` on, or from 0 again where that is no number. -/
def renumber (s : Sentence) (first : Nat) : Sentence :=
  let new := s.newId first
  { s.invalidate with
    words := s.words.map (·.renumber new)
    multiwords := renumberRanges new s.multiwords
    empties := renumberEmpties new s.empties
    rangesFiled := filed_renumberRanges new s.multiwords
    emptiesFiled := filed_renumberEmpties new s.empties }

/-- The words are numbered from `first` on, unless a sum ends the program. -/
def renumber? (s : Sentence) (first : Nat) (overflow : Overflow) : Option Sentence := do
  let _ ← (List.range s.words.length).mapM (overflow.sum? first)
  return s.renumber first

end Sentence
end Treebank
