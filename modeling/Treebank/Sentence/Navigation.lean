import Treebank.Sentence.Basic

/-! Moving along the links of a sentence.

Nodes are places among the words. Each function follows the links that the last
build left and gives `none` if it meets a node that is no place of the sentence. -/
namespace Treebank.Sentence

/-- The head of the word at `node`, itself `none` if the word is attached to nothing. -/
def headOf? (s : Sentence) (node : Nat) : Option (Option Word) := do
  let word ← s.words[node]?
  match word.links.head with
  | none => return none
  | some head => return some (← s.words[head]?)

def dependents? (s : Sentence) (node : Nat) : Option (List Word) := do
  let word ← s.words[node]?
  word.links.dependents.mapM (s.words[·]?)

def dependentsLabelled? (s : Sentence) (node : Nat) (label : String) : Option (List Word) :=
  (s.dependents? node).map fun words => words.filter (·.deprel = label)

/-! ### Upwards -/

/-- The nodes from `head` upwards, at most `steps` of them, up to one that was seen before. -/
def climb? (s : Sentence) : Nat → List Nat → Option Nat → Option (List Nat)
  | 0, _, _ => some []
  | _, _, none => some []
  | steps + 1, seen, some head =>
    if head ∈ seen then some []
    else do
      let word ← s.words[head]?
      return head :: (← s.climb? steps (head :: seen) word.links.head)

/-- The nodes above `node`, nearest first. -/
def ancestors? (s : Sentence) (node : Nat) : Option (List Nat) := do
  let word ← s.words[node]?
  s.climb? (s.words.length + 1) [node] word.links.head

/-- The number of links between `node` and a root, itself `none` if no root is above it. -/
def depth? (s : Sentence) (node : Nat) : Option (Option Nat) := do
  let above ← s.ancestors? node
  let top ← s.words[above.getLast?.getD node]?
  return if top.head = some 0 then some above.length else none

/-- Whether the word at `head` is above the one at `node`. -/
def commands? (s : Sentence) (head node : Nat) : Option Bool :=
  (s.ancestors? node).map (·.contains head)

/-! ### Downwards -/

/-- Visits the nodes of a stack, each the first time it comes up, and puts its dependents on the
stack. `seen` holds the visited nodes, the last one first. -/
def descend? (s : Sentence) : Nat → List Nat → List Nat → Option (List Nat)
  | 0, seen, _ => some seen.reverse
  | _, seen, [] => some seen.reverse
  | steps + 1, seen, node :: stack =>
    if node ∈ seen then s.descend? steps seen stack
    else do
      let word ← s.words[node]?
      s.descend? steps (node :: seen) (word.links.dependents ++ stack)

/-- The node and all below it, each before its dependents. Every list of dependents goes on the
stack once at most, which bounds the steps. -/
def subtree? (s : Sentence) (node : Nat) : Option (List Nat) :=
  s.descend? ((s.words.flatMap fun w => w.links.dependents).length + 1) [] [node]

end Treebank.Sentence
