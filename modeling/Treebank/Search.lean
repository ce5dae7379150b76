import Treebank.Pattern.Compile

/-! Searching a sentence for a pattern.

Tuples of distinct nodes are tried in lexicographic order, one node for each
variable among those that its constraint accepts. A complete tuple is a match if
the orders and relations hold of it. `search?` is `none` if a constraint names a
variable that the pattern does not have, or if a sum ends the program. -/
namespace Treebank

/-- The node bound to each variable, in the order of the variables. -/
structure Match where
  bindings : List Nat
  names : List String
deriving DecidableEq

def Match.get? (found : Match) (name : String) : Option Nat := do
  found.bindings[← found.names.idxOf? name]?

/-- Each name with the node bound to it, in the order of the variables. -/
def Match.named (found : Match) : List (String × Nat) := found.names.zip found.bindings

/-! ### Complete tuples -/

/-- The word bound to a variable. -/
def bound? (words : Array Word) (tuple : List Nat) (var : Nat) : Option Word := do
  words[← tuple[var]?]?

def OrderConstraint.check? (order : OrderConstraint) (words : Array Word) (tuple : List Nat)
    (overflow : Overflow := .wraps) : Option Bool := do
  let earlier ← bound? words tuple order.earlier
  let later ← bound? words tuple order.later
  return (← order.holds? earlier.id later.id overflow) != order.negated

/-- A relation between two variables holds or fails as it is negated or not. With one end that is
no variable, no dependent of the head has a label of the relation, or the dependent hangs from
nothing by such a label. -/
def RelationConstraint.check? (relation : RelationConstraint) (words : Array Word)
    (tuple : List Nat) : Option Bool :=
  match relation.head, relation.dep with
  | .bound head, .bound dep => do
    let node ← tuple[head]?
    let word ← bound? words tuple dep
    let present := word.links.head == some node && relation.acceptsLabel word.deprel
    return present != relation.negated
  | .bound head, .unbound _ => do
    let word ← bound? words tuple head
    let below ← word.links.dependents.mapM (words[·]?)
    return !below.any fun w => relation.acceptsLabel w.deprel
  | .unbound _, .bound dep => do
    let word ← bound? words tuple dep
    return !(word.links.head.isSome && relation.acceptsLabel word.deprel)
  | .unbound _, .unbound _ => some true

namespace Pattern

/-- The tuple satisfies all orders and all relations. -/
def check? (pattern : Pattern) (words : Array Word) (tuple : List Nat)
    (overflow : Overflow := .wraps) : Option Bool := do
  if ← pattern.orders.allM (·.check? words tuple overflow) then
    pattern.relations.allM (·.check? words tuple)
  else return false

/-! ### The search -/

/-- The matches that extend a tuple by nodes from the lists of candidates left. -/
def extend? (pattern : Pattern) (words : Array Word) (lists : List (List Nat)) (tuple : List Nat)
    (overflow : Overflow := .wraps) : Option (List (List Nat)) :=
  match lists with
  | [] => do return if ← pattern.check? words tuple overflow then [tuple] else []
  | nodes :: rest => do
    let found ← (nodes.filter (!tuple.contains ·)).mapM fun node =>
      pattern.extend? words rest (tuple ++ [node]) overflow
    return found.flatten

end Pattern

namespace Sentence

/-- The nodes whose words a constraint accepts. -/
def candidates (s : Sentence) (node : NodeConstraint) : List Nat :=
  (s.words.zipIdx.filter fun (word, _) => node.accepts word.toColumns).map Prod.snd

/-- All matches of a pattern in a sentence. A sentence that is not built has none, and neither has
any sentence for a pattern without variables. -/
def search? (s : Sentence) (pattern : Pattern) (overflow : Overflow := .wraps) :
    Option (List Match) :=
  if !s.outline.built || pattern.isEmpty then some []
  else do
    let candidates := pattern.nodes.map s.candidates
    if candidates.any List.isEmpty then return []
    let found ← pattern.extend? s.words.toArray candidates [] overflow
    return found.map fun bindings => { bindings, names := pattern.names }

end Sentence
end Treebank
