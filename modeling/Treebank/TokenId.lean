/-! What a line of a sentence stands for.

A word has a number; a multiword range spans the words from one number to
another; an empty node follows the word with its anchor's number, or precedes the
first word if the anchor is 0, and has a number of its own among the empty nodes
there. -/
namespace Treebank

inductive TokenId where
  | word (id : Nat)
  | range (first last : Nat)
  | empty (anchor sub : Nat)
deriving DecidableEq

namespace TokenId

/-- The number that comes first. -/
def main : TokenId → Nat
  | word id => id
  | range first _ => first
  | empty anchor _ => anchor

/-- The number that comes second, if the kind has two. -/
def sub? : TokenId → Option Nat
  | word _ => none
  | range _ last => some last
  | empty _ sub => some sub

/-- The id with another number first. -/
def withMain (main : Nat) : TokenId → TokenId
  | word _ => word main
  | range _ last => range main last
  | empty _ sub => empty main sub

/-- Words come before ranges and ranges before empty nodes; within a kind the numbers decide. -/
def le : TokenId → TokenId → Bool
  | word a, word b => a ≤ b
  | range a b, range c d => a < c || a == c && b ≤ d
  | empty a b, empty c d => a < c || a == c && b ≤ d
  | word _, _ => true
  | range _ _, empty _ _ => true
  | _, _ => false

end TokenId

/-- A token that a dependency of the enhanced graph can come from: the word at a place of the
sentence, or the empty node at a place of its anchor's list. -/
inductive NodeRef where
  | word (node : Nat)
  | empty (anchor index : Nat)
deriving DecidableEq

/-- A dependency of the enhanced graph. Its head is a word, or an empty node if there is a second
number; `headword` is where the last build of the sentence found it. -/
structure EnhancedDep where
  head : Nat
  sub? : Option Nat := none
  deprel : String
  headword : Option NodeRef := none
deriving DecidableEq

namespace EnhancedDep

def headId (dep : EnhancedDep) : TokenId :=
  match dep.sub? with
  | some sub => .empty dep.head sub
  | none => .word dep.head

/-- The dependency as written, without where its head was found. -/
def unlinked (dep : EnhancedDep) : EnhancedDep := { dep with headword := none }

/-- Two dependencies are the same edge when they are written alike. -/
def sameEdge (a b : EnhancedDep) : Bool := a.unlinked = b.unlinked

end EnhancedDep
end Treebank
