import Treebank.Features
import Treebank.Table
import Treebank.Text.Pieces
import Treebank.TokenId

/-! Tokens and their columns.

A `Token` is one line of a sentence: an id and the columns that follow it. -/
namespace Treebank

/-- A value in the last of the ten columns. A flag is a key on its own. -/
inductive MiscValue where
  | number (n : Nat)
  | text (text : String)
  | flag
deriving DecidableEq

abbrev Misc := Table String MiscValue

/-- The columns after the id. A text that is not given is an underscore, head 0 marks a root, and
`extra` holds the columns beyond the tenth. -/
structure Columns where
  form : String := "_"
  lemmaForm : String := "_"
  upos : String := "_"
  xpos : String := "_"
  feats : Features := ∅
  head : Option Nat := none
  deprel : String := "_"
  deps : List EnhancedDep := []
  misc : Misc := ∅
  extra : List String := []
deriving DecidableEq

structure Token extends Columns where
  id : TokenId
deriving DecidableEq

namespace Columns

/-- The feature is there, and has the value if one is asked for. -/
def hasFeature (columns : Columns) (name : String) (value? : Option String) : Bool :=
  match columns.feats.get? name, value? with
  | some _, none => true
  | some value, some wanted => value = wanted
  | none, _ => false

def hasDep (columns : Columns) (dep : EnhancedDep) : Bool := columns.deps.any dep.sameEdge

def hasDepFrom (columns : Columns) (head : TokenId) : Bool :=
  columns.deps.any fun dep => dep.headId = head

/-- The white space after the token in running text: a `SpacesAfter` text with its escapes
resolved, nothing after `SpaceAfter=No`, and otherwise one blank. -/
def spacesAfter (columns : Columns) : List Char :=
  match columns.misc.get? "SpacesAfter" with
  | some (.text spaces) =>
    Text.replacePair '\\' 'n' '\n'
      (Text.replacePair '\\' 't' '\t' (Text.replacePair '\\' 's' ' ' spaces.toList))
  | _ =>
    match columns.misc.get? "SpaceAfter" with
    | some (.text "No") => []
    | _ => [' ']

end Columns
end Treebank
