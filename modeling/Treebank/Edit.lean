import Treebank.Token

/-! Changes to the columns of a token.

`Edit.apply` is the one way in which the columns of a word are changed. -/
namespace Treebank

inductive Edit where
  | form (text : String)
  | lemmaForm (text : String)
  | upos (text : String)
  | xpos (text : String)
  | head (head : Option Nat)
  | deprel (text : String)
  | setFeature (name value : String)
  | eraseFeature (name : String)
  | addDep (head : Nat) (sub? : Option Nat) (deprel : String)
  | eraseDepsFrom (head : TokenId)
  | setMisc (key : String) (value : MiscValue)
  | extra (columns : List String)
deriving DecidableEq

namespace Columns

/-- The dependency is added unless the same edge is there. -/
def addDep (columns : Columns) (dep : EnhancedDep) : Columns :=
  if columns.hasDep dep then columns else { columns with deps := columns.deps ++ [dep] }

def eraseDepsFrom (columns : Columns) (head : TokenId) : Columns :=
  { columns with deps := columns.deps.filter fun dep => dep.headId ≠ head }

end Columns

def Edit.apply : Edit → Columns → Columns
  | form text, c => { c with form := text }
  | lemmaForm text, c => { c with lemmaForm := text }
  | upos text, c => { c with upos := text }
  | xpos text, c => { c with xpos := text }
  | head id, c => { c with head := id }
  | deprel text, c => { c with deprel := text }
  | setFeature name value, c => { c with feats := c.feats.insert name value }
  | eraseFeature name, c => { c with feats := c.feats.erase name }
  | addDep id sub? label, c => c.addDep { head := id, sub?, deprel := label }
  | eraseDepsFrom id, c => c.eraseDepsFrom id
  | setMisc key value, c => { c with misc := c.misc.insert key value }
  | extra columns, c => { c with extra := columns }

/-- The columns after a list of edits, the first applied first. -/
def Edit.applyAll (edits : List Edit) (columns : Columns) : Columns :=
  edits.foldl (fun c edit => edit.apply c) columns

end Treebank
