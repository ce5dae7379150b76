import Treebank.Format.Column

/-! Token lines.

A token line has ten columns or more, with tabs between them. `Token.read` checks
the columns from left to right and names the first one that is wrong; last of all
it refuses a word that is its own head. -/
namespace Treebank
open Text

/-- Why a token line is refused. -/
inductive LineFault where
  | tooFewColumns (found : Nat)
  | badId (column : String)
  | badFeatures (column : String)
  | badHead (column : String)
  | badDeps (column : String)
  | ownHead (id : Nat)
deriving DecidableEq

def LineFault.message : LineFault → String
  | tooFewColumns found => s!"Expected at least 10 fields, found {found}"
  | badId column => s!"Invalid ID: {column}"
  | badFeatures column => s!"Invalid FEATS: {column}"
  | badHead column => s!"Invalid HEAD: {column}"
  | badDeps column => s!"Invalid DEPS: {column}"
  | ownHead id => s!"Token {id} is its own head"

/-- The value, or the fault of the column that has none. -/
def orFault {α : Type} (value? : Option α) (fault : String → LineFault) (column : List Char) :
    Except LineFault α :=
  match value? with
  | some value => .ok value
  | none => .error (fault (String.ofList column))

namespace Token

/-- A word whose head is the word itself. -/
def isOwnHead (token : Token) : Bool :=
  match token.id with
  | .word id => token.head = some id
  | _ => false

def read (line : List Char) : Except LineFault Token :=
  match pieces '\t' line with
  | id :: form :: lemmaForm :: upos :: xpos :: feats :: head :: deprel :: deps :: misc ::
      extra => do
    let tokenId ← orFault (TokenId.read id) .badId id
    let features ← orFault (Features.read feats) .badFeatures feats
    let headId ← orFault (readHead head) .badHead head
    let edges ← orFault (EnhancedDep.readAll deps) .badDeps deps
    let columns : Columns :=
      { form := String.ofList form
        lemmaForm := String.ofList lemmaForm
        upos := String.ofList upos
        xpos := String.ofList xpos
        feats := features
        head := headId
        deprel := String.ofList deprel
        misc := Misc.read misc
        extra := extra.map String.ofList }
    let token : Token := { edges.foldl (fun c dep => c.addDep dep) columns with id := tokenId }
    if token.isOwnHead then .error (.ownHead token.id.main) else .ok token
  | columns => .error (.tooFewColumns columns.length)

/-- The columns of the line, from left to right. -/
def writeColumns (token : Token) : List (List Char) :=
  [token.id.write, token.form.toList, token.lemmaForm.toList, token.upos.toList,
    token.xpos.toList, token.feats.write, writeHead token.head, token.deprel.toList,
    EnhancedDep.writeAll token.deps, token.misc.write] ++ token.extra.map String.toList

def write (token : Token) : List Char := joinWith '\t' token.writeColumns

end Token
end Treebank
