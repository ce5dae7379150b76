import Treebank.Text.Lowercase

/-! The morphological features of a token.

Names are the same when they agree after `Text.fold`, and entries are kept in the
order of the folded names. A feature that is set again keeps the spelling of the
name with which it was first set. -/
namespace Treebank

structure Features where
  entries : List (String × String) := []
deriving DecidableEq

namespace Features

instance : EmptyCollection Features := ⟨{}⟩

/-- The value among the entries of the feature with the folded name `key`. -/
def find (key : List Char) : List (String × String) → Option String
  | [] => none
  | (name, value) :: rest => if Text.fold name = key then some value else find key rest

def get? (feats : Features) (name : String) : Option String := find (Text.fold name) feats.entries

def contains (feats : Features) (name : String) : Bool := (feats.get? name).isSome

def size (feats : Features) : Nat := feats.entries.length

/-- The entries with the feature set, in the place that its folded name `key` asks for. -/
def insertEntry (key : List Char) (name value : String) :
    List (String × String) → List (String × String)
  | [] => [(name, value)]
  | (other, old) :: rest =>
    let otherKey := Text.fold other
    if otherKey = key then (other, value) :: rest
    else if key < otherKey then (name, value) :: (other, old) :: rest
    else (other, old) :: insertEntry key name value rest

def insert (feats : Features) (name value : String) : Features :=
  ⟨insertEntry (Text.fold name) name value feats.entries⟩

def erase (feats : Features) (name : String) : Features :=
  let key := Text.fold name
  ⟨feats.entries.eraseP fun entry => Text.fold entry.1 = key⟩

end Features
end Treebank
