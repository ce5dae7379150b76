import Treebank.Edit
import Treebank.Text.Number

/-! The columns of a token line that hold more than plain text.

Features, dependencies and miscellaneous entries are items separated by bars, and
an underscore stands for no item. Each column has a `read`, which fails on text
that is no such column, and a `write`. -/
namespace Treebank
open Text

/-! ### Items -/

def readItems (column : List Char) : List (List Char) :=
  if column = ['_'] then [] else pieces '|' column

def writeItems (items : List (List Char)) : List Char :=
  if items = [] then ['_'] else joinWith '|' items

/-! ### Ids -/

namespace TokenId

def write : TokenId → List Char
  | word id => writeNumber id
  | range first last => writeNumber first ++ '-' :: writeNumber last
  | empty anchor sub => writeNumber anchor ++ '.' :: writeNumber sub

/-- Two numbers with a hyphen or a point between them, or one that is not 0. -/
def read (text : List Char) : Option TokenId :=
  match splitFirst '-' text with
  | some (first, last) => return range (← readNumber first) (← readNumber last)
  | none =>
    match splitFirst '.' text with
    | some (anchor, sub) => return empty (← readNumber anchor) (← readNumber sub)
    | none => do
      let id ← readNumber text
      if id = 0 then none else return word id

end TokenId

/-- The head column: a number, or an underscore for no head. -/
def readHead (text : List Char) : Option (Option Nat) :=
  if text = ['_'] then some none else (readNumber text).map some

def writeHead : Option Nat → List Char
  | some head => writeNumber head
  | none => ['_']

/-! ### Features -/

namespace Features

/-- A feature is a name, which is not empty, and a value after an equals sign. -/
def readItem (item : List Char) : Option (String × String) := do
  let (name, value) ← splitFirst '=' item
  if name = [] then none else return (String.ofList name, String.ofList value)

def read (column : List Char) : Option Features := do
  let entries ← (readItems column).mapM readItem
  return entries.foldl (fun feats (name, value) => feats.insert name value) ∅

def write (feats : Features) : List Char :=
  writeItems (feats.entries.map fun (name, value) => name.toList ++ '=' :: value.toList)

end Features

/-! ### Dependencies -/

namespace EnhancedDep

/-- A dependency is the id of its head and a label after a colon. -/
def read (item : List Char) : Option EnhancedDep := do
  let (head, label) ← splitFirst ':' item
  let deprel := String.ofList label
  match splitFirst '.' head with
  | some (main, sub) => return { head := ← readNumber main, sub? := ← readNumber sub, deprel }
  | none => return { head := ← readNumber head, deprel }

def write (dep : EnhancedDep) : List Char := dep.headId.write ++ ':' :: dep.deprel.toList

/-- The order of heads, in which a word comes before the empty nodes that follow it. -/
def headLe (a b : EnhancedDep) : Bool :=
  a.head < b.head || a.head == b.head &&
    match a.sub?, b.sub? with
    | none, _ => true
    | some _, none => false
    | some m, some n => m ≤ n

/-- Dependencies are written in the order of their heads. -/
def writeAll (deps : List EnhancedDep) : List Char :=
  writeItems ((deps.mergeSort headLe).map write)

def readAll (column : List Char) : Option (List EnhancedDep) := (readItems column).mapM read

end EnhancedDep

/-! ### Miscellaneous entries -/

namespace MiscValue

/-- A value is a number if it is one as numbers are written, and a text otherwise. -/
def read (value : List Char) : MiscValue :=
  match readWritten value with
  | some n => number n
  | none => text (String.ofList value)

/-- The value with the equals sign before it; a flag has neither. -/
def write : MiscValue → List Char
  | number n => '=' :: writeNumber n
  | text s => '=' :: s.toList
  | flag => []

end MiscValue

namespace Misc

def readItem (item : List Char) : String × MiscValue :=
  match splitFirst '=' item with
  | some (key, value) => (String.ofList key, .read value)
  | none => (String.ofList item, .flag)

def read (column : List Char) : Misc :=
  (readItems column).foldl
    (fun misc item => let (key, value) := readItem item; misc.insert key value) ∅

def write (misc : Misc) : List Char :=
  writeItems (misc.rows.map fun (key, value) => key.toList ++ value.write)

end Misc
end Treebank
