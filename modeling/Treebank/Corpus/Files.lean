import Treebank.Text.Line
import Treebank.Text.Pieces

/-! The files that a corpus is read from.

What stands at a path, what packed bytes hold and which paths match a pattern are for the
system to say; `Files` is what it says. Whether the bytes at a path are packed goes by
the name that the path ends in (`isPacked`), and the paths that match a pattern are
taken in the order of their steps (`Files.select`). -/
namespace Treebank
open Text

/-- What the system says: the bytes at a path, or why it cannot be opened; the bytes that packed
ones hold; and the paths that match a pattern, each unless it cannot be looked at, or why the
pattern is refused. -/
structure Files where
  stream : String → Except String ByteStream
  unpack : ByteStream → ByteStream
  glob : String → Except String (List (Except String String))

/-! ### Paths -/

/-- A step of a path. Steps come in the order of the cases, and names in that of their
characters. -/
inductive PathStep where
  | root
  | here
  | above
  | name (text : List Char)
deriving DecidableEq, Ord

/-- The step that stands between two slashes, if there is one. -/
def PathStep.ofPart? (part : List Char) : Option PathStep :=
  if part = [] ∨ part = ['.'] then none
  else if part = ['.', '.'] then some .above
  else some (.name part)

/-- The steps of a path. A slash or a point is a step only where the path starts. -/
def pathSteps (path : List Char) : List PathStep :=
  let parts := pieces '/' path
  let start :=
    if path.head? = some '/' then [.root] else if parts.head? = some ['.'] then [.here] else []
  start ++ parts.filterMap PathStep.ofPart?

/-- What comes after the last point of a name, if something comes before it. -/
def extension? (name : List Char) : Option (List Char) :=
  match splitFirst '.' name.reverse with
  | some (after, before) => if before = [] then none else some after.reverse
  | none => none

/-- The bytes at the path are packed. -/
def isPacked (path : String) : Bool :=
  match (pathSteps path.toList).getLast? with
  | some (.name name) => extension? name = some ['g', 'z']
  | _ => false

namespace Files

/-- The bytes that a document at a path is read from. -/
def open? (files : Files) (path : String) : Except String ByteStream :=
  (files.stream path).map fun stream => if isPacked path then files.unpack stream else stream

/-- The paths that match a pattern, in the order of their steps. -/
def select (files : Files) (pattern : String) : Except String (List String) :=
  (files.glob pattern).map fun found =>
    (found.filterMap Except.toOption).mergeSort fun a b =>
      (compare (pathSteps a.toList) (pathSteps b.toList)).isLE

end Files
end Treebank
