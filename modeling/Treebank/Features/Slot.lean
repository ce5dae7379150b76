import Treebank.Format.Column

/-! Features found by halving.

The entries of features stand in the order of their folded names, so a name is looked for by
halving the run of entries where it can be. The search ends at the entry of the name or at the place
where one would go (`Slot`), and reading, setting and taking away a feature all start from there;
the last two also give back the value that was there. How a character is folded is a parameter. -/
namespace Treebank

/-- Where a search ends: at an entry, or before the first of the entries that come later. -/
inductive Slot where
  | found (place : Nat)
  | missing (place : Nat)
deriving DecidableEq

/-- Searches the `size` entries from `base` on, given how the entry at a place compares with what is
looked for. -/
def Slot.search (order : Nat → Ordering) (base size : Nat) : Slot :=
  if size ≤ 1 then
    match order base with
    | .lt => .missing (base + 1)
    | .eq => .found base
    | .gt => .missing base
  else
    let half := size / 2
    match order (base + half) with
    | .gt => search order base (size - half)
    | .lt | .eq => search order (base + half) (size - half)
termination_by size

namespace Features
variable (lower : Char → List Char)

/-- The folded name. -/
def key (name : String) : List Char := name.toList.flatMap lower

/-- How the name of the entry at a place compares with `name`. -/
def orderAt (feats : Features) (name : String) (place : Nat) : Ordering :=
  let other := key lower (feats.entries.getD place ("", "")).1
  if other < key lower name then .lt else if other = key lower name then .eq else .gt

def slot (feats : Features) (name : String) : Slot :=
  if feats.entries = [] then .missing 0
  else .search (feats.orderAt lower name) 0 feats.entries.length

def valueAt (feats : Features) (place : Nat) : Option String :=
  (feats.entries[place]?).map Prod.snd

def look (feats : Features) (name : String) : Option String :=
  match feats.slot lower name with
  | .found place => feats.valueAt place
  | .missing _ => none

def has (feats : Features) (name : String) : Bool :=
  match feats.slot lower name with
  | .found _ => true
  | .missing _ => false

/-- The feature set, and the value that it had. -/
def put (feats : Features) (name value : String) : Features × Option String :=
  match feats.slot lower name with
  | .found place =>
    (⟨feats.entries.modify place fun entry => (entry.1, value)⟩, feats.valueAt place)
  | .missing place => (⟨feats.entries.insertIdx place (name, value)⟩, none)

/-- The features without the one with the name, and the value that it had. -/
def take (feats : Features) (name : String) : Features × Option String :=
  match feats.slot lower name with
  | .found place => (⟨feats.entries.eraseIdx place⟩, feats.valueAt place)
  | .missing _ => (feats, none)

/-- Sets the features that the column lists in turn. -/
def readWith (column : List Char) : Option Features := do
  let entries ← (readItems column).mapM readItem
  return entries.foldl (fun feats (name, value) => (feats.put lower name value).1) ∅

end Features
end Treebank
