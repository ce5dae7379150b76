import Treebank.Sentence.Basic
import Treebank.Text.Number

/-! Patterns.

A pattern is what a search works with: a constraint for each variable, and
relations and orders between variables. A variable is its place among the
constraints. -/
namespace Treebank

/-- What a condition looks at: a column, or a feature by its name. -/
inductive Attribute where
  | upos
  | xpos
  | form
  | lemmaForm
  | deprel
  | feature (name : String)
deriving DecidableEq

namespace Attribute

def ofName : String → Attribute
  | "upos" => upos
  | "xpos" => xpos
  | "form" => form
  | "lemma" => lemmaForm
  | "deprel" | "deprels" => deprel
  | name => feature name

def name : Attribute → String
  | upos => "upos"
  | xpos => "xpos"
  | form => "form"
  | lemmaForm => "lemma"
  | deprel => "deprel"
  | feature name => name

/-- The value that a token has for the attribute; only a feature can have none. -/
def value? (columns : Columns) : Attribute → Option String
  | upos => some columns.upos
  | xpos => some columns.xpos
  | form => some columns.form
  | lemmaForm => some columns.lemmaForm
  | deprel => some columns.deprel
  | feature name => columns.feats.get? name

end Attribute

/-- The conditions on one variable. Each attribute in `must` has one of its values, or any if there
are none; each in `mustNot` has a value that is not among its values, or none at all if there
are none. -/
structure NodeConstraint where
  name : String
  must : Table Attribute (List String) := ∅
  mustNot : Table Attribute (List String) := ∅
deriving DecidableEq

namespace NodeConstraint

/-- Every token qualifies. -/
def isAny (node : NodeConstraint) : Bool := node.must.isEmpty && node.mustNot.isEmpty

def constrains (node : NodeConstraint) (key : Attribute) : Bool :=
  node.must.keys.contains key || node.mustNot.keys.contains key

/-- The attribute has a value, among those given if any are. -/
def meets (columns : Columns) (key : Attribute) (values : List String) : Bool :=
  match key.value? columns with
  | some value => values.isEmpty || values.contains value
  | none => false

/-- The attribute has a value that is not among those given, or has none and none are given. -/
def avoids (columns : Columns) (key : Attribute) (values : List String) : Bool :=
  match key.value? columns with
  | some value => !values.isEmpty && !values.contains value
  | none => values.isEmpty

def accepts (node : NodeConstraint) (columns : Columns) : Bool :=
  (node.must.rows.all fun (key, values) => meets columns key values) &&
    node.mustNot.rows.all fun (key, values) => avoids columns key values

end NodeConstraint

/-- An end of a relation: a variable, or a name that is none. -/
inductive Endpoint where
  | bound (var : Nat)
  | unbound (name : String)
deriving DecidableEq

structure RelationConstraint where
  name? : Option String := none
  head : Endpoint
  dep : Endpoint
  labels : List String := []
  negated : Bool := false
deriving DecidableEq

/-- Any label will do if none is given. -/
def RelationConstraint.acceptsLabel (relation : RelationConstraint) (label : String) : Bool :=
  relation.labels.isEmpty || relation.labels.contains label

/-- One variable precedes another in the order of ids, with nothing between them if `strict`. -/
structure OrderConstraint where
  earlier : Nat
  later : Nat
  strict : Bool := false
  negated : Bool := false
deriving DecidableEq

/-- The order of two ids, negation left out, unless the sum in it ends the program. -/
def OrderConstraint.holds? (order : OrderConstraint) (earlier later : Nat)
    (overflow : Overflow := .wraps) : Option Bool :=
  if order.strict then (overflow.sum? earlier 1).map fun next => next = later
  else some (earlier < later)

theorem OrderConstraint.holds?_eq (order : OrderConstraint) {earlier : Nat} (later : Nat)
    {overflow : Overflow} (h : order.strict = true → overflow.Allows earlier 1) :
    order.holds? earlier later overflow =
      some (decide (if order.strict then wrappedSum earlier 1 = later else earlier < later)) := by
  unfold holds?
  cases hstrict : order.strict with
  | false => rfl
  | true =>
    rw [if_pos rfl, Overflow.sum?_eq, if_pos (h hstrict)]
    rfl

structure Pattern where
  nodes : List NodeConstraint := []
  relations : List RelationConstraint := []
  orders : List OrderConstraint := []
deriving DecidableEq

namespace Pattern

def names (pattern : Pattern) : List String := pattern.nodes.map (·.name)

/-- The number of variables. -/
def size (pattern : Pattern) : Nat := pattern.nodes.length

def isEmpty (pattern : Pattern) : Bool := pattern.nodes.isEmpty

def var? (pattern : Pattern) (name : String) : Option Nat := pattern.names.idxOf? name

end Pattern
end Treebank
