/-! Requests.

A request describes tuples of tokens by clauses on named variables: a `pattern`
block of what must hold and any number of `without` blocks of what must not. -/
namespace Treebank

/-- A condition on an attribute of a token. `present` asks for a value, `oneOf` for one of the
values given; negated, for no value and for another value. -/
inductive Condition where
  | present (feature : String) (negated : Bool)
  | oneOf (feature : String) (values : List String) (negated : Bool)
deriving DecidableEq

namespace Condition

def feature : Condition → String
  | present feature _ => feature
  | oneOf feature _ _ => feature

/-- The values asked for; none when any value will do. -/
def values : Condition → List String
  | present _ _ => []
  | oneOf _ values _ => values

def negated : Condition → Bool
  | present _ negated => negated
  | oneOf _ _ negated => negated

end Condition

/-- The token has all the conditions. -/
structure NodeClause where
  name : String
  conditions : List Condition
deriving DecidableEq

/-- The token `dep` hangs from the token `head` by one of the labels, or by any if none is given;
negated, not so. -/
structure RelationClause where
  name? : Option String := none
  head : String
  dep : String
  labels : List String := []
  negated : Bool := false
deriving DecidableEq

/-- The ways in which one token can lie before or after another. -/
inductive OrderOp where
  | before
  | justBefore
  | after
  | justAfter
deriving DecidableEq

namespace OrderOp

def ofSymbol? : String → Option OrderOp
  | "<<" => some before
  | "<" => some justBefore
  | ">>" => some after
  | ">" => some justAfter
  | _ => none

def symbol : OrderOp → String
  | before => "<<"
  | justBefore => "<"
  | after => ">>"
  | justAfter => ">"

/-- Nothing may lie between the two. -/
def isStrict : OrderOp → Bool
  | justBefore | justAfter => true
  | before | after => false

end OrderOp

structure OrderClause where
  left : String
  op : OrderOp
  right : String
deriving DecidableEq

/-- The two variables, the earlier one first. -/
def OrderClause.normalized (clause : OrderClause) : String × String :=
  match clause.op with
  | .before | .justBefore => (clause.left, clause.right)
  | .after | .justAfter => (clause.right, clause.left)

inductive Clause where
  | node (clause : NodeClause)
  | relation (clause : RelationClause)
  | order (clause : OrderClause)
deriving DecidableEq

structure Request where
  pattern : List Clause := []
  withouts : List (List Clause) := []
deriving DecidableEq

end Treebank
