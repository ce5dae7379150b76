import Treebank.Pattern.Compile

/-! Compiling with indexes.

A pattern is built with a list of its names and a table from names to variables beside
its constraints, and with the attributes of each variable that are taken by a condition.
They grow together, and what is issued as a variable by one of them is a place in the
others: here such a place is looked up in a list that may not have it, which is
`BuildError.outOfRange`. -/
namespace Treebank

/-- Why no pattern is built: a place that a list does not have, or an error of the request. -/
inductive BuildError where
  | outOfRange (place : Nat)
  | refused (error : PatternError)
deriving DecidableEq

/-- What a list has at a place. -/
def elementAt {α : Type} (xs : List α) (place : Nat) : Except BuildError α :=
  match xs[place]? with
  | some x => .ok x
  | none => .error (.outOfRange place)

/-- A pattern with the name of each variable and the variable of each name. -/
structure IndexedPattern extends Pattern where
  varNames : List String := []
  varIds : Table String Nat := ∅
deriving DecidableEq

namespace IndexedPattern

def varId? (pattern : IndexedPattern) (name : String) : Option Nat := pattern.varIds.get? name

/-- The variable of a name, which becomes one unless it is one. -/
def addVar (pattern : IndexedPattern) (name : String) : IndexedPattern × Nat :=
  match pattern.varId? name with
  | some var => (pattern, var)
  | none =>
    let var := pattern.size
    ({ pattern with
       nodes := pattern.nodes ++ [{ name }]
       varNames := pattern.varNames ++ [name]
       varIds := pattern.varIds.insert name var }, var)

end IndexedPattern

/-- The constraint with more values for an attribute, which negation puts on the other side. -/
def NodeConstraint.extend (node : NodeConstraint) (negated : Bool) (key : Attribute)
    (values : List String) : NodeConstraint :=
  let old := if negated then node.mustNot.get? key else node.must.get? key
  node.constrain negated key (old.getD [] ++ values)

/-- The relation between two ends, if it can be one. -/
def RelationClause.resolve (clause : RelationClause) (block : Block) (head dep : Endpoint) :
    Except PatternError RelationConstraint :=
  let negated := block.negates clause.negated
  let relation : RelationConstraint :=
    { name? := clause.name?, head, dep, labels := clause.labels, negated }
  match head, dep with
  | .bound _, .bound _ => .ok relation
  | .unbound name, .unbound _ => .error (.unboundNode clause.head clause.dep name)
  | .unbound name, .bound _ | .bound _, .unbound name =>
    if !negated then .error (.unboundNode clause.head clause.dep name)
    else if clause.labels.isEmpty then .error (.invalidNegatedRelation clause.head clause.dep)
    else .ok relation

/-- A pattern on the way, whose relations are not resolved yet. -/
structure Builder where
  pattern : IndexedPattern := {}
  /-- The attributes of each variable that have a condition. -/
  taken : List (List Attribute) := []
  relations : List (RelationClause × Block) := []

namespace Builder

/-- The variable of a name, and the builder that has it. -/
def var (builder : Builder) (name : String) : Builder × Nat :=
  let added := builder.pattern.addVar name
  let taken := if added.2 = builder.taken.length then builder.taken ++ [[]] else builder.taken
  ({ builder with pattern := added.1, taken }, added.2)

/-- The constraint of a variable is `node`, and the attribute is taken. -/
def put (builder : Builder) (var : Nat) (node : NodeConstraint) (key : Attribute)
    (keys : List Attribute) : Builder :=
  { builder with
    pattern := { builder.pattern with nodes := builder.pattern.nodes.set var node }
    taken := builder.taken.set var (keys.insert key) }

def addCondition (block : Block) (name : String) (var : Nat) (builder : Builder)
    (condition : Condition) : Except BuildError Builder := do
  let key := Attribute.ofName condition.feature
  let keys ← elementAt builder.taken var
  if key ∈ keys then .error (.refused (.inconsistentNode name key))
  else
    let node ← elementAt builder.pattern.nodes var
    let node := node.extend (block.negates condition.negated) key condition.values
    return builder.put var node key keys

def addNode (block : Block) (builder : Builder) (clause : NodeClause) : Except BuildError Builder :=
  let node := builder.var clause.name
  clause.conditions.foldlM (addCondition block clause.name node.2) node.1

/-- Both ends become variables, and the labels a condition on the dependent if it is new. -/
def addEnds (builder : Builder) (clause : RelationClause) : Except BuildError Builder :=
  let head := builder.var clause.head
  let introduced := (head.1.pattern.varId? clause.dep).isNone
  let dep := head.1.var clause.dep
  if introduced && !clause.labels.isEmpty then do
    let node ← elementAt dep.1.pattern.nodes dep.2
    let keys ← elementAt dep.1.taken dep.2
    return dep.1.put dep.2 (node.constrain clause.negated .deprel clause.labels) .deprel keys
  else .ok dep.1

def addRelation (block : Block) (builder : Builder) (clause : RelationClause) :
    Except BuildError Builder := do
  let ends := if block = .pattern then builder.addEnds clause else .ok builder
  let builder ← ends
  return { builder with relations := builder.relations ++ [(clause, block)] }

def addOrder (block : Block) (builder : Builder) (clause : OrderClause) : Builder :=
  let earlier := builder.var clause.normalized.1
  let later := earlier.1.var clause.normalized.2
  let order : OrderConstraint :=
    { earlier := earlier.2
      later := later.2
      strict := clause.op.isStrict
      negated := block = .without }
  { later.1 with
    pattern := { later.1.pattern with orders := later.1.pattern.orders ++ [order] } }

def addClause (block : Block) (builder : Builder) : Clause → Except BuildError Builder
  | .node clause => builder.addNode block clause
  | .relation clause => builder.addRelation block clause
  | .order clause => .ok (builder.addOrder block clause)

def addBlock (block : Block) (builder : Builder) (clauses : List Clause) :
    Except BuildError Builder :=
  clauses.foldlM (addClause block) builder

def endpoint (builder : Builder) (name : String) : Endpoint :=
  match builder.pattern.varId? name with
  | some var => .bound var
  | none => .unbound name

def resolve (builder : Builder) : RelationClause × Block → Except PatternError RelationConstraint
  | (clause, block) =>
    clause.resolve block (builder.endpoint clause.head) (builder.endpoint clause.dep)

def finish (builder : Builder) : Except BuildError IndexedPattern :=
  match builder.relations.mapM builder.resolve with
  | .ok relations => .ok { builder.pattern with relations }
  | .error error => .error (.refused error)

end Builder

def Request.compileIndexed (request : Request) : Except BuildError IndexedPattern := do
  let builder ← Builder.addBlock .pattern {} request.pattern
  let builder ← request.withouts.foldlM (Builder.addBlock .without) builder
  builder.finish

end Treebank
