import Treebank.Pattern.Basic
import Treebank.Request.Reader

/-! Compiling a request to a pattern.

The clauses of all blocks are taken in order. The first mention of a variable
creates it; the relations of a `without` block create none, so their ends may name
what is no variable. Which names are variables is known only at the end, and
relations are resolved then. In a `without` block a clause counts the other way
round. -/
namespace Treebank

inductive PatternError where
  /-- A relation with one end that is no variable would exclude every label. -/
  | invalidNegatedRelation (head dep : String)
  | unboundNode (head dep node : String)
  | inconsistentNode (node : String) (key : Attribute)
deriving DecidableEq

def PatternError.message : PatternError → String
  | invalidNegatedRelation head dep =>
    s!"Pattern error: relation {head} -> {dep} is negated and has an end that is not a " ++
      "pattern node, but no label is given"
  | unboundNode head dep node =>
    s!"Pattern error: relation {head} -> {dep} refers to {node}, which is not a pattern node"
  | inconsistentNode node key =>
    s!"Pattern error: inconsistent node {node}: {key.name} is constrained more than once"

/-- The kind of block that a clause stands in. -/
inductive Block where
  | pattern
  | without
deriving DecidableEq

namespace Block

/-- Whether a clause is negated in effect. -/
def negates (block : Block) (negated : Bool) : Bool := (block == .without) != negated

end Block

/-- A pattern whose relations are not resolved yet. -/
structure Draft where
  nodes : List NodeConstraint := []
  orders : List OrderConstraint := []
  relations : List (RelationClause × Block) := []
deriving DecidableEq

namespace Draft

def names (draft : Draft) : List String := draft.nodes.map (·.name)

/-- The name becomes a variable unless it is one. -/
def declare (draft : Draft) (name : String) : Draft :=
  if name ∈ draft.names then draft else { draft with nodes := draft.nodes ++ [{ name }] }

def var (draft : Draft) (name : String) : Nat := draft.names.idxOf name

def modify (draft : Draft) (name : String) (f : NodeConstraint → NodeConstraint) : Draft :=
  { draft with nodes := draft.nodes.modify (draft.var name) f }

end Draft

/-- The constraint with one more condition, which negation puts on the other side. -/
def NodeConstraint.constrain (node : NodeConstraint) (negated : Bool) (key : Attribute)
    (values : List String) : NodeConstraint :=
  if negated then { node with mustNot := node.mustNot.insert key values }
  else { node with must := node.must.insert key values }

namespace Draft

/-- One condition on a variable; an attribute can be constrained only once. -/
def addCondition (block : Block) (name : String) (draft : Draft) (condition : Condition) :
    Except PatternError Draft :=
  let key := Attribute.ofName condition.feature
  if (draft.nodes[draft.var name]?).any (·.constrains key) then
    .error (.inconsistentNode name key)
  else
    .ok (draft.modify name (·.constrain (block.negates condition.negated) key condition.values))

def addNode (block : Block) (draft : Draft) (clause : NodeClause) : Except PatternError Draft :=
  clause.conditions.foldlM (addCondition block clause.name) (draft.declare clause.name)

/-- The ends of a relation in the pattern block are variables. If the clause is the first mention
of its dependent, its labels are a condition on it as well. -/
def declareEnds (draft : Draft) (clause : RelationClause) : Draft :=
  let draft := draft.declare clause.head
  if clause.dep ∈ draft.names then draft
  else
    let draft := draft.declare clause.dep
    if clause.labels.isEmpty then draft
    else draft.modify clause.dep (·.constrain clause.negated .deprel clause.labels)

def addRelation (block : Block) (draft : Draft) (clause : RelationClause) : Draft :=
  let draft := if block = .pattern then draft.declareEnds clause else draft
  { draft with relations := draft.relations ++ [(clause, block)] }

def addOrder (block : Block) (draft : Draft) (clause : OrderClause) : Draft :=
  let (earlier, later) := clause.normalized
  let draft := (draft.declare earlier).declare later
  let order : OrderConstraint :=
    { earlier := draft.var earlier
      later := draft.var later
      strict := clause.op.isStrict
      negated := block = .without }
  { draft with orders := draft.orders ++ [order] }

def addClause (block : Block) (draft : Draft) : Clause → Except PatternError Draft
  | .node clause => draft.addNode block clause
  | .relation clause => .ok (draft.addRelation block clause)
  | .order clause => .ok (draft.addOrder block clause)

def addBlock (block : Block) (draft : Draft) (clauses : List Clause) :
    Except PatternError Draft :=
  clauses.foldlM (addClause block) draft

/-! ### Resolving relations -/

def endpoint (draft : Draft) (name : String) : Endpoint :=
  if name ∈ draft.names then .bound (draft.var name) else .unbound name

/-- Only a negated relation can have an end that is no variable, one at most, and then needs a
label. -/
def resolve (draft : Draft) : RelationClause × Block → Except PatternError RelationConstraint
  | (clause, block) =>
    let relation : RelationConstraint :=
      { name? := clause.name?
        head := draft.endpoint clause.head
        dep := draft.endpoint clause.dep
        labels := clause.labels
        negated := block.negates clause.negated }
    let halfBound (unbound : String) : Except PatternError RelationConstraint :=
      if !relation.negated then .error (.unboundNode clause.head clause.dep unbound)
      else if clause.labels.isEmpty then
        .error (.invalidNegatedRelation clause.head clause.dep)
      else .ok relation
    match relation.head, relation.dep with
    | .bound _, .bound _ => .ok relation
    | .unbound _, .unbound _ => .error (.unboundNode clause.head clause.dep clause.head)
    | .unbound _, .bound _ => halfBound clause.head
    | .bound _, .unbound _ => halfBound clause.dep

def finish (draft : Draft) : Except PatternError Pattern := do
  return { nodes := draft.nodes, relations := ← draft.relations.mapM draft.resolve,
           orders := draft.orders }

end Draft

/-- The draft of all clauses of a request. -/
def Request.draft (request : Request) : Except PatternError Draft := do
  request.withouts.foldlM (Draft.addBlock .without) (← Draft.addBlock .pattern {} request.pattern)

def Request.compile (request : Request) : Except PatternError Pattern := do
  (← request.draft).finish

/-- Why a text is no query. -/
inductive QueryError where
  | malformed
  | pattern (error : PatternError)
deriving DecidableEq

/-- The pattern of a request given as text. -/
def compileQuery (text : List Char) : Except QueryError Pattern :=
  match Request.read text with
  | none => .error .malformed
  | some request =>
    match request.compile with
    | .ok pattern => .ok pattern
    | .error error => .error (.pattern error)

end Treebank
