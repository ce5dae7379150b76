import Treebank.Request.Basic
import Treebank.Request.Lexeme

/-! Reading a request.

Where several forms are possible the first that can be read counts: a clause is a
relation, an order or a node, and a condition compares, asks for absence or asks
for presence. Clauses need no separator, but semicolons may stand among them. -/
namespace Treebank.Request

/-! ### Nodes -/

/-- Whether a comparison is by inequality. -/
def comparison : Reads Bool :=
  (do symbol "<>"; return true) <|> (do symbol "="; return false)

def comparing : Reads Condition := do
  let feature ← featureName
  let negated ← comparison
  return .oneOf feature (← separated "|" value) negated

def absent : Reads Condition := do
  symbol "!"
  return .present (← featureName) true

def condition : Reads Condition :=
  comparing <|> absent <|> do return .present (← featureName) false

def node : Reads NodeClause := do
  let name ← ident
  symbol "["
  let conditions ← optional (separated "," condition)
  symbol "]"
  return { name, conditions := conditions.getD [] }

/-! ### Relations -/

/-- The labels of an arrow, and whether they are excluded. -/
def labelledArrow : Reads (List String × Bool) := do
  symbol "-["
  let negation ← optional (symbol "^")
  let labels ← separated "|" label
  symbol "]->"
  return (labels, negation.isSome)

def arrow : Reads (List String × Bool) :=
  labelledArrow <|> do symbol "->"; return ([], false)

def relationName : Reads String := do
  let name ← ident
  symbol ":"
  return name

def relation : Reads RelationClause := do
  let name? ← optional relationName
  let head ← ident
  let (labels, negated) ← arrow
  return { name?, head, dep := ← ident, labels, negated }

/-! ### Orders -/

def orderOp : Reads OrderOp :=
  (do symbol "<<"; return .before) <|> (do symbol ">>"; return .after) <|>
    (do symbol "<"; return .justBefore) <|> (do symbol ">"; return .justAfter)

def order : Reads OrderClause := do
  return { left := ← ident, op := ← orderOp, right := ← ident }

/-! ### Blocks -/

def clause : Reads Clause :=
  (do return .relation (← relation)) <|> (do return .order (← order)) <|>
    (do return .node (← node))

/-- A clause, or a semicolon, which is none. -/
def clauseOrSeparator : Reads (Option Clause) :=
  (do return some (← clause)) <|> (do symbol ";"; return none)

def block (keyword : String) : Reads (List Clause) := do
  symbol keyword
  symbol "\x7b"
  let clauses ← many clauseOrSeparator
  symbol "\x7d"
  return clauses.filterMap id

def request : Reads Request := do
  return { pattern := ← block "pattern", withouts := ← many (block "without") }

/-- The request that the text spells, all of it. -/
def read (text : List Char) : Option Request :=
  match request text with
  | some (request, rest) => if skip rest = [] then some request else none
  | none => none

end Treebank.Request
