import Treebank.Proofs.PatternMeaning

/-! What a request asks for.

The clauses of a request are read directly, each for itself, as statements about the words
that its names stand for. `Request.Holds` is all of them together; it knows which names
are variables (`Request.IsVariable`) and nothing else of the other clauses. -/
namespace Treebank

/-! ### Clauses -/

/-- The token has a value for the attribute, one of those given if any are; negated, it has none if
no values are given, and otherwise one that is not among them. -/
def Attribute.Meets (key : Attribute) (values : List String) (negated : Bool) (columns : Columns) :
    Prop :=
  if negated then
    if values = [] then key.value? columns = none
    else ∃ value, key.value? columns = some value ∧ value ∉ values
  else ∃ value, key.value? columns = some value ∧ (values = [] ∨ value ∈ values)

def Condition.Holds (condition : Condition) (negated : Bool) (columns : Columns) : Prop :=
  (Attribute.ofName condition.feature).Meets condition.values negated columns

def NodeClause.Holds (clause : NodeClause) (block : Block) (s : Sentence) (f : String → Nat) :
    Prop :=
  ∀ condition ∈ clause.conditions,
    condition.Holds (block.negates condition.negated) (s.wordAt (f clause.name)).toColumns

/-- The order of two ids. After the greatest number comes 0 again. -/
def OrderOp.Holds (left right : Nat) : OrderOp → Prop
  | before => left < right
  | justBefore => wrappedSum left 1 = right
  | after => right < left
  | justAfter => wrappedSum right 1 = left

def OrderClause.Holds (clause : OrderClause) (block : Block) (s : Sentence) (f : String → Nat) :
    Prop :=
  clause.op.Holds (s.wordAt (f clause.left)).id (s.wordAt (f clause.right)).id ↔ block = .pattern

/-- Between two variables the relation is there or not. A relation to a name that is no variable
asks that there be no dependent like that, one from such a name that there be no head. -/
def RelationClause.Holds (clause : RelationClause) (isVar : String → Prop) (block : Block)
    (s : Sentence) (f : String → Nat) : Prop :=
  (isVar clause.head → isVar clause.dep →
    (s.Hangs (f clause.head) (f clause.dep) clause.labels ↔
      block.negates clause.negated = false)) ∧
  (isVar clause.head → ¬ isVar clause.dep →
    ¬ s.HasDependent (f clause.head) clause.labels) ∧
  (¬ isVar clause.head → isVar clause.dep → ¬ s.HasHead (f clause.dep) clause.labels)

def Clause.Holds (isVar : String → Prop) (block : Block) (s : Sentence) (f : String → Nat) :
    Clause → Prop
  | node clause => clause.Holds block s f
  | relation clause => clause.Holds isVar block s f
  | order clause => clause.Holds block s f

/-! ### Variables -/

/-- The names that are variables because of the clause. -/
def Clause.names (block : Block) : Clause → List String
  | node clause => [clause.name]
  | relation clause => if block = .pattern then [clause.head, clause.dep] else []
  | order clause => [clause.left, clause.right]

def namesOf (clauses : List (Block × Clause)) : List String :=
  clauses.flatMap fun entry => entry.2.names entry.1

/-- The clause is a relation of the pattern block and the first of the clauses to name its
dependent. -/
def Introduces (clauses : List (Block × Clause)) (clause : RelationClause) : Prop :=
  ∃ earlier later, clauses = earlier ++ (.pattern, .relation clause) :: later ∧
    clause.dep ∉ namesOf earlier ∧ clause.dep ≠ clause.head

/-! ### Requests -/

namespace Request

/-- The clauses of all blocks in their order, each with the block in which it stands. -/
def clauses (request : Request) : List (Block × Clause) :=
  request.pattern.map (Block.pattern, ·) ++ request.withouts.flatten.map (Block.without, ·)

def IsVariable (request : Request) (name : String) : Prop := name ∈ namesOf request.clauses

/-- All clauses, read directly, hold of the nodes that the names stand for. -/
def Holds (request : Request) (s : Sentence) (f : String → Nat) : Prop :=
  ∀ entry ∈ request.clauses, entry.2.Holds request.IsVariable entry.1 s f

end Request
end Treebank
