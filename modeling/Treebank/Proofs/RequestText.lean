import Treebank.Request.Reader

/-! How a request is spelled.

A request is spelled by its lexemes with gaps between them: blanks and comments, or nothing.
Values stand in quotes. Clauses may have semicolons around them, and one clause follows
another after a blank or a semicolon at least (`Spells`). `Request.IsValid` are the requests
that can be spelled. -/
namespace Treebank.Request

/-! ### Gaps -/

/-- Blanks, and comments with the ends of their lines. -/
inductive Gap : List Char → Prop
  | nil : Gap []
  | blank {c rest} : isLayout c = true → Gap rest → Gap (c :: rest)
  | comment {text c rest} : (∀ d ∈ text, isLineEnd d = false) → isLineEnd c = true → Gap rest →
      Gap ('%' :: (text ++ c :: rest))

/-- The text is the lexemes, with a gap before each, and then the rest. -/
inductive Laid (rest : List Char) : List (List Char) → List Char → Prop
  | nil : Laid rest [] rest
  | cons {gap lexeme lexemes text} : Gap gap → Laid rest lexemes text →
      Laid rest (lexeme :: lexemes) (gap ++ (lexeme ++ text))

/-! ### Lexemes -/

/-- A character of a value, with a backslash if it would end the value or be taken for one. -/
def escape (c : Char) : List Char := if c = '"' ∨ c = '\\' then ['\\', c] else [c]

/-- A value in quotes. -/
def quote (value : String) : List Char := '"' :: (value.toList.flatMap escape ++ ['"'])

/-- The lexemes of several parts with a mark between one part and the next. -/
def joined (mark : Char) (parts : List (List (List Char))) : List (List Char) :=
  List.intercalate [[mark]] parts

def conditionLexemes : Condition → List (List Char)
  | .present feature false => [feature.toList]
  | .present feature true => [['!'], feature.toList]
  | .oneOf feature values negated =>
    feature.toList :: (if negated then ['<', '>'] else ['=']) ::
      joined '|' (values.map fun value => [quote value])

def nodeLexemes (clause : NodeClause) : List (List Char) :=
  clause.name.toList :: ['['] :: (joined ',' (clause.conditions.map conditionLexemes) ++ [[']']])

/-- An arrow without labels, or with the labels in it and a mark if they are excluded. -/
def arrowLexemes (labels : List String) (negated : Bool) : List (List Char) :=
  if labels = [] then [['-', '>']]
  else
    ['-', '['] :: ((if negated then [['^']] else []) ++
      (joined '|' (labels.map fun label => [label.toList]) ++ [[']', '-', '>']]))

def nameLexemes : Option String → List (List Char)
  | some name => [name.toList, [':']]
  | none => []

def relationLexemes (clause : RelationClause) : List (List Char) :=
  nameLexemes clause.name? ++ (clause.head.toList :: (arrowLexemes clause.labels clause.negated ++
    [clause.dep.toList]))

def orderLexemes (clause : OrderClause) : List (List Char) :=
  [clause.left.toList, clause.op.symbol.toList, clause.right.toList]

def clauseLexemes : Clause → List (List Char)
  | .node clause => nodeLexemes clause
  | .relation clause => relationLexemes clause
  | .order clause => orderLexemes clause

/-! ### Blocks -/

/-- What may come right after a clause that another one follows. -/
def endsClause (c : Char) : Bool := isLayout c || c == '%' || c == ';'

/-- The text is clauses, with semicolons among them, and then the rest. -/
inductive SpellsClauses (rest : List Char) : List Clause → List Char → Prop
  | nil : SpellsClauses rest [] rest
  | semicolon {gap clauses text} : Gap gap → SpellsClauses rest clauses text →
      SpellsClauses rest clauses (gap ++ ';' :: text)
  | clause {clause clauses text whole} : Laid text (clauseLexemes clause) whole →
      (clauses ≠ [] → ∀ c ∈ text.head?, endsClause c = true) → SpellsClauses rest clauses text →
      SpellsClauses rest (clause :: clauses) whole

/-- The text is a block of clauses and then the rest. -/
inductive SpellsBlock (keyword : String) (rest : List Char) (clauses : List Clause) :
    List Char → Prop
  | mk {text body close} : Laid body [keyword.toList, ['\x7b']] text →
      SpellsClauses close clauses body → Laid rest [['\x7d']] close →
      SpellsBlock keyword rest clauses text

/-- The text is a `without` block for each list of clauses, and then the rest. -/
inductive SpellsWithouts (rest : List Char) : List (List Clause) → List Char → Prop
  | nil : SpellsWithouts rest [] rest
  | cons {clauses withouts text whole} : SpellsBlock "without" text clauses whole →
      SpellsWithouts rest withouts text → SpellsWithouts rest (clauses :: withouts) whole

/-- The text spells the request. -/
inductive Spells (request : Request) : List Char → Prop
  | mk {text withouts gap} : SpellsBlock "pattern" withouts request.pattern text →
      SpellsWithouts gap request.withouts withouts → Gap gap → Spells request text

/-! ### Requests that can be spelled -/

/-- The name of a variable or a relation: a letter or an underscore, and then digits as well. -/
def IsName (name : String) : Prop :=
  ∃ c rest, name.toList = c :: rest ∧ isNameStart c = true ∧ ∀ d ∈ rest, isNameChar d = true

/-- What a feature name holds after its first letter and before its layer. -/
def isFeatureChar (c : Char) : Bool := isNameChar c || c == ':'

/-- Nothing, or a name in brackets that may begin with a digit. -/
def IsLayer (layer : List Char) : Prop :=
  layer = [] ∨ ∃ name, layer = '[' :: (name ++ [']']) ∧ name ≠ [] ∧ ∀ c ∈ name, isNameChar c = true

def IsFeatureName (feature : String) : Prop :=
  ∃ c rest layer, feature.toList = c :: (rest ++ layer) ∧ c.isAlpha = true ∧
    (∀ d ∈ rest, isFeatureChar d = true) ∧ IsLayer layer

def IsLabel (label : String) : Prop :=
  label.toList ≠ [] ∧ ∀ c ∈ label.toList, isLabelChar c = true

/-- The values of a comparison can be any, but there must be one. -/
inductive IsCondition : Condition → Prop
  | present {feature negated} : IsFeatureName feature → IsCondition (.present feature negated)
  | oneOf {feature values negated} : IsFeatureName feature → values ≠ [] →
      IsCondition (.oneOf feature values negated)

/-- Labels can be excluded only if there are any. -/
structure IsRelation (clause : RelationClause) : Prop where
  name : ∀ name ∈ clause.name?, IsName name
  head : IsName clause.head
  dep : IsName clause.dep
  labels : ∀ label ∈ clause.labels, IsLabel label
  negated : clause.labels = [] → clause.negated = false

inductive IsClause : Clause → Prop
  | node {clause : NodeClause} : IsName clause.name →
      (∀ condition ∈ clause.conditions, IsCondition condition) → IsClause (.node clause)
  | relation {clause : RelationClause} : IsRelation clause → IsClause (.relation clause)
  | order {clause : OrderClause} : IsName clause.left → IsName clause.right →
      IsClause (.order clause)

structure IsValid (request : Request) : Prop where
  pattern : ∀ clause ∈ request.pattern, IsClause clause
  withouts : ∀ block ∈ request.withouts, ∀ clause ∈ block, IsClause clause

end Treebank.Request
