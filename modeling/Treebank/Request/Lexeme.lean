/-! The lexemes of a request.

Blanks and comments, which run from a percent sign to the end of the line, may
stand before any lexeme and in none: `lexeme` passes over them, and every reader
below it takes characters that follow each other. A reader fails by `none` and
otherwise gives what it read and the text after it. -/
namespace Treebank

/-- A reader of an `α` at the start of a text. -/
abbrev Reads (α : Type) := StateT (List Char) Option α

namespace Request

def isLayout (c : Char) : Bool := c == ' ' || c == '\t' || c == '\r' || c == '\n'

def isLineEnd (c : Char) : Bool := c == '\r' || c == '\n'

/-- The text after its leading blanks and comments, read from inside a comment or from outside. -/
def skipFrom : Bool → List Char → List Char
  | _, [] => []
  | true, c :: cs => skipFrom (!isLineEnd c) cs
  | false, c :: cs =>
    if isLayout c then skipFrom false cs
    else if c = '%' then skipFrom true cs
    else c :: cs

def skip (text : List Char) : List Char := skipFrom false text

def lexeme {α : Type} (reads : Reads α) : Reads α := fun text => reads (skip text)

/-- The given characters. -/
def exactly (symbol : String) : Reads Unit := fun text =>
  (symbol.toList.isPrefixOf? text).map fun rest => ((), rest)

def symbol (text : String) : Reads Unit := lexeme (exactly text)

/-- The longest run of characters with a property, which must not be empty. -/
def run (p : Char → Bool) : Reads (List Char) := fun text =>
  match text.takeWhile p with
  | [] => none
  | taken => some (taken, text.dropWhile p)

/-- The longest run of characters with a property, which may be empty. -/
def runOrNothing (p : Char → Bool) : Reads (List Char) := fun text =>
  some (text.takeWhile p, text.dropWhile p)

/-- One character with a property. -/
def one (p : Char → Bool) : Reads Char
  | c :: rest => if p c then some (c, rest) else none
  | [] => none

/-- What is read if it can be read, and nothing if not. -/
def optional {α : Type} (reads : Reads α) : Reads (Option α) := fun text =>
  match reads text with
  | some (a, rest) => some (some a, rest)
  | none => some (none, text)

/-- As many as can be read one after the other, at most `count`. -/
def atMost {α : Type} (reads : Reads α) : Nat → Reads (List α)
  | 0, text => some ([], text)
  | count + 1, text =>
    match reads text with
    | none => some ([], text)
    | some (a, rest) => (atMost reads count rest).map fun (as, rest) => (a :: as, rest)

/-- As many as can be read one after the other. Each takes one character at least, which bounds
their number. -/
def many {α : Type} (reads : Reads α) : Reads (List α) := fun text =>
  atMost reads text.length text

/-- One or more with a separator between them. -/
def separated {α : Type} (separator : String) (reads : Reads α) : Reads (List α) := do
  let first ← reads
  let others ← many do symbol separator; reads
  return first :: others

/-! ### Names and values -/

def isNameStart (c : Char) : Bool := c.isAlpha || c == '_'

def isNameChar (c : Char) : Bool := c.isAlphanum || c == '_'

/-- The name of a variable or of a relation. -/
def ident : Reads String := lexeme do
  let first ← one isNameStart
  return String.ofList (first :: (← runOrNothing isNameChar))

/-- The layer of a feature name, in brackets. -/
def layer : Reads (List Char) := do
  exactly "["
  let name ← run isNameChar
  exactly "]"
  return '[' :: name ++ [']']

def featureName : Reads String := lexeme do
  let first ← one Char.isAlpha
  let rest ← runOrNothing fun c => isNameChar c || c == ':'
  return String.ofList (first :: rest ++ ((← optional layer).getD []))

def isLabelChar (c : Char) : Bool := isNameChar c || c == ':' || c == '@' || c == '.'

def label : Reads String := lexeme do return String.ofList (← run isLabelChar)

/-- Ends a value that is not quoted. -/
def isValueStop (c : Char) : Bool :=
  isLayout c || c == '|' || c == ',' || c == ']' || c == '"' || c == ';' || c == '}'

/-- The text up to the closing quote. A backslash gives the character after it. -/
def quotedRest : Reads (List Char)
  | '"' :: rest => some ([], rest)
  | '\\' :: c :: rest => (quotedRest rest).map fun (text, rest) => (c :: text, rest)
  | c :: rest => (quotedRest rest).map fun (text, rest) => (c :: text, rest)
  | [] => none

/-- A value in quotes. -/
def quoted : Reads (List Char) := do
  exactly "\""
  quotedRest

def value : Reads String := lexeme do
  return String.ofList (← quoted <|> run fun c => !isValueStop c)

end Request
end Treebank
