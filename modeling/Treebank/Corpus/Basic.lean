import Treebank.Corpus.Files
import Treebank.Format.Reader
import Treebank.Search
import Treebank.Sentence.Build
import Treebank.Text.Quoted

/-! Corpora.

A corpus is a list of documents. Its sentences are those that can be read and
built, in the order of the documents; everything else is passed over with a
warning, and nothing that is passed over keeps the rest from being read. -/
namespace Treebank

/-! ### Documents -/

/-- A document, with its lines or why it cannot be opened. -/
structure Document where
  name : String
  content : Except String (List Text.Line)

/-- The document at a path. -/
def Files.document (files : Files) (path : String) : Document where
  name := path
  content := (files.open? path).map (·.lines)

inductive Warning where
  | unopened (name : String) (message : String)
  | unread (document : String) (error : ReadError)
  | unbuilt (document : String) (sentId : Option String) (error : TreeError)
deriving DecidableEq

def Warning.message : Warning → String
  | unopened name message => s!"Failed to open {Text.quote name}: {message}"
  | unread document error => s!"{document}: {error.message}"
  | unbuilt document sentId error =>
    let name := sentId.getD "<unnamed>"
    s!"{document}: skipping sentence {name}: {error.message}"

namespace Document

/-- What becomes of one item of a document. -/
def outcome (document : Document) : Except ReadError Sentence → Except Warning Sentence
  | .error error => .error (.unread document.name error)
  | .ok sentence =>
    match sentence.build with
    | .ok built => .ok built
    | .error error => .error (.unbuilt document.name sentence.metadata.sentId error)

/-- The sentences and warnings of a document. -/
def outcomes (document : Document) : List (Except Warning Sentence) :=
  match document.content with
  | .error message => [.error (.unopened document.name message)]
  | .ok lines => (Reader.items { rest := lines }).map document.outcome

end Document

/-! ### Corpora -/

structure Corpus where
  documents : List Document

namespace Corpus

def ofText (text : List Char) : Corpus :=
  ⟨[{ name := "<string>", content := .ok (Text.textLines text) }]⟩

/-- The documents at paths. -/
def ofPaths (files : Files) (paths : List String) : Corpus :=
  ⟨paths.map files.document⟩

/-- The documents at the paths that match a pattern, unless the pattern is refused. -/
def ofGlob? (files : Files) (pattern : String) : Except String Corpus :=
  (files.select pattern).map (ofPaths files)

def outcomes (corpus : Corpus) : List (Except Warning Sentence) :=
  corpus.documents.flatMap (·.outcomes)

def sentences (corpus : Corpus) : List Sentence := corpus.outcomes.filterMap (·.toOption)

def warnings (corpus : Corpus) : List Warning :=
  corpus.outcomes.filterMap fun
    | .ok _ => none
    | .error warning => some warning

/-- The matches of a pattern, each with its sentence. -/
def matches? (corpus : Corpus) (pattern : Pattern) (overflow : Overflow := .wraps) :
    Option (List (Sentence × Match)) := do
  let found ← corpus.sentences.mapM fun sentence => do
    return (← sentence.search? pattern overflow).map fun found => (sentence, found)
  return found.flatten

end Corpus
end Treebank
