import Treebank.Format.Line
import Treebank.Sentence.Basic
import Treebank.Text.Blank

/-! Sentences as blocks of lines.

A block is the comments of a sentence, its token lines and a blank line. A range
is written before its first word and empty nodes after their anchor, so those
whose word is not there are not written. -/
namespace Treebank
open Text

namespace Metadata

/-- Takes up a comment, given without the mark before it. -/
def addComment (metadata : Metadata) (comment : List Char) : Metadata :=
  let comment := trim comment
  let (key, value?) :=
    match splitFirst '=' comment with
    | some (key, value) => (trim key, some (String.ofList (trim value)))
    | none => (comment, none)
  match String.ofList key, value? with
  | "sent_id", some value => { metadata with sentId := value }
  | "text", some value => { metadata with text := value }
  | "newdoc", _ | "newdoc id", _ => { metadata with newdoc := value?.getD "" }
  | "newpar", _ | "newpar id", _ => { metadata with newpar := value?.getD "" }
  | _, _ => { metadata with comments := metadata.comments ++ [String.ofList comment] }

/-- The comment that starts a document or a paragraph, with the name if it has one. -/
def startComment (key : String) : Option String → List String
  | none => []
  | some "" => [key]
  | some name => [key ++ " id = " ++ name]

def write (metadata : Metadata) : List String :=
  startComment "newdoc" metadata.newdoc ++ startComment "newpar" metadata.newpar ++
    (metadata.sentId.map ("sent_id = " ++ ·)).toList ++
    (metadata.text.map ("text = " ++ ·)).toList ++ metadata.comments

end Metadata

namespace Sentence

/-- The tokens in the order of their lines. -/
def tokens (s : Sentence) : List Token :=
  (s.emptiesAt 0).map (·.token) ++ s.words.flatMap fun word =>
    ((s.multiwords.get? word.id).map (·.token)).toList ++
      word.token :: (s.emptiesAt word.id).map (·.token)

def writeLines (s : Sentence) : List (List Char) :=
  s.metadata.write.map (fun comment => '#' :: ' ' :: comment.toList) ++ s.tokens.map Token.write

/-- The block of the sentence: its lines and a blank one. -/
def write (s : Sentence) : List Char := (s.writeLines ++ [[]]).flatMap (· ++ ['\n'])

end Sentence
end Treebank
