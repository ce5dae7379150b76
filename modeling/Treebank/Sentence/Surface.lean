import Treebank.Sentence.Basic
import Treebank.Text.Blank

/-! The running text of a sentence.

A range stands for the words that it covers, and every form is followed by its
own white space. -/
namespace Treebank.Sentence

/-- The text of words of which those up to the id `covered` are part of a range. -/
def surfaceFrom (s : Sentence) : Nat → List Word → List Char
  | _, [] => []
  | covered, word :: rest =>
    match s.multiwords.get? word.id with
    | some range =>
      range.form.toList ++ range.spacesAfter ++ s.surfaceFrom range.last rest
    | none =>
      if covered < word.id then
        word.form.toList ++ word.spacesAfter ++ s.surfaceFrom covered rest
      else s.surfaceFrom covered rest

def surfaceText (s : Sentence) : String :=
  String.ofList (Text.trimEnd (s.surfaceFrom 0 s.words))

end Treebank.Sentence
