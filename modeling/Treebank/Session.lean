import Treebank.Format.Reader
import Treebank.Sentence.Build
import Treebank.Sentence.Renumber

/-! Working on a sentence.

A session opens a sentence, which is read or put together from tokens, and changes it
step by step. A build is a step like the others, and one that fails is gone on from.
Where a sum that is no number ends the program, a session goes no further than the
numbering that meets it (`Sentence.step?`). `Reachable` are the sentences of the
sessions that keep to some steps. -/
namespace Treebank

inductive Step where
  | push (token : Token)
  | build
  | renumber (first : Nat)
  | annotate (metadata : Metadata)
  | change (id : Nat) (f : Columns → Columns)

/-- The sentence after a step. A change to a word that is not there changes nothing. -/
def Sentence.step (s : Sentence) : Step → Sentence
  | .push token => s.push token
  | .build => s.afterBuild
  | .renumber first => s.renumber first
  | .annotate metadata => { s with metadata }
  | .change id f => (s.change? id f).getD s

/-- The sentence after a step that does not end the program. -/
def Sentence.step? (s : Sentence) (step : Step) (overflow : Overflow) : Option Sentence :=
  match step with
  | .renumber first => s.renumber? first overflow
  | step => some (s.step step)

/-- The sentences of all sessions with no steps but those allowed. -/
inductive Reachable (allowed : Step → Prop) : Sentence → Prop where
  | read {text s} : Sentence.read text = .ok s → Reachable allowed s
  | ofTokens {tokens} : (∀ token ∈ tokens, allowed (.push token)) →
      Reachable allowed (.ofTokens tokens)
  | step {s step} : Reachable allowed s → allowed step → Reachable allowed (s.step step)

/-- No dependency is linked to a token. -/
def Columns.IsUnlinked (columns : Columns) : Prop := ∀ dep ∈ columns.deps, dep.headword = none

/-- A token that is pushed comes without links. -/
def Step.IsFresh : Step → Prop
  | .push token => token.toColumns.IsUnlinked
  | _ => True

end Treebank
