import Treebank.Format.Block
import Treebank.Text.Line

/-! Reading sentences from lines.

A sentence is a run of lines that are not blank. `Reader.next?` reads one; a faulty
token line spoils its sentence, whose other lines are passed over, and reading goes
on with the next one. A line that cannot be had ends the document. -/
namespace Treebank
open Text

/-- Why there is no sentence. -/
inductive ReadFault where
  | line (fault : LineFault)
  | stream (fault : StreamFault)
  | noSentence
deriving DecidableEq

structure ReadError where
  line : Nat
  fault : ReadFault
deriving DecidableEq

def ReadFault.message : ReadFault → String
  | line fault => fault.message
  | stream fault => s!"IO error: {fault.message}"
  | noSentence => "no sentence found"

def ReadError.message (error : ReadError) : String :=
  s!"Parse error at line {error.line}: {error.fault.message}"

/-- The sentence with one more line of its block. -/
def Sentence.addLine (s : Sentence) (number : Nat) (line : List Char) :
    Except ReadError Sentence :=
  match line with
  | '#' :: comment => .ok { s with metadata := s.metadata.addComment comment }
  | _ =>
    match Token.read line with
    | .ok token => .ok (s.push token)
    | .error fault => .error { line := number, fault := .line fault }

/-- The lines not read yet and the number of those that were. -/
structure Reader where
  rest : List Line
  number : Nat := 0

namespace Reader

def isBlankLine (line : List Char) : Bool := line.all isBlank

/-- Reads to the end of the sentence of which `draft` holds the lines so far: nothing yet, a
sentence, or the first error. -/
def finish (draft : Option (Except ReadError Sentence)) (number : Nat) :
    List Line → Option (Except ReadError Sentence × Reader)
  | [] => draft.map fun item => (item, { rest := [], number })
  | .error fault :: _ =>
    some (.error { line := number + 1, fault := .stream fault }, { rest := [], number })
  | .ok line :: rest =>
    if isBlankLine line then
      match draft with
      | some item => some (item, { rest, number := number + 1 })
      | none => finish none (number + 1) rest
    else
      let item := do (← draft.getD (.ok {})).addLine (number + 1) line
      finish (some item) (number + 1) rest

/-- The next sentence, or the error in its place, and the reader after it. -/
def next? (reader : Reader) : Option (Except ReadError Sentence × Reader) :=
  finish none reader.number reader.rest

theorem length_of_finish {draft : Option (Except ReadError Sentence)} {number : Nat}
    {lines : List Line} {item : Except ReadError Sentence} {after : Reader}
    (h : finish draft number lines = some (item, after)) :
    after.rest.length < lines.length ∨ lines = [] ∧ draft.isSome := by
  fun_induction finish draft number lines with
  | case1 draft number =>
    obtain ⟨i, hi, -⟩ := Option.map_eq_some_iff.1 h
    simp [hi]
  | case2 draft number tail => cases h; simp
  | case3 number line rest blank item' => cases h; simp
  | case4 number line rest blank ih =>
    rcases ih h with lt | ⟨-, no⟩
    · simp only [List.length_cons]; omega
    · simp at no
  | case5 draft number line rest blank item' ih =>
    rcases ih h with lt | ⟨rfl, -⟩
    · simp only [List.length_cons]; omega
    · simp [finish] at h; simp [← h.2]

theorem length_of_next? {reader after : Reader} {item : Except ReadError Sentence}
    (h : reader.next? = some (item, after)) : after.rest.length < reader.rest.length := by
  rcases length_of_finish h with lt | ⟨-, no⟩
  · exact lt
  · simp at no

/-- All sentences and errors, in the order of the document. -/
def items (reader : Reader) : List (Except ReadError Sentence) :=
  match h : reader.next? with
  | none => []
  | some (item, after) =>
    have := length_of_next? h
    item :: after.items
termination_by reader.rest.length

end Reader

/-- The sentences and errors of a document given as text. -/
def readText (text : List Char) : List (Except ReadError Sentence) :=
  Reader.items { rest := textLines text }

/-- The sentences and errors of a document given as bytes. -/
def readBytes (bytes : List UInt8) : List (Except ReadError Sentence) :=
  Reader.items { rest := byteLines bytes }

/-- The first sentence of a text. -/
def Sentence.read (text : List Char) : Except ReadError Sentence :=
  match Reader.next? { rest := textLines text } with
  | some (item, _) => item
  | none => .error { line := 0, fault := .noSentence }

end Treebank
