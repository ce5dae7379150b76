import Treebank.Text.Blank
import Treebank.Text.Pieces

/-! The lines of a document.

A line ends at a newline, or where the document ends if anything stands there;
carriage returns at its end are no part of it. A line of bytes may be no text, and a
stream of bytes may fail in the middle of a line. -/
namespace Treebank.Text

/-- Why a line of a stream cannot be had. -/
inductive StreamFault where
  | notText
  | failed (message : String)
deriving DecidableEq

def StreamFault.message : StreamFault → String
  | notText => "stream did not contain valid UTF-8"
  | failed message => message

abbrev Line := Except StreamFault (List Char)

/-- The parts of a sequence that end at `mark`, and what is left after the last one unless that is
nothing. -/
def terminated {α : Type} [DecidableEq α] (mark : α) : List α → List (List α)
  | [] => []
  | a :: rest =>
    if a = mark then [] :: terminated mark rest
    else
      match terminated mark rest with
      | [] => [[a]]
      | part :: parts => (a :: part) :: parts

def dropReturns (line : List Char) : List Char := dropEndWhile (· = '\r') line

/-- The lines of a text. -/
def textLines (text : List Char) : List Line :=
  (terminated '\n' text).map fun line => .ok (dropReturns line)

/-- The text that bytes encode. -/
def decode (bytes : List UInt8) : Option (List Char) :=
  (String.fromUTF8? ⟨bytes.toArray⟩).map String.toList

/-- A line of bytes as text. -/
def decodeLine (bytes : List UInt8) : Line :=
  match decode bytes with
  | some line => .ok (dropReturns line)
  | none => .error .notText

/-- The lines of a document given as bytes. -/
def byteLines (bytes : List UInt8) : List Line := (terminated 0x0A bytes).map decodeLine

/-- The bytes that can be had from a file, and why there are no more of them if it is not that the
file ends there. -/
structure ByteStream where
  bytes : List UInt8
  fault? : Option String := none
deriving DecidableEq

/-- The bytes up to the last newline. -/
def wholeLines (bytes : List UInt8) : List UInt8 :=
  (bytes.reverse.dropWhile (· ≠ 0x0A)).reverse

/-- The lines of a stream. Of a line in the middle of which the stream fails there is nothing. -/
def ByteStream.lines (stream : ByteStream) : List Line :=
  match stream.fault? with
  | none => byteLines stream.bytes
  | some message => byteLines (wholeLines stream.bytes) ++ [.error (.failed message)]

end Treebank.Text
