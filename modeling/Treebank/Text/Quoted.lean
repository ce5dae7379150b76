import Treebank.Text.Visible

/-! Names in quotes, with escapes.

A double quote and a backslash get a backslash before them; a tab, a line feed, a
carriage return and a zero have a letter of their own, and other characters that
cannot be seen are written by their hexadecimal number. -/
namespace Treebank.Text

def escape (c : Char) : List Char :=
  match c with
  | '\x22' | '\x5c' => ['\\', c]
  | '\t' => ['\\', 't']
  | '\n' => ['\\', 'n']
  | '\r' => ['\\', 'r']
  | '\x00' => ['\\', '0']
  | _ =>
    if isVisible c then [c] else ['\\', 'u', '\x7b'] ++ Nat.toDigits 16 c.toNat ++ ['\x7d']

def quote (text : String) : String :=
  String.ofList ('"' :: text.toList.flatMap escape ++ ['"'])

end Treebank.Text
