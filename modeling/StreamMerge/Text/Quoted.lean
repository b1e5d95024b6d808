import StreamMerge.Text.Unprintable
import StreamMerge.Text.Combining

/-!
# Quoted text

How a text is shown inside a diagnostic: between quotation marks, on one line, with every character that
could not be seen or would disturb the reader written as an escape.
-/
namespace StreamMerge.Text

/-- The escape of a code point: its lower-case hexadecimal number in braces. -/
def codeEscape (c : Char) : List Char :=
  ['\\', 'u', '\x7b'] ++ Nat.toDigits 16 c.toNat ++ ['\x7d']

/-- One character of a quoted text. The quotation mark, the backslash and the four common control characters
have short escapes; other unprintable characters and combining ones are written by number. -/
def quotedChar (c : Char) : List Char :=
  match c with
  | '\x00' => ['\\', '0']
  | '\t' => ['\\', 't']
  | '\r' => ['\\', 'r']
  | '\n' => ['\\', 'n']
  | '"' => ['\\', '"']
  | '\\' => ['\\', '\\']
  | c => if isCombining c || isUnprintable c then codeEscape c else [c]

/-- The quoted form of `s`. -/
def quoted (s : String) : String :=
  String.ofList ('"' :: s.toList.flatMap quotedChar ++ ['"'])

/-- A list of shown values: in brackets, divided by a comma and a space. -/
def bracketed (items : List String) : String :=
  "[" ++ String.intercalate ", " items ++ "]"

end StreamMerge.Text
