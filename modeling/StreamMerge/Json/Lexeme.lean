import StreamMerge.Text.Utf8

/-!
# JSON: blanks, words and numbers

A JSON text is read byte by byte, and the first thing that is wrong decides the fault. Here are the faults and
the readers of the parts that do not nest: blanks, the words `null`, `true` and `false`, and the outer form of a
number, given by the machine `NumberPart.next`.
-/
namespace StreamMerge.Json

/-- What is wrong with a text that was to be read. -/
inductive Fault where
  /-- The text ended inside a value. -/
  | cutShort
  /-- A value is well-formed and not what was asked for. -/
  | mistyped
  /-- Anything else. -/
  | malformed
  deriving DecidableEq, Repr

/-- What a reader yields: a value and the bytes after it. -/
abbrev Read (α : Type) := Except Fault (α × Bytes)

/-- A space, a tab, a line feed or a carriage return. -/
def isBlank (b : UInt8) : Bool := b = 0x20 || b = 0x09 || b = 0x0a || b = 0x0d

/-- What follows the blanks in front. -/
def skipBlank (bs : Bytes) : Bytes := bs.dropWhile isBlank

/-- Reads exactly the bytes of `word`. -/
def readWord : (word : Bytes) → Bytes → Except Fault Bytes
  | [], bs => .ok bs
  | _ :: _, [] => .error .cutShort
  | w :: ws, b :: bs => if b = w then readWord ws bs else .error .malformed

/-! ## Numbers -/

/-- A decimal digit. -/
def isDigit (b : UInt8) : Bool := 0x30 ≤ b && b ≤ 0x39

/-- How far a number has been read. -/
inductive NumberPart where
  /-- After the minus sign. -/
  | sign
  /-- After a leading zero. -/
  | zero
  /-- Among the digits before the point. -/
  | whole
  /-- After the point. -/
  | point
  /-- Among the digits after the point. -/
  | fraction
  /-- After the letter of the exponent. -/
  | exponent
  /-- After the sign of the exponent. -/
  | exponentSign
  /-- Among the digits of the exponent. -/
  | exponentDigits
  deriving DecidableEq, Repr

/-- What the next byte means to a number. -/
inductive NumberStep where
  /-- It belongs to the number. -/
  | more (part : NumberPart)
  /-- The number ended before it. -/
  | stop
  /-- It must not stand here. -/
  | bad
  deriving DecidableEq, Repr

namespace NumberPart

/-- The part that a first byte begins, if it can begin a number. -/
def start? (b : UInt8) : Option NumberPart :=
  if b = 0x2d then some .sign
  else if b = 0x30 then some .zero
  else if isDigit b then some .whole
  else none

/-- A number may end here. -/
def isComplete : NumberPart → Bool
  | .zero | .whole | .fraction | .exponentDigits => true
  | _ => false

/-- The letter of an exponent. -/
def isExponent (b : UInt8) : Bool := b = 0x65 || b = 0x45

/-- What the byte `b` means here. -/
def next (part : NumberPart) (b : UInt8) : NumberStep :=
  match part with
  | .sign => if b = 0x30 then .more .zero else if isDigit b then .more .whole else .bad
  | .zero =>
    if isDigit b then .bad
    else if b = 0x2e then .more .point
    else if isExponent b then .more .exponent
    else .stop
  | .whole =>
    if isDigit b then .more .whole
    else if b = 0x2e then .more .point
    else if isExponent b then .more .exponent
    else .stop
  | .point => if isDigit b then .more .fraction else .bad
  | .fraction =>
    if isDigit b then .more .fraction else if isExponent b then .more .exponent else .stop
  | .exponent =>
    if b = 0x2b || b = 0x2d then .more .exponentSign
    else if isDigit b then .more .exponentDigits
    else .bad
  | .exponentSign => if isDigit b then .more .exponentDigits else .bad
  | .exponentDigits => if isDigit b then .more .exponentDigits else .stop

end NumberPart

/-- Reads on a number of which `part` has been read; yields the bytes read here. -/
def readNumber (part : NumberPart) : Bytes → Read Bytes
  | [] => if part.isComplete then .ok ([], []) else .error .cutShort
  | b :: bs =>
    match part.next b with
    | .more part =>
      match readNumber part bs with
      | .ok (lexeme, rest) => .ok (b :: lexeme, rest)
      | .error e => .error e
    | .stop => .ok ([], b :: bs)
    | .bad => .error .malformed

end StreamMerge.Json
