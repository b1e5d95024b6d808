import StreamMerge.Json.Lexeme

/-!
# JSON: strings

`quote` writes a text as a JSON string: the quotation mark, the backslash and the control characters are
escaped, all else stands for itself. `readQuoted` reads the inside of a string up to its closing mark with a
machine whose states are `QuoteState`; `skipQuoted` only looks for that mark.
-/
namespace StreamMerge.Json

open Text

/-! ## Writing -/

/-- A hexadecimal digit. -/
def hexDigit (n : Nat) : UInt8 := if n < 10 then (0x30 + n).toUInt8 else (0x57 + n).toUInt8

/-- One character inside a string. -/
def escape (c : Char) : Bytes :=
  match c with
  | '"' => [0x5c, 0x22]
  | '\\' => [0x5c, 0x5c]
  | '\x08' => [0x5c, 0x62]
  | '\x0c' => [0x5c, 0x66]
  | '\n' => [0x5c, 0x6e]
  | '\r' => [0x5c, 0x72]
  | '\t' => [0x5c, 0x74]
  | c =>
    if c.toNat < 0x20 then
      [0x5c, 0x75, 0x30, 0x30, hexDigit (c.toNat / 16), hexDigit (c.toNat % 16)]
    else String.utf8EncodeChar c

/-- A text as a JSON string. -/
def quote (s : String) : Bytes := 0x22 :: s.toList.flatMap escape ++ [0x22]

/-! ## Escapes -/

/-- The value of a hexadecimal digit. -/
def hexValue? (b : UInt8) : Option Nat :=
  if isDigit b then some (b.toNat - 0x30)
  else if 0x61 ≤ b && b ≤ 0x66 then some (b.toNat - 0x57)
  else if 0x41 ≤ b && b ≤ 0x46 then some (b.toNat - 0x37)
  else none

/-- The number that hexadecimal digits denote. -/
def hexNumber? (ds : Bytes) : Option Nat :=
  ds.foldl (fun n d => n.bind fun n => (hexValue? d).map (16 * n + ·)) (some 0)

/-- The byte that a backslash and one letter stand for. -/
def shortEscape? (b : UInt8) : Option UInt8 :=
  if b = 0x22 || b = 0x5c || b = 0x2f then some b
  else if b = 0x62 then some 0x08
  else if b = 0x66 then some 0x0c
  else if b = 0x6e then some 0x0a
  else if b = 0x72 then some 0x0d
  else if b = 0x74 then some 0x09
  else none

/-- The first half of a surrogate pair. -/
def isHighSurrogate (n : Nat) : Bool := 0xd800 ≤ n && n ≤ 0xdbff

/-- The second half of a surrogate pair. -/
def isLowSurrogate (n : Nat) : Bool := 0xdc00 ≤ n && n ≤ 0xdfff

/-- The character of a surrogate pair. -/
def ofSurrogates (high low : Nat) : Char := Char.ofNat (0x10000 + (high - 0xd800) * 0x400 + (low - 0xdc00))

/-! ## Reading -/

/-- Where a string has been read to. -/
inductive QuoteState where
  /-- Between characters. -/
  | plain
  /-- After a backslash. -/
  | escaped
  /-- Among the four digits of a numeric escape, of which `digits` were read; `high` is the first half of a
  surrogate pair that came before. -/
  | number (high : Option Nat) (digits : Bytes)
  /-- After the first half of a surrogate pair: the second half has to follow. -/
  | half (high : Nat)
  /-- After the first half of a surrogate pair and a backslash. -/
  | halfEscaped (high : Nat)
  deriving DecidableEq, Repr

/-- Whatever comes next is taken in, with the bytes it stands for, or is not allowed; the closing mark ends the
string. -/
inductive QuoteStep where
  | more (bytes : Bytes) (state : QuoteState)
  | close
  | bad
  deriving DecidableEq, Repr

namespace QuoteState

/-- What a numeric escape with the value `n` means. -/
def ofNumber (high : Option Nat) (n : Nat) : QuoteStep :=
  match high with
  | none =>
    if isLowSurrogate n then .bad
    else if isHighSurrogate n then .more [] (.half n)
    else .more (String.utf8EncodeChar (Char.ofNat n)) .plain
  | some high =>
    if isLowSurrogate n then .more (String.utf8EncodeChar (ofSurrogates high n)) .plain else .bad

/-- What the byte `b` means in a state. -/
def next (state : QuoteState) (b : UInt8) : QuoteStep :=
  match state with
  | .plain =>
    if b = 0x22 then .close
    else if b = 0x5c then .more [] .escaped
    else if b < 0x20 then .bad
    else .more [b] .plain
  | .escaped =>
    if b = 0x75 then .more [] (.number none [])
    else match shortEscape? b with
      | some c => .more [c] .plain
      | none => .bad
  | .number high digits =>
    if digits.length < 3 then .more [] (.number high (digits ++ [b]))
    else match hexNumber? (digits ++ [b]) with
      | some n => ofNumber high n
      | none => .bad
  | .half high => if b = 0x5c then .more [] (.halfEscaped high) else .bad
  | .halfEscaped high => if b = 0x75 then .more [] (.number (some high) []) else .bad

end QuoteState

/-- Reads the inside of a string from `state` on, and the closing mark; yields the bytes of the text. -/
def readQuoted (state : QuoteState) : Bytes → Read Bytes
  | [] => .error .cutShort
  | b :: bs =>
    match state.next b with
    | .close => .ok ([], bs)
    | .bad => .error .malformed
    | .more bytes state =>
      match readQuoted state bs with
      | .ok (text, rest) => .ok (bytes ++ text, rest)
      | .error e => .error e

/-- Reads a string whose opening mark has been read. Its bytes have to be valid UTF-8. -/
def readText (bs : Bytes) : Read String :=
  match readQuoted .plain bs with
  | .error e => .error e
  | .ok (bytes, rest) =>
    match ofUtf8? bytes with
    | some s => .ok (s, rest)
    | none => .error .malformed

end StreamMerge.Json
