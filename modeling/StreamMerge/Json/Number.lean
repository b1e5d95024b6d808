import StreamMerge.Json.Lexeme

/-!
# JSON: the value of a number

A number without a point and an exponent that fits 64 bits is an exact natural number. Any other number is
taken for a binary floating-point value of 53 significant bits; only whether it is too large for one matters
here. It is computed from the first digits that fit 64 bits and a power of ten, and `isTooLarge` says whether
their product leaves the range.
-/
namespace StreamMerge.Json

/-- The value of a decimal digit. -/
def digitValue (b : UInt8) : Nat := b.toNat - 0x30

/-- The number that a sequence of digits denotes. -/
def digitsValue (ds : Bytes) : Nat := ds.foldl (fun n d => 10 * n + digitValue d) 0

/-- The largest 64-bit number. -/
def largest64 : Nat := UInt64.size - 1

/-- A whole number and a power of ten. -/
structure Scaled where
  digits : Nat
  exponent : Int
  deriving DecidableEq, Repr

namespace Scaled

/-- Appends digits as long as the whole stays within 64 bits; says whether all of them fitted. `shift` is what a
digit that fits does to the exponent, and `lost` what a digit does that comes after. -/
def extend (shift lost : Int) : Scaled → Bytes → Scaled
  | s, [] => s
  | s, d :: ds =>
    let digits := 10 * s.digits + digitValue d
    if digits ≤ largest64 then extend shift lost ⟨digits, s.exponent + shift⟩ ds
    else ⟨s.digits, s.exponent + lost * (ds.length + 1)⟩

/-- `n` rounded to 53 significant bits, ties to even. -/
def round53 (n : Nat) : Nat :=
  if n < Nat.pow 2 53 then n
  else
    let unit := Nat.pow 2 (Nat.log2 n - 52)
    let q := n / unit
    let r := n % unit
    if 2 * r > unit || (2 * r = unit && q % 2 = 1) then (q + 1) * unit else q * unit

/-- The value is beyond the largest finite number of 53 significant bits and an exponent below 1024. -/
def isTooLarge (s : Scaled) : Bool :=
  s.digits ≠ 0 && 0 ≤ s.exponent &&
    (308 < s.exponent ||
      (Nat.pow 2 54 - 1) * Nat.pow 2 970 ≤ round53 s.digits * round53 (Nat.pow 10 s.exponent.toNat))

end Scaled

/-- What a number is to its reader. -/
inductive NumberValue where
  /-- A natural number of at most 64 bits. -/
  | natural (n : Nat)
  /-- Some other number. -/
  | other
  /-- A number too large for any use. -/
  | tooLarge
  deriving DecidableEq, Repr

/-- The value of a number in its complete written form. -/
def numberValue (lexeme : Bytes) : NumberValue :=
  let negative := lexeme.head? = some 0x2d
  let unsigned := if negative then lexeme.tail else lexeme
  let whole := unsigned.takeWhile isDigit
  let afterWhole := unsigned.dropWhile isDigit
  let hasPoint := afterWhole.head? = some 0x2e
  let fraction := if hasPoint then afterWhole.tail.takeWhile isDigit else []
  let afterPoint := if hasPoint then afterWhole.tail.dropWhile isDigit else afterWhole
  if afterWhole.isEmpty && digitsValue whole ≤ largest64 then
    if negative then .other else .natural (digitsValue whole)
  else
    let power : Int := match afterPoint with
      | [] => 0
      | _ :: 0x2d :: ds => -(digitsValue ds : Int)
      | _ :: 0x2b :: ds => digitsValue ds
      | _ :: ds => digitsValue ds
    let s := ((Scaled.extend 0 1 ⟨0, 0⟩ whole).extend (-1) 0 fraction)
    if (⟨s.digits, s.exponent + power⟩ : Scaled).isTooLarge then .tooLarge else .other

end StreamMerge.Json
