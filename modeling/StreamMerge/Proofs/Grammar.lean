import StreamMerge.Json.Number
import StreamMerge.Json.Quote

/-!
# The grammar of JSON

What a well-formed JSON text is, byte by byte and without a word about how it is read. There are many ways to write
the same text (`Spells`), blanks may stand almost anywhere, and values nest to any depth (`Derives`).
-/
namespace StreamMerge.Json

/-- Nothing but blanks. -/
def Blanks (bs : Bytes) : Prop := ∀ b ∈ bs, isBlank b = true

instance (bs : Bytes) : Decidable (Blanks bs) := List.decidableBAll (isBlank · = true) bs

theorem blanks_nil : Blanks [] := fun _ h => by cases h

/-! ## Strings -/

/-- A hexadecimal digit and its value; the letters may be small or capital. -/
inductive Hex : UInt8 → Nat → Prop
  | small (n : Nat) : n < 16 → Hex (hexDigit n) n
  | capital (n : Nat) : 10 ≤ n → n < 16 → Hex (0x37 + n).toUInt8 n

/-- Four hexadecimal digits and the number they denote. -/
inductive FourHex : Bytes → Nat → Prop
  | intro (b₁ b₂ b₃ b₄ : UInt8) (n₁ n₂ n₃ n₄ : Nat) : Hex b₁ n₁ → Hex b₂ n₂ → Hex b₃ n₃ → Hex b₄ n₄ →
      FourHex [b₁, b₂, b₃, b₄] (0x1000 * n₁ + 0x100 * n₂ + 0x10 * n₃ + n₄)

/-- The characters that a backslash and one letter stand for. -/
def shortEscapes : List (UInt8 × Char) := [
  (0x22, '"'), (0x5c, '\\'), (0x2f, '/'), (0x62, '\x08'), (0x66, '\x0c'), (0x6e, '\n'), (0x72, '\r'), (0x74, '\t')]

/-- The ways to write one character inside a string. -/
inductive Spells : Char → Bytes → Prop
  | plain (c : Char) : 0x20 ≤ c.toNat → c ≠ '"' → c ≠ '\\' → Spells c (String.utf8EncodeChar c)
  | short (c : Char) (b : UInt8) : (b, c) ∈ shortEscapes → Spells c [0x5c, b]
  | number (c : Char) (ds : Bytes) : FourHex ds c.toNat → Spells c (0x5c :: 0x75 :: ds)
  /-- A character that has more than sixteen bits, in two halves. -/
  | halves (c : Char) (high low : Nat) (hs ls : Bytes) : high < 0x400 → low < 0x400 →
      c.toNat = 0x10000 + (high * 0x400 + low) → FourHex hs (0xd800 + high) → FourHex ls (0xdc00 + low) →
      Spells c (0x5c :: 0x75 :: (hs ++ 0x5c :: 0x75 :: ls))

/-- The ways to write a text inside a string. -/
inductive SpellsAll : List Char → Bytes → Prop
  | nil : SpellsAll [] []
  | cons {c : Char} {cs : List Char} {ws ws' : Bytes} : Spells c ws → SpellsAll cs ws' → SpellsAll (c :: cs) (ws ++ ws')

/-- A byte that stands for itself inside a string. -/
def IsPlain (b : UInt8) : Prop := b ≠ 0x22 ∧ b ≠ 0x5c ∧ ¬ b < 0x20

instance (b : UInt8) : Decidable (IsPlain b) := inferInstanceAs (Decidable (b ≠ 0x22 ∧ b ≠ 0x5c ∧ ¬ b < 0x20))

/-- The inside of any string. A numeric escape may be half a character here, so that it need not spell a text. -/
inductive Inside : Bytes → Prop
  | nil : Inside []
  | plain (b : UInt8) {ws : Bytes} : IsPlain b → Inside ws → Inside (b :: ws)
  | short (b : UInt8) (c : Char) {ws : Bytes} : (b, c) ∈ shortEscapes → Inside ws → Inside (0x5c :: b :: ws)
  | number (ds : Bytes) (n : Nat) {ws : Bytes} : FourHex ds n → Inside ws → Inside (0x5c :: 0x75 :: (ds ++ ws))

/-- A string with the text `s`. -/
inductive IsString (s : String) : Bytes → Prop
  | intro {inside : Bytes} : SpellsAll s.toList inside → IsString s (0x22 :: (inside ++ [0x22]))

/-- A string, or `null` where there is none. -/
inductive IsOptionalString : Option String → Bytes → Prop
  | null : IsOptionalString none [0x6e, 0x75, 0x6c, 0x6c]
  | some {s : String} {bs : Bytes} : IsString s bs → IsOptionalString (some s) bs

/-! ## Numbers -/

/-- Decimal digits, at least one. -/
def Digits (ds : Bytes) : Prop := ds ≠ [] ∧ ∀ d ∈ ds, isDigit d = true

/-- The digits of a whole number: zero, or digits of which the first is not zero. -/
inductive Whole : Bytes → Prop
  | zero : Whole [0x30]
  | more (d : UInt8) {ds : Bytes} : isDigit d = true → d ≠ 0x30 → (∀ d ∈ ds, isDigit d = true) → Whole (d :: ds)

theorem Whole.isDigit {bs : Bytes} (h : Whole bs) : ∀ d ∈ bs, isDigit d = true := by
  cases h with
  | zero => exact List.forall_mem_singleton.2 rfl
  | more d hd _ hds => exact List.forall_mem_cons.2 ⟨hd, hds⟩

/-- What may follow the digits of a whole number. -/
inductive Fraction : Bytes → Prop
  | none : Fraction []
  | some {ds : Bytes} : Digits ds → Fraction (0x2e :: ds)

/-- The power of ten at the end of a number. -/
inductive Power : Bytes → Prop
  | none : Power []
  | some (b : UInt8) (sign : Bytes) {ds : Bytes} : b = 0x65 ∨ b = 0x45 → sign ∈ ([[], [0x2b], [0x2d]] : List Bytes) →
      Digits ds → Power (b :: (sign ++ ds))

/-- A number. -/
inductive Numeral : Bytes → Prop
  | intro (sign : Bytes) {whole fraction power : Bytes} : sign ∈ ([[], [0x2d]] : List Bytes) → Whole whole →
      Fraction fraction → Power power → Numeral (sign ++ (whole ++ (fraction ++ power)))

/-- A natural number of at most 64 bits. -/
def IsNatural (n : Nat) (bs : Bytes) : Prop := Whole bs ∧ digitsValue bs = n ∧ n ≤ largest64

/-! ## Values -/

/-- `true` or `false`. -/
inductive IsBool : Bool → Bytes → Prop
  | true : IsBool true [0x74, 0x72, 0x75, 0x65]
  | false : IsBool false [0x66, 0x61, 0x6c, 0x73, 0x65]

/-- What `Derives` is about. -/
inductive Phrase where
  | value
  /-- A value with blanks around it. -/
  | element
  /-- The inside of an array that is not empty. -/
  | elements
  /-- A name and an element. -/
  | member
  /-- The inside of an object that is not empty. -/
  | members
  deriving DecidableEq, Repr

/-- Well-formed values, and what they are made of. -/
inductive Derives : Phrase → Bytes → Prop
  | null : Derives .value [0x6e, 0x75, 0x6c, 0x6c]
  | true : Derives .value [0x74, 0x72, 0x75, 0x65]
  | false : Derives .value [0x66, 0x61, 0x6c, 0x73, 0x65]
  | number {bs : Bytes} : Numeral bs → Derives .value bs
  | string {inside : Bytes} : Inside inside → Derives .value (0x22 :: (inside ++ [0x22]))
  | emptyArray {gap : Bytes} : Blanks gap → Derives .value (0x5b :: (gap ++ [0x5d]))
  | array {bs : Bytes} : Derives .elements bs → Derives .value (0x5b :: (bs ++ [0x5d]))
  | emptyObject {gap : Bytes} : Blanks gap → Derives .value (0x7b :: (gap ++ [0x7d]))
  | object {bs : Bytes} : Derives .members bs → Derives .value (0x7b :: (bs ++ [0x7d]))
  | element {before value after : Bytes} : Blanks before → Derives .value value → Blanks after →
      Derives .element (before ++ (value ++ after))
  | lastElement {bs : Bytes} : Derives .element bs → Derives .elements bs
  | elements {bs more : Bytes} : Derives .element bs → Derives .elements more → Derives .elements (bs ++ 0x2c :: more)
  | member {before name after bs : Bytes} : Blanks before → Inside name → Blanks after → Derives .element bs →
      Derives .member (before ++ 0x22 :: (name ++ 0x22 :: (after ++ 0x3a :: bs)))
  | lastMember {bs : Bytes} : Derives .member bs → Derives .members bs
  | members {bs more : Bytes} : Derives .member bs → Derives .members more → Derives .members (bs ++ 0x2c :: more)

end StreamMerge.Json
