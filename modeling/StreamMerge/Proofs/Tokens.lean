import Mathlib.Data.List.Basic
import Mathlib.Data.List.TakeWhile
import StreamMerge.Json.Document
import StreamMerge.Proofs.Grammar

/-!
# The parts of a document

Each part of a document that is asked for — a text, a number, a word — is found by the reader of such parts, in every
way in which it can be written and whatever stands behind it, provided a number is not continued there. The forms in
which they are written out are among these ways.
-/
namespace StreamMerge

namespace Text

/-- A text comes back from its UTF-8 form. -/
theorem ofUtf8?_utf8 (s : String) : ofUtf8? (utf8 s) = some s := by
  have hbytes : (⟨(utf8 s).toArray⟩ : ByteArray) = s.toByteArray := by
    rw [← String.utf8Encode_toList]
    exact ByteArray.ext List.data_toByteArray.symm
  unfold ofUtf8? String.fromUTF8?
  rw [dif_pos (hbytes ▸ s.isValidUTF8)]
  exact congrArg some (String.toByteArray_inj.1 hbytes)

end Text

namespace Json

/-! ## Strings -/

section

variable {text bs rest bytes ws ds : Bytes} {state state' : QuoteState}

theorem readQuoted_more {b : UInt8} (hb : state.next b = .more bytes state')
    (h : readQuoted state' bs = .ok (text, rest)) : readQuoted state (b :: bs) = .ok (bytes ++ text, rest) := by
  simp only [readQuoted, hb, h]

/-- A byte inside an escape that is not its last. -/
theorem readQuoted_skip {b : UInt8} (hb : state.next b = .more [] state')
    (h : readQuoted state' bs = .ok (text, rest)) : readQuoted state (b :: bs) = .ok (text, rest) :=
  readQuoted_more hb h

theorem next_plain {b : UInt8} (h : IsPlain b) : QuoteState.next .plain b = .more [b] .plain := by
  simp only [QuoteState.next, if_neg h.1, if_neg h.2.1, if_neg h.2.2]

theorem readQuoted_plain : ∀ {ws : Bytes}, (∀ b ∈ ws, IsPlain b) → readQuoted .plain bs = .ok (text, rest) →
    readQuoted .plain (ws ++ bs) = .ok (ws ++ text, rest)
  | [], _, h => h
  | b :: ws, hws, h => by
    have hrest := readQuoted_plain (fun b' hb' => hws b' (List.mem_cons_of_mem b hb')) h
    have hread := readQuoted_more (next_plain (hws b (by simp))) hrest
    exact hread

/-- The bytes of a character stand for themselves, unless it is one that has to be escaped. -/
theorem isPlain_of_mem {c : Char} (hc : 0x20 ≤ c.toNat) (hq : c ≠ '"') (hs : c ≠ '\\') {b : UInt8}
    (hb : b ∈ String.utf8EncodeChar c) : IsPlain b := by
  have hnat : ∀ d : Char, c ≠ d → c.val.toNat ≠ d.val.toNat := fun d hd he =>
    hd (Char.ext (UInt32.toNat_inj.1 he))
  have hq : c.val.toNat ≠ 0x22 := hnat '"' hq
  have hs : c.val.toNat ≠ 0x5c := hnat '\\' hs
  have hc : 0x20 ≤ c.val.toNat := hc
  have hplain : ∀ n : Nat, n < 256 → 0x20 ≤ n → n ≠ 0x22 → n ≠ 0x5c → IsPlain (UInt8.ofNat n) := by
    intro n hn h₁ h₂ h₃
    have hto : (UInt8.ofNat n).toNat = n := UInt8.toNat_ofNat_of_lt' hn
    refine ⟨fun he => h₂ ?_, fun he => h₃ ?_, fun hlt => ?_⟩
    · rw [← hto, he]
      rfl
    · rw [← hto, he]
      rfl
    · have := UInt8.lt_iff_toNat_lt.1 hlt
      rw [hto] at this
      exact absurd this (Nat.not_lt.2 h₁)
  unfold String.utf8EncodeChar at hb
  dsimp only at hb
  split at hb
  · rw [List.mem_singleton.1 hb]
    exact hplain _ (by omega) hc hq hs
  · split at hb
    · simp only [List.mem_cons, List.not_mem_nil, or_false] at hb
      rcases hb with rfl | rfl <;> exact hplain _ (by omega) (by omega) (by omega) (by omega)
    · split at hb <;> simp only [List.mem_cons, List.not_mem_nil, or_false] at hb
      · rcases hb with rfl | rfl | rfl <;> exact hplain _ (by omega) (by omega) (by omega) (by omega)
      · rcases hb with rfl | rfl | rfl | rfl <;> exact hplain _ (by omega) (by omega) (by omega) (by omega)

theorem hexValue?_of_hex {b : UInt8} {n : Nat} (h : Hex b n) : hexValue? b = some n := by
  have hsmall : ∀ n < 16, hexValue? (hexDigit n) = some n := by decide
  have hcapital : ∀ n < 16, 10 ≤ n → hexValue? (0x37 + n).toUInt8 = some n := by decide
  cases h with
  | small n hn => exact hsmall n hn
  | capital n hge hn => exact hcapital n hn hge

theorem hexNumber?_of_fourHex {n : Nat} (h : FourHex ds n) : hexNumber? ds = some n := by
  cases h with
  | intro b₁ b₂ b₃ b₄ n₁ n₂ n₃ n₄ h₁ h₂ h₃ h₄ =>
    simp only [hexNumber?, List.foldl_cons, List.foldl_nil, hexValue?_of_hex h₁, hexValue?_of_hex h₂,
      hexValue?_of_hex h₃, hexValue?_of_hex h₄, Option.map_some, Option.bind_some, Option.some.injEq]
    omega

/-- The digits of a numeric escape are read to their end, where it shows what they stand for. -/
theorem readQuoted_number {high : Option Nat} {n : Nat} (hds : FourHex ds n)
    (hn : QuoteState.ofNumber high n = .more bytes state') (h : readQuoted state' bs = .ok (text, rest)) :
    readQuoted (.number high []) (ds ++ bs) = .ok (bytes ++ text, rest) := by
  have hsome := hexNumber?_of_fourHex hds
  cases hds with
  | intro b₁ b₂ b₃ b₄ =>
    have hlast : QuoteState.next (.number high [b₁, b₂, b₃]) b₄ = .more bytes state' := by
      have hsome : hexNumber? ([b₁, b₂, b₃] ++ [b₄]) = some _ := hsome
      simp only [QuoteState.next, hsome, hn]
      rfl
    exact readQuoted_skip rfl <| readQuoted_skip rfl <| readQuoted_skip rfl <| readQuoted_more hlast h

/-- A character comes back from every way in which it can be written inside a string. -/
theorem readQuoted_spells {c : Char} (hc : Spells c ws) (h : readQuoted .plain bs = .ok (text, rest)) :
    readQuoted .plain (ws ++ bs) = .ok (String.utf8EncodeChar c ++ text, rest) := by
  cases hc with
  | plain hge hquote hslash => exact readQuoted_plain (fun b hb => isPlain_of_mem hge hquote hslash hb) h
  | short b hmem =>
    have htable : ∀ bc ∈ shortEscapes, QuoteState.next .escaped bc.1 = .more (String.utf8EncodeChar bc.2) .plain := by
      decide
    exact readQuoted_skip rfl (readQuoted_more (htable _ hmem) h)
  | number ds hds =>
    have hvalid : c.toNat < 0xd800 ∨ 0xdfff < c.toNat ∧ c.toNat < 0x110000 := c.valid
    have hlow : isLowSurrogate c.toNat = false := by unfold isLowSurrogate; simp; omega
    have hhigh : isHighSurrogate c.toNat = false := by unfold isHighSurrogate; simp; omega
    refine readQuoted_skip rfl (readQuoted_skip rfl (readQuoted_number hds ?_ h))
    simp only [QuoteState.ofNumber, hlow, hhigh, Char.ofNat_toNat, Bool.false_eq_true, if_false]
  | halves high low hs ls hhigh hlow hsum hhs hls =>
    have hpair : ofSurrogates (0xd800 + high) (0xdc00 + low) = c := by
      have heq : 0x10000 + (0xd800 + high - 0xd800) * 0x400 + (0xdc00 + low - 0xdc00) = c.toNat := by omega
      rw [ofSurrogates, heq, Char.ofNat_toNat]
    have hfirst : QuoteState.ofNumber none (0xd800 + high) = .more [] (.half (0xd800 + high)) := by
      have h₁ : isLowSurrogate (0xd800 + high) = false := by unfold isLowSurrogate; simp; omega
      have h₂ : isHighSurrogate (0xd800 + high) = true := by unfold isHighSurrogate; simp; omega
      simp only [QuoteState.ofNumber, h₁, h₂, Bool.false_eq_true, if_false, if_true]
    have hsecond : QuoteState.ofNumber (some (0xd800 + high)) (0xdc00 + low) =
        .more (String.utf8EncodeChar c) .plain := by
      have h₁ : isLowSurrogate (0xdc00 + low) = true := by unfold isLowSurrogate; simp; omega
      simp only [QuoteState.ofNumber, h₁, hpair, if_true]
    have hrest : readQuoted (.half (0xd800 + high)) (0x5c :: 0x75 :: (ls ++ bs)) =
        .ok (String.utf8EncodeChar c ++ text, rest) :=
      readQuoted_skip rfl (readQuoted_skip (b := 0x75) rfl (readQuoted_number hls hsecond h))
    have hhalf := readQuoted_number hhs hfirst hrest
    have hread : readQuoted .plain (0x5c :: 0x75 :: (hs ++ 0x5c :: 0x75 :: (ls ++ bs))) =
        .ok (String.utf8EncodeChar c ++ text, rest) := readQuoted_skip rfl (readQuoted_skip (b := 0x75) rfl hhalf)
    simpa only [List.cons_append, List.append_assoc] using hread

theorem readQuoted_spellsAll {cs : List Char} (h : SpellsAll cs ws) (rest : Bytes) :
    readQuoted .plain (ws ++ 0x22 :: rest) = .ok (cs.flatMap String.utf8EncodeChar, rest) := by
  induction h with
  | nil => rfl
  | cons hc _ ih =>
    rw [List.append_assoc, List.flatMap_cons]
    exact readQuoted_spells hc ih

/-- **A text comes back from every way in which it can be written**, whatever follows it. -/
theorem readText_spelled {s : String} (h : SpellsAll s.toList ws) (rest : Bytes) :
    readText (ws ++ 0x22 :: rest) = .ok (s, rest) := by
  have hs : Text.ofUtf8? (s.toList.flatMap String.utf8EncodeChar) = some s := Text.ofUtf8?_utf8 s
  unfold readText
  rw [readQuoted_spellsAll h]
  simp only [hs]

/-- The form in which a character is written is one of those it can have. -/
theorem spells_escape (c : Char) : Spells c (escape c) := by
  unfold escape
  split
  iterate 7 exact .short _ _ (by decide)
  rename_i hquote hslash _ _ _ _ _
  split
  · rename_i hlt
    have hzero : Hex 0x30 0 := .small 0 (by decide)
    have hds := FourHex.intro _ _ _ _ 0 0 _ _ hzero hzero (.small (c.toNat / 16) (by omega))
      (.small (c.toNat % 16) (by omega))
    refine .number c _ ?_
    rwa [show 0x1000 * 0 + 0x100 * 0 + 0x10 * (c.toNat / 16) + c.toNat % 16 = c.toNat by omega] at hds
  · rename_i hge
    exact .plain c (Nat.le_of_not_lt hge) hquote hslash

theorem spellsAll_escapes : ∀ cs : List Char, SpellsAll cs (cs.flatMap escape)
  | [] => .nil
  | c :: cs => .cons (spells_escape c) (spellsAll_escapes cs)

theorem isString_quote (s : String) : IsString s (quote s) := .intro (spellsAll_escapes s.toList)

theorem isOptionalString_write (s : Option String) : IsOptionalString s (writeOptionalString s) := by
  cases s with
  | none => exact .null
  | some s => exact .some (isString_quote s)

end

/-! ## Numbers -/

/-- These bytes end the value in front of them: there are none, or the first is a blank, a comma or a closing
bracket. -/
def EndsValue (rest : Bytes) : Prop := ∀ b ∈ rest.head?, isBlank b = true ∨ b = 0x2c ∨ b = 0x5d ∨ b = 0x7d

/-- The bytes of a decimal number. -/
def digits (n : Nat) : Bytes := (Nat.toDigits 10 n).map fun c => UInt8.ofNat c.toNat

theorem toNat_digit {c : Char} (hc : c.isDigit = true) : 48 ≤ c.toNat ∧ c.toNat ≤ 57 := by
  simp only [Char.isDigit, Bool.and_eq_true, decide_eq_true_eq] at hc
  exact ⟨UInt32.le_iff_toNat_le.1 hc.1, UInt32.le_iff_toNat_le.1 hc.2⟩

theorem toNat_digitByte {c : Char} (hc : c.isDigit = true) : (UInt8.ofNat c.toNat).toNat = c.toNat :=
  UInt8.toNat_ofNat_of_lt' (Nat.lt_of_le_of_lt (toNat_digit hc).2 (by decide))

theorem isDigit_digitByte {c : Char} (hc : c.isDigit = true) : isDigit (UInt8.ofNat c.toNat) = true := by
  have h := toNat_digit hc
  simp only [isDigit, Bool.and_eq_true, decide_eq_true_eq, UInt8.le_iff_toNat_le, toNat_digitByte hc]
  exact h

theorem writeNatural_eq (n : Nat) : writeNatural n = digits n := by
  have hchar : ∀ c ∈ Nat.toDigits 10 n, String.utf8EncodeChar c = [UInt8.ofNat c.toNat] := by
    intro c hc
    have hd := (toNat_digit (Nat.isDigit_of_mem_toDigits (by decide) (by decide) hc)).2
    unfold String.utf8EncodeChar
    exact if_pos (Nat.le_trans hd (by decide))
  unfold writeNatural Text.utf8 digits
  rw [Nat.toString_eq_repr, Nat.toList_repr, List.map_eq_flatMap]
  exact List.flatMap_congr hchar

theorem isDigit_of_mem_digits {n : Nat} {b : UInt8} (hb : b ∈ digits n) : isDigit b = true := by
  obtain ⟨c, hc, rfl⟩ := List.mem_map.1 hb
  exact isDigit_digitByte (Nat.isDigit_of_mem_toDigits (by decide) (by decide) hc)

theorem digitsValue_digits (n : Nat) : digitsValue (digits n) = n := by
  have hfold : ∀ (cs : List Char) (k : Nat), (∀ c ∈ cs, c.isDigit = true) →
      (cs.map fun c => UInt8.ofNat c.toNat).foldl (fun n d => 10 * n + digitValue d) k = Nat.ofDigitChars 10 cs k := by
    intro cs
    induction cs with
    | nil => exact fun _ _ => rfl
    | cons c cs ih =>
      intro k hcs
      rw [List.map_cons, List.foldl_cons, ih _ fun c' hc' => hcs c' (List.mem_cons_of_mem c hc'), digitValue,
        toNat_digitByte (hcs c (by simp))]
      rfl
  unfold digitsValue digits
  rw [hfold _ _ fun c hc => Nat.isDigit_of_mem_toDigits (by decide) (by decide) hc]
  exact Nat.ofDigitChars_ten_toDigits

/-- Only the number zero begins with a zero. -/
theorem head_toDigits {n : Nat} (hn : n ≠ 0) : ∃ c cs, Nat.toDigits 10 n = c :: cs ∧ c ≠ '0' := by
  induction n using Nat.strongRecOn with
  | ind n ih =>
    rw [Nat.toDigits_eq_if (by decide)]
    split
    · rename_i hlt
      refine ⟨_, [], rfl, ?_⟩
      have hall : ∀ k < 10, k ≠ 0 → Nat.digitChar k ≠ '0' := by decide
      exact hall n hlt hn
    · rename_i hge
      obtain ⟨c, cs, hcs, hc⟩ := ih (n / 10) (by omega) (by omega)
      exact ⟨c, cs ++ [(n % 10).digitChar], by rw [hcs]; rfl, hc⟩

theorem start_of_digit {d : UInt8} (hd : isDigit d = true) (hne : d ≠ 0x30) : NumberPart.start? d = some .whole := by
  have hminus : d ≠ 0x2d := by rintro rfl; cases hd
  simp [NumberPart.start?, hminus, hne, hd]

/-- What begins a number is not a blank. -/
theorem isBlank_of_start {b : UInt8} {part : NumberPart} (h : NumberPart.start? b = some part) : isBlank b = false := by
  refine eq_false_of_ne_true fun hb => ?_
  simp only [isBlank, Bool.or_eq_true, decide_eq_true_eq] at hb
  rcases hb with ((rfl | rfl) | rfl) | rfl <;> cases h

theorem stops_of_endsValue {rest : Bytes} (h : EndsValue rest) {part : NumberPart}
    (hpart : part = .zero ∨ part = .whole) : readNumber part rest = .ok ([], rest) := by
  cases rest with
  | nil => rcases hpart with rfl | rfl <;> rfl
  | cons b bs =>
    have hstop : part.next b = .stop := by
      have hb := h b rfl
      simp only [isBlank, Bool.or_eq_true, decide_eq_true_eq] at hb
      rcases hb with ((((rfl | rfl) | rfl) | rfl) | rfl | rfl | rfl) <;> rcases hpart with rfl | rfl <;> rfl
    simp only [readNumber, hstop]

theorem readNumber_digits {rest : Bytes} (h : EndsValue rest) : ∀ {ds : Bytes}, (∀ d ∈ ds, isDigit d = true) →
    readNumber .whole (ds ++ rest) = .ok (ds, rest)
  | [], _ => stops_of_endsValue h (Or.inr rfl)
  | d :: ds, hds => by
    have hnext : NumberPart.next .whole d = .more .whole := by
      simp only [NumberPart.next, hds d (by simp), if_true]
    simp only [List.cons_append, readNumber, hnext,
      readNumber_digits h fun d' hd' => hds d' (List.mem_cons_of_mem d hd')]

/-- A whole number is read to its end and not beyond. -/
theorem readNumber_whole {bs : Bytes} (hbs : Whole bs) {rest : Bytes} (h : EndsValue rest) : ∃ b ds part, bs = b :: ds ∧
    NumberPart.start? b = some part ∧ readNumber part (ds ++ rest) = .ok (ds, rest) := by
  cases hbs with
  | zero => exact ⟨0x30, [], .zero, rfl, rfl, stops_of_endsValue h (Or.inl rfl)⟩
  | more d hd hne hds => exact ⟨d, _, .whole, rfl, start_of_digit hd hne, readNumber_digits h hds⟩

theorem numberValue_whole {bs : Bytes} (hbs : Whole bs) (hle : digitsValue bs ≤ largest64) :
    numberValue bs = .natural (digitsValue bs) := by
  have hsign : bs.head? ≠ some 0x2d := fun he => by
    have := hbs.isDigit _ (List.mem_of_mem_head? he)
    exact absurd this (by decide)
  have htake : bs.takeWhile isDigit = bs := List.takeWhile_eq_self_iff.2 hbs.isDigit
  have hdrop : bs.dropWhile isDigit = [] := List.dropWhile_eq_nil_iff.2 hbs.isDigit
  simp only [numberValue, if_neg hsign, htake, hdrop, List.isEmpty_nil, Bool.true_and, hle, decide_true, if_true]

/-- The decimal form of a number is a whole number. -/
theorem whole_digits (n : Nat) : Whole (digits n) := by
  by_cases hn : n = 0
  · subst hn
    exact .zero
  · obtain ⟨c, cs, hcs, hc⟩ := head_toDigits hn
    have hds : digits n = UInt8.ofNat c.toNat :: cs.map fun c => UInt8.ofNat c.toNat := by
      unfold digits
      rw [hcs]
      rfl
    have hdigit : c.isDigit = true := Nat.isDigit_of_mem_toDigits (by decide) (by decide) (hcs ▸ List.mem_cons_self)
    have hzero : UInt8.ofNat c.toNat ≠ 0x30 := fun he => hc (Char.ext (UInt32.toNat_inj.1 (by
      have := toNat_digitByte hdigit
      rw [he] at this
      exact this.symm)))
    have hall : ∀ d ∈ UInt8.ofNat c.toNat :: cs.map fun c => UInt8.ofNat c.toNat, isDigit d = true :=
      fun d hd => isDigit_of_mem_digits (hds ▸ hd)
    obtain ⟨hd, hds'⟩ := List.forall_mem_cons.1 hall
    exact hds ▸ .more _ hd hzero hds'

theorem isNatural_write {n : Nat} (hn : n ≤ largest64) : IsNatural n (writeNatural n) := by
  rw [writeNatural_eq]
  exact ⟨whole_digits n, digitsValue_digits n, hn⟩

/-! ## Values -/

section

variable {α : Type}

theorem skipBlank_append {before : Bytes} (h : Blanks before) (bs : Bytes) :
    skipBlank (before ++ bs) = skipBlank bs := List.dropWhile_append_of_pos h

theorem skipBlank_cons {b : UInt8} (h : isBlank b = false) (bs : Bytes) : skipBlank (b :: bs) = b :: bs :=
  List.dropWhile_cons_of_neg (by rw [h]; exact Bool.false_ne_true)

/-- Behind blanks and before anything that ends a value, `read` finds `x` in the form `written`. -/
def Finds (read : Bytes → Read α) (written : Bytes) (x : α) : Prop :=
  ∀ before rest, Blanks before → EndsValue rest → read (before ++ (written ++ rest)) = .ok (x, rest)

theorem finds_string {s : String} {ws : Bytes} (h : IsString s ws) : Finds readString ws s := by
  intro before rest hb _
  cases h with
  | intro h =>
    unfold readString
    rw [skipBlank_append hb, List.cons_append, skipBlank_cons rfl, List.append_assoc]
    exact readText_spelled h rest

theorem finds_optionalString {s : Option String} {ws : Bytes} (h : IsOptionalString s ws) :
    Finds readOptionalString ws s := by
  intro before rest hb hrest
  cases h with
  | null =>
    unfold readOptionalString
    rw [skipBlank_append hb, List.cons_append, skipBlank_cons rfl]
    rfl
  | some h =>
    have hs := finds_string h before rest hb hrest
    cases h with
    | intro =>
      unfold readOptionalString
      rw [hs, skipBlank_append hb, List.cons_append, skipBlank_cons rfl]
      rfl

theorem finds_bool {b : Bool} {ws : Bytes} (h : IsBool b ws) : Finds readBool ws b := by
  intro before rest hb _
  unfold readBool
  cases h with
  | true =>
    rw [skipBlank_append hb, List.cons_append, skipBlank_cons rfl]
    rfl
  | false =>
    rw [skipBlank_append hb, List.cons_append, skipBlank_cons rfl]
    rfl

theorem finds_natural {n : Nat} {ws : Bytes} (h : IsNatural n ws) : Finds readNatural ws n := by
  intro before rest hb hrest
  obtain ⟨hwhole, rfl, hle⟩ := h
  have hvalue := numberValue_whole hwhole hle
  obtain ⟨b, ds, part, rfl, hstart, hread⟩ := readNumber_whole hwhole hrest
  unfold readNatural
  rw [skipBlank_append hb, List.cons_append, skipBlank_cons (isBlank_of_start hstart)]
  simp only [hstart, hread, hvalue]

theorem isBool_write (b : Bool) : IsBool b (writeBool b) := by
  cases b with
  | true => exact .true
  | false => exact .false

theorem le_of_numberValue {lexeme : Bytes} {n : Nat} (h : numberValue lexeme = .natural n) : n ≤ largest64 := by
  unfold numberValue at h
  extract_lets negative unsigned whole afterWhole hasPoint fraction afterPoint power s at h
  split at h
  · rename_i hfits
    obtain ⟨-, hle⟩ := Bool.and_eq_true_iff.1 hfits
    split at h
    · cases h
    · exact NumberValue.natural.inj h ▸ of_decide_eq_true hle
  · split at h <;> cases h

/-- A number that is read fits 64 bits. -/
theorem le_of_readNatural {bs rest : Bytes} {n : Nat} (h : readNatural bs = .ok (n, rest)) : n ≤ largest64 := by
  unfold readNatural at h
  split at h
  · cases h
  · split at h
    · cases h
    · split at h
      · cases h
      · split at h
        · rename_i hvalue
          cases h
          exact le_of_numberValue hvalue
        · cases h
        · cases h

end

end Json
end StreamMerge
