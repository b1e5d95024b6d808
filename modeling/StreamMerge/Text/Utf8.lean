/-!
# Texts as bytes

The UTF-8 form of a text, and the text that a sequence of bytes stands for, if it is valid UTF-8.
-/
namespace StreamMerge

/-- A sequence of bytes. -/
abbrev Bytes := List UInt8

namespace Text

/-- The UTF-8 form of a text. -/
def utf8 (s : String) : Bytes := s.toList.flatMap String.utf8EncodeChar

/-- The text whose UTF-8 form is `bs`. -/
def ofUtf8? (bs : Bytes) : Option String := String.fromUTF8? ⟨bs.toArray⟩

end Text
end StreamMerge
