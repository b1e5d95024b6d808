import StreamMerge.Json.Number
import StreamMerge.Json.Skip

/-!
# JSON: documents with known members

A document holds the members of a record, each known by name and type. It is an object, in which members may
come in any order, unknown ones are skipped and missing ones keep their default; or an array of the members in
their order, of which the last ones may be missing. `decode` reads a whole document.
-/
namespace StreamMerge.Json

/-! ## Values of a type -/

/-- The fault of a value that is not of the type asked for: it is mistyped unless it is not well-formed to
begin with. Of arrays and objects only the beginning is looked at. -/
def refuse (bs : Bytes) : Fault :=
  let afterWord (word : Bytes) (rest : Bytes) : Fault :=
    match readWord word rest with
    | .ok _ => .mistyped
    | .error e => e
  match skipBlank bs with
  | [] => .cutShort
  | b :: rest =>
    if b = 0x6e then afterWord [0x75, 0x6c, 0x6c] rest
    else if b = 0x74 then afterWord [0x72, 0x75, 0x65] rest
    else if b = 0x66 then afterWord [0x61, 0x6c, 0x73, 0x65] rest
    else if b = 0x5b || b = 0x7b then .mistyped
    else if b = 0x22 then
      match readText rest with
      | .ok _ => .mistyped
      | .error e => e
    else match NumberPart.start? b with
      | none => .malformed
      | some part =>
        match readNumber part rest with
        | .error e => e
        | .ok (lexeme, _) =>
          match numberValue (b :: lexeme) with
          | .tooLarge => .malformed
          | _ => .mistyped

/-- Reads a string. -/
def readString (bs : Bytes) : Read String :=
  match skipBlank bs with
  | 0x22 :: rest => readText rest
  | _ => .error (refuse bs)

/-- Reads a string or `null`. -/
def readOptionalString (bs : Bytes) : Read (Option String) :=
  match skipBlank bs with
  | 0x6e :: rest =>
    match readWord [0x75, 0x6c, 0x6c] rest with
    | .ok rest => .ok (none, rest)
    | .error e => .error e
  | _ =>
    match readString bs with
    | .ok (s, rest) => .ok (some s, rest)
    | .error e => .error e

/-- Reads `true` or `false`. -/
def readBool (bs : Bytes) : Read Bool :=
  match skipBlank bs with
  | 0x74 :: rest =>
    match readWord [0x72, 0x75, 0x65] rest with
    | .ok rest => .ok (true, rest)
    | .error e => .error e
  | 0x66 :: rest =>
    match readWord [0x61, 0x6c, 0x73, 0x65] rest with
    | .ok rest => .ok (false, rest)
    | .error e => .error e
  | _ => .error (refuse bs)

/-- Reads a natural number of at most 64 bits. -/
def readNatural (bs : Bytes) : Read Nat :=
  match skipBlank bs with
  | [] => .error .cutShort
  | b :: rest =>
    match NumberPart.start? b with
    | none => .error (refuse bs)
    | some part =>
      match readNumber part rest with
      | .error e => .error e
      | .ok (lexeme, rest) =>
        match numberValue (b :: lexeme) with
        | .natural n => .ok (n, rest)
        | .other => .error .mistyped
        | .tooLarge => .error .malformed

/-! ## Members -/

/-- A member of a record of `R`: its name, and how its value is read into a record. -/
structure Member (R : Type) where
  name : String
  read : R → Bytes → Read R

/-- The member `name`, whose value is read by `read` and put into a record by `set`. -/
def Member.of {R α : Type} (name : String) (read : Bytes → Read α) (set : α → R → R) : Member R where
  name
  read r bs :=
    match read bs with
    | .ok (x, rest) => .ok (set x r, rest)
    | .error e => .error e

section

variable {R : Type}

/-- Reads the colon after a name. -/
def readColon (bs : Bytes) : Except Fault Bytes :=
  match skipBlank bs with
  | [] => .error .cutShort
  | 0x3a :: rest => .ok rest
  | _ => .error .malformed

/-- Reads one member whose opening quotation mark has been read: a known one into `r`, which must not be there
twice; an unknown one is skipped. `seen` are the known names that came before. -/
def readMember (members : List (Member R)) (seen : List String) (r : R) (bs : Bytes) :
    Read (List String × R) :=
  match readText bs with
  | .error e => .error e
  | .ok (name, rest) =>
    match members.find? (·.name = name) with
    | none =>
      match readColon rest with
      | .error e => .error e
      | .ok rest =>
        match skipValue rest with
        | .ok rest => .ok ((seen, r), rest)
        | .error e => .error e
    | some member =>
      if name ∈ seen then .error .mistyped
      else match readColon rest with
        | .error e => .error e
        | .ok rest =>
          match member.read r rest with
          | .ok (r, rest) => .ok ((name :: seen, r), rest)
          | .error e => .error e

/-- Reads further members up to the end of the object; at most `fuel` of them, which is enough when there are no
more bytes than that. -/
def readMembers (members : List (Member R)) : (fuel : Nat) → List String → R → Bytes → Read R
  | 0, _, _, _ => .error .cutShort
  | fuel + 1, seen, r, bs =>
    match skipBlank bs with
    | [] => .error .cutShort
    | 0x7d :: rest => .ok (r, rest)
    | 0x2c :: rest =>
      match skipBlank rest with
      | [] => .error .cutShort
      | 0x22 :: rest =>
        match readMember members seen r rest with
        | .ok ((seen, r), rest) => readMembers members fuel seen r rest
        | .error e => .error e
      | _ => .error .malformed
    | _ => .error .malformed

/-- Reads an object whose opening brace has been read. -/
def readObject (members : List (Member R)) (r : R) (bs : Bytes) : Read R :=
  match skipBlank bs with
  | [] => .error .cutShort
  | 0x7d :: rest => .ok (r, rest)
  | 0x22 :: rest =>
    match readMember members [] r rest with
    | .ok ((seen, r), rest) => readMembers members (rest.length + 1) seen r rest
    | .error e => .error e
  | _ => .error .malformed

/-- Reads the remaining members of an array in order. -/
def readItems : List (Member R) → R → Bytes → Read R
  | members, r, bs =>
    match skipBlank bs with
    | [] => .error .cutShort
    | 0x5d :: rest => .ok (r, rest)
    | 0x2c :: rest =>
      match members with
      | [] => .error .malformed
      | member :: members =>
        match skipBlank rest with
        | [] => .error .cutShort
        | 0x5d :: _ => .error .malformed
        | _ =>
          match member.read r rest with
          | .ok (r, rest) => readItems members r rest
          | .error e => .error e
    | _ => .error .malformed

/-- Reads an array whose opening bracket has been read. -/
def readArray (members : List (Member R)) (r : R) (bs : Bytes) : Read R :=
  match skipBlank bs, members with
  | [], _ => .error .cutShort
  | 0x5d :: rest, _ => .ok (r, rest)
  | _, [] => .error .malformed
  | _, member :: members =>
    match member.read r bs with
    | .ok (r, rest) => readItems members r rest
    | .error e => .error e

/-- Reads a record, the members that are missing being those of `standard`. -/
def readRecord (members : List (Member R)) (standard : R) (bs : Bytes) : Read R :=
  match skipBlank bs with
  | 0x5b :: rest => readArray members standard rest
  | 0x7b :: rest => readObject members standard rest
  | _ => .error (refuse bs)

/-- Reads a whole document: a record, and nothing but blanks after it. -/
def decode (members : List (Member R)) (standard : R) (bs : Bytes) : Except Fault R :=
  match readRecord members standard bs with
  | .error e => .error e
  | .ok (r, rest) => if (skipBlank rest).isEmpty then .ok r else .error .malformed

end

/-! ## Writing -/

/-- Writes an object, each member on a line of its own and indented by two spaces; the values are given in their
written form. -/
def layout (members : List (String × Bytes)) : Bytes :=
  let line (m : String × Bytes) : Bytes := [0x20, 0x20] ++ quote m.1 ++ [0x3a, 0x20] ++ m.2
  [0x7b, 0x0a] ++ [0x2c, 0x0a].intercalate (members.map line) ++ [0x0a, 0x7d]

/-- Writes a string or `null`. -/
def writeOptionalString : Option String → Bytes
  | none => Text.utf8 "null"
  | some s => quote s

/-- Writes `true` or `false`. -/
def writeBool (b : Bool) : Bytes := Text.utf8 (if b then "true" else "false")

/-- Writes a natural number in decimal. -/
def writeNatural (n : Nat) : Bytes := Text.utf8 (toString n)

end StreamMerge.Json
