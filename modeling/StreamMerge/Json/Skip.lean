import StreamMerge.Json.Quote

/-!
# JSON: skipping a value

A value that nobody asked for is only checked for its form, and it may nest to any depth. `skip` is a machine
with a stack of the arrays and objects that are open; every byte moves it on by one.
-/
namespace StreamMerge.Json

/-- An array or an object that is open. -/
inductive Nest where
  | array
  | object
  deriving DecidableEq, Repr

/-- Where a value that is being skipped has been read to. -/
inductive SkipState where
  /-- A value has to come. -/
  | value
  /-- At the start of an array: a value, or its end. -/
  | firstItem
  /-- At the start of an object: a name, or its end. -/
  | firstName
  /-- After a comma in an object: a name. -/
  | name
  /-- After a name. -/
  | colon
  /-- After a value. -/
  | after
  /-- Inside a string, which is a name or a value. -/
  | quoted (isName : Bool)
  /-- Inside a string after a backslash. -/
  | escaped (isName : Bool)
  /-- Inside a string among the four digits of a numeric escape. -/
  | number (isName : Bool) (digits : Bytes)
  /-- Inside a word, of which `rest` is missing. -/
  | word (rest : Bytes)
  /-- Inside a number. -/
  | numeral (part : NumberPart)
  deriving DecidableEq, Repr

/-- What a byte does to a value that is being skipped. -/
inductive SkipStep where
  /-- It belongs to the value. -/
  | more (state : SkipState) (stack : List Nest)
  /-- It is the last byte of the value. -/
  | done
  /-- The value ended before it. -/
  | stop
  /-- It must not stand here. -/
  | bad
  deriving DecidableEq, Repr

namespace SkipState

/-- After a value has been read to its end. -/
def closed (stack : List Nest) : SkipStep :=
  match stack with
  | [] => .done
  | _ => .more .after stack

/-- A value that begins with `b`. -/
def begin (b : UInt8) (stack : List Nest) : SkipStep :=
  if b = 0x22 then .more (.quoted false) stack
  else if b = 0x5b then .more .firstItem (.array :: stack)
  else if b = 0x7b then .more .firstName (.object :: stack)
  else if b = 0x6e then .more (.word [0x75, 0x6c, 0x6c]) stack
  else if b = 0x74 then .more (.word [0x72, 0x75, 0x65]) stack
  else if b = 0x66 then .more (.word [0x61, 0x6c, 0x73, 0x65]) stack
  else match NumberPart.start? b with
    | some part => .more (.numeral part) stack
    | none => .bad

/-- What follows a value inside the innermost open array or object. -/
def following (b : UInt8) (stack : List Nest) : SkipStep :=
  match stack with
  | [] => .stop
  | .array :: outer =>
    if isBlank b then .more .after stack
    else if b = 0x2c then .more .value stack
    else if b = 0x5d then closed outer
    else .bad
  | .object :: outer =>
    if isBlank b then .more .after stack
    else if b = 0x2c then .more .name stack
    else if b = 0x7d then closed outer
    else .bad

/-- After a string has been read to its end. -/
def unquoted (isName : Bool) (stack : List Nest) : SkipStep :=
  if isName then .more .colon stack else closed stack

/-- What the byte `b` means in a state. -/
def next (state : SkipState) (stack : List Nest) (b : UInt8) : SkipStep :=
  match state with
  | .value => if isBlank b then .more .value stack else begin b stack
  | .firstItem =>
    if isBlank b then .more .firstItem stack
    else if b = 0x5d then closed stack.tail
    else begin b stack
  | .firstName =>
    if isBlank b then .more .firstName stack
    else if b = 0x22 then .more (.quoted true) stack
    else if b = 0x7d then closed stack.tail
    else .bad
  | .name =>
    if isBlank b then .more .name stack
    else if b = 0x22 then .more (.quoted true) stack
    else .bad
  | .colon =>
    if isBlank b then .more .colon stack
    else if b = 0x3a then .more .value stack
    else .bad
  | .after => following b stack
  | .quoted isName =>
    if b = 0x22 then unquoted isName stack
    else if b = 0x5c then .more (.escaped isName) stack
    else if b < 0x20 then .bad
    else .more (.quoted isName) stack
  | .escaped isName =>
    if b = 0x75 then .more (.number isName []) stack
    else if (shortEscape? b).isSome then .more (.quoted isName) stack
    else .bad
  | .number isName digits =>
    if digits.length < 3 then .more (.number isName (digits ++ [b])) stack
    else if (hexNumber? (digits ++ [b])).isSome then .more (.quoted isName) stack
    else .bad
  | .word [] => following b stack
  | .word [w] => if b = w then closed stack else .bad
  | .word (w :: ws) => if b = w then .more (.word ws) stack else .bad
  | .numeral part =>
    match part.next b with
    | .more part => .more (.numeral part) stack
    | .stop => following b stack
    | .bad => .bad

/-- What it means that the text ends in a state: a number that is not in an array or an object may end with
it, and one that is unfinished is not well-formed. -/
def atEnd (state : SkipState) (stack : List Nest) : Option Fault :=
  match state, stack with
  | .numeral part, [] => if part.isComplete then none else some .malformed
  | .numeral part, _ => if part.isComplete then some .cutShort else some .malformed
  | _, _ => some .cutShort

end SkipState

/-- Skips what is left of a value from `state` on; yields the bytes after it. -/
def skip (state : SkipState) (stack : List Nest) : Bytes → Except Fault Bytes
  | [] =>
    match state.atEnd stack with
    | none => .ok []
    | some e => .error e
  | b :: bs =>
    match state.next stack b with
    | .more state stack => skip state stack bs
    | .done => .ok bs
    | .stop => .ok (b :: bs)
    | .bad => .error .malformed

/-- Skips a value and the blanks before it. -/
def skipValue (bs : Bytes) : Except Fault Bytes := skip .value [] bs

end StreamMerge.Json
