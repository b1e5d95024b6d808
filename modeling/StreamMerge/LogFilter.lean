/-!
# Log filters

A log filter is a list of directives divided by commas. A directive is a level; or a target, a span in brackets
or both, possibly followed by an equals sign and a level.
-/
namespace StreamMerge.LogFilter

/-- A level by its name or number. -/
def isLevel (cs : List Char) : Bool :=
  let name := String.ofList (cs.map Char.toLower)
  name ∈ ["off", "error", "warn", "info", "debug", "trace", "0", "1", "2", "3", "4", "5"]

/-- A character of a target. -/
def isTargetChar (c : Char) : Bool := c.isAlphanum || c = '_' || c = ':' || c = '-'

/-- What follows the closing bracket of a span. -/
def afterSpan (cs : List Char) : Option (List Char) :=
  match cs.dropWhile (· ≠ ']') with
  | [] => none
  | _ :: rest => some rest

/-- What follows a target or a span in front. -/
def afterName (cs : List Char) : Option (List Char) :=
  match cs with
  | '[' :: rest => afterSpan rest
  | cs => if (cs.takeWhile isTargetChar).isEmpty then none else some (cs.dropWhile isTargetChar)

/-- The end of a directive: nothing, or an equals sign and perhaps a level. -/
def isEnding (cs : List Char) : Bool :=
  match cs with
  | [] => true
  | '=' :: level => level.isEmpty || isLevel level
  | _ => false

/-- A directive. -/
def isDirective (cs : List Char) : Bool :=
  isLevel cs ||
    match afterName cs with
    | none => false
    | some rest => isEnding rest || (afterName rest).any isEnding

/-- A log filter; empty parts between commas are left out. -/
def isValid (s : String) : Bool :=
  ((s.splitOn ",").filter (!·.isEmpty)).all fun part => isDirective part.toList

end StreamMerge.LogFilter
