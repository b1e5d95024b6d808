import StreamMerge.MergeError

/-!
# Choices

A state of a strategy says with a choice which inlets it is willing to read from. `Choice.check` refuses
choices that name no inlet or an unknown one; `Choice.readingOrder` is the order in which the open inlets of a
choice are tried; `Choice.advances` says when serving an inlet moves the rotating preference on.
-/
namespace StreamMerge

open Text

/-- The inlets a state reads from. -/
inductive Choice where
  /-- This inlet alone. -/
  | one (inlet : InletId)
  /-- Any of these inlets, with a preference that rotates among them. -/
  | any (inlets : List InletId)
  /-- `inlet` whenever it has something, else any of `others` with a rotating preference. -/
  | preferred (inlet : InletId) (others : List InletId)
  deriving DecidableEq, Repr

namespace Choice

/-- Every inlet a choice names, in the order written. -/
def inlets : Choice → List InletId
  | .one p => [p]
  | .any ps => ps
  | .preferred p ps => p :: ps

/-- What is wrong with a choice in a merge of `count` inputs: it names nothing, or else the first inlet it
names that does not exist. -/
def check (s : Choice) (count : Nat) : Option Violation :=
  if s.inlets.isEmpty then some .namesNoInlets
  else (s.inlets.find? (count ≤ ·)).map (.namesUnregistered · count)

/-- Puts `p` into an ascending list unless it is there already. -/
def insertOnce (p : InletId) : List InletId → List InletId
  | [] => [p]
  | q :: qs => if p < q then p :: q :: qs else if p = q then q :: qs else q :: insertOnce p qs

/-- The members of a list, ascending and without repetition. -/
def ascending (ps : List InletId) : List InletId := ps.foldr insertOnce []

/-- The open inlets among `ps` in the order of the rotating preference: those from `turn` on come first, each
part ascending and without repetition. -/
def rotation (turn : Nat) (isOpen : InletId → Bool) (ps : List InletId) : List InletId :=
  let sorted := ascending (ps.filter isOpen)
  sorted.filter (turn ≤ ·) ++ sorted.filter (· < turn)

/-- The open inlets of a choice in the order in which they are tried. -/
def readingOrder (s : Choice) (turn : Nat) (isOpen : InletId → Bool) : List InletId :=
  match s with
  | .one p => if isOpen p then [p] else []
  | .any ps => rotation turn isOpen ps
  | .preferred p ps =>
    (if isOpen p then [p] else []) ++ (rotation turn isOpen ps).filter (· ≠ p)

/-- Serving `p` under this choice moves the rotating preference past `p`. An inlet that is preferred, or read
alone, is served outside the rotation. -/
def advances (s : Choice) (p : InletId) : Bool :=
  match s with
  | .one _ => false
  | .any _ => true
  | .preferred q _ => p ≠ q

/-- The diagnostic form of a choice. -/
def inspect : Choice → String
  | .one p => s!"One({p.inspect})"
  | .any ps => s!"Any({bracketed (ps.map InletId.inspect)})"
  | .preferred p ps =>
    "Preferred \x7b preferred: " ++ p.inspect ++ ", secondaries: " ++ bracketed (ps.map InletId.inspect)
      ++ " \x7d"

end Choice
end StreamMerge
