import StreamMerge.Source

/-!
# Scripted sources

A source that plays a script: elements and failures in a fixed order, with answers that are pending for a given
number of polls, gates that stay shut until somebody opens them, and calls for cancellation.
`Script.poll` plays the script up to its next answer.
-/
namespace StreamMerge

/-- One item of a script. -/
inductive ScriptItem (α : Type) where
  /-- The element `x`. -/
  | element (x : α)
  /-- The element `x`, for ever. -/
  | forever (x : α)
  /-- A failure. -/
  | failure (cause : Cause)
  /-- The next `polls` polls are pending and ask to be repeated. -/
  | pend (polls : Nat)
  /-- Pending, without asking to be repeated, until there is a permit, which the gate uses up. -/
  | gate
  /-- Calls for the merge to be cancelled. -/
  | cancel
  /-- The end of the script, whatever follows. -/
  | finish
  deriving DecidableEq, Repr

/-- What is left of a script. -/
structure Script (α : Type) where
  items : List (ScriptItem α)
  /-- Permits given to the gates ahead and not used yet. -/
  permits : Nat
  /-- A gate has reported that it is shut and nobody has given it a permit since. -/
  waiting : Bool

namespace Script

variable {α : Type}

/-- A script that has not been played yet. -/
def ofItems (items : List (ScriptItem α)) : Script α := ⟨items, 0, false⟩

/-- The script of a list of elements. -/
def ofList (xs : List α) : Script α := ofItems (xs.map .element)

/-- Plays `items` up to the next answer, with `permits` permits at hand and after `cancels` calls for
cancellation. -/
def play (permits cancels : Nat) : List (ScriptItem α) → Polled α (Script α)
  | [] => ⟨.ended, cancels, ⟨[], permits, false⟩⟩
  | .element x :: rest => ⟨.element x, cancels, ⟨rest, permits, false⟩⟩
  | .forever x :: rest => ⟨.element x, cancels, ⟨.forever x :: rest, permits, false⟩⟩
  | .failure c :: rest => ⟨.failed c, cancels, ⟨rest, permits, false⟩⟩
  | .pend 0 :: rest => play permits cancels rest
  | .pend (n + 1) :: rest => ⟨.pending true, cancels, ⟨.pend n :: rest, permits, false⟩⟩
  | .gate :: rest =>
    match permits with
    | 0 => ⟨.pending false, cancels, ⟨.gate :: rest, 0, true⟩⟩
    | permits + 1 => play permits cancels rest
  | .cancel :: rest => play permits (cancels + 1) rest
  | .finish :: rest => ⟨.ended, cancels, ⟨.finish :: rest, permits, false⟩⟩

/-- One poll of a script. -/
def poll (s : Script α) : Polled α (Script α) := play s.permits 0 s.items

/-- Gives the gates of a script `n` more permits. -/
def permit (n : Nat) (s : Script α) : Script α := { s with permits := s.permits + n, waiting := false }

/-- The elements `stem` followed by each number from `low` to `high - 1`. -/
def numbered (stem : String) (low high : Nat) : List String :=
  (List.range' low (high - low)).map fun n => stem ++ toString n

/-- How many elements, failures and pending answers a script has ahead, if that is bounded. -/
def answers? : List (ScriptItem α) → Option Nat
  | [] => some 0
  | .finish :: _ => some 0
  | .forever _ :: _ => none
  | .pend n :: rest => (answers? rest).map (· + n)
  | .element _ :: rest | .failure _ :: rest | .gate :: rest | .cancel :: rest =>
    (answers? rest).map (· + 1)

end Script

/-- Scripted sources. -/
def scripted (α : Type) : Source α where
  State := Script α
  poll := Script.poll

end StreamMerge
