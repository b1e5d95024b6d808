import StreamMerge.Source
import StreamMerge.Strategy

/-!
# Pairing

`zip` pairs the elements of two inputs in order: it reads one element of the left input, keeps it, reads one of
the right input and emits the two. The first end of either input ends the merge.
-/
namespace StreamMerge

/-- An element of the left or of the right input. -/
inductive Side (α β : Type) where
  | left (x : α)
  | right (y : β)
  deriving DecidableEq, Repr

/-- Two kinds of source as the two sides of a pairing. -/
def Source.sides {α β : Type} (u : Source α) (v : Source β) : Source (Side α β) :=
  Source.either .left u .right v

namespace Strategy

/-- Which side is read. -/
inductive PairingState where
  | readLeft
  | readRight
  deriving DecidableEq, Repr

namespace PairingState

/-- The inlet that is read. -/
def inlet : PairingState → InletId
  | .readLeft => 0
  | .readRight => 1

/-- A state in diagnostics. -/
def inspect : PairingState → String
  | .readLeft => "ReadA"
  | .readRight => "ReadB"

end PairingState

/-- Pairs two inputs in order. The memory is the left element that waits for its partner. -/
abbrev zip (α β : Type) : Strategy (Side α β) (α × β) where
  State := PairingState
  Key := Empty
  Memory := Option α
  name := "Zip"
  fresh := none
  handles kept count :=
    (if count = 2 then .ok [0, 1] else .error (.configuration "Zip" (.pairNeeded count)), kept)
  start _ := .readLeft
  policy _ := .eager
  choice _ state := .one state.inlet
  onElement kept _ state inlet element :=
    match state, element, kept with
    | .readLeft, .left x, _ => ⟨[], .readRight, some x⟩
    | .readRight, .right y, some x => ⟨[.emit (x, y)], .readLeft, none⟩
    | .readRight, .right _, none => ⟨[.fail (.protocol .unpaired)], .readRight, none⟩
    | .readLeft, .right _, kept => ⟨[.fail (.protocol (.wrongSide inlet))], .readLeft, kept⟩
    | .readRight, .left _, kept => ⟨[.fail (.protocol (.wrongSide inlet))], .readRight, kept⟩
  onEnd _ _ key := nomatch key
  onFailure _ _ key := nomatch key
  showState := PairingState.inspect
  showKey := nofun

end Strategy
end StreamMerge
