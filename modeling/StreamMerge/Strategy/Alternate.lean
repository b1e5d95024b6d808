import StreamMerge.Strategy

/-!
# Strict alternation

`alternate` reads its two inputs in turn. When one of them has ended it reads the other to its end; from then
on a failure or an end is handled as usual.
-/
namespace StreamMerge.Strategy

/-- Whose turn it is. -/
inductive AlternateState where
  | first
  | second
  /-- One input has ended; `inlet` is read alone. -/
  | drain (inlet : InletId)
  deriving DecidableEq, Repr

namespace AlternateState

/-- Whose turn it is after an element. -/
def afterElement : AlternateState → AlternateState
  | .first => .second
  | .second => .first
  | .drain p => .drain p

/-- The inlet that is read. -/
def inlet : AlternateState → InletId
  | .first => 0
  | .second => 1
  | .drain p => p

/-- A state in diagnostics. -/
def inspect : AlternateState → String
  | .first => "Read1"
  | .second => "Read2"
  | .drain p => s!"Drain({p.inspect})"

end AlternateState

/-- The end policy of strict alternation: the other input is read on alone. -/
inductive AlternateKey where
  | drainOther
  deriving DecidableEq, Repr

/-- Of two inlets, the one that is not `p`. -/
def otherInlet (p : InletId) : InletId := if p = 0 then 1 else 0

/-- Reads two inputs in turn. Its policy answers the first end only; a failure ends the merge. -/
abbrev alternate (α : Type) : Strategy α α where
  State := AlternateState
  Key := AlternateKey
  Memory := Unit
  name := "StrictRoundRobin"
  fresh := ()
  handles _ count := (sequentialHandles "StrictRoundRobin" ⟨2, some 2⟩ count, ())
  start _ := .first
  policy _ := .custom .drainOther
  choice _ state := .one state.inlet
  onElement _ _ state _ x := ⟨[.emit x], state.afterElement, ()⟩
  onEnd _ _ _ _ inlet := ⟨[.follow .exhaust], .drain (otherInlet inlet), ()⟩
  onFailure _ _ _ state _ cause := ⟨[.fail (.sourceFailed cause)], state, ()⟩
  showState := AlternateState.inspect
  showKey _ := "EmitOtherOnClose"

end StreamMerge.Strategy
