import StreamMerge.Choice
import StreamMerge.Transition

/-!
# Strategies

A strategy decides what a merge does: from which inlets it reads next and what becomes of an element, an end or
a failure. It is a machine with named states; data that outlives a state is its memory. Nothing else is assumed
of a strategy.
-/
namespace StreamMerge

/-- A strategy for inputs of `α` and output of `β`. -/
structure Strategy (α β : Type) where
  /-- The states. -/
  State : Type
  /-- The names of the strategy's own end policies. -/
  Key : Type
  /-- What is remembered between transitions. -/
  Memory : Type
  name : String
  /-- The memory before anything happened. -/
  fresh : Memory
  /-- The inlets of a merge of so many inputs, in order, or why there can be no such merge. -/
  handles : Memory → Nat → Except MergeError (List InletId) × Memory
  start : Memory → State
  policy : Memory → EndPolicy Key
  /-- The inlets a state reads from. -/
  choice : Memory → State → Choice
  /-- The transition for an element; the first number is how many inputs the merge has. -/
  onElement : Memory → Nat → State → InletId → α → Transition β Key State Memory
  /-- The transition for the end of an inlet under an own policy. -/
  onEnd : Memory → Nat → Key → State → InletId → Transition β Key State Memory
  /-- The transition for the failure of an inlet under an own policy. -/
  onFailure : Memory → Nat → Key → State → InletId → Cause → Transition β Key State Memory
  /-- A state in diagnostics. -/
  showState : State → String
  /-- A policy of its own in diagnostics. -/
  showKey : Key → String

/-- The inlets of a merge of `count` inputs in ascending order, provided that the arity admits so many. -/
def sequentialHandles (merge : String) (expected : Arity) (count : Nat) : Except MergeError (List InletId) :=
  if expected.admits count then .ok (List.range count)
  else .error (.configuration merge (.arity expected count))

/-- Why `declared` is not an arrangement of the inlets `0, …, count - 1`, if it is not: the first inlet that is
not connected or repeats an earlier one, or else that some are missing. -/
def misfit? (count : Nat) (declared : List InletId) : Option Misfit :=
  go [] declared
where
  go (seen : List InletId) : List InletId → Option Misfit
    | [] => if declared.length = count then none else some (.undeclared declared.length count)
    | p :: ps =>
      if count ≤ p then some (.notConnected p count)
      else if p ∈ seen then some (.declaredTwice p)
      else go (p :: seen) ps

end StreamMerge
